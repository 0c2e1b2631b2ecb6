import FilterSql.Proofs.Compile.Denoting
import FilterSql.Proofs.Filter.Nameless

/-!
# The levels that members start at

A member that no level was opened for starts at the root or at the element of a quantifier around
it. These levels are the places of a context, counted from the inside by `Context.place`; levels
that were opened for hops are not counted. Which place it is depends only on the variables that are
bound around the member (`Context.Binds.anchor`).
-/

namespace FilterSql

namespace Context

/-- The level at a place. The root lies behind all others. -/
def place : Context → Nat → Level
  | root l, _ => l
  | inside l c, i =>
      match l.binding with
      | .navigation _ => c.place i
      | .root | .element _ => if i = 0 then l else c.place (i - 1)

/-- The context binds the variables `bound`, the innermost first. -/
inductive Binds : Context → List String → Prop where
  | root (type : EntityType) : Binds (.ofEntity type) []
  | element {c : Context} {bound : List String} (name : String) (scope : Scope) (n : Nat)
      (h : Binds c bound) :
      Binds (.inside ⟨scope, n, .element name⟩ c) (name :: bound)
  | navigation {c : Context} {bound : List String} (pin? : Option Pin) (scope : Scope) (n : Nat)
      (h : Binds c bound) : Binds (.inside ⟨scope, n, .navigation pin?⟩ c) bound

theorem memberLevel_eq_place (c : Context) : c.memberLevel = c.place 0 := by
  induction c with
  | root l => rfl
  | inside l c ih =>
      rw [memberLevel, place]
      cases l.binding with
      | navigation pin? => exact ih
      | root | element => rfl

variable {c : Context} {bound : List String}

theorem Binds.outermost_eq (h : c.Binds bound) : c.outermost = c.place bound.length := by
  induction h with
  | root type => rfl
  | element name scope n h ih => exact ih
  | navigation pin? scope n h ih => exact ih

theorem Binds.element?_eq (h : c.Binds bound) (name : String) :
    c.element? name = if name ∈ bound then some (c.place (bound.idxOf name)) else none := by
  induction h with
  | root type => simp [element?, ofEntity, levels]
  | @element c bound first scope n h ih =>
      rw [element?] at ih
      by_cases hname : first = name
      · simp [element?, levels, place, hname]
      · have hne : name ≠ first := fun heq => hname heq.symm
        have hidx : (first :: bound).idxOf name = bound.idxOf name + 1 := by
          simp [List.idxOf_cons, beq_false_of_ne hname]
        simp [element?, levels, place, hname, hne, ih, hidx]
  | navigation pin? scope n h ih =>
      rw [element?] at ih
      simpa [element?, levels, place] using ih

/-- **Where a member starts** that no level was opened for. -/
theorem Binds.anchor (h : c.Binds bound) {a : Address} (hpinned : c.pinned? a = none)
    (path : Path) :
    c.anchor a path = (c.place (path.start bound).1, (path.start bound).2) := by
  rw [anchor_of_not_pinned hpinned]
  rcases path with _ | ⟨first | _ | _ | _ | _ | _, rest⟩
  case cons.property =>
    simp only [Path.start, h.element?_eq, h.outermost_eq, memberLevel_eq_place]
    by_cases hroot : first = rootName
    · simp [hroot]
    · by_cases hmem : first ∈ bound <;> simp [hroot, hmem]
  all_goals simp only [Path.start, memberLevel_eq_place]

end Context

end FilterSql
