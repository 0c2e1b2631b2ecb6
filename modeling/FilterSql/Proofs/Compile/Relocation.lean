import FilterSql.Proofs.Compile.Repeating
import FilterSql.Proofs.Compile.Rescoping

/-!
# Filters in other places

Addresses tell the members of a filter apart, and have no other part in compilation. A filter that
is put below another address, in a context whose pins are put there with it, compiles to the same
(`Filter.compile_relocate`). So an operand of a whole filter compiles to what it compiles to by
itself.
-/

namespace FilterSql

open Sql (Expr)

/-! ## Below another address

An address leads from the inside to the outside, so putting something below `b` appends `b`. -/

def Pin.relocate (b : Address) (pin : Pin) : Pin :=
  { pin with address := pin.address ++ b }

def Binding.relocate (b : Address) : Binding → Binding
  | .root => .root
  | .element name => .element name
  | .navigation pin? => .navigation (pin?.map (·.relocate b))

def Level.relocate (b : Address) (l : Level) : Level :=
  { l with binding := l.binding.relocate b }

def Navigating.relocate (b : Address) (nav : Navigating) : Navigating :=
  { nav with address := nav.address ++ b, anchor := nav.anchor.relocate b }

namespace Context

variable (b : Address) (c : Context)

def relocate : Context → Context
  | root l => root (l.relocate b)
  | inside l c => inside (l.relocate b) c.relocate

theorem levels_relocate : (c.relocate b).levels = c.levels.map (·.relocate b) := by
  induction c with
  | root l => rfl
  | inside l c ih => rw [relocate, levels, levels, ih, List.map_cons]

theorem outermost_relocate : (c.relocate b).outermost = c.outermost.relocate b := by
  induction c with
  | root l => rfl
  | inside l c ih => exact ih

theorem memberLevel_relocate : (c.relocate b).memberLevel = c.memberLevel.relocate b := by
  induction c with
  | root l => rfl
  | inside l c ih =>
      obtain ⟨scope, number, binding⟩ := l
      cases binding with
      | navigation pin? => exact ih
      | root | element => rfl

theorem element?_relocate (name : String) :
    (c.relocate b).element? name = (c.element? name).map (·.relocate b) := by
  rw [element?, element?, levels_relocate, List.find?_map]
  congr 2
  funext l
  obtain ⟨scope, number, binding⟩ := l
  cases binding <;> simp [Level.relocate, Binding.relocate]

theorem pinned?_relocate (a : Address) :
    (c.relocate b).pinned? (a ++ b) = (c.pinned? a).map fun found =>
      (found.1.relocate b, found.2) := by
  rw [pinned?, pinned?, levels_relocate]
  induction c.levels with
  | nil => rfl
  | cons l ls ih =>
      obtain ⟨scope, number, binding⟩ := l
      cases binding with
      | root | element => simpa [Level.relocate, Binding.relocate] using ih
      | navigation pin? =>
          cases pin? with
          | none => simpa [Level.relocate, Binding.relocate] using ih
          | some pin =>
              by_cases hpin : pin.address = a
              · simp [Level.relocate, Binding.relocate, Pin.relocate, hpin]
              · simpa [Level.relocate, Binding.relocate, Pin.relocate, hpin] using ih

theorem anchor_relocate (a : Address) (path : Path) :
    (c.relocate b).anchor (a ++ b) path =
      ((c.anchor a path).1.relocate b, (c.anchor a path).2) := by
  cases hpinned : c.pinned? a with
  | some found =>
      unfold anchor
      rw [pinned?_relocate, hpinned]
      rfl
  | none =>
      have hpinned' : (c.relocate b).pinned? (a ++ b) = none := by
        rw [pinned?_relocate, hpinned]; rfl
      rw [anchor_of_not_pinned hpinned, anchor_of_not_pinned hpinned', memberLevel_relocate,
        outermost_relocate]
      rcases path with _ | ⟨first | _ | _ | _ | _ | _, rest⟩
      case cons.property =>
        simp only [element?_relocate]
        by_cases hroot : first = rootName
        · simp [hroot]
        · cases c.element? first <;> simp [hroot]
      all_goals rfl

end Context

/-! ## Members

What a member denotes depends on its address only through the levels that are pinned to it, and
those are pinned to the new address now. The members that navigate are found at new addresses. -/

section

variable {s : Schema} {c : Context} {a b : Address}

theorem Schema.denote_relocate {path : Path} {l : Level} {t : Target}
    (h : s.denote c a path = .ok (l, t)) :
    s.denote (c.relocate b) (a ++ b) path = .ok (l.relocate b, t) := by
  obtain ⟨start, names, tail, hanchor, hsplit, hdenotes⟩ := denote_ok.mp h
  have hanchor' : (c.relocate b).anchor (a ++ b) path = (l.relocate b, start) := by
    rw [Context.anchor_relocate, hanchor]
  exact denote_ok.mpr ⟨start, names, tail, hanchor', hsplit, hdenotes⟩

theorem Filter.Searched.relocate {f : Filter} {fs : List Filter} (h : f.Searched s c a fs) :
    f.Searched s (c.relocate b) (a ++ b) fs := by
  cases h with
  | arithmetic hop => exact .arithmetic hop
  | condition hop => exact .condition hop
  | minus operand => exact .minus operand
  | not operand => exact .not operand
  | call => exact .call _ _
  | function hfound => exact .function (s.denote_relocate hfound)
  | member hfound hnavigation hfunction =>
      exact .member (s.denote_relocate hfound) hnavigation hfunction
  | literal l => exact .literal l
  | enumMember type member => exact .enumMember type member
  | typeName name => exact .typeName name
  | parameterAlias name => exact .parameterAlias name

theorem navigatingAll_relocate_of {fs : List Filter} {i : Nat} {ns : List Navigating}
    (hfs : ∀ f ∈ fs, ∀ a ms, f.navigating s c a = .ok ms →
      f.navigating s (c.relocate b) (a ++ b) = .ok (ms.map (·.relocate b)))
    (h : navigatingAll s c a i fs = .ok ns) :
    navigatingAll s (c.relocate b) (a ++ b) i fs = .ok (ns.map (·.relocate b)) := by
  induction fs generalizing i ns with
  | nil =>
      obtain rfl : [] = ns := Except.ok.inj h
      rfl
  | cons f fs ih =>
      obtain ⟨ms, hms, h⟩ := Checked.bind_ok.mp h
      obtain ⟨rest, hrest, h⟩ := Checked.bind_ok.mp h
      obtain rfl : ms ++ rest = ns := Checked.pure_ok.mp h
      have hfirst := hfs f List.mem_cons_self (i :: a) ms hms
      have hothers := ih (fun g hg => hfs g (List.mem_cons_of_mem f hg)) hrest
      rw [List.cons_append] at hfirst
      rw [navigatingAll, hfirst, hothers, List.map_append]
      rfl

theorem Filter.navigating_relocate {f : Filter} {ns : List Navigating}
    (h : f.navigating s c a = .ok ns) :
    f.navigating s (c.relocate b) (a ++ b) = .ok (ns.map (·.relocate b)) := by
  induction f using Filter.induction generalizing a ns with
  | step f ih =>
      rcases navigating_ok.mp h with ⟨path, anchor, hops, offset, rfl, hfound, rfl⟩ | ⟨fs,
        hsearched, h⟩
      · apply navigating_ok.mpr
        left
        exact ⟨path, _, hops, offset, rfl, s.denote_relocate hfound, rfl⟩
      · apply navigating_ok.mpr
        right
        refine ⟨fs, hsearched.relocate, ?_⟩
        exact navigatingAll_relocate_of (fun g hg a ms => ih g (hsearched.parts hg)) h

theorem navigatingAll_relocate {fs : List Filter} {i : Nat} {ns : List Navigating}
    (h : navigatingAll s c a i fs = .ok ns) :
    navigatingAll s (c.relocate b) (a ++ b) i fs = .ok (ns.map (·.relocate b)) := by
  apply navigatingAll_relocate_of _ h
  intro f _ a ms hms
  exact Filter.navigating_relocate hms

end

/-! ## Runs

Hops open levels in both contexts alike, and the condition behind them is compiled at addresses
that correspond. `Hop.Relocates` says of a question that its answer does not change. -/

/-- Questions that are repeated below the address `b`. -/
def Hop.Relocates (b : Address) (question question' : Hop.Question) : Prop :=
  Question.Repeats (fun c c' => c' = c.relocate b) question question'

/-- Contexts remain related when levels are opened in both. -/
theorem Context.opens_relocate (b : Address) (binding : Binding) :
    Opens (fun c c' => c' = c.relocate b)
    (fun c c' => c' = c.relocate b) binding (binding.relocate b) := by
  rintro c _ scope n rfl
  rfl

namespace Hop

variable {b : Address} {c : Context}

theorem ask_relocate {question question' : Question} (hquestion : Relocates b question question')
    (source : String) (hops : List Hop) :
    (ask question c source hops).Repeats (ask question' (c.relocate b) source hops) :=
  ask_repeats (Context.opens_relocate b _) hquestion rfl source hops

theorem narrowedRow_relocate {binding : Binding} {condition condition' : Context → Numbered Expr}
    (h : ∀ c, (condition c).Repeats (condition' (c.relocate b))) :
    Relocates b (someRow binding fun inner => do return some (← condition inner))
      (someRow (binding.relocate b) fun inner => do return some (← condition' inner)) := by
  apply narrowedRow_repeats (Context.opens_relocate b binding)
  rintro c _ rfl
  exact h c

end Hop

/-- Compiling behind the same member, below another address. -/
theorem within_relocate {b : Address} {c : Context} (n? : Option Navigating)
    {compile compile' : Context → Numbered Compiled}
    (h : ∀ c, (compile c).Repeats (compile' (c.relocate b))) :
    (c.within n? compile).Repeats ((c.relocate b).within (n?.map (·.relocate b)) compile') := by
  have hnav : Option.Rel (Navigating.Repeats fun c c' =>
    c' = c.relocate b) n? (n?.map (·.relocate b)) := by
    cases n? with
    | none => exact .none
    | some nav => exact .some ⟨rfl, rfl, Context.opens_relocate b _⟩
  apply Context.within_repeats (Context.opens_relocate b _) hnav rfl
  rintro c _ rfl
  exact h c

/-! ## Filters

By induction on filters, for all addresses and contexts at once. A filter that searches for a
member finds it below `b` as well, and is compiled again in contexts that correspond. -/

/-- The filter compiles to the same below the address `b`. -/
def Filter.Relocates (s : Schema) (b : Address) (f : Filter) : Prop :=
  ∀ c a, (f.compile s c a).Repeats (f.compile s (c.relocate b) (a ++ b))

section

variable {s : Schema} {b : Address}

theorem compileAll_relocate {c : Context} {a : Address} {fs : List Filter} {i : Nat}
    (hfs : ∀ f ∈ fs, f.Relocates s b) :
    (compileAll s c a i fs).Repeats (compileAll s (c.relocate b) (a ++ b) i fs) := by
  induction fs generalizing i with
  | nil => exact .refl _
  | cons f fs ih =>
      apply compileAll_cons_repeats
      · exact hfs f List.mem_cons_self c (i :: a)
      · exact ih fun g hg => hfs g (List.mem_cons_of_mem f hg)

theorem bodyCondition_relocate {c : Context} {a : Address} {path : Path}
    (hparts : ∀ f ∈ path.flatMap Segment.parts, f.Relocates s b) :
    (path.bodyCondition s a c).Repeats (path.bodyCondition s (a ++ b) (c.relocate b)) := by
  apply conditionOf_repeats
  rw [compileBody_eq, compileBody_eq]
  cases hbody : path.body? with
  | none => exact .refl _
  | some body => exact hparts body (Path.body?_mem hbody) c (0 :: a)

theorem compileAs_relocate {c : Context} {a : Address} {path : Path} {anchor : Level}
    {target : Target} (hparts : ∀ f ∈ path.flatMap Segment.parts, f.Relocates s b) :
    (path.compileAs s a c (anchor, target)).Repeats
      (path.compileAs s (a ++ b) (c.relocate b) (anchor.relocate b, target)) := by
  have hmatching (name : String) :
    Hop.Relocates b (path.matching s a name) (path.matching s (a ++ b) name) := by
    apply Hop.narrowedRow_relocate
    intro c
    exact bodyCondition_relocate hparts
  have hviolating (name : String) :
    Hop.Relocates b (path.violating s a name) (path.violating s (a ++ b) name) := by
    apply Hop.narrowedRow_relocate
    intro c
    exact Path.bodyViolation_repeats (bodyCondition_relocate hparts)
  cases target with
  | element => exact Path.element_repeats rfl rfl
  | «attribute» leaf => exact Path.leaf_repeats leaf rfl
  | navigation hops offset =>
      intro n m x hrun
      exact absurd hrun Path.compileAs_navigation_ok
  | count hops => exact Path.count_repeats (Hop.ask_relocate Hop.countRows_repeats _ _)
  | nonempty hops => exact Path.nonempty_repeats (Hop.ask_relocate Hop.anyRow_repeats _ _)
  | any hops name => exact Path.any_repeats (Hop.ask_relocate (hmatching name) _ _)
  | all hops name =>
      apply Path.all_repeats
      · exact Hop.ask_relocate (hmatching name) _ _
      · exact Hop.ask_relocate (hviolating name) _ _
  | function name =>
      intro n m x hrun
      obtain ⟨ns, n?, hns, hn, hx⟩ := Path.compileAs_function_ok.mp hrun
      have hargs : ∀ f ∈ path.arguments.map Argument.value, f.Relocates s b := by
        intro f hf
        obtain ⟨arg, harg, rfl⟩ := List.mem_map.mp hf
        exact hparts _ (Path.arguments_mem harg)
      have hns' := navigatingAll_relocate (b := b) hns
      refine Path.compileAs_function_ok.mpr ⟨_, _, hns', Navigating.only?_map _ hn, ?_⟩
      apply within_relocate n? _ hx
      intro c
      exact Path.called_repeats name rfl (compileAll_relocate hargs)

theorem binary_relocate {l r : Filter} (op : BinaryOperator) (hl : l.Relocates s b)
    (hr : r.Relocates s b) :
    (Filter.binary l op r).Relocates s b := by
  intro c a n m x hrun
  obtain ⟨hhas, n?, hn, hx⟩ := Filter.compile_binary_ok.mp hrun
  have hn' : Filter.binaryNavigating s (c.relocate b) (a ++ b) l op r =
    .ok (n?.map (·.relocate b)) := by
    apply Filter.binaryNavigating_ok.mpr
    rcases Filter.binaryNavigating_ok.mp hn with ⟨hcompare, ns, hns, hn⟩ | ⟨hcompare, rfl⟩
    · left
      exact ⟨hcompare, _, navigatingAll_relocate hns, Navigating.only?_map _ hn⟩
    · right
      exact ⟨hcompare, rfl⟩
  refine Filter.compile_binary_ok.mpr ⟨hhas, n?.map (·.relocate b), hn', ?_⟩
  apply within_relocate n? _ hx
  intro c
  exact Filter.composed_repeats op (hl c _) (hr c _)

theorem member_relocate {path : Path} (hparts : ∀ f ∈ path.flatMap Segment.parts, f.Relocates s b) :
    (Filter.member path).Relocates s b := by
  intro c a n m x hrun
  obtain ⟨anchor, target, hfound, hx⟩ := Filter.compile_member_ok.mp hrun
  refine Filter.compile_member_ok.mpr ⟨anchor.relocate b, target, s.denote_relocate hfound, ?_⟩
  cases target with
  | navigation hops offset =>
      apply within_relocate (some ⟨a, path, anchor, hops, offset⟩) _ hx
      intro c n m x hrun
      obtain ⟨⟨anchor, target⟩, hfound, hx⟩ := Path.compileBehind_ok.mp hrun
      exact Path.compileBehind_ok.mpr ⟨_, s.denote_relocate hfound, compileAs_relocate hparts hx⟩
  | _ => exact compileAs_relocate hparts hx

theorem call_relocate {args : List Filter} (g : BuiltIn) (hargs : ∀ f ∈ args, f.Relocates s b) :
    (Filter.call g args).Relocates s b := by
  intro c a n m x hrun
  obtain ⟨ns, n?, hns, hn, hx⟩ := Filter.compile_call_ok.mp hrun
  have hns' := navigatingAll_relocate (b := b) hns
  refine Filter.compile_call_ok.mpr ⟨_, _, hns', Navigating.only?_map _ hn, ?_⟩
  apply within_relocate n? _ hx
  intro c
  exact Filter.called_repeats g (compileAll_relocate hargs)

/-- **A filter compiles to the same below another address.** -/
theorem Filter.compile_relocate (f : Filter) : f.Relocates s b := by
  induction f using Filter.induction with
  | step f ih =>
      cases f with
      | binary l op r =>
          exact binary_relocate op (ih l (by simp [Filter.parts])) (ih r (by simp [Filter.parts]))
      | unary op operand =>
          intro c a
          exact unary_repeats op (ih operand (by simp [Filter.parts]) c (0 :: a))
      | member path => exact member_relocate ih
      | call g args => exact call_relocate g ih
      | literal | enumMember | typeName | parameterAlias =>
          intro c a
          exact .refl _

end

end FilterSql
