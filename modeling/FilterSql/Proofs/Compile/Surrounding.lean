import FilterSql.Proofs.Compile.Ranging

/-!
# Levels and the rows that stand for them

The meaning of a filter knows rows, and its compilation knows levels with labels. `Context.Shows`
relates them: the levels of a context stand for the root row and for the elements that variables
are bound to. Levels that are opened for hops leave this as it is (`Shows.behind`), and a level for
the elements of a collection binds one more variable (`Shows.bind`). So a member starts at the row
that its meaning starts at (`Context.Shows.reading_member`).
-/

namespace FilterSql

open Sql (Row Rows Database)

/-- The row that `env` has under the label of a level, with the scope of the level. -/
def Level.standing (env : Rows) (l : Level) : Standing :=
  ⟨l.scope, env (some l.label)⟩

namespace Context

/-- `c.Shows env around`: the rows that `env` has for the levels of `c` are those of `around`. -/
structure Shows (c : Context) (env : Rows) (around : Surroundings) : Prop where
  root : around.root = c.outermost.standing env
  bound : ∀ name, around.bound.lookup name = (c.element? name).map (·.standing env)
  nearest : around.nearest = c.memberLevel.standing env

variable {c c' : Context} {env env' : Rows} {around : Surroundings} {a : Address} {l : Level}

theorem SameRows.standing (h : c.SameRows env env') (hl : l ∈ c.levels) :
    l.standing env' = l.standing env := by
  rw [Level.standing, Level.standing, h l hl]

/-- Levels that are opened for the hops of a member leave what `c` shows as it is. -/
theorem Shows.behind (h : c.Shows env around) (hbehind : c.Behind a env c' env') :
    c'.Shows env' around := by
  constructor
  · rw [h.root, hbehind.agrees.outermost]
    rw [hbehind.same.standing c.outermost_mem]
  · intro name
    rw [h.bound, hbehind.agrees.element]
    cases helement : c.element? name with
    | none => rfl
    | some l =>
        have hl : l ∈ c.levels := element?_mem helement
        rw [Option.map_some, Option.map_some, hbehind.same.standing hl]
  · rw [h.nearest, hbehind.agrees.member]
    rw [hbehind.same.standing c.memberLevel_mem]

/-- The level of a collection's element binds the variable `name`. -/
theorem Shows.bind {scope : Scope} {n : Nat} {name : String} (h : c.Shows env around)
    (hsame : c.SameRows env env') :
    (c.inside ⟨scope, n, .element name⟩).Shows env'
      (around.bind name ⟨scope, env' (some (tableAlias n))⟩) := by
  refine ⟨?_, ?_, rfl⟩
  · have hroot := hsame.standing c.outermost_mem
    exact h.root.trans hroot.symm
  · intro name'
    rw [Surroundings.bind, List.lookup_cons, element?, levels]
    by_cases hname : name' = name
    · subst hname
      simp [Level.standing, Level.label]
    -- Another variable is bound where it was.
    · have hskip : ¬ decide (name = name') = true := by simpa using Ne.symm hname
      rw [beq_false_of_ne hname, List.find?_cons_of_neg (by simpa using hskip)]
      apply (h.bound name').trans
      cases helement : c.element? name' with
      | none =>
          rw [element?] at helement
          rw [helement]
          rfl
      | some l =>
          have hstanding := hsame.standing (element?_mem helement)
          rw [element?] at helement
          rw [helement, Option.map_some, Option.map_some, hstanding]

/-! ## Pins

A level that was opened for a member is pinned to its address. At an address where none is pinned
(`Unpinned`), a member is looked up as it is written. -/

/-- No level of the context is pinned to `a` or to an address below it. -/
def Unpinned (c : Context) (a : Address) : Prop :=
  ∀ a', a <:+ a' → c.pinned? a' = none

theorem Unpinned.part (h : c.Unpinned a) (i : Nat) : c.Unpinned (i :: a) := by
  intro a' ha'
  apply h
  exact (List.suffix_cons i a).trans ha'

/-- `a` stays unpinned behind the hops of a member that does not stand below it. -/
theorem Unpinned.behind {x : Address} (h : c.Unpinned a) (hbehind : c.Behind x env c' env')
    (ha : ¬ a <:+ x) :
    c'.Unpinned a := by
  intro a' ha'
  have hne : a' ≠ x := by
    rintro rfl
    exact ha ha'
  rw [hbehind.agrees.pinned a' hne, h a' ha']

theorem Unpinned.bind {scope : Scope} {n : Nat} {name : String} (h : c.Unpinned a) :
    (c.inside ⟨scope, n, .element name⟩).Unpinned a := by
  intro a' ha'
  exact h a' ha'

/-! ## Members

`anchor` finds the level that a member starts at, and `Surroundings.start` the row. The names
behind the start lead to the same place from both. -/

/-- A member starts at the row that stands for its `anchor`. -/
theorem Shows.start {path : Path} {start : Nat} (h : c.Shows env around)
    (hnone : c.pinned? a = none) (hanchor : c.anchor a path = (l, start)) :
    around.start path = (l.standing env, path.drop start) := by
  rw [anchor_of_not_pinned hnone] at hanchor
  -- The first name is that of the root or a variable in sight, or it is the name of a member.
  rcases path with _ | ⟨first | _ | _ | _ | _ | _, rest⟩
  case cons.property =>
    rw [Surroundings.start]
    by_cases hroot : first = rootName
    · simp only [hroot, if_true, Prod.mk.injEq] at hanchor ⊢
      obtain ⟨rfl, rfl⟩ := hanchor
      exact ⟨h.root, rfl⟩
    · simp only [hroot, if_false, h.bound] at hanchor ⊢
      cases helement : c.element? first with
      | none =>
          simp only [helement, Prod.mk.injEq] at hanchor
          obtain ⟨rfl, rfl⟩ := hanchor
          simp [h.nearest]
      | some l' =>
          simp only [helement, Prod.mk.injEq] at hanchor
          obtain ⟨rfl, rfl⟩ := hanchor
          rfl
  all_goals
    obtain ⟨rfl, rfl⟩ := Prod.mk.inj hanchor
    exact congrArg (·, _) h.nearest

end Context

/-- `Path.split` takes off the names at the front of a path, up to a segment that is not a name. -/
theorem Path.split_append {names : List String} {tail : Path}
    (htail : ∀ name rest, tail ≠ .property name :: rest) :
    Path.split (names.map Segment.property ++ tail) = (names, tail) := by
  induction names with
  | nil =>
      rcases tail with _ | ⟨first | _ | _ | _ | _ | _, rest⟩
      case cons.property => exact absurd rfl (htail first rest)
      all_goals rfl
  | cons name names ih =>
      rw [List.map_cons, List.cons_append, Path.split, ih]

/-- **A member means what its names lead to from the row that stands for its level**, with the
segment behind them asked there. -/
theorem Context.Shows.reading_member {s : Schema} {db : Database} {c : Context} {env : Rows}
    {around : Surroundings} {a : Address} {l : Level} {path tail : Path} {start : Nat}
    {names : List String} (h : c.Shows env around) (hnone : c.pinned? a = none)
    (hanchor : c.anchor a path = (l, start))
    (hsplit : path.drop start = names.map Segment.property ++ tail)
    (htail : ∀ name rest, tail ≠ .property name :: rest) :
    (Filter.member path).reading s db around =
      (l.standing env).member s db names (fun name st => bodyTruth s db (around.bind name st) path)
        (pathReadings s db around path) tail := by
  rw [Filter.reading, h.start hnone hanchor, hsplit]
  simp only [Path.split_append htail]

end FilterSql
