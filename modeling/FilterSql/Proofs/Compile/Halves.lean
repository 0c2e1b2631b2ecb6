import FilterSql.Proofs.Compile.Hygiene
import FilterSql.Proofs.Compile.Shifting

/-!
# The halves of `all`

`all` asks for an element for which its body holds, and for the absence of one for which it does
not. The body is compiled for each of the two questions, the second time in levels of its own. So
the second half is the first with the aliases moved and the body denied. That numbers have no other
effect is the general statement (`Schema.compile_shifted`).
-/

namespace FilterSql

open Sql (Expr Select)

/-! ## Queries around another condition

`Encloses` says what queries stand around a condition. A change inside of them leaves the queries
as they are (`Encloses.behind`), and so does a shift of all aliases, up to these aliases
(`Encloses.shift`). -/

namespace Hop

variable {h : Hop} {c : Context} {source own : String} {binding : Binding} {hops : List Hop}
    {n m start k : Nat} {joins : List Sql.Join} {on e x : Expr} {change : Expr → Expr}

/-- Changing the condition in queries changes what is behind their hops. -/
theorem Encloses.behind (hx : Encloses hops (some e) x) :
    Encloses hops (some (change e)) (x.behind change hops.length) := by
  generalize hnarrowed : some e = narrowed at hx
  induction hx with
  | last narrowed hselects =>
      subst hnarrowed
      exact .last _ hselects
  | step hselects _ ih =>
      rw [List.length_cons, behind_selection]
      exact .step hselects (ih hnarrowed)

/-- The query of a hop, with its aliases moved. -/
theorem Selects.shift (hs : h.Selects source own n joins on m) :
    ∃ m', h.Selects (shiftedAlias start k source) (shiftedAlias start k own)
      (shiftedNumber start k n)
      (Sql.joinsRelabel (shiftedAlias start k) joins) (on.shift start k) m' := by
  cases hs with
  | direct hlink he =>
      refine ⟨_, .direct hlink ?_⟩
      exact (equations_relabel fun _ => rfl).trans (congrArg _ he)
  | linked hlink hon he =>
      refine ⟨shiftedNumber start k n + 1, ?_⟩
      rw [Sql.joinsRelabel, Option.map_some, shiftedAlias_tableAlias]
      apply Selects.linked hlink
      · rw [← shiftedAlias_tableAlias]
        exact (equations_relabel fun _ => rfl).trans (congrArg _ hon)
      · rw [← shiftedAlias_tableAlias]
        exact (equations_relabel fun _ => rfl).trans (congrArg _ he)

theorem selection_relabel {ρ : String → String} (narrowed : Option Expr) :
    (h.selection [.constant (.int 1)] own joins on narrowed).relabel ρ =
      h.selection [.constant (.int 1)] (ρ own) (Sql.joinsRelabel ρ joins) (on.relabel ρ)
        (narrowed.map (Expr.relabel ρ)) := by
  cases narrowed <;> rfl

/-- Moving the aliases of queries moves those of the condition in them. -/
theorem Encloses.shift {narrowed : Option Expr} (hx : Encloses hops narrowed x) :
    Encloses hops (narrowed.map (Expr.shift start k)) (x.shift start k) := by
  induction hx with
  | last narrowed hselects =>
      obtain ⟨m', hselects⟩ := hselects.shift
      rw [Expr.shift, Expr.relabel, selection_relabel]
      exact .last _ hselects
  | step hselects _ ih =>
      obtain ⟨m', hselects⟩ := hselects.shift
      rw [Expr.shift, Expr.relabel, selection_relabel]
      exact .step hselects ih

/-- A question with its condition changed goes through the same hops and takes the same numbers. -/
theorem ask_changed {condition condition' : Context → Numbered Expr}
    (hcondition : ∀ {inner n m e}, (condition inner).run n = .ok (e, m) →
      (condition' inner).run n = .ok (change e, m))
    (h : (ask (someRow binding fun inner => do return some (← condition inner))
      c source hops).run n = .ok (e, m)) :
    (ask (someRow binding fun inner => do return some (← condition' inner)) c source hops).run n =
      .ok (e.behind change hops.length, m) := by
  induction hops generalizing c source n m e with
  | nil => exact (Numbered.throw_ok.mp h).elim
  | cons first rest ih =>
      cases rest with
      | nil =>
          obtain ⟨joins, on, k, x, hselects, hx, rfl⟩ := narrowedRow_ok.mp h
          exact narrowedRow_ok.mpr ⟨joins, on, k, change x, hselects, hcondition hx, rfl⟩
      | cons next rest =>
          obtain ⟨joins, on, k, x, hselects, hx, rfl⟩ := ask_step_ok.mp h
          exact ask_step_ok.mpr ⟨joins, on, k, _, hselects, ih hx, rfl⟩

end Hop

/-! ## Quantifiers

`all` asks for the body twice: there is an element that satisfies it, and none that violates it.
The second half is the first one compiled again, from the number that the first one ended with. -/

section

variable {s : Schema} {c : Context} {a : Address} {path : Path} {name : String} {body : Filter}
    {n m k : Nat} {x : Compiled}

/-- What ends with `all` consists of names in front of it. -/
theorem Path.Ends.of_all {t : Target} (h : Path.Ends (path ++ [Segment.all name body]) t) :
    ∃ (names : List String) (hops : List Hop), path = names.map Segment.property ∧
      t = .all hops name := by
  have hdirect : ¬ IsDirect (path ++ [Segment.all name body]) := by
    intro hdirect
    rcases hdirect.isPlain (Segment.all name body) (by simp) with h | ⟨_, h⟩ <;> cases h
  generalize hpath : path ++ [Segment.all name body] = whole at h hdirect
  cases h with
  | element h | leaf _ h | navigation _ _ h | count _ h => exact absurd h hdirect
  | nonempty | any =>
      obtain ⟨-, h⟩ := List.append_inj' hpath rfl
      cases h
  | all names name' body' hops =>
      obtain ⟨rfl, h⟩ := List.append_inj' hpath rfl
      cases h
      exact ⟨names, hops, rfl, rfl⟩
  | function =>
      obtain ⟨-, h⟩ | ⟨-, h⟩ := List.append_eq_singleton_iff.mp hpath <;> cases h

/-- Where `all` may be asked, `any` may be asked with the same hops. -/
theorem Schema.denote_any {names : List String} {anchor : Level} {hops : List Hop}
    (hnone : c.pinned? a = none)
    (h : s.denote c a (names.map Segment.property ++ [.all name body]) =
      .ok (anchor, .all hops name)) :
    s.denote c a (names.map Segment.property ++ [.any name body]) =
      .ok (anchor, .any hops name) := by
  obtain ⟨start, more, tail, hanchor, hsplit, hdenotes⟩ := denote_ok.mp h
  have hanchor' : c.anchor a (names.map Segment.property ++ [.any name body]) =
    (anchor, start) := by
    rw [← hanchor, Context.anchor_of_not_pinned hnone, Context.anchor_of_not_pinned hnone]
    cases names <;> rfl
  cases hdenotes with
  | @all _ front last _ body' hr hlast =>
      have hle : start ≤ (names.map Segment.property).length := by
        by_contra hlt
        rw [List.drop_eq_nil_of_le (by simp at hlt ⊢; omega)] at hsplit
        simp at hsplit
      rw [List.drop_append_of_le_length hle] at hsplit
      obtain ⟨hmore, -⟩ := List.append_inj' hsplit rfl
      refine denote_ok.mpr ⟨start, more, [.any name body], hanchor', ?_, .any hr hlast⟩
      rw [List.drop_append_of_le_length hle, hmore]

/-- The condition of a violation is the negation of the body's. -/
theorem Path.bodyViolation_of {inner : Context} {e : Expr}
    (h : (Path.bodyCondition s a path inner).run n = .ok (e, m)) :
    (Path.bodyViolation s a path inner).run n = .ok (.not e, m) :=
  Numbered.bind_ok.mpr ⟨e, m, h, rfl⟩

/-- **The halves of `all`**: what `any` asks, and the same from the next number on with the body
denied. -/
theorem Filter.compile_all_ok (hnone : c.pinned? a = none)
    (h : ((Filter.member (path ++ [Segment.all name body])).compile s c a).run n = .ok (x, m)) :
    ∃ hops inner i y e some j,
      c.Opened (.element name) hops inner ∧ (body.compile s inner (0 :: a)).run i = .ok (y, j) ∧
        y.predicate? = Option.some e ∧ Hop.Encloses hops (Option.some e) some ∧
      ((Filter.member (path ++ [Segment.any name body])).compile s c a).run n =
        .ok (.subquery some, j) ∧
      ∀ other k, ((Filter.member (path ++ [Segment.any name body])).compile s c a).run j =
        .ok (.subquery other, k) →
        x = .subquery (some.and (.not (other.behind .not hops.length))) ∧ m = k := by
  obtain ⟨anchor, target, hfound, hx⟩ := compile_member_ok.mp h
  have hends := s.denote_ends (by simp [hnone]) hfound
  obtain ⟨names, hops, rfl, rfl⟩ := hends.of_all
  have hany := s.denote_any hnone hfound
  -- Which quantifier it is makes no difference for the condition of the body.
  have hcondition : Path.bodyCondition s a (names.map Segment.property ++ [.any name body]) =
      Path.bodyCondition s a (names.map Segment.property ++ [.all name body]) := by
    funext inner
    rw [Path.bodyCondition, Path.bodyCondition, compileBody_eq, compileBody_eq, Path.body?_names,
      Path.body?_names]
    rfl
  have hmatching : Path.matching s a (names.map Segment.property ++ [.any name body]) name =
      Path.matching s a (names.map Segment.property ++ [.all name body]) name := by
    rw [Path.matching, Path.matching, hcondition]
  obtain ⟨some, j, other, hsome, hother, rfl⟩ := Path.compileAs_all_ok.mp hx
  obtain ⟨inner, i, e, hinner, he, hencloses⟩ := Hop.askNarrowed_encloses hsome
  obtain ⟨y, hy, he⟩ := conditionOf_ok.mp he
  rw [compileBody_eq, Path.body?_names] at hy
  refine ⟨hops, inner, i, y, e, some, j, hinner, hy, he, hencloses, ?_, ?_⟩
  · apply compile_member_ok.mpr
    refine ⟨anchor, _, hany, Path.compileAs_any_ok.mpr ⟨some, ?_, rfl⟩⟩
    rw [hmatching]
    exact hsome
  · intro some' k hrun
    obtain ⟨anchor', target', hfound', hx'⟩ := compile_member_ok.mp hrun
    obtain ⟨rfl, rfl⟩ := Prod.mk.inj (Except.ok.inj (hany.symm.trans hfound'))
    obtain ⟨e', hask, heq⟩ := Path.compileAs_any_ok.mp hx'
    obtain rfl := Compiled.subquery.inj heq
    rw [hmatching] at hask
    have hdenied := Hop.ask_changed Path.bodyViolation_of hask
    obtain ⟨rfl, rfl⟩ := Prod.mk.inj (Except.ok.inj (hdenied.symm.trans hother))
    exact ⟨rfl, rfl⟩

end

/-! ## Numbers of a compilation

A filter that is compiled from `n` on takes the numbers from `n` to the one that its run ends with.
So another run may start there, and no alias is used by both. -/

/-- A compiled expression refers to the aliases of its context and to its own, which are the
numbers that it has taken. -/
theorem Compiled.EmittedFrom.aliases {s : Schema} {c : Context} {p : Bool} {n m : Nat}
    {x x' : Compiled} (h : x.EmittedFrom s c p n m x') {e : Expr} (he : e ∈ x.expr?) :
    e.Scoped (c.levels.map Level.label) ∧
    e.declared.Perm ((List.range' n (m - n)).map tableAlias) := by
  obtain ⟨ps, htaken, hform⟩ := h
  have hemitted {e e' : Expr} (hform : e.Alike s.functionNames ps e') :
      e.Scoped (c.levels.map Level.label) ∧
        e.declared.Perm ((List.range' n (m - n)).map tableAlias) := by
    have hemitted := (htaken.combined hform).emitted
    exact ⟨hemitted.scoped fun l hl => List.mem_map_of_mem hl, hemitted.declares.1⟩
  cases hform with
  | predicate hform | subquery hform | value _ hform | member _ hform =>
      cases he
      exact hemitted hform
  | literal | typeName => cases he

/-- **Numbers have no effect but on aliases.** Let all levels of the context `c` have numbers below
`n`. Run from `n + k`, the filter is refused for the same reason as from `n`, or comes to the same
expression with the aliases from `n` on shifted by `k`; those of the levels stay. A run from `n` to
`m` declares the aliases from `n` to `m - 1`, each once, and refers to these and to the levels.

So the two halves of `all` are one: the first is what `any` is compiled to with the same
body, in a run that takes `k` numbers, and the second is the first one shifted by `k`, with
its body negated. -/
theorem Schema.compile_shifted (s : Schema) (f : Filter) (c : Context) (a : Address) (n : Nat)
    (hc : ∀ l ∈ c.levels, l.number < n) :
    (∀ k, (f.compile s c a).run (n + k) = ((f.compile s c a).run n).map fun (x, m) =>
      (x.shift n k, m + k)) ∧
    (∀ k, (∀ l ∈ c.levels, shiftedAlias n k l.label = l.label) ∧
      ∀ i, n ≤ i → shiftedAlias n k (tableAlias i) = tableAlias (i + k)) ∧
    (∀ x m, (f.compile s c a).run n = .ok (x, m) → n ≤ m ∧ (s.HasContext c → ∀ e ∈ x.expr?,
      e.Scoped (c.levels.map Level.label) ∧
        e.declared.Perm ((List.range' n (m - n)).map tableAlias))) ∧
    ∀ path name body x m, f = .member (path ++ [.all name body]) → c.pinned? a = none →
      (f.compile s c a).run n = .ok (x, m) →
      ∃ hops inner i y e k, ∃ some other : Expr,
        c.Opened (.element name) hops inner ∧
        (body.compile s inner (0 :: a)).run i = .ok (y, n + k) ∧
        y.predicate? = .some e ∧ Hop.Encloses hops (.some e) some ∧
        ((Filter.member (path ++ [.any name body])).compile s c a).run n =
          .ok (.subquery some, n + k) ∧
        other = (some.shift n k).behind .not hops.length ∧
        Hop.Encloses hops (.some (.not (e.shift n k))) other ∧
        x = .subquery (some.and (.not other)) ∧ m = n + k + k := by
  have hshift (f : Filter) (k : Nat) :
      (f.compile s c a).run (n + k) = ((f.compile s c a).run n).map fun (x, m) =>
        (x.shift n k, m + k) := by
    have hshifts : Numbered.Shifts n k (Compiled.shift n k) (f.compile s c a)
      (f.compile s (c.shift n k) a) :=
      f.compile_shifts
    rw [c.shift_of_lt n k hc] at hshifts
    exact (hshifts n (Nat.le_refl n)).1
  have hle (f : Filter) {x : Compiled} {m : Nat} (hrun : (f.compile s c a).run n = .ok (x, m)) :
    n ≤ m :=
    (f.compile_shifts (s := s) (k := 0) n (Nat.le_refl n)).2 x m hrun
  refine ⟨hshift f, ?_, ?_, ?_⟩
  · intro k
    constructor
    · intro l hl
      rw [Level.label, shiftedAlias_tableAlias, shiftedNumber_of_lt (hc l hl)]
    · intro i hi
      rw [shiftedAlias_tableAlias, shiftedNumber_of_le hi]
  · intro x m hrun
    refine ⟨hle f hrun, ?_⟩
    intro hcontext e he
    obtain ⟨-, hemitted⟩ := f.compile_emitted f false rfl c a hcontext hrun hrun
    exact hemitted.aliases he
  · rintro path name body x m rfl hnone hrun
    obtain ⟨hops, inner, i, y, e, some, j, hinner, hy, he, hencloses, hany, hall⟩ :=
      Filter.compile_all_ok hnone hrun
    -- The first half has taken `k` numbers. Compiled again, from `k` further on, it is the second
    -- half.
    obtain ⟨k, rfl⟩ := Nat.exists_eq_add_of_le (hle _ hany)
    have hagain := hshift (.member (path ++ [.any name body])) k
    rw [hany] at hagain
    obtain ⟨rfl, rfl⟩ := hall _ _ hagain
    exact ⟨hops, inner, i, y, e, k, some, _, hinner, hy, he, hencloses, hany, rfl,
      hencloses.shift.behind, rfl, rfl⟩

theorem Schema.shifted_rolesNamed : ∃ type x m, sample.entityType? "User" = some type ∧
    (∀ l ∈ (Context.ofEntity type).levels, l.number < 1) ∧
    ((Filter.rolesNamed "x").compile sample (.ofEntity type) []).run 1 = .ok (x, m) ∧
    ((Filter.rolesNamed "x").compile sample (.ofEntity type) []).run (1 + 5) =
      .ok (x.shift 1 5, m + 5) ∧
    ∃ (hops : List Hop) (k : Nat) (some : Expr),
      x = .subquery (some.and (.not ((some.shift 1 k).behind .not hops.length))) ∧
      m = 1 + k + k := by
  obtain ⟨type, htype, x, m, hrun⟩ : ∃ type, sample.entityType? "User" = some type ∧ ∃ x m,
      ((Filter.rolesNamed "x").compile sample (.ofEntity type) []).run 1 = .ok (x, m) :=
        ⟨_, rfl, _, _, rfl⟩
  have hlevels : ∀ l ∈ (Context.ofEntity type).levels, l.number < 1 := by
    intro l hl
    obtain rfl := List.mem_singleton.mp hl
    exact Nat.one_pos
  obtain ⟨hshift, -, -, hall⟩ :=
    compile_shifted sample (.rolesNamed "x") (.ofEntity type) [] 1 hlevels
  refine ⟨type, x, m, htype, hlevels, hrun, ?_, ?_⟩
  · rw [hshift 5, hrun]
    rfl
  · obtain ⟨hops, _, _, _, _, k, some, _, -, -, -, -, -, rfl, -, hx, hm⟩ :=
      hall [.property "Roles"] "r" _ x m rfl rfl hrun
    exact ⟨hops, k, some, hx, hm⟩

end FilterSql
