import FilterSql.Proofs.Compile.Form
import FilterSql.Proofs.Schema.Names

/-!
# What compiled filters are made of

Compiled filters are built from columns of the rows that a context has at hand, from queries along
hops of the schema, and from operators and functions on such expressions. `Emitted` has one rule
for each of these and lists the aliases that are taken. It relates two expressions that differ in
bound values and in nothing else. Two filters of one skeleton that compile from the same number
compile to two such expressions, and the aliases taken are the numbers from the first to the last,
each of them once (`Filter.compile_emitted`). Whatever is to be shown of all compiled filters
follows by induction on `Emitted`.
-/

namespace FilterSql

open Sql (Expr Select)

/-! ## Rules

`Emitted` has a rule for a column, one for what is `Alike` and has emitted parts, and one for each
kind of query: with a condition, without one, and for a number of rows. `Taken` lists what
consecutive runs have emitted, with their numbers one after the other. -/

/-- `Emitted s c ns e e'`: the expressions `e` and `e'`, built by the same rules, ask something of
the rows of `c`, and `ns` are the numbers of the aliases that are declared in them. -/
inductive Emitted (s : Schema) : Context → List Nat → Expr → Expr → Prop where
  | column {c : Context} {l : Level} {name : String} (hl : l ∈ c.levels) (hname : s.IsColumn name) :
      Emitted s c [] (.qualified l.label name) (.qualified l.label name)
  | combined {c : Context} {e e' : Expr} (parts : List (List Nat × Expr × Expr))
      (hform : e.Alike s.functionNames (parts.map (·.2)) e')
      (hparts : ∀ part ∈ parts, Emitted s c part.1 part.2.1 part.2.2) :
      Emitted s c (parts.flatMap (·.1)) e e'
  | someRow {c : Context} {l : Level} {h : Hop} {binding : Binding} {n k : Nat}
      {joins : List Sql.Join} {on x x' : Expr} {ns : List Nat} (hl : l ∈ c.levels) (hh : s.HasHop h)
      (hselects : h.Selects l.label (tableAlias n) (n + 1) joins on k)
      (hx : Emitted s (.inside ⟨h.target, n, binding⟩ c) ns x x') :
      Emitted s c (List.range' n (k - n) ++ ns)
        (.hasRows (h.selection [.constant (.int 1)] (tableAlias n) joins on (some x)))
        (.hasRows (h.selection [.constant (.int 1)] (tableAlias n) joins on (some x')))
  | anyRow {c : Context} {l : Level} {h : Hop} {n k : Nat} {joins : List Sql.Join} {on : Expr}
      (hl : l ∈ c.levels) (hh : s.HasHop h)
      (hselects : h.Selects l.label (tableAlias n) (n + 1) joins on k) :
      Emitted s c (List.range' n (k - n))
        (.hasRows (h.selection [.constant (.int 1)] (tableAlias n) joins on none))
        (.hasRows (h.selection [.constant (.int 1)] (tableAlias n) joins on none))
  | countRows {c : Context} {l : Level} {h : Hop} {n k : Nat} {joins : List Sql.Join} {on : Expr}
      (hl : l ∈ c.levels) (hh : s.HasHop h)
      (hselects : h.Selects l.label (tableAlias n) (n + 1) joins on k) :
      Emitted s c (List.range' n (k - n))
        (.scalar (h.selection [.countAll] (tableAlias n) joins on none))
        (.scalar (h.selection [.countAll] (tableAlias n) joins on none))

/-- Two expressions that have taken the numbers from `n` up to `m`. -/
structure EmittedFrom (s : Schema) (c : Context) (n m : Nat) (e e' : Expr) : Prop where
  le : n ≤ m
  emitted : Emitted s c (List.range' n (m - n)) e e'

/-- Pairs of expressions that have taken the numbers from `n` up to `m`, one after the other. -/
def Taken (s : Schema) (c : Context) (n m : Nat) (ps : List (Expr × Expr)) : Prop :=
  n ≤ m ∧ ∃ parts : List (List Nat × Expr × Expr), parts.map (·.2) = ps ∧
    (∀ part ∈ parts, Emitted s c part.1 part.2.1 part.2.2) ∧
      parts.flatMap (·.1) = List.range' n (m - n)

/-- Two compiled operands of one form, over parts that have taken the numbers from `n` up to `m`. -/
def Compiled.EmittedFrom (s : Schema) (c : Context) (p : Bool) (n m : Nat)
    (x x' : Compiled) : Prop :=
  ∃ ps, Taken s c n m ps ∧ x.Alike s.functionNames p ps x'

/-- Two rows of compiled operands. The special characters of patterns count in the first operand if
`p` says so, and in the others if `q` does. -/
def Compiled.EmittedAll (s : Schema) (c : Context) (q p : Bool) (n m : Nat)
    (xs xs' : List Compiled) : Prop :=
  ∃ ps, Taken s c n m ps ∧ AlikeAll s.functionNames q p ps xs xs'

/-! ## Numbers

Consecutive runs take consecutive numbers, so all that is put together has an interval of them. -/

theorem range'_split {n k m : Nat} (hnk : n ≤ k) (hkm : k ≤ m) :
    List.range' n (k - n) ++ List.range' k (m - k) = List.range' n (m - n) := by
  have hstart : n + (k - n) = k := by omega
  have hlength : k - n + (m - k) = m - n := by omega
  have h := List.range'_append_1 (s := n) (m := k - n) (n := m - k)
  rw [hstart, hlength] at h
  exact h

variable {s : Schema} {c : Context} {p q : Bool} {n k m : Nat}

namespace Taken

variable {ps qs : List (Expr × Expr)} {e e' : Expr}

theorem nil (n : Nat) : Taken s c n n [] := by
  refine ⟨Nat.le_refl n, [], rfl, ?_, ?_⟩
  · intro part hpart
    cases hpart
  · rw [Nat.sub_self]
    rfl

theorem single (h : EmittedFrom s c n m e e') : Taken s c n m [(e, e')] := by
  refine ⟨h.le, [(List.range' n (m - n), e, e')], rfl, ?_, ?_⟩
  · intro part hpart
    obtain rfl := List.mem_singleton.mp hpart
    exact h.emitted
  · rw [List.flatMap_singleton]

/-- Numbers that are `Taken` one after the other are taken together. -/
theorem append (h : Taken s c n k ps) (h' : Taken s c k m qs) : Taken s c n m (ps ++ qs) := by
  obtain ⟨hnk, parts, rfl, hparts, hnumbers⟩ := h
  obtain ⟨hkm, parts', rfl, hparts', hnumbers'⟩ := h'
  refine ⟨Nat.le_trans hnk hkm, parts ++ parts', List.map_append, ?_, ?_⟩
  · intro part hpart
    rcases List.mem_append.mp hpart with hpart | hpart
    · exact hparts part hpart
    · exact hparts' part hpart
  · rw [List.flatMap_append, hnumbers, hnumbers']
    exact range'_split hnk hkm

/-- What is `Alike` takes the numbers of its parts and no others. -/
theorem combined (h : Taken s c n m ps) (hform : e.Alike s.functionNames ps e') :
    EmittedFrom s c n m e e' := by
  obtain ⟨hnm, parts, rfl, hparts, hnumbers⟩ := h
  refine ⟨hnm, ?_⟩
  rw [← hnumbers]
  exact .combined parts hform hparts

/-- A column of a level takes no number. -/
theorem column {l : Level} {name : String} (hl : l ∈ c.levels) (hname : s.IsColumn name) :
    EmittedFrom s c n n (.qualified l.label name) (.qualified l.label name) := by
  refine ⟨Nat.le_refl n, ?_⟩
  rw [Nat.sub_self]
  exact .column hl hname

end Taken

namespace Compiled

variable {x x' y y' z z' : Compiled} {e e' : Expr}

/-- An operand without parts takes no number. -/
theorem emittedFrom_refl (h : x.Alike s.functionNames p [] x') : EmittedFrom s c p n n x x' :=
  ⟨[], .nil n, h⟩

/-- An operand whose only part is `e` takes the numbers of `e`. -/
theorem emittedFrom_part (he : FilterSql.EmittedFrom s c n m e e')
    (h : x.Alike s.functionNames p [(e, e')] x') : EmittedFrom s c p n m x x' :=
  ⟨[(e, e')], .single he, h⟩

/-- Two operands, emitted one after the other, are composed to one. -/
theorem EmittedFrom.compose {t : Bool} (hx : EmittedFrom s c p n k x x')
    (hy : EmittedFrom s c q k m y y')
    (h : ∀ {ps qs}, x.Alike s.functionNames p ps x' → y.Alike s.functionNames q qs y' →
      z.Alike s.functionNames t (ps ++ qs) z') : EmittedFrom s c t n m z z' := by
  obtain ⟨ps, htaken, hform⟩ := hx
  obtain ⟨qs, htaken', hform'⟩ := hy
  exact ⟨ps ++ qs, htaken.append htaken', h hform hform'⟩

/-- An operand that is emitted becomes another one with the same parts. -/
theorem EmittedFrom.map {t : Bool} (hx : EmittedFrom s c p n m x x')
    (h : ∀ {ps}, x.Alike s.functionNames p ps x' → z.Alike s.functionNames t ps z') :
    EmittedFrom s c t n m z z' := by
  obtain ⟨ps, htaken, hform⟩ := hx
  exact ⟨ps, htaken, h hform⟩

theorem EmittedFrom.condition (hx : EmittedFrom s c p n m x x') (he : x.predicate? = some e)
    (he' : x'.predicate? = some e') : FilterSql.EmittedFrom s c n m e e' := by
  obtain ⟨ps, htaken, hform⟩ := hx
  exact htaken.combined (hform.predicate?_alike he he')

theorem EmittedAll.map {t : Bool} {xs xs' : List Compiled} (hx : EmittedAll s c q p n m xs xs')
    (h : ∀ {ps}, AlikeAll s.functionNames q p ps xs xs' → z.Alike s.functionNames t ps z') :
    EmittedFrom s c t n m z z' := by
  obtain ⟨ps, htaken, hform⟩ := hx
  exact ⟨ps, htaken, h hform⟩

theorem emittedAll_nil : EmittedAll s c q p n n [] [] :=
  ⟨[], .nil n, .nil p⟩

theorem EmittedFrom.cons {xs xs' : List Compiled} (hx : EmittedFrom s c p n k x x')
    (hxs : EmittedAll s c q q k m xs xs') : EmittedAll s c q p n m (x :: xs) (x' :: xs') := by
  obtain ⟨ps, htaken, hform⟩ := hx
  obtain ⟨qs, htaken', hform'⟩ := hxs
  exact ⟨ps ++ qs, htaken.append htaken', .cons hform hform'⟩

end Compiled

/-! ## Two runs

What is shown of two runs at once (`Numbered.Pair`): if both succeed from the same number, they end
at the same number, and their results are related. -/

/-- If both runs start from one number and neither fails, they end with one number, and their
results are related by `R`. -/
def Numbered.Pair {α : Type} (R : Nat → Nat → α → α → Prop) (f f' : Numbered α) : Prop :=
  ∀ ⦃n m m' a a'⦄, f.run n = .ok (a, m) → f'.run n = .ok (a', m') → m' = m ∧ R n m a a'

/-- A run that is paired by `EmittedFrom` does not count back. -/
theorem Numbered.Pair.le {f f' : Numbered Expr} {e e' : Expr}
    (h : Numbered.Pair (EmittedFrom s c) f f') (hrun : f.run n = .ok (e, m))
    (hrun' : f'.run n = .ok (e', m)) : n ≤ m := by
  obtain ⟨-, hemitted⟩ := h hrun hrun'
  exact hemitted.le

/-! ## Queries

A question is put to a hop and to the rows behind it. Two runs of `ask` with the same hops build
the same queries around two results that are emitted together. -/

/-- `question` and `question'` give related expressions in each context that they are asked in. -/
def Hop.QuestionPair (s : Schema) (question question' : Hop.Question) : Prop :=
  ∀ ⦃c l h⦄, s.HasContext c → l ∈ c.levels → s.HasHop h →
    Numbered.Pair (EmittedFrom s c) (question c l.label h) (question' c l.label h)

theorem emittedFrom_someRow {l : Level} {h : Hop} {binding : Binding} {joins : List Sql.Join}
    {on x x' : Expr} (hl : l ∈ c.levels) (hh : s.HasHop h)
    (hselects : h.Selects l.label (tableAlias n) (n + 1) joins on k)
    (hx : EmittedFrom s (.inside ⟨h.target, n, binding⟩ c) k m x x') :
    EmittedFrom s c n m
      (.hasRows (h.selection [.constant (.int 1)] (tableAlias n) joins on (some x)))
      (.hasRows (h.selection [.constant (.int 1)] (tableAlias n) joins on (some x'))) := by
  have hle : n ≤ k := Nat.le_of_succ_le hselects.le
  refine ⟨Nat.le_trans hle hx.le, ?_⟩
  rw [← range'_split hle hx.le]
  exact .someRow hl hh hselects hx.emitted

namespace Hop

variable {question question' : Question}

/-- **Two questions behind hops** are emitted together if they are a `QuestionPair` behind the last
hop. -/
theorem ask_emitted {l : Level} {hops : List Hop} (hc : s.HasContext c) (hl : l ∈ c.levels)
    (hhops : ∀ h ∈ hops, s.HasHop h) (hquestion : QuestionPair s question question') :
    Numbered.Pair (EmittedFrom s c) (ask question c l.label hops)
      (ask question' c l.label hops) := by
  induction hops generalizing c l with
  | nil =>
      intro n m m' e e' h
      rw [ask] at h
      exact (Numbered.throw_ok.mp h).elim
  | cons h rest ih =>
      have hh := hhops h List.mem_cons_self
      cases rest with
      | nil => exact hquestion hc hl hh
      | cons next rest =>
          intro n m m' e e' hrun hrun'
          obtain ⟨joins, on, k, x, hselects, hx, rfl⟩ := ask_step_ok.mp hrun
          obtain ⟨_, _, _, x', hselects', hx', rfl⟩ := ask_step_ok.mp hrun'
          obtain ⟨rfl, rfl, rfl⟩ := hselects.unique hselects'
          -- The rest is asked from the level of the rows that this query ranges over.
          have hinner := s.hasContext_inside (l := ⟨h.target, n, .navigation none⟩) hh.target hc
          have hrest : ∀ h ∈ next :: rest, s.HasHop h :=
            fun h hin => hhops h (List.mem_cons_of_mem _ hin)
          obtain ⟨rfl, hemitted⟩ :=
            ih hinner (l := ⟨h.target, n, .navigation none⟩) List.mem_cons_self hrest hx hx'
          exact ⟨rfl, emittedFrom_someRow hl hh hselects hemitted⟩

/-- `someRow` makes a `QuestionPair` of conditions that are paired in each context. -/
theorem someRow_pair {binding : Binding} {condition condition' : Context → Numbered Expr}
    (h : ∀ c, s.HasContext c → Numbered.Pair (EmittedFrom s c) (condition c) (condition' c)) :
    QuestionPair s (someRow binding fun inner => do return some (← condition inner))
      (someRow binding fun inner => do return some (← condition' inner)) := by
  intro c l hop hc hl hhop n m m' e e' hrun hrun'
  obtain ⟨joins, on, k, x, hselects, hx, rfl⟩ := narrowedRow_ok.mp hrun
  obtain ⟨_, _, _, x', hselects', hx', rfl⟩ := narrowedRow_ok.mp hrun'
  obtain ⟨rfl, rfl, rfl⟩ := hselects.unique hselects'
  have hinner := s.hasContext_inside (l := ⟨hop.target, n, binding⟩) hhop.target hc
  obtain ⟨rfl, hemitted⟩ := h _ hinner hx hx'
  exact ⟨rfl, emittedFrom_someRow hl hhop hselects hemitted⟩

theorem anyRow_pair {binding : Binding} :
    QuestionPair s (someRow binding fun _ => return none) (someRow binding fun _ =>
      return none) := by
  intro c l hop hc hl hhop n m m' e e' hrun hrun'
  obtain ⟨joins, on, k, _, hselects, hx, rfl⟩ := someRow_ok.mp hrun
  obtain ⟨_, _, _, _, hselects', hx', rfl⟩ := someRow_ok.mp hrun'
  obtain ⟨rfl, rfl, rfl⟩ := hselects.unique hselects'
  obtain ⟨rfl, rfl⟩ := Numbered.pure_ok.mp hx
  obtain ⟨rfl, rfl⟩ := Numbered.pure_ok.mp hx'
  exact ⟨rfl, Nat.le_of_succ_le hselects.le, .anyRow hl hhop hselects⟩

theorem countRows_pair : QuestionPair s countRows countRows := by
  intro c l hop hc hl hhop n m m' e e' hrun hrun'
  obtain ⟨joins, on, hselects, rfl⟩ := countRows_ok.mp hrun
  obtain ⟨_, _, hselects', rfl⟩ := countRows_ok.mp hrun'
  obtain ⟨rfl, rfl, rfl⟩ := hselects.unique hselects'
  exact ⟨rfl, Nat.le_of_succ_le hselects.le, .countRows hl hhop hselects⟩

end Hop

/-! ## Conditions

What is compiled behind a member is a condition, or its negation, in the queries of the member's
hops. Both runs find the same member, because the search looks at the `skeleton` only. -/

theorem conditionOf_pair {x x' : Numbered Compiled}
    (h : Numbered.Pair (Compiled.EmittedFrom s c p) x x') :
    Numbered.Pair (EmittedFrom s c) (conditionOf x) (conditionOf x') := by
  intro n m m' e e' hrun hrun'
  obtain ⟨y, hy, he⟩ := conditionOf_ok.mp hrun
  obtain ⟨y', hy', he'⟩ := conditionOf_ok.mp hrun'
  obtain ⟨rfl, hemitted⟩ := h hy hy'
  exact ⟨rfl, hemitted.condition he he'⟩

/-- The negations of paired conditions are paired. -/
theorem not_pair {x x' : Numbered Expr} (h : Numbered.Pair (EmittedFrom s c) x x') :
    Numbered.Pair (EmittedFrom s c) (do return .not (← x)) (do return .not (← x')) := by
  intro n m m' e e' hrun hrun'
  obtain ⟨y, _, hy, hpure⟩ := Numbered.bind_ok.mp hrun
  obtain ⟨rfl, rfl⟩ := Numbered.pure_ok.mp hpure
  obtain ⟨y', _, hy', hpure'⟩ := Numbered.bind_ok.mp hrun'
  obtain ⟨rfl, rfl⟩ := Numbered.pure_ok.mp hpure'
  obtain ⟨rfl, hemitted⟩ := h hy hy'
  have htaken := Taken.single hemitted
  exact ⟨rfl, htaken.combined (.not (.part y y'))⟩

/-- The form of `within` for a pair: both runs have found the same member, and compile behind its
hops. -/
theorem within_pair {n? n?' : Option Navigating} {compile compile' : Context → Numbered Compiled}
    (hc : s.HasContext c) (hsame : n?.map Navigating.skeleton = n?'.map Navigating.skeleton)
    (hfound : ∀ nav ∈ n?, nav.anchor ∈ c.levels ∧ ∀ h ∈ nav.hops, s.HasHop h)
    (h : ∀ c, s.HasContext c →
      Numbered.Pair (Compiled.EmittedFrom s c p) (compile c) (compile' c)) :
    Numbered.Pair (Compiled.EmittedFrom s c p) (c.within n? compile) (c.within n?' compile') := by
  cases n? with
  | none =>
      obtain rfl : n?' = none := by simpa using hsame.symm
      exact h c hc
  | some nav =>
      obtain ⟨nav', rfl, hnav⟩ : ∃ nav', n?' = some nav' ∧ nav'.skeleton = nav.skeleton := by
        cases n?' with
        | none => simp at hsame
        | some nav' => exact ⟨nav', rfl, (Option.some.inj hsame).symm⟩
      obtain ⟨haddress, -, hanchor, hhops, hoffset⟩ := Navigating.mk.inj hnav
      obtain ⟨hlevel, hhas⟩ := hfound nav rfl
      intro n m m' x x' hrun hrun'
      obtain ⟨e, rfl, he⟩ := within_some_ok.mp hrun
      obtain ⟨e', rfl, he'⟩ := within_some_ok.mp hrun'
      have hpin : nav'.pin = nav.pin := by rw [Navigating.pin, Navigating.pin, haddress, hoffset]
      have hquestion : Hop.QuestionPair s (nav.question compile) (nav'.question compile') := by
        rw [Navigating.question, Navigating.question, hpin]
        apply Hop.someRow_pair
        intro inner hinner
        exact conditionOf_pair (h inner hinner)
      rw [hanchor, hhops] at he'
      obtain ⟨rfl, hemitted⟩ := Hop.ask_emitted hc hlevel hhas hquestion he he'
      exact ⟨rfl, Compiled.emittedFrom_part hemitted (.subquery (.part e e'))⟩

/-- The hops of a member that `navigatingAll` finds are hops of the schema. -/
theorem navigating_has {a : Address} {fs : List Filter} {i : Nat} {ns : List Navigating}
    {nav : Navigating} (hc : s.HasContext c) (h : navigatingAll s c a i fs = .ok ns)
    (hnav : nav ∈ ns) :
    nav.anchor ∈ c.levels ∧ ∀ h ∈ nav.hops, s.HasHop h := by
  obtain ⟨f, -, i, ms, -, hms, hmem⟩ := navigatingAll_mem h hnav
  obtain ⟨hanchor, htarget⟩ := s.denote_has hc (Filter.navigating_mem hms hmem)
  exact ⟨hanchor, htarget.hops⟩

/-- Operands of one skeleton are compiled behind the same hops, as `navigatingAll` finds the same
members. -/
theorem within_operands_pair {a : Address} {behind first : Bool} {fs gs : List Filter}
    {ns ns' : List Navigating} {n? n?' : Option Navigating}
    {compile compile' : Context → Numbered Compiled} (hc : s.HasContext c)
    (hskeleton : skeletonAll behind first fs = skeletonAll behind first gs)
    (hns : navigatingAll s c a 0 fs = .ok ns) (hns' : navigatingAll s c a 0 gs = .ok ns')
    (hn : Navigating.only? ns = .ok n?) (hn' : Navigating.only? ns' = .ok n?')
    (h : ∀ c, s.HasContext c →
      Numbered.Pair (Compiled.EmittedFrom s c p) (compile c) (compile' c)) :
    Numbered.Pair (Compiled.EmittedFrom s c p) (c.within n? compile) (c.within n?' compile') := by
  apply within_pair hc (Navigating.only?_alike hskeleton hns hns' hn hn') _ h
  intro nav hnav
  obtain rfl : n? = some nav := hnav
  apply navigating_has hc hns
  rw [Navigating.only?_some hn]
  exact List.mem_singleton_self nav

/-! ## Operands

An induction on filters needs the second filter to be any one of the same skeleton, so the property
is `Filter.CompilesBySkeleton`: one filter against all that agree with it. -/

/-- `f` and `g` compile to operands of one form, in each context of the schema. -/
def Filter.CompilesAlike (s : Schema) (f g : Filter) (p : Bool) : Prop :=
  ∀ c a, s.HasContext c →
    Numbered.Pair (Compiled.EmittedFrom s c p) (f.compile s c a) (g.compile s c a)

/-- `f` compiles to operands of one form with each filter that has its `skeleton`. -/
def Filter.CompilesBySkeleton (s : Schema) (f : Filter) : Prop :=
  ∀ g p, f.skeleton p = g.skeleton p → f.CompilesAlike s g p

theorem skeletonAll_cons {behind first : Bool} {f : Filter} {fs gs : List Filter}
    (h : skeletonAll behind first (f :: fs) = skeletonAll behind first gs) :
    ∃ g gs', gs = g :: gs' ∧ f.skeleton first = g.skeleton first ∧
      skeletonAll behind behind fs = skeletonAll behind behind gs' := by
  cases gs with
  | nil => simp [skeletonAll] at h
  | cons g gs =>
      obtain ⟨hfirst, hrest⟩ := List.cons.inj h
      exact ⟨g, gs, rfl, hfirst, hrest⟩

theorem compileAll_pair {a : Address} {behind first : Bool} {fs gs : List Filter} {i : Nat}
    (hc : s.HasContext c) (hfs : ∀ f ∈ fs, f.CompilesBySkeleton s)
    (hskeleton : skeletonAll behind first fs = skeletonAll behind first gs) :
    Numbered.Pair (Compiled.EmittedAll s c behind first) (compileAll s c a i fs)
      (compileAll s c a i gs) := by
  induction fs generalizing first gs i with
  | nil =>
      obtain rfl : gs = [] := by
        cases gs with
        | nil => rfl
        | cons g gs => simp [skeletonAll] at hskeleton
      intro n m m' xs xs' hrun hrun'
      obtain ⟨rfl, rfl⟩ := Filter.compileAll_nil_ok.mp hrun
      obtain ⟨rfl, rfl⟩ := Filter.compileAll_nil_ok.mp hrun'
      exact ⟨rfl, Compiled.emittedAll_nil⟩
  | cons f fs ih =>
      obtain ⟨g, gs, rfl, hfirst, hrest⟩ := skeletonAll_cons hskeleton
      have htail : ∀ f ∈ fs, f.CompilesBySkeleton s := fun f hf => hfs f (List.mem_cons_of_mem _ hf)
      intro n m m' xs xs' hrun hrun'
      obtain ⟨y, k, ys, hy, hys, rfl⟩ := Filter.compileAll_cons_ok.mp hrun
      obtain ⟨y', k', ys', hy', hys', rfl⟩ := Filter.compileAll_cons_ok.mp hrun'
      obtain ⟨rfl, hx⟩ := hfs f List.mem_cons_self g first hfirst c _ hc hy hy'
      obtain ⟨rfl, hxs⟩ := ih htail hrest hys hys'
      exact ⟨rfl, hx.cons hxs⟩

/-! ## Members

`denote` looks at a path through its `skeletonPath`, so both members have one target. What is
compiled for it has the body or the arguments of the path as its only parts. -/

/-- Two paths of one `skeletonPath` have bodies that are emitted together. -/
theorem bodyCondition_pair {a : Address} {path path' : Path} (hc : s.HasContext c)
    (hskeleton : skeletonPath path = skeletonPath path')
    (hparts : ∀ f ∈ path.flatMap Segment.parts, f.CompilesBySkeleton s) :
    Numbered.Pair (EmittedFrom s c) (path.bodyCondition s a c) (path'.bodyCondition s a c) := by
  apply conditionOf_pair (p := false)
  rw [compileBody_eq, compileBody_eq]
  have hbody : path.body?.map (Filter.skeleton false) =
    path'.body?.map (Filter.skeleton false) := by
    rw [← Path.body?_skeleton, ← Path.body?_skeleton, hskeleton]
  cases hfound : path.body? with
  | none =>
      rw [hfound] at hbody
      have hnone : path'.body? = none := by simpa using hbody.symm
      rw [hnone]
      intro n m m' x x' hrun _
      exact (Numbered.throw_ok.mp hrun).elim
  | some body =>
      rw [hfound] at hbody
      obtain ⟨body', hfound', hsame⟩ := Option.map_eq_some_iff.mp hbody.symm
      rw [hfound']
      exact hparts body (Path.body?_mem hfound) body' false hsame.symm c _ hc

/-- The column of a leaf, as `Compiled.ofPath` gives it. -/
theorem column_emitted {l : Level} {leaf : AttributePath} (hl : l ∈ c.levels)
    (hleaf : s.IsColumn leaf.column) :
    Compiled.EmittedFrom s c p n n (.ofPath l.label leaf) (.ofPath l.label leaf) := by
  have hcolumn := Taken.column (n := n) hl hleaf
  exact Compiled.emittedFrom_part hcolumn (.member leaf (.part _ _))

theorem skeletonPath_values {path path' : Path} (h : skeletonPath path = skeletonPath path') :
    skeletonAll false false (path.arguments.map Argument.value) =
      skeletonAll false false (path'.arguments.map Argument.value) := by
  rw [← skeletonArguments_values, ← skeletonArguments_values, ← Path.arguments_skeleton,
    ← Path.arguments_skeleton, h]

/-- Two paths of one `skeletonPath` call their function with arguments of one form. -/
theorem called_pair {a : Address} {path path' : Path} {name : String} (hc : s.HasContext c)
    (hskeleton : skeletonPath path = skeletonPath path')
    (hparts : ∀ f ∈ path.flatMap Segment.parts, f.CompilesBySkeleton s) :
    Numbered.Pair (Compiled.EmittedFrom s c p) (path.called s a name c)
      (path'.called s a name c) := by
  have harguments : skeletonArguments path.arguments = skeletonArguments path'.arguments := by
    rw [← Path.arguments_skeleton, ← Path.arguments_skeleton, hskeleton]
  have hnames : path.arguments.map Argument.name = path'.arguments.map Argument.name := by
    rw [← skeletonArguments_names, harguments, skeletonArguments_names]
  have hargs : ∀ f ∈ path.arguments.map Argument.value, f.CompilesBySkeleton s := by
    intro f hf
    obtain ⟨arg, harg, rfl⟩ := List.mem_map.mp hf
    exact hparts _ (Path.arguments_mem harg)
  intro n m m' x x' hrun hrun'
  obtain ⟨ys, hys, hx⟩ := Path.called_ok.mp hrun
  obtain ⟨ys', hys', hx'⟩ := Path.called_ok.mp hrun'
  obtain ⟨rfl, hemitted⟩ := compileAll_pair hc hargs (skeletonPath_values hskeleton) hys hys'
  have hlength : ys.length = path.arguments.length := by
    rw [Filter.compileAll_length hys, List.length_map]
  rw [← hnames] at hx'
  refine ⟨rfl, hemitted.map ?_⟩
  intro ps hform
  exact s.callCustom_alike s.sqlName_mem hform (by simp [hlength]) hx hx'

/-- **Two paths of one skeleton** that denote the same `target` are compiled to operands of one
form. -/
theorem compileAs_pair {a : Address} {path path' : Path} {anchor : Level} {target : Target}
    (hc : s.HasContext c) (hanchor : anchor ∈ c.levels) (htarget : s.HasTarget target)
    (hskeleton : skeletonPath path = skeletonPath path')
    (hparts : ∀ f ∈ path.flatMap Segment.parts, f.CompilesBySkeleton s) :
    Numbered.Pair (Compiled.EmittedFrom s c p) (path.compileAs s a c (anchor, target))
      (path'.compileAs s a c (anchor, target)) := by
  have hmatching (name : String) :
      Hop.QuestionPair s (path.matching s a name) (path'.matching s a name) := by
    apply Hop.someRow_pair
    intro inner hinner
    exact bodyCondition_pair hinner hskeleton hparts
  have hviolating (name : String) :
      Hop.QuestionPair s (path.violating s a name) (path'.violating s a name) := by
    apply Hop.someRow_pair
    intro inner hinner
    exact not_pair (bodyCondition_pair hinner hskeleton hparts)
  intro n m m' x x' hrun hrun'
  cases target with
  | element =>
      obtain ⟨leaf, hleaf, rfl, rfl⟩ := Path.compileAs_element_ok.mp hrun
      obtain ⟨leaf', hleaf', rfl, rfl⟩ := Path.compileAs_element_ok.mp hrun'
      obtain rfl : leaf = leaf' := Option.some.inj (hleaf.symm.trans hleaf')
      exact ⟨rfl, column_emitted hanchor (s.elementPath_has (hc _ hanchor) hleaf)⟩
  | «attribute» leaf =>
      obtain ⟨rfl, rfl⟩ := Path.compileAs_leaf_ok.mp hrun
      obtain ⟨rfl, rfl⟩ := Path.compileAs_leaf_ok.mp hrun'
      exact ⟨rfl, column_emitted hanchor (htarget.leaf leaf rfl)⟩
  | navigation hops offset => exact absurd hrun Path.compileAs_navigation_ok
  | count hops =>
      obtain ⟨e, he, rfl⟩ := Path.compileAs_count_ok.mp hrun
      obtain ⟨e', he', rfl⟩ := Path.compileAs_count_ok.mp hrun'
      obtain ⟨rfl, hemitted⟩ := Hop.ask_emitted hc hanchor htarget.hops Hop.countRows_pair he he'
      exact ⟨rfl, Compiled.emittedFrom_part hemitted (.value _ (.part e e'))⟩
  | nonempty hops =>
      obtain ⟨e, he, rfl⟩ := Path.compileAs_nonempty_ok.mp hrun
      obtain ⟨e', he', rfl⟩ := Path.compileAs_nonempty_ok.mp hrun'
      obtain ⟨rfl, hemitted⟩ := Hop.ask_emitted hc hanchor htarget.hops Hop.anyRow_pair he he'
      exact ⟨rfl, Compiled.emittedFrom_part hemitted (.subquery (.part e e'))⟩
  | any hops name =>
      obtain ⟨e, he, rfl⟩ := Path.compileAs_any_ok.mp hrun
      obtain ⟨e', he', rfl⟩ := Path.compileAs_any_ok.mp hrun'
      obtain ⟨rfl, hemitted⟩ := Hop.ask_emitted hc hanchor htarget.hops (hmatching name) he he'
      exact ⟨rfl, Compiled.emittedFrom_part hemitted (.subquery (.part e e'))⟩
  | all hops name =>
      -- The body is compiled twice, and the second time takes numbers of its own.
      obtain ⟨some, k, other, hsome, hother, rfl⟩ := Path.compileAs_all_ok.mp hrun
      obtain ⟨some', k', other', hsome', hother', rfl⟩ := Path.compileAs_all_ok.mp hrun'
      obtain ⟨rfl, hemitted⟩ :=
        Hop.ask_emitted hc hanchor htarget.hops (hmatching name) hsome hsome'
      obtain ⟨rfl, hemitted'⟩ :=
        Hop.ask_emitted hc hanchor htarget.hops (hviolating name) hother hother'
      have htaken := (Taken.single hemitted).append (Taken.single hemitted')
      exact ⟨rfl, _, htaken,
        .subquery (.binary .and (.part some some') (.not (.part other other')))⟩
  | function name =>
      obtain ⟨ns, n?, hns, hn, hx⟩ := Path.compileAs_function_ok.mp hrun
      obtain ⟨ns', n?', hns', hn', hx'⟩ := Path.compileAs_function_ok.mp hrun'
      apply within_operands_pair hc (skeletonPath_values hskeleton) hns hns' hn hn' _ hx hx'
      intro c hc
      exact called_pair hc hskeleton hparts

/-! ## The main theorem

A lemma for each form of a filter, and then the induction. The numbers are those from the first to
the last, as each run takes them in order. -/

section

variable {f l r operand : Filter} {args : List Filter}

theorem Filter.composed_pair {a : Address} {l' r' : Filter} (op : BinaryOperator)
    (hc : s.HasContext c) (hl : l.CompilesAlike s l' false) (hr : r.CompilesAlike s r' false) :
    Numbered.Pair (Compiled.EmittedFrom s c p) (composed s a l op r c)
      (composed s a l' op r' c) := by
  intro n m m' x x' hrun hrun'
  obtain ⟨y, k, z, hy, hz, hx⟩ := composed_ok.mp hrun
  obtain ⟨y', k', z', hy', hz', hx'⟩ := composed_ok.mp hrun'
  obtain ⟨rfl, hleft⟩ := hl c _ hc hy hy'
  obtain ⟨rfl, hright⟩ := hr c _ hc hz hz'
  refine ⟨rfl, hleft.compose hright ?_⟩
  intro ps qs hy hz
  exact s.compose_alike hy hz hx hx'

theorem binary_emitted (op : BinaryOperator) (hl : l.CompilesBySkeleton s)
    (hr : r.CompilesBySkeleton s) :
    (Filter.binary l op r).CompilesBySkeleton s := by
  intro g p hskeleton c a hc n m m' x x' hrun hrun'
  cases g <;> simp only [Filter.skeleton, reduceCtorEq, Filter.binary.injEq] at hskeleton
  rename_i l' op' r'
  obtain ⟨hleft, rfl, hright⟩ := hskeleton
  obtain ⟨-, n?, hn, hx⟩ := Filter.compile_binary_ok.mp hrun
  obtain ⟨-, n?', hn', hx'⟩ := Filter.compile_binary_ok.mp hrun'
  have hpair : ∀ c, s.HasContext c → Numbered.Pair (Compiled.EmittedFrom s c p)
      (Filter.composed s a l op r c) (Filter.composed s a l' op r' c) := by
    intro c hc
    exact Filter.composed_pair op hc (hl l' false hleft) (hr r' false hright)
  rcases Filter.binaryNavigating_ok.mp hn with ⟨hcompare, ns, hns, hn⟩ | ⟨hcompare, rfl⟩
  · rcases Filter.binaryNavigating_ok.mp hn' with ⟨-, ns', hns', hn'⟩ | ⟨hcompare', -⟩
    · have hoperands : skeletonAll false false [l, r] = skeletonAll false false [l', r'] := by
        rw [skeletonAll, skeletonAll, hleft, hright]
        rfl
      exact within_operands_pair hc hoperands hns hns' hn hn' hpair hx hx'
    · simp [hcompare] at hcompare'
  · rcases Filter.binaryNavigating_ok.mp hn' with ⟨hcompare', -⟩ | ⟨-, rfl⟩
    · simp [hcompare] at hcompare'
    · exact hpair c hc hx hx'

theorem unary_emitted (op : UnaryOperator) (hoperand : operand.CompilesBySkeleton s) :
    (Filter.unary op operand).CompilesBySkeleton s := by
  intro g p hskeleton c a hc n m m' x x' hrun hrun'
  cases g <;> simp only [Filter.skeleton, reduceCtorEq, Filter.unary.injEq] at hskeleton
  obtain ⟨rfl, hsame⟩ := hskeleton
  obtain ⟨y, hy, hx⟩ := Filter.compile_unary_ok.mp hrun
  obtain ⟨y', hy', hx'⟩ := Filter.compile_unary_ok.mp hrun'
  obtain ⟨rfl, hemitted⟩ := hoperand _ false hsame c _ hc hy hy'
  refine ⟨rfl, hemitted.map ?_⟩
  intro ps hform
  exact Schema.composeUnary_alike hform hx hx'

/-- `denote` finds the same for two paths of one `skeletonPath`. -/
theorem Schema.denote_alike {a : Address} {path path' : Path} {anchor anchor' : Level}
    {target target' : Target} (hskeleton : skeletonPath path = skeletonPath path')
    (h : s.denote c a path = .ok (anchor, target))
    (h' : s.denote c a path' = .ok (anchor', target')) : anchor = anchor' ∧ target = target' := by
  rw [← s.denote_skeleton, ← hskeleton, s.denote_skeleton, h] at h'
  exact Prod.mk.inj (Except.ok.inj h')

theorem member_emitted {path : Path}
    (hparts : ∀ f ∈ path.flatMap Segment.parts, f.CompilesBySkeleton s) :
    (Filter.member path).CompilesBySkeleton s := by
  intro g p hskeleton c a hc n m m' x x' hrun hrun'
  cases g <;> simp only [Filter.skeleton, reduceCtorEq, Filter.member.injEq] at hskeleton
  rename_i path'
  obtain ⟨anchor, target, hfound, hx⟩ := Filter.compile_member_ok.mp hrun
  obtain ⟨anchor', target', hfound', hx'⟩ := Filter.compile_member_ok.mp hrun'
  obtain ⟨rfl, rfl⟩ := s.denote_alike hskeleton hfound hfound'
  obtain ⟨hanchor, htarget⟩ := s.denote_has hc hfound
  have hhere := compileAs_pair (p := p) (a := a) hc hanchor htarget hskeleton hparts
  cases target with
  | navigation hops offset =>
      refine within_pair hc ?_ ?_ ?_ hx hx'
      · simp [Navigating.skeleton, hskeleton]
      · rintro nav ⟨⟩
        exact ⟨hanchor, htarget.hops⟩
      · intro c hc n m m' x x' hrun hrun'
        obtain ⟨⟨anchor, target⟩, hfound, hx⟩ := Path.compileBehind_ok.mp hrun
        obtain ⟨⟨anchor', target'⟩, hfound', hx'⟩ := Path.compileBehind_ok.mp hrun'
        obtain ⟨rfl, rfl⟩ := s.denote_alike hskeleton hfound hfound'
        obtain ⟨hanchor, htarget⟩ := s.denote_has hc hfound
        exact compileAs_pair hc hanchor htarget hskeleton hparts hx hx'
  | _ => exact hhere hx hx'

theorem call_emitted (g : BuiltIn) (hargs : ∀ f ∈ args, f.CompilesBySkeleton s) :
    (Filter.call g args).CompilesBySkeleton s := by
  intro f p hskeleton c a hc n m m' x x' hrun hrun'
  cases f <;> simp only [Filter.skeleton, reduceCtorEq, Filter.call.injEq] at hskeleton
  obtain ⟨rfl, hsame⟩ := hskeleton
  obtain ⟨ns, n?, hns, hn, hx⟩ := Filter.compile_call_ok.mp hrun
  obtain ⟨ns', n?', hns', hn', hx'⟩ := Filter.compile_call_ok.mp hrun'
  apply within_operands_pair hc hsame hns hns' hn hn' _ hx hx'
  intro c hc n m m' x x' hrun hrun'
  obtain ⟨ys, hys, hx⟩ := Filter.called_ok.mp hrun
  obtain ⟨ys', hys', hx'⟩ := Filter.called_ok.mp hrun'
  obtain ⟨rfl, hemitted⟩ := compileAll_pair hc hargs hsame hys hys'
  refine ⟨rfl, hemitted.map ?_⟩
  intro ps hform
  exact s.callBuiltIn_alike s.standard_subset hform hx hx'

theorem literal_emitted (l : Literal) : (Filter.literal l).CompilesBySkeleton s := by
  intro g p hskeleton c a hc n m m' x x' hrun hrun'
  cases g <;> simp only [Filter.skeleton, reduceCtorEq, Filter.literal.injEq] at hskeleton
  rw [Filter.compile] at hrun hrun'
  obtain ⟨rfl, rfl⟩ := Numbered.pure_ok.mp hrun
  obtain ⟨rfl, rfl⟩ := Numbered.pure_ok.mp hrun'
  exact ⟨rfl, Compiled.emittedFrom_refl (.literal hskeleton)⟩

theorem enumMember_emitted (type member : String) :
    (Filter.enumMember type member).CompilesBySkeleton s := by
  intro g p hskeleton c a hc n m m' x x' hrun hrun'
  cases g <;> simp only [Filter.skeleton, reduceCtorEq, Filter.enumMember.injEq] at hskeleton
  obtain ⟨rfl, rfl⟩ := hskeleton
  obtain ⟨rfl, rfl⟩ := Prod.mk.inj (Except.ok.inj (hrun.symm.trans hrun'))
  obtain ⟨v, t, -, rfl, rfl⟩ := Filter.compile_enumMember_ok hrun
  exact ⟨rfl, Compiled.emittedFrom_refl (.value t (.parameter v v))⟩

theorem typeName_emitted (name : String) : (Filter.typeName name).CompilesBySkeleton s := by
  intro g p hskeleton c a hc n m m' x x' hrun hrun'
  cases g <;> simp only [Filter.skeleton, reduceCtorEq, Filter.typeName.injEq] at hskeleton
  subst hskeleton
  obtain ⟨rfl, rfl⟩ := Prod.mk.inj (Except.ok.inj (hrun.symm.trans hrun'))
  obtain ⟨t, -, rfl, rfl⟩ := Filter.compile_typeName_ok hrun
  exact ⟨rfl, Compiled.emittedFrom_refl (.typeName t)⟩

theorem parameterAlias_emitted (name : String) :
    (Filter.parameterAlias name).CompilesBySkeleton s := by
  intro g p _ c a _ n m m' x x' hrun
  rw [Filter.compile] at hrun
  exact (Numbered.throw_ok.mp hrun).elim

end

/-- **Filters of one skeleton compile to operands of one form**, with all numbers from the first to
the last. -/
theorem Filter.compile_emitted (f : Filter) : f.CompilesBySkeleton s := by
  induction f using Filter.induction with
  | step f ih =>
      cases f with
      | binary l op r =>
          exact binary_emitted op (ih l (by simp [Filter.parts])) (ih r (by simp [Filter.parts]))
      | unary op operand => exact unary_emitted op (ih operand (by simp [Filter.parts]))
      | member path => exact member_emitted ih
      | call g args => exact call_emitted g ih
      | literal l => exact literal_emitted l
      | enumMember type member => exact enumMember_emitted type member
      | typeName name => exact typeName_emitted name
      | parameterAlias name => exact parameterAlias_emitted name

/-- Whole filters of one `skeleton` are compiled to expressions of the root rows that are emitted
together. -/
theorem Schema.compile_emitted {entity : String} {f g : Filter} {e e' : Expr}
    (hskeleton : f.skeleton false = g.skeleton false) (hf : s.compile entity f = .ok e)
    (hg : s.compile entity g = .ok e') :
    ∃ type m, s.entityType? entity = some type ∧ EmittedFrom s (.ofEntity type) 1 m e e' := by
  obtain ⟨type, htype, hf⟩ := compile_ok.mp hf
  obtain ⟨type', htype', hg⟩ := compile_ok.mp hg
  obtain rfl : type = type' := Option.some.inj (htype.symm.trans htype')
  obtain ⟨x, m, hx, he⟩ := compileOn_ok.mp hf
  obtain ⟨x', m', hx', he'⟩ := compileOn_ok.mp hg
  have hcontext : s.HasContext (.ofEntity type) := by
    intro l hl
    obtain rfl := List.mem_singleton.mp hl
    exact hasScope_entity htype
  obtain ⟨rfl, hemitted⟩ := f.compile_emitted g false hskeleton _ [] hcontext hx hx'
  exact ⟨type, m', htype, hemitted.condition he he'⟩

end FilterSql
