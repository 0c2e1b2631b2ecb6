import FilterSql.Proofs.Compile.Operands

/-!
# Compiled filters evaluate to what filters mean

The condition that a filter is compiled to, evaluated by the database, has the truth value of the
filter for the row at hand (`Schema.compile_correct`). There is one lemma for each operator, for
calls and for each target of a member. The induction over the parts of a filter joins them
(`Filter.correct`). Its statement, `Filter.Correct`, has to speak of filters that are compiled
behind a member as well as of those that are compiled where they stand.
-/

namespace FilterSql

open Sql (Expr Row Rows Database Truth)

section

variable {s : Schema} {db : Database} {c c' : Context} {env env' : Rows} {around : Surroundings}
    {a : Address} {l : Level} {ns : List Navigating} {x : Compiled} {e : Expr} {n m : Nat}

/-! ## Operators and functions

An operator or a function `Comes` to what the filter means, if its operands do. The members that
navigate in the operands are compiled behind, so the lemmas are stated for the list `ns` of
these. -/

/-- Composing two operands, if composing what they are compiled to agrees with `make`. -/
theorem composed_comes {l r : Filter} (op : BinaryOperator) {make : Meaning → Meaning → Meaning}
    (hl : l.Correct s db) (hr : r.Correct s db) (hshows : c.Shows env around)
    (hunpinned : c.Unpinned a) (hns : navigatingAll s c a 0 [l, r] = .ok ns)
    (hmake : ∀ {env x y z a b}, x.Means db env a → y.Means db env b → s.compose op x y = .ok z →
      z.Means db env (make a b)) :
    Comes s db c env (Compiled.Means db) ns (Filter.composed s a l op r)
      (do return make (← l.reading s db around) (← r.reading s db around)) := by
  rw [← readings_pair]
  apply Comes.of_operands (a := a) (by simpa using ⟨hl, hr⟩) hshows hunpinned hns
  intro c' _ _ _ _ n x m hx
  obtain ⟨y, k, z, hy, hz, hx⟩ := Filter.composed_ok.mp hx
  have hright : (compileAll s c' a 1 [r]).run k = .ok ([z], m) :=
    Filter.compileAll_cons_ok.mpr ⟨z, m, [], hz, Filter.compileAll_nil_ok.mpr ⟨rfl, rfl⟩, rfl⟩
  refine ⟨[y, z], Filter.compileAll_cons_ok.mpr ⟨y, k, [z], hy, hright, rfl⟩, ?_⟩
  rintro env ms (_ | ⟨hy, _ | ⟨hz, ⟨⟩⟩⟩)
  exact hmake hy hz hx

/-- `callBuiltIn` is given what the arguments are compiled to, so a call means what `Meaning.call`
makes of the meanings of its arguments. -/
theorem called_operands {g : BuiltIn} {args : List Filter}
    (hx : (Filter.called s a g args c).run n = .ok (x, m)) :
    ∃ ys, (compileAll s c a 0 args).run n = .ok (ys, m) ∧
      ∀ {env ms}, Compiled.MeanAll db env ys ms →
      x.Means db env ((Meaning.call s db g.family ms).getD .nothing) := by
  obtain ⟨ys, hys, hx⟩ := Filter.called_ok.mp hx
  exact ⟨ys, hys, fun hmeans => s.callBuiltIn_means hmeans hx⟩

/-- The call of a built-in function `Comes` to what the filter means. -/
theorem called_comes (g : BuiltIn) {args : List Filter} (hargs : ∀ f ∈ args, f.Correct s db)
    (hshows : c.Shows env around) (hunpinned : c.Unpinned a)
    (hns : navigatingAll s c a 0 args = .ok ns) :
    Comes s db c env (Compiled.Means db) ns (Filter.called s a g args)
      ((Filter.call g args).reading s db around) := by
  rw [Filter.reading]
  apply Comes.of_operands (a := a) hargs hshows hunpinned hns
  intro c' _ _ _ _ n x m hx
  exact called_operands hx

/-- `callCustom` is given what the arguments are compiled to, so a call means what
`Meaning.callCustom` makes of their meanings. -/
theorem pathCalled_operands {path : Path} {name : String}
    (hx : (path.called s a name c).run n = .ok (x, m)) :
    ∃ ys, (compileAll s c a 0 (path.arguments.map Argument.value)).run n = .ok (ys, m) ∧
      ∀ {env ms}, Compiled.MeanAll db env ys ms →
        x.Means db env
          ((Meaning.callCustom s db name ((path.arguments.map Argument.name).zip ms)).getD
            .nothing) := by
  obtain ⟨ys, hys, hx⟩ := Path.called_ok.mp hx
  exact ⟨ys, hys, fun hmeans => s.callCustom_means hmeans hx⟩

/-- The meaning of a call by `callCustom` is made of the `readings` of its arguments. -/
theorem callCustom_readings (path : Path) (name : String) :
    (do return (Meaning.callCustom s db name (← pathReadings s db around path)).getD .nothing) = (do
      let ms ← readings s db around (path.arguments.map Argument.value)
      return (Meaning.callCustom s db name ((path.arguments.map Argument.name).zip ms)).getD
        .nothing) := by
  rw [pathReadings_eq, argumentReadings_eq, bind_assoc]
  simp only [pure_bind]

theorem Path.arguments_correct {path : Path}
    (hparts : ∀ f ∈ path.flatMap Segment.parts, f.Correct s db) :
    ∀ f ∈ path.arguments.map Argument.value, f.Correct s db := by
  intro f hf
  obtain ⟨arg, harg, rfl⟩ := List.mem_map.mp hf
  exact hparts _ (Path.arguments_mem harg)

/-- The call of a schema function `Comes` to what the filter means. -/
theorem pathCalled_comes {path : Path} (name : String)
    (hparts : ∀ f ∈ path.flatMap Segment.parts, f.Correct s db) (hshows : c.Shows env around)
    (hunpinned : c.Unpinned a)
    (hns : navigatingAll s c a 0 (path.arguments.map Argument.value) = .ok ns) :
    Comes s db c env (Compiled.Means db) ns (path.called s a name)
      (do
        return (Meaning.callCustom s db name (← pathReadings s db around path)).getD .nothing) := by
  rw [callCustom_readings]
  apply Comes.of_operands (a := a) (Path.arguments_correct hparts) hshows hunpinned hns
  intro c' _ _ _ _ n x m hx
  exact pathCalled_operands hx

/-- A filter in which no member navigates is `Correct` if it is so where it stands. -/
theorem Filter.Correct.of_here {f : Filter} (hnone : ∀ c a, f.navigating s c a = .ok [])
    (hf : ∀ {c env around a}, c.Shows env around → c.Unpinned a →
      ∃ b, f.reading s db around = .one b ∧
      ∀ {n x m}, c.Ready s n → (f.compile s c a).run n = .ok (x, m) → x.Means db env b) :
      f.Correct s db := by
  constructor
  · intro c env around a ns hshows hunpinned hns
    obtain rfl : [] = ns := Except.ok.inj ((hnone c a).symm.trans hns)
    refine ⟨fun _ => hf hshows hunpinned, ?_⟩
    intro nav hnav
    cases hnav
  · intro c env around a n x m e hshows hunpinned hready hx he
    obtain ⟨b, hb, hmeans⟩ := hf hshows hunpinned
    rw [hb]
    exact (hmeans hready hx).truth_eq he

theorem compare_correct {l r : Filter} {op : Comparison} (hl : l.Correct s db)
    (hr : r.Correct s db) :
    (Filter.binary l (.compare op) r).Correct s db := by
  apply Filter.Correct.of_here
  · intro c a
    rfl
  intro c env around a hshows hunpinned
  refine ⟨_, rfl, ?_⟩
  intro n x m hready hx
  obtain ⟨-, n?, hn, hx⟩ := Filter.compile_binary_ok.mp hx
  rcases Filter.binaryNavigating_ok.mp hn with ⟨-, ns, hns, hn⟩ | ⟨hop, -⟩
  · have hcomes := composed_comes (.compare op) hl hr hshows hunpinned hns s.compare_means
    rcases hcomes.within hready (fun nav =>
      navigatingAll_found hns) hn hx with ⟨b, hb, hmeans⟩ | hmeans
    -- At once: what is compared is a condition, so its meaning is one too.
    · have hcondition : x.isCondition = true := by
        apply within_isCondition _ hx
        intro y n m hx
        obtain ⟨y, k, z, -, -, hx⟩ := Filter.composed_ok.mp hx
        exact s.compare_isCondition hx
      rw [hb]
      rw [hmeans.condition hcondition] at hmeans
      exact hmeans
    · exact hmeans
  · cases hop

theorem combine_correct {l r : Filter} {op : BinaryOperator} {sqlOp : Sql.Operator}
    (join : Truth → Truth → Truth) (hl : l.Correct s db) (hr : r.Correct s db)
    (hcompare : op.isComparison = false) (harith : op.isArithmetic = false)
    (hcompose : ∀ x y, s.compose op x y = Compiled.combine sqlOp x y)
    (hreading : ∀ around, (Filter.binary l op r).reading s db around =
      .one (.condition (join (l.reading s db around).truth (r.reading s db around).truth)))
    (hjoin : ∀ (env : Rows) (e e' : Expr), (Expr.binary e sqlOp e').eval db env =
      (join (e.eval db env).truth (e'.eval db env).truth).value) :
      (Filter.binary l op r).Correct s db := by
  apply Filter.Correct.of_here
  · intro c a
    rw [Filter.navigating, harith]
    rfl
  intro c env around a hshows hunpinned
  refine ⟨_, hreading around, ?_⟩
  intro n x m hready hx
  obtain ⟨-, n?, hn, hx⟩ := Filter.compile_binary_ok.mp hx
  rcases Filter.binaryNavigating_ok.mp hn with ⟨hop, -⟩ | ⟨-, rfl⟩
  · simp [hcompare] at hop
  · obtain ⟨y, k, z, hy, hz, hx⟩ := Filter.composed_ok.mp hx
    rw [hcompose] at hx
    obtain ⟨e, e', he, he', rfl⟩ := Compiled.combine_ok.mp hx
    have htruth := hl.truth hshows (hunpinned.part 0) hready hy he
    have hready' := hready.mono (Filter.compile_le hready hy)
    have htruth' := hr.truth hshows (hunpinned.part 1) hready' hz he'
    apply Compiled.Means.predicate
    rw [hjoin, htruth, htruth']

theorem not_correct {operand : Filter} (hoperand : operand.Correct s db) :
    (Filter.unary .not operand).Correct s db := by
  apply Filter.Correct.of_here
  · intro c a
    rfl
  intro c env around a hshows hunpinned
  refine ⟨_, rfl, ?_⟩
  intro n x m hready hx
  obtain ⟨y, hy, hx⟩ := Filter.compile_unary_ok.mp hx
  obtain ⟨e, he, rfl⟩ := Compiled.negateCondition_ok.mp hx
  have htruth := hoperand.truth hshows (hunpinned.part 0) hready hy he
  apply Compiled.Means.predicate
  rw [Expr.eval, htruth]

/-- Nothing that `calculate` gives is a condition, so its operands have to mean values. -/
theorem calculate_correct {l r : Filter} {op : Arithmetic} (hl : l.Correct s db)
    (hr : r.Correct s db) :
    (Filter.binary l (.arith op) r).Correct s db := by
  have hcomposed {c : Context} {a : Address} {n m : Nat} {x : Compiled}
      (hx : ((Filter.binary l (.arith op) r).compile s c a).run n = .ok (x, m)) :
      (Filter.composed s a l (.arith op) r c).run n = .ok (x, m) := by
    obtain ⟨-, n?, hn, hx⟩ := Filter.compile_binary_ok.mp hx
    rcases Filter.binaryNavigating_ok.mp hn with ⟨hop, -⟩ | ⟨-, rfl⟩
    · cases hop
    · exact hx
  constructor
  · intro c env around a ns hshows hunpinned hns
    rcases Filter.navigating_ok.mp hns with ⟨path, anchor, hops, offset, hmember, -⟩ |
      ⟨fs, hsearched, hns⟩
    · cases hmember
    · cases hsearched with
      | condition hop => cases hop
      | arithmetic =>
          have hcomes := composed_comes (.arith op) hl hr hshows hunpinned hns s.calculate_means
          exact hcomes.of_run hcomposed
  · intro c env around a n x m e _ _ _ hx he
    obtain ⟨y, k, z, -, -, hx⟩ := Filter.composed_ok.mp (hcomposed hx)
    obtain ⟨l, r, type, -, -, -, -, hwiden, rfl⟩ := s.calculate_ok hx
    -- A condition would be of the Boolean type, which no numbers widen to.
    obtain ⟨rfl, -⟩ : type = .boolean ∧ _ := by
      simpa [Compiled.ofType, Compiled.predicate?, ValueType.of] using he
    cases Schema.widen?_isNumeric hwiden

theorem minus_correct {operand : Filter} (hoperand : operand.Correct s db) :
    (Filter.unary .minus operand).Correct s db := by
  constructor
  · intro c env around a ns hshows hunpinned hns
    rcases Filter.navigating_ok.mp hns with ⟨path, anchor, hops, offset, hmember, -⟩ |
      ⟨fs, hsearched, hns⟩
    · cases hmember
    · cases hsearched
      rw [Filter.reading, ← readings_single]
      apply Comes.of_operands (a := a) (by simpa using hoperand) hshows hunpinned hns
      intro c' _ _ _ _ n x m hx
      obtain ⟨y, hy, hx⟩ := Filter.compile_unary_ok.mp hx
      refine ⟨[y], Filter.compileAll_cons_ok.mpr
        ⟨y, m, [], hy, Filter.compileAll_nil_ok.mpr ⟨rfl, rfl⟩, rfl⟩, ?_⟩
      rintro env ms (_ | ⟨hy, ⟨⟩⟩)
      exact Compiled.negate_means hy hx
  · intro c env around a n x m e _ _ _ hx he
    obtain ⟨y, -, hx⟩ := Filter.compile_unary_ok.mp hx
    obtain ⟨l, l', -, rfl, -⟩ := Compiled.negate_ok hx
    cases he

theorem call_correct {g : BuiltIn} {args : List Filter} (hargs : ∀ f ∈ args, f.Correct s db) :
    (Filter.call g args).Correct s db := by
  constructor
  · intro c env around a ns hshows hunpinned hns
    rcases Filter.navigating_ok.mp hns with ⟨path, anchor, hops, offset, hmember, -⟩ |
      ⟨fs, hsearched, hns⟩
    · cases hmember
    · cases hsearched
      rw [Filter.reading]
      apply Comes.of_operands hargs hshows hunpinned hns
      intro c' _ _ _ hnone n x m hx
      obtain ⟨ns', n?, hns', hn, hx⟩ := Filter.compile_call_ok.mp hx
      obtain rfl : [] = ns' := Except.ok.inj (hnone.symm.trans hns')
      obtain rfl : none = n? := Except.ok.inj hn
      exact called_operands hx
  · intro c env around a n x m e hshows hunpinned hready hx he
    obtain ⟨ns, n?, hns, hn, hx⟩ := Filter.compile_call_ok.mp hx
    have hcomes := called_comes g hargs hshows hunpinned hns
    exact hcomes.within_truth hready (fun nav => navigatingAll_found hns) hn hx he

/-! ## Members

A quantifier ranges over the rows behind hops. Its body is `Correct` on the level that is opened
for one of them, in the surroundings where the variable is bound to this row. -/

/-- `resolve` takes no path without names. -/
theorem isEmpty_of_resolve {scope : Scope} {names : List String} {r : Resolution}
    (h : s.resolve scope names = .ok r) :
    names.isEmpty = false := by
  have hne := (Schema.resolve_ok.mp h).1
  simpa using hne

/-- For each element, the body of a quantifier has the truth value of the `bodyCondition` on its
level. -/
theorem body_truth {path : Path} {name : String} {scope : Scope} {k : Nat}
    (hparts : ∀ f ∈ path.flatMap Segment.parts, f.Correct s db) (hshows : c.Shows env around)
    (hunpinned : c.Unpinned (0 :: a)) (hsame : c.SameRows env env')
    (hready : (c.inside ⟨scope, k, .element name⟩).Ready s n)
    (hrun : (path.bodyCondition s a (c.inside ⟨scope, k, .element name⟩)).run n = .ok (e, m)) :
    (e.eval db env').truth =
      bodyTruth s db (around.bind name ⟨scope, env' (some (tableAlias k))⟩) path := by
  obtain ⟨y, hy, he⟩ := conditionOf_ok.mp hrun
  rw [compileBody_eq] at hy
  rw [bodyTruth_eq]
  cases hbody : path.body? with
  | none =>
      rw [hbody] at hy
      exact (Numbered.throw_ok.mp hy).elim
  | some body =>
      rw [hbody] at hy
      have hcorrect := hparts body (Path.body?_mem hbody)
      exact hcorrect.truth (hshows.bind hsame) hunpinned.bind hready hy he

/-- The elements of a collection: the rows that `hops` reach, each with the scope of the `last`
one. -/
def Hop.elements (db : Database) (hops : List Hop) (last : Hop) (row : Row) : List Standing :=
  (reach db hops row).map fun row => ⟨last.target, row⟩

theorem Standing.asked_resolved (st : Standing) {names : List String} {front : List Hop}
    {last : Hop} (hr : s.resolve st.scope names = .ok ⟨front ++ [last], none⟩)
    (question : List Standing → Truth) :
    st.asked s db names question =
      .one (.condition (question (Hop.elements db (front ++ [last]) last st.row))) := by
  simp [asked, hr, Hop.elements]

/-- **Whether there is an element** for which a condition on its level holds: `someRow` evaluates
to this. -/
theorem elements_evaluate {condition : Context → Numbered Expr} {front : List Hop} {last : Hop}
    {name : String} {P : Standing → Bool} (hshows : c.Shows env around) (hunpinned : c.Unpinned a)
    (hready : c.Ready s n) (hl : l ∈ c.levels) (hhas : ∀ h ∈ front ++ [last], s.HasHop h)
    (hcondition : ∀ {c : Context} {env env' : Rows} {k n : Nat} {x : Expr} {m : Nat},
      c.Shows env around →
      c.Unpinned (0 :: a) → c.SameRows env env' →
      (c.inside ⟨last.target, k, .element name⟩).Ready s n →
      (condition (c.inside ⟨last.target, k, .element name⟩)).run n = .ok (x, m) →
      x.holds db env' = P ⟨last.target, env' (some (tableAlias k))⟩)
    (hask : (Hop.ask (Hop.someRow (.element name) fun inner => do return some (← condition inner))
      c l.label (front ++ [last])).run n = .ok (e, m)) :
    e.eval db env =
      .boolean ((Hop.elements db (front ++ [last]) last (env (some l.label))).any P) := by
  -- The hops are gone for the member itself, and its body stands below it.
  have hbelow : ¬ (0 :: a) <:+ a := by
    intro h
    have hlength := h.length_le
    simp only [List.length_cons] at hlength
    omega
  rw [Hop.elements, List.any_map]
  apply Hop.ask_evaluates (.refl a c env) hready hl hhas _ hask
  intro c' env' l n e m hbehind hready hl hrun
  have hshows' := hshows.behind hbehind
  have hunpinned' := (hunpinned.part 0).behind hbehind hbelow
  apply Hop.narrowedRow_evaluates (P := fun row =>
    P ⟨last.target, row⟩) hready hl (hhas last (by simp)) hrun
  intro env'' x k m hsame hready hx
  exact hcondition hshows' hunpinned' hsame hready hx

section

variable {path : Path} {anchor : Level} {names : List String} {front : List Hop} {last : Hop}
    {name : String}

/-- `Path.matching` evaluates to whether there is an element for which the body of the quantifier
is true. -/
theorem matching_evaluates (hparts : ∀ f ∈ path.flatMap Segment.parts, f.Correct s db)
    (hshows : c.Shows env around) (hunpinned : c.Unpinned a) (hready : c.Ready s n)
    (hl : l ∈ c.levels) (hhas : ∀ h ∈ front ++ [last], s.HasHop h)
    (hask : (Hop.ask (path.matching s a name) c l.label (front ++ [last])).run n = .ok (e, m)) :
    e.eval db env =
      .boolean ((Hop.elements db (front ++ [last]) last (env (some l.label))).any fun st =>
      (bodyTruth s db (around.bind name st) path).holds) := by
  apply elements_evaluate hshows hunpinned hready hl hhas _ hask
  intro c env env' k n x m hshows hunpinned hsame hready hx
  rw [Expr.holds, body_truth hparts hshows hunpinned hsame hready hx]

/-- `Path.violating` evaluates to whether there is an element for which the body of the quantifier
is not. -/
theorem violating_evaluates (hparts : ∀ f ∈ path.flatMap Segment.parts, f.Correct s db)
    (hshows : c.Shows env around) (hunpinned : c.Unpinned a) (hready : c.Ready s n)
    (hl : l ∈ c.levels) (hhas : ∀ h ∈ front ++ [last], s.HasHop h)
    (hask : (Hop.ask (path.violating s a name) c l.label (front ++ [last])).run n = .ok (e, m)) :
    e.eval db env =
      .boolean ((Hop.elements db (front ++ [last]) last (env (some l.label))).any fun st =>
      (bodyTruth s db (around.bind name st) path).neg.holds) := by
  apply elements_evaluate hshows hunpinned hready hl hhas _ hask
  intro c env env' k n x m hshows hunpinned hsame hready hx
  obtain ⟨y, k, hy, hpure⟩ := Numbered.bind_ok.mp hx
  obtain ⟨rfl, rfl⟩ := Numbered.pure_ok.mp hpure
  have htruth := body_truth hparts hshows hunpinned hsame hready hy
  rw [Expr.holds, Expr.eval, Truth.truth_value, htruth]

/-! What each target of a member means: a lemma for each constructor of `Target`, and
`target_means` for all. -/

theorem element_means : ∃ b, (anchor.standing env).column s db [] = .one b ∧
    ∀ {n x m}, (path.compileAs s a c (anchor, .element)).run n = .ok (x, m) → x.Means db env b := by
  cases hp : anchor.scope.elementPath? with
  | none =>
      refine ⟨.nothing, by simp [Standing.column, Level.standing, hp], ?_⟩
      intro n x m hx
      obtain ⟨p, hsome, -⟩ := Path.compileAs_element_ok.mp hx
      cases hp.symm.trans hsome
  | some p =>
      refine ⟨.value (env (some anchor.label) p.column) p.type, by
        simp [Standing.column, Level.standing, hp], ?_⟩
      intro n x m hx
      obtain ⟨p', hsome, rfl, -⟩ := Path.compileAs_element_ok.mp hx
      obtain rfl : p = p' := Option.some.inj (hp.symm.trans hsome)
      exact .member p rfl

theorem leaf_means {leaf : AttributePath}
    (hr : s.resolve anchor.scope names = .ok ⟨[], some leaf⟩) :
    ∃ b, (anchor.standing env).column s db names = .one b ∧
      ∀ {n x m}, (path.compileAs s a c (anchor, .attribute leaf)).run n = .ok (x, m) →
        x.Means db env b := by
  refine ⟨.value (env (some anchor.label) leaf.column) leaf.type, ?_, ?_⟩
  · simp [Standing.column, Level.standing, isEmpty_of_resolve hr, hr, Hop.along]
  · intro n x m hx
    obtain ⟨rfl, -⟩ := Path.compileAs_leaf_ok.mp hx
    exact .member leaf rfl

theorem count_means (hl : anchor ∈ c.levels)
    (hr : s.resolve anchor.scope names = .ok ⟨[last], none⟩) :
    ∃ b, (anchor.standing env).count s db names = .one b ∧ ∀ {n x m}, c.Ready s n →
      (path.compileAs s a c (anchor, .count [last])).run n = .ok (x, m) → x.Means db env b := by
  refine ⟨.value (.long (last.related db (env (some anchor.label))).length)
    { dataType := .long, nullable := false }, ?_, ?_⟩
  · simp [Standing.count, Level.standing, hr, Hop.along]
  · intro n x m hready hx
    obtain ⟨e, he, rfl⟩ := Path.compileAs_count_ok.mp hx
    rw [Hop.ask_singleton] at he
    exact .value _ (Hop.countRows_evaluates hready hl he)

theorem nonempty_means (hl : anchor ∈ c.levels)
    (hhas : s.HasContext c → ∀ h ∈ front ++ [last], s.HasHop h)
    (hr : s.resolve anchor.scope names = .ok ⟨front ++ [last], none⟩) :
    ∃ b, (anchor.standing env).asked s db names (fun elements => some !elements.isEmpty) = .one b ∧
      ∀ {n x m}, c.Ready s n → (path.compileAs s a c (anchor, .nonempty (front ++ [last]))).run n =
        .ok (x, m) →
        x.Means db env b := by
  refine ⟨_, (anchor.standing env).asked_resolved hr _, ?_⟩
  intro n x m hready hx
  obtain ⟨e, he, rfl⟩ := Path.compileAs_nonempty_ok.mp hx
  have hhas' := hhas hready.has
  have heval : e.eval db env =
      .boolean ((Hop.reach db (front ++ [last]) (env (some anchor.label))).any fun _ => true) := by
    apply Hop.ask_evaluates (.refl a c env) hready hl hhas' _ he
    intro c' env' l n e m _ hready hl hrun
    apply Hop.someRow_evaluates hready hl (hhas' last (by simp)) hrun
    intro env'' narrowed k m _ _ hnone
    obtain ⟨rfl, -⟩ := Numbered.pure_ok.mp hnone
    rfl
  apply Compiled.Means.subquery
  rw [heval, Hop.elements, List.isEmpty_map, Level.standing]
  cases Hop.reach db (front ++ [last]) (env (some anchor.label)) with
  | nil => rfl
  | cons row rows => rfl

theorem any_means (hparts : ∀ f ∈ path.flatMap Segment.parts, f.Correct s db)
    (hshows : c.Shows env around) (hunpinned : c.Unpinned a) (hl : anchor ∈ c.levels)
    (hhas : s.HasContext c → ∀ h ∈ front ++ [last], s.HasHop h)
    (hr : s.resolve anchor.scope names = .ok ⟨front ++ [last], none⟩) :
    ∃ b, (anchor.standing env).asked s db names (fun elements =>
        some (elements.any fun st => (bodyTruth s db (around.bind name st) path).holds)) = .one b ∧
      ∀ {n x m}, c.Ready s n → (path.compileAs s a c (anchor, .any (front ++ [last]) name)).run n =
        .ok (x, m) →
        x.Means db env b := by
  refine ⟨_, (anchor.standing env).asked_resolved hr _, ?_⟩
  intro n x m hready hx
  obtain ⟨e, he, rfl⟩ := Path.compileAs_any_ok.mp hx
  exact .subquery (matching_evaluates hparts hshows hunpinned hready hl (hhas hready.has) he)

theorem all_means (hparts : ∀ f ∈ path.flatMap Segment.parts, f.Correct s db)
    (hshows : c.Shows env around) (hunpinned : c.Unpinned a) (hl : anchor ∈ c.levels)
    (hhas : s.HasContext c → ∀ h ∈ front ++ [last], s.HasHop h)
    (hr : s.resolve anchor.scope names = .ok ⟨front ++ [last], none⟩) :
    ∃ b, (anchor.standing env).asked s db names (fun elements =>
        some (elements.any (fun st => (bodyTruth s db (around.bind name st) path).holds) &&
          elements.all fun st =>
            bodyTruth s db (around.bind name st) path != some false)) = .one b ∧
      ∀ {n x m}, c.Ready s n → (path.compileAs s a c (anchor, .all (front ++ [last]) name)).run n =
        .ok (x, m) →
        x.Means db env b := by
  refine ⟨_, (anchor.standing env).asked_resolved hr _, ?_⟩
  intro n x m hready hx
  obtain ⟨e, k, e', he, he', rfl⟩ := Path.compileAs_all_ok.mp hx
  have hhas' := hhas hready.has
  -- The body is compiled twice, and the second time takes the numbers behind those of the first.
  have hle : n ≤ k := by
    have hquestion : Hop.QuestionPair s (path.matching s a name) (path.matching s a name) := by
      apply Hop.someRow_pair
      intro inner hinner
      exact bodyCondition_pair hinner rfl fun f _ => f.compile_emitted
    have hpair := Hop.ask_emitted hready.has hl hhas' hquestion
    exact hpair.le he he
  have hsome := matching_evaluates hparts hshows hunpinned hready hl hhas' he
  have hother := violating_evaluates hparts hshows hunpinned (hready.mono hle) hl hhas' he'
  apply Compiled.Means.subquery
  rw [Expr.and, Expr.eval, Expr.eval, hsome, hother, Truth.truth_value]
  simp only [Value.truth, Truth.neg_some, Truth.conj_some, Truth.not_any_neg]
  rfl

end

/-- **What is asked of the rows that a member leads to** means what the member means, by cases of
`target`. -/
theorem target_means {path : Path} {anchor : Level} {target : Target}
    (hparts : ∀ f ∈ path.flatMap Segment.parts, f.Correct s db) (hshows : c.Shows env around)
    (hunpinned : c.Unpinned a) (hfound : s.denote c a path = .ok (anchor, target))
    (hnavigation : ∀ hops offset, target ≠ .navigation hops offset)
    (hfunction : ∀ name, target ≠ .function name) :
    ∃ b, (Filter.member path).reading s db around = .one b ∧ ∀ {n x m}, c.Ready s n →
      (path.compileAs s a c (anchor, target)).run n = .ok (x, m) → x.Means db env b := by
  obtain ⟨start, names, tail, hanchor, hsplit, hdenotes⟩ := s.denote_ok.mp hfound
  have hl : anchor ∈ c.levels := Context.mem_of_anchor hanchor
  have hhas : s.HasContext c → ∀ h ∈ target.hops, s.HasHop h := by
    intro hcontext
    have htarget := (s.denote_has hcontext hfound).2
    exact htarget.hops
  have htail : ∀ name rest, tail ≠ .property name :: rest := by
    rintro name rest rfl
    rcases hdenotes.tail with h | ⟨last, h, hlast⟩
    · cases h
    · exact hlast name (List.cons.inj h).1.symm
  rw [hshows.reading_member (hunpinned a (List.suffix_refl a)) hanchor hsplit htail]
  -- Each of the targets has its own lemma, but for those that have been excluded.
  cases hdenotes with
  | element =>
      obtain ⟨b, hb, hmeans⟩ := element_means
      exact ⟨b, hb, fun _ hx => hmeans hx⟩
  | leaf hr =>
      obtain ⟨b, hb, hmeans⟩ := leaf_means hr
      exact ⟨b, hb, fun _ hx => hmeans hx⟩
  | count hr _ => exact count_means hl hr
  | nonempty hr _ => exact nonempty_means hl hhas hr
  | any hr _ => exact any_means hparts hshows hunpinned hl hhas hr
  | all hr _ => exact all_means hparts hshows hunpinned hl hhas hr
  | navigation hr => exact absurd rfl (hnavigation _ _)
  | countBehind hr _ => exact absurd rfl (hnavigation _ _)
  | function hstart => exact absurd rfl (hfunction _)

/-- A path that denotes a `function` is read as the call. -/
theorem reading_function {path : Path} {anchor : Level} {name : String}
    (hshows : c.Shows env around) (hunpinned : c.Unpinned a)
    (hfound : s.denote c a path = .ok (anchor, .function name)) :
    (Filter.member path).reading s db around =
      (do
        return (Meaning.callCustom s db name (← pathReadings s db around path)).getD .nothing) := by
  obtain ⟨start, names, tail, hanchor, hsplit, hdenotes⟩ := s.denote_ok.mp hfound
  cases hdenotes with
  | function hstart =>
      rw [hshows.reading_member (hunpinned a (List.suffix_refl a)) hanchor hsplit (by simp)]
      rw [Standing.member]

/-- **A member that navigates** means, behind its hops, what is left of it there. -/
theorem navigation_means {path : Path} {anchor : Level} {hops : List Hop} {offset : Nat}
    (hshows : c.Shows env around) (hunpinned : c.Unpinned a)
    (hfound : s.denote c a path = .ok (anchor, .navigation hops offset)) :
    ∃ read : Row → Meaning, (Filter.member path).reading s db around =
        .each ((Hop.reach db hops (env (some anchor.label))).map read) ∧
      ∀ {c' env' l n x m}, Navigating.Opens ⟨a, path, anchor, hops, offset⟩ c env c' env' l →
        c'.Ready s n →
        (path.compileBehind s a c').run n = .ok (x, m) →
        x.Means db env' (read (env' (some l.label))) := by
  obtain ⟨start, names, tail, target, front, last, hanchor, hsplit, hleads, rfl, hbehind⟩ :=
    s.denote_behind hfound
  -- Behind the hops the member denotes what they have led to, on the level that was opened for it.
  have hcompile {c' : Context} {env' : Rows} {l : Level} {n m : Nat} {x : Compiled}
      (hopens : Navigating.Opens ⟨a, path, anchor, front ++ [last], offset⟩ c env c' env' l)
      (hx : (path.compileBehind s a c').run n = .ok (x, m)) :
      l ∈ c'.levels ∧ (path.compileAs s a c' (l, target)).run n = .ok (x, m) := by
    obtain ⟨found, hfound', hx⟩ := Path.compileBehind_ok.mp hx
    have hdenote := hbehind c' l hopens.pinned (hopens.scope front last rfl)
    obtain rfl : (l, target) = found := Except.ok.inj (hdenote.symm.trans hfound')
    exact ⟨Context.pinned?_mem hopens.pinned, hx⟩
  have hnone : c.pinned? a = none := hunpinned a (List.suffix_refl a)
  cases hleads with
  | @leaf leaf hr =>
      refine ⟨fun row => .value (row leaf.column) leaf.type, ?_, ?_⟩
      · rw [hshows.reading_member hnone hanchor hsplit (by simp)]
        simp [Standing.member, Standing.column, Level.standing, isEmpty_of_resolve hr, hr,
          Hop.along]
      · intro c' env' l n x m hopens _ hx
        obtain ⟨rfl, -⟩ := Path.compileAs_leaf_ok.mp (hcompile hopens hx).2
        exact .member leaf rfl
  | @count last₁ last' hr hlast hsame =>
      refine ⟨fun row =>
        .value (.long (last₁.related db row).length) { dataType := .long, nullable := false },
        ?_, ?_⟩
      · rw [hshows.reading_member hnone hanchor hsplit (by simp)]
        simp [Standing.member, Standing.count, Level.standing, hr, Hop.along]
      · intro c' env' l n x m hopens hready hx
        obtain ⟨hl, hx⟩ := hcompile hopens hx
        obtain ⟨e, he, rfl⟩ := Path.compileAs_count_ok.mp hx
        rw [Hop.ask_singleton] at he
        obtain ⟨htarget, hkind, hlead⟩ := Hop.eq_of_unnumbered hsame
        have hrelated : last'.related db = last₁.related db := Hop.related_eq db htarget hkind hlead
        have heval : e.eval db env' = .long (last'.related db (env' (some l.label))).length :=
          Hop.countRows_evaluates hready hl he
        rw [hrelated] at heval
        exact .value _ heval

/-- A member that denotes a `function` is compiled to the call, if no argument navigates. -/
theorem function_operands {path : Path} {anchor : Level} {name : String}
    (hfound : s.denote c a path = .ok (anchor, .function name))
    (hnone : navigatingAll s c a 0 (path.arguments.map Argument.value) = .ok [])
    (hx : ((Filter.member path).compile s c a).run n = .ok (x, m)) :
    (path.called s a name c).run n = .ok (x, m) := by
  have hx := Path.compileAs_of_member hfound (by simp) hx
  obtain ⟨ns, n?, hns, hn, hx⟩ := Path.compileAs_function_ok.mp hx
  obtain rfl : [] = ns := Except.ok.inj (hnone.symm.trans hns)
  obtain rfl : none = n? := Except.ok.inj hn
  exact hx

theorem member_comes {path : Path} (hparts : ∀ f ∈ path.flatMap Segment.parts, f.Correct s db)
    (hshows : c.Shows env around) (hunpinned : c.Unpinned a)
    (hns : (Filter.member path).navigating s c a = .ok ns) :
    Comes s db c env (Compiled.Means db) ns (fun c => (Filter.member path).compile s c a)
      ((Filter.member path).reading s db around) := by
  rcases Filter.navigating_ok.mp hns with ⟨path', anchor, hops, offset, hmember, hfound, rfl⟩ |
    ⟨fs, hsearched, hns⟩
  · obtain rfl : path = path' := Filter.member.inj hmember
    refine ⟨fun hnone => by simp at hnone, ?_⟩
    intro nav hnav
    obtain rfl := List.singleton_inj.mp hnav
    obtain ⟨read, hread, hmeans⟩ := navigation_means hshows hunpinned hfound
    refine ⟨read, hread, ?_⟩
    intro c' env' l n x m hopens hready hx
    obtain ⟨target, hfound', hnavigation, -⟩ := hopens.denote hfound
    have hx := Path.compileAs_of_member hfound' hnavigation hx
    exact hmeans hopens hready (Path.compileBehind_ok.mpr ⟨_, hfound', hx⟩)
  -- It does not navigate itself, but the arguments of a function that it calls may.
  · cases hsearched with
    | function hfound =>
        rw [reading_function hshows hunpinned hfound, callCustom_readings]
        apply Comes.of_operands (a := a) (Path.arguments_correct hparts) hshows hunpinned hns
        intro c' b hb hagrees hnone n x m hx
        have hfound' := (s.denote_away hagrees hb.symm).trans hfound
        exact pathCalled_operands (function_operands hfound' hnone hx)
    | member hfound hnavigation hfunction =>
        obtain rfl : [] = ns := Except.ok.inj hns
        obtain ⟨b, hb, hmeans⟩ := target_means hparts hshows hunpinned hfound hnavigation hfunction
        refine ⟨fun _ => ⟨b, hb, ?_⟩, fun nav hnav => by simp at hnav⟩
        intro n x m hready hx
        exact hmeans hready (Path.compileAs_of_member hfound hnavigation hx)

theorem member_truth {path : Path} (hparts : ∀ f ∈ path.flatMap Segment.parts, f.Correct s db)
    (hshows : c.Shows env around) (hunpinned : c.Unpinned a) (hready : c.Ready s n)
    (hx : ((Filter.member path).compile s c a).run n = .ok (x, m)) (he : x.predicate? = some e) :
    (e.eval db env).truth = ((Filter.member path).reading s db around).truth := by
  obtain ⟨anchor, target, hfound, hx⟩ := Filter.compile_member_ok.mp hx
  by_cases hnavigation : ∃ hops offset, target = .navigation hops offset
  -- Behind its hops the member is compiled for each row, and here a row is asked for.
  · obtain ⟨hops, offset, rfl⟩ := hnavigation
    obtain ⟨read, hread, hmeans⟩ := navigation_means hshows hunpinned hfound
    have hcomes : Comes s db c env (Compiled.Means db) [⟨a, path, anchor, hops, offset⟩]
        (path.compileBehind s a) ((Filter.member path).reading s db around) := by
      refine ⟨fun hnone => by simp at hnone, ?_⟩
      intro nav hnav
      obtain rfl := List.singleton_inj.mp hnav
      exact ⟨read, hread, hmeans⟩
    apply hcomes.within_truth hready _ rfl hx he
    intro nav hnav
    obtain rfl := List.mem_singleton.mp hnav
    exact hfound
  · have hnavigation : ∀ hops offset, target ≠ .navigation hops offset :=
      fun hops offset heq => hnavigation ⟨hops, offset, heq⟩
    have hx : (path.compileAs s a c (anchor, target)).run n = .ok (x, m) := by
      cases target with
      | navigation hops offset => exact absurd rfl (hnavigation hops offset)
      | _ => exact hx
    by_cases hfunction : ∃ name, target = .function name
    · obtain ⟨name, rfl⟩ := hfunction
      obtain ⟨ns, n?, hns, hn, hx⟩ := Path.compileAs_function_ok.mp hx
      rw [reading_function hshows hunpinned hfound]
      have hcomes := pathCalled_comes name hparts hshows hunpinned hns
      exact hcomes.within_truth hready (fun nav => navigatingAll_found hns) hn hx he
    · have hfunction : ∀ name, target ≠ .function name := fun name heq => hfunction ⟨name, heq⟩
      obtain ⟨b, hb, hmeans⟩ := target_means hparts hshows hunpinned hfound hnavigation hfunction
      rw [hb]
      exact (hmeans hready hx).truth_eq he

theorem member_correct {path : Path} (hparts : ∀ f ∈ path.flatMap Segment.parts, f.Correct s db) :
    (Filter.member path).Correct s db :=
  ⟨member_comes hparts, member_truth hparts⟩

/-! ## Constants

The filters without operands, in which no member navigates. What they mean does not depend on the
row, and neither does what they are compiled to. -/

/-- A filter is `Correct` if it means the same for every row, and is compiled to something that
means this. -/
theorem Filter.Correct.of_constant {f : Filter} {b : Meaning}
    (hnone : ∀ c a, f.navigating s c a = .ok []) (hb : ∀ around, f.reading s db around = .one b)
    (hmeans : ∀ {c env a n x m}, (f.compile s c a).run n = .ok (x, m) → x.Means db env b) :
    f.Correct s db := by
  apply of_here hnone
  intro c env around a _ _
  refine ⟨b, hb around, ?_⟩
  intro n x m _ hx
  exact hmeans hx

theorem has_correct (l r : Filter) : (Filter.binary l .has r).Correct s db := by
  apply Filter.Correct.of_constant (b := .nothing) (fun _ _ => rfl)
  · intro around
    rw [Filter.reading]
  · intro c env a n x m hx
    obtain ⟨hhas, -⟩ := Filter.compile_binary_ok.mp hx
    exact absurd rfl hhas

theorem literal_correct (l : Literal) : (Filter.literal l).Correct s db := by
  apply Filter.Correct.of_constant (b := .literal l) (fun _ _ => rfl)
  · intro around
    rw [Filter.reading]
  · intro c env a n x m hx
    obtain ⟨rfl, -⟩ := Numbered.pure_ok.mp hx
    exact .literal l

theorem enumMember_correct (type member : String) :
    (Filter.enumMember type member).Correct s db := by
  cases hvalue : s.coerceMember type member none with
  | error _ =>
      apply Filter.Correct.of_constant (b := .nothing) (fun _ _ => rfl)
      · intro around
        rw [Filter.reading, hvalue]
      · intro c env a n x m hx
        obtain ⟨v, t, hsome, -⟩ := Filter.compile_enumMember_ok hx
        cases hvalue.symm.trans hsome
  | ok found =>
      obtain ⟨v, t⟩ := found
      apply Filter.Correct.of_constant (b := .value v t) (fun _ _ => rfl)
      · intro around
        rw [Filter.reading, hvalue]
      · intro c env a n x m hx
        obtain ⟨v', t', hsome, rfl, -⟩ := Filter.compile_enumMember_ok hx
        obtain ⟨rfl, rfl⟩ := Prod.mk.inj (Except.ok.inj (hvalue.symm.trans hsome))
        exact .value t rfl

theorem typeName_correct (name : String) : (Filter.typeName name).Correct s db := by
  cases htype : DataType.ofName? name with
  | none =>
      apply Filter.Correct.of_constant (b := .nothing) (fun _ _ => rfl)
      · intro around
        rw [Filter.reading, htype]
      · intro c env a n x m hx
        obtain ⟨t, hsome, -⟩ := Filter.compile_typeName_ok hx
        cases htype.symm.trans hsome
  | some t =>
      apply Filter.Correct.of_constant (b := .typeName t) (fun _ _ => rfl)
      · intro around
        rw [Filter.reading, htype]
      · intro c env a n x m hx
        obtain ⟨t', hsome, rfl, -⟩ := Filter.compile_typeName_ok hx
        obtain rfl : t = t' := Option.some.inj (htype.symm.trans hsome)
        exact .typeName t

theorem parameterAlias_correct (name : String) : (Filter.parameterAlias name).Correct s db := by
  apply Filter.Correct.of_constant (b := .nothing) (fun _ _ => rfl)
  · intro around
    rw [Filter.reading]
  · intro c env a n x m hx
    exact (Numbered.throw_ok.mp hx).elim

/-! ## Whole filters

The root context `Shows` the root row, and is `Ready` for the number one. The query of a filter
picks from the table of the entity type, so its rows are those that the compiled condition holds
of. -/

/-- **Every filter is compiled to what it means** (`Filter.Correct`), by induction on its parts. -/
theorem Filter.correct (f : Filter) : f.Correct s db := by
  -- The induction is on the parts of a filter, which are its operands, arguments and bodies.
  induction f using Filter.induction with
  | step f ih =>
      cases f with
      | binary l op r =>
          have hl := ih l (by simp [Filter.parts])
          have hr := ih r (by simp [Filter.parts])
          cases op with
          | compare op => exact compare_correct hl hr
          | arith op => exact calculate_correct hl hr
          | and =>
              apply combine_correct Truth.conj hl hr rfl rfl (fun _ _ => rfl)
              · intro around
                rw [Filter.reading]
              · intro env e e'
                rw [Expr.eval]
          | or =>
              apply combine_correct Truth.disj hl hr rfl rfl (fun _ _ => rfl)
              · intro around
                rw [Filter.reading]
              · intro env e e'
                rw [Expr.eval]
          | has => exact has_correct l r
      | unary op operand =>
          have hoperand := ih operand (by simp [Filter.parts])
          cases op with
          | not => exact not_correct hoperand
          | minus => exact minus_correct hoperand
      | member path => exact member_correct ih
      | call g args => exact call_correct ih
      | literal l => exact literal_correct l
      | enumMember type member => exact enumMember_correct type member
      | typeName name => exact typeName_correct name
      | parameterAlias name => exact parameterAlias_correct name

/-- The root level `Shows` the root row. -/
theorem Context.shows_root (type : EntityType) (env : Rows) :
    (ofEntity type).Shows env { root := ⟨.entity type, env (some (tableAlias 0))⟩ } :=
  ⟨rfl, fun _ => rfl, rfl⟩

theorem Context.ready_root {entity : String} {type : EntityType}
    (h : s.entityType? entity = some type) :
    (ofEntity type).Ready s 1 := by
  constructor
  · intro l hl
    obtain rfl := List.mem_singleton.mp hl
    exact Schema.hasScope_entity h
  · intro l hl
    obtain rfl := List.mem_singleton.mp hl
    exact Nat.one_pos

end

/-- **Compilation is correct.** For each row of the entity type, the compiled condition has the
truth value `f.truth` of the filter. The query of the filter answers with the rows of which the
filter is true, and with no others. -/
theorem Schema.compile_correct {s : Schema} {entity : String} {f : Filter} {e : Expr}
    (h : s.compile entity f = .ok e) :
    ∃ type q, s.entityType? entity = some type ∧ s.select entity f = .ok q ∧
      ∀ (db : Database) (env : Rows),
      (e.eval db env).truth = f.truth s db type (env (some (tableAlias 0))) ∧
        q.answer? db env = some ((db.rows type.table).filter fun row =>
          (f.truth s db type row).holds) := by
  obtain ⟨type, htype, hcompile⟩ := compile_ok.mp h
  obtain ⟨x, m, hx, he⟩ := compileOn_ok.mp hcompile
  have htruth (db : Database) (env : Rows) :
      (e.eval db env).truth = f.truth s db type (env (some (tableAlias 0))) := by
    have hunpinned : (Context.ofEntity type).Unpinned [] := fun _ _ => rfl
    exact f.correct.truth (Context.shows_root type env) hunpinned (Context.ready_root htype) hx he
  refine ⟨type, _, htype, select_ok.mpr ⟨type, e, htype, hcompile, rfl⟩, ?_⟩
  intro db env
  refine ⟨htruth db env, ?_⟩
  -- The root row is bound to its alias before the condition is asked of it.
  simp only [Sql.Select.answer?, Sql.Select.matches, Sql.joinRows, htruth, List.filter_map,
    List.map_map, Function.comp_def, Rows.bind_self, List.map_id']

theorem Schema.correct_roleLike : ∃ e, sample.compile "User" (.roleLike "x") = .ok e ∧
    ∃ type q, sample.entityType? "User" = some type ∧ sample.select "User" (.roleLike "x") = .ok q ∧
      ∀ (db : Database) (env : Rows),
        (e.eval db env).truth = (Filter.roleLike "x").truth sample db type
          (env (some (tableAlias 0))) ∧
          q.answer? db env = some ((db.rows type.table).filter fun row =>
            ((Filter.roleLike "x").truth sample db type row).holds) :=
  ⟨_, rfl, compile_correct rfl⟩

end FilterSql
