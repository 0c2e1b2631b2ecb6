import FilterSql.Proofs.Filter.Meaning

/-!
# What operators and functions evaluate to

`Compiled.Means` relates a compiled operand to a meaning: evaluating the one gives what the other
says. Operators and functions keep this relation, those of the compiler on one side and those of
`Meaning` on the other (`compare_means`, `calculate_means`, `callBuiltIn_means`,
`callCustom_means`).
-/

namespace FilterSql

open Sql (Expr Truth Database Rows)

/-! ## Expressions and meanings

`x.Means db env m`: in the rows of `env`, the compiled operand `x` has the value and the type of
the meaning `m`. What the compiler asks of an operand can then be asked of its meaning
(`type?_eq`). -/

/-- What a compiled operand evaluates to, where the aliases stand for the rows `env`. Literals
stand for themselves. -/
inductive Compiled.Means (db : Database) (env : Rows) : Compiled → Meaning → Prop where
  | predicate {e : Expr} {t : Truth} (he : e.eval db env = t.value) :
      Means db env (.predicate e) (.condition t)
  | subquery {e : Expr} {t : Truth} (he : e.eval db env = t.value) :
      Means db env (.subquery e) (.condition t)
  | value {e : Expr} {v : Value} (type : ValueType) (he : e.eval db env = v) :
      Means db env (.value e type) (.value v type)
  | member {e : Expr} {v : Value} (path : AttributePath) (he : e.eval db env = v) :
      Means db env (.member e path) (.value v path.type)
  | literal (l : Literal) : Means db env (.literal l) (.literal l)
  | typeName (t : DataType) : Means db env (.typeName t) (.typeName t)

/-- Operands and their meanings, one after the other. -/
inductive Compiled.MeanAll (db : Database) (env : Rows) : List Compiled → List Meaning → Prop where
  | nil : MeanAll db env [] []
  | cons {x : Compiled} {m : Meaning} {xs : List Compiled} {ms : List Meaning}
      (hx : x.Means db env m) (hxs : MeanAll db env xs ms) : MeanAll db env (x :: xs) (m :: ms)

namespace Compiled.Means

variable {db : Database} {env : Rows} {x y : Compiled} {a b : Meaning}

theorem type?_eq (h : x.Means db env a) : x.type? = a.type? := by
  cases h <;> rfl

theorem arithmeticType_eq (h : x.Means db env a) (other : Option ValueType) :
    x.arithmeticType other = a.arithmeticType other := by
  cases h <;> rfl

/-- An operand has the truth value of its meaning. -/
theorem truth_eq {e : Expr} (h : x.Means db env a) (he : x.predicate? = some e) :
    (e.eval db env).truth = a.truth := by
  cases h with
  | predicate heval | subquery heval =>
      obtain rfl := Option.some.inj he
      rw [heval, Truth.truth_value, Meaning.truth]
  | value type heval | member path heval =>
      simp only [predicate?] at he
      split at he
      · obtain rfl := Option.some.inj he
        rw [heval, Meaning.truth]
      · cases he
  | literal | typeName => cases he

/-- What is compiled to a condition means one. -/
theorem condition (h : x.Means db env a) (hx : x.isCondition = true) : a = .condition a.truth := by
  cases h with
  | predicate | subquery => rfl
  | value | member | literal | typeName => simp [isCondition] at hx

/-- A boolean literal means itself. -/
theorem boolean {expected : Bool} (h : x.Means db env a) (hx : x.boolean? = some expected) :
    ∃ l : Literal, a = .literal l ∧ l.kind = .boolean ∧ (l.text == "true") = expected := by
  cases h with
  | literal l =>
      rw [boolean?] at hx
      split at hx
      · exact ⟨l, rfl, ‹_›, Option.some.inj hx⟩
      · cases hx
  | predicate | subquery | value | member | typeName => cases hx

/-- If no condition stands beside a boolean literal, none does among the meanings. -/
theorem untested (hx : x.Means db env a) (hy : y.Means db env b)
    (hleft : x.isCondition = false ∨ y.boolean? = none)
    (hright : y.isCondition = false ∨ x.boolean? = none) : a.tested? b = none := by
  cases hx <;> cases hy <;> simp_all [Meaning.tested?, isCondition, boolean?]

end Compiled.Means

section

variable {s : Schema} {db : Database} {env : Rows} {x y z : Compiled} {a b : Meaning}

/-! ## Operators

A lemma for each operator of the compiler, against the operation on meanings that has the same
name. The cases are those of the compiler: which operands are conditions, literals or null. -/

theorem Compiled.negate_means (hx : x.Means db env a) (hz : x.negate = .ok z) :
    z.Means db env a.negate := by
  cases hx with
  | literal l =>
      rw [Compiled.negate] at hz
      split at hz
      · obtain rfl := Except.ok.inj hz
        exact .literal _
      · cases hz
  | predicate | subquery | value | member | typeName => cases hz

namespace Schema

theorem operand_means {beside : Option ValueType} {o : Operand} (hx : x.Means db env a)
    (ho : s.operand x beside = .ok o) :
    a.operand s beside = some ⟨o.expr.eval db env, o.type, o.isNull⟩ := by
  cases hx with
  | predicate he | subquery he | value type he | member path he =>
      obtain rfl := Except.ok.inj ho
      rw [Meaning.operand, he]
  | literal l =>
      rcases literalOperand_ok ho with ⟨hnull, rfl⟩ | ⟨hnull, v, hv, rfl⟩
      · simp [Meaning.operand, hnull, Expr.eval]
      · simp [Meaning.operand, hnull, hv, Expr.eval]
  | typeName t => cases ho

theorem reads_means {beside : Option ValueType} {e : Expr} (hx : x.Means db env a)
    (he : s.Reads x beside e) :
    a.read s beside = some (e.eval db env) := by
  obtain ⟨o, ho, -, rfl⟩ := he
  rw [Meaning.read, s.operand_means hx ho, Option.map_some]

theorem compareNull_means {op : Comparison} {e : Expr} (hz : compareNull op e = .ok z) :
    z.Means db env (Meaning.compareNull op (e.eval db env)) := by
  rcases compareNull_ok.mp hz with ⟨rfl, rfl⟩ | ⟨rfl, rfl⟩
  · exact .predicate rfl
  · exact .predicate rfl

theorem compareValues_means {op : Comparison} (hx : x.Means db env a) (hy : y.Means db env b)
    (hz : s.compareValues op x y = .ok z) :
    ∃ m, Meaning.compareValues s db op a b = some m ∧ z.Means db env m := by
  obtain ⟨l, r, hlr, hz⟩ := compareValues_ok hz
  obtain ⟨hl, hr⟩ := operands_ok.mp hlr
  have hl' := s.operand_means hx hl
  have hr' := s.operand_means hy hr
  rw [hy.type?_eq] at hl'
  simp only [Meaning.compareValues, hl', hr', Option.bind_eq_bind, Option.bind_some]
  by_cases hlnull : l.isNull
  · simp only [hlnull, if_true] at hz ⊢
    exact ⟨_, rfl, compareNull_means hz⟩
  · by_cases hrnull : r.isNull
    · simp only [hlnull, hrnull, Bool.false_eq_true, if_true, if_false] at hz ⊢
      exact ⟨_, rfl, compareNull_means hz⟩
    · simp only [hlnull, hrnull, Bool.false_eq_true, if_false] at hz ⊢
      obtain ⟨-, rfl⟩ := hz
      exact ⟨_, rfl, .predicate (by rw [Expr.eval])⟩

theorem compareCondition_means {op : Comparison} {expected : Bool} (hx : x.Means db env a)
    (hcondition : x.isCondition = true) (hz : x.compareCondition op expected = .ok z) :
    z.Means db env (Meaning.test op a.truth expected) := by
  obtain ⟨e, kept, he, hkept, rfl⟩ := Compiled.compareCondition_ok.mp hz
  have heval : e.eval db env = a.truth.value := by
    cases hx with
    | predicate heval | subquery heval =>
        obtain rfl := Option.some.inj he
        exact heval
    | value | member | literal | typeName => simp [Compiled.isCondition] at hcondition
  have hnot : (Expr.not e).eval db env = a.truth.neg.value := by
    rw [Expr.eval, heval, Truth.truth_value]
  rcases hkept with ⟨rfl, rfl⟩ | ⟨rfl, rfl⟩
  · cases kept
    · exact .predicate hnot
    · exact .predicate heval
  · cases expected
    · exact .predicate heval
    · exact .predicate hnot

/-- **Comparisons** of operands evaluate to comparisons of their meanings. -/
theorem compare_means {op : Comparison} (hx : x.Means db env a) (hy : y.Means db env b)
    (hz : s.compare op x y = .ok z) : z.Means db env (Meaning.compare s db op a b) := by
  rcases compare_ok hz with ⟨_, hcondition, hboolean, hz⟩ | ⟨_, hboolean, hcondition, hz⟩ |
    ⟨⟨hleft, hright⟩, hz⟩
  · obtain ⟨l, rfl, hkind, rfl⟩ := hy.boolean hboolean
    rw [hx.condition hcondition]
    simp only [Meaning.compare, Meaning.tested?, hkind, if_true]
    exact compareCondition_means hx hcondition hz
  · obtain ⟨l, rfl, hkind, rfl⟩ := hx.boolean hboolean
    rw [hy.condition hcondition]
    simp only [Meaning.compare, Meaning.tested?, hkind, if_true]
    exact compareCondition_means hy hcondition hz
  · obtain ⟨m, hm, hz⟩ := s.compareValues_means hx hy hz
    rwa [Meaning.compare, hx.untested hy hleft hright, hm]

theorem calculate_means {op : Arithmetic} (hx : x.Means db env a) (hy : y.Means db env b)
    (hz : s.calculate op x y = .ok z) :
    z.Means db env ((Meaning.calculate s db op a b).getD .nothing) := by
  obtain ⟨l, r, type, hl, hr, -, -, hwiden, rfl⟩ := calculate_ok hz
  have hl' := s.operand_means hx hl
  have hr' := s.operand_means hy hr
  rw [hx.arithmeticType_eq, hy.type?_eq] at hl'
  rw [hy.arithmeticType_eq] at hr'
  simp only [Meaning.calculate, hl', hr', hwiden, Option.bind_eq_bind, Option.bind_some, pure,
    Option.getD_some]
  exact .value _ (by rw [Expr.eval])

/-! ## Built-in functions

One lemma for all of them, by the families of `Calls`. The patterns and the starts of parts come
first, as they are computed before the function is called or by the database. -/

theorem pattern_means {margins : Sql.Like.Margins} {e : Expr} {escape : Option Char}
    (hx : x.Means db env a) (hpattern : s.Pattern margins x e escape) :
    a.pattern s db margins = some (e.eval db env, escape) := by
  cases hpattern with
  | written hkind =>
      cases hx
      simp [Meaning.pattern, hkind, Expr.eval]
  | @computed _ e hliteral he =>
      have hread := s.reads_means hx he
      have heval :
        (Expr.function "CONCAT" (margins.around (.constant (.string "%")) [e])).eval db env =
          db.function "CONCAT" (margins.around (.string "%") [e.eval db env]) := by
        rw [Expr.eval, Sql.listEval_eq, Sql.Like.Margins.around, Sql.Like.Margins.around]
        cases margins.before <;> cases margins.after <;> rfl
      cases hx with
      | literal l => simp [Meaning.pattern, hliteral l rfl, hread, heval]
      | predicate | subquery | value | member | typeName => simp [Meaning.pattern, hread, heval]

theorem start_means {e : Expr} (hx : x.Means db env a) (hstart : s.Start x e) :
    a.start s db = some (e.eval db env) := by
  cases hstart with
  | written hkind hi =>
      cases hx
      simp [Meaning.start, hkind, hi, Except.toOption, Expr.eval]
  | computed hliteral he =>
      have hread := s.reads_means hx he
      cases hx with
      | literal l => simp [Meaning.start, hliteral l rfl, hread, Expr.eval]
      | predicate | subquery | value | member | typeName => simp [Meaning.start, hread, Expr.eval]

/-- **Calls of built-in functions** evaluate to calls on the meanings of the arguments. -/
theorem callBuiltIn_means {f : BuiltIn} {xs : List Compiled} {ms : List Meaning}
    (hxs : Compiled.MeanAll db env xs ms) (hz : s.callBuiltIn f xs = .ok z) :
    z.Means db env ((Meaning.call s db f.family ms).getD .nothing) := by
  have hcalls := s.callBuiltIn_ok hz
  generalize f.family = family at hcalls
  cases hcalls with
  | matching htext hpattern =>
      obtain _ | ⟨hx, _ | ⟨hy, ⟨⟩⟩⟩ := hxs
      simp only [Meaning.call, s.reads_means hx htext, s.pattern_means hy hpattern,
        Option.bind_eq_bind, Option.bind_some, pure, Option.getD_some]
      exact .predicate (by rw [Expr.eval])
  | ofText htext =>
      obtain _ | ⟨hx, ⟨⟩⟩ := hxs
      simp only [Meaning.call, s.reads_means hx htext, Option.bind_eq_bind, Option.bind_some, pure,
        Option.getD_some]
      exact .value _ (by simp only [Expr.eval, Sql.listEval])
  | indexOf htext hpart =>
      obtain _ | ⟨hx, _ | ⟨hy, ⟨⟩⟩⟩ := hxs
      simp only [Meaning.call, s.reads_means hx htext, s.reads_means hy hpart, Option.bind_eq_bind,
        Option.bind_some, pure, Option.getD_some]
      exact .value _ (by simp only [Expr.eval])
  | rest htext hstart =>
      obtain _ | ⟨hx, _ | ⟨hy, ⟨⟩⟩⟩ := hxs
      simp only [Meaning.call, s.reads_means hx htext, s.start_means hy hstart, Option.bind_eq_bind,
        Option.bind_some, pure, Option.getD_some]
      exact .value _ (by simp only [Expr.eval, Sql.listEval])
  | substring htext hstart hlength =>
      obtain _ | ⟨hx, _ | ⟨hy, _ | ⟨hw, ⟨⟩⟩⟩⟩ := hxs
      simp only [Meaning.call, s.reads_means hx htext, s.start_means hy hstart,
        s.reads_means hw hlength, Option.bind_eq_bind, Option.bind_some, pure, Option.getD_some]
      exact .value _ (by simp only [Expr.eval, Sql.listEval])
  | concat hleft hright =>
      obtain _ | ⟨hx, _ | ⟨hy, ⟨⟩⟩⟩ := hxs
      simp only [Meaning.call, s.reads_means hx hleft, s.reads_means hy hright, Option.bind_eq_bind,
        Option.bind_some, pure, Option.getD_some]
      exact .value _ (by simp only [Expr.eval, Sql.listEval])
  | field he | instantPart he _ =>
      obtain _ | ⟨hx, ⟨⟩⟩ := hxs
      simp only [Meaning.call, s.reads_means hx he, Option.bind_eq_bind, Option.bind_some, pure,
        Option.getD_some]
      exact .value _ (by simp only [Expr.eval])
  | now =>
      cases hxs
      exact .value _ (by rw [Expr.eval])
  | rounding ho =>
      obtain _ | ⟨hx, ⟨⟩⟩ := hxs
      simp only [Meaning.call, s.operand_means hx ho, Option.bind_eq_bind, Option.bind_some, pure,
        Option.getD_some]
      exact .value _ (by simp only [Expr.eval, Sql.listEval])
  | cast ho _ =>
      obtain _ | ⟨hx, _ | ⟨⟨⟩, ⟨⟩⟩⟩ := hxs
      simp only [Meaning.call, Meaning.read, s.operand_means hx ho, Option.map_some,
        Option.bind_eq_bind, Option.bind_some, pure, Option.getD_some]
      exact .value _ (by rw [Expr.eval])

/-! ## Functions of the schema

Arguments are found by their names on both sides, so operands and meanings are passed in the same
order, that of the parameters (`passes_means`). -/

/-- The argument that is found under a name means what is found under that name. -/
theorem lookup_means {names : List (Option String)} {xs : List Compiled} {ms : List Meaning}
    {name : String} (hxs : Compiled.MeanAll db env xs ms)
    (hnamed : ∀ arg ∈ names.zip xs, ∃ name, arg.1 = some name)
    (hx : (givenNames (names.zip xs)).lookup name = some x) :
    ∃ m, (names.zip ms).lookup (some name) = some m ∧ x.Means db env m := by
  induction hxs generalizing names with
  | nil => simp [givenNames] at hx
  | @cons y m xs ms hy hxs ih =>
      cases names with
      | nil => simp [givenNames] at hx
      | cons label names =>
          obtain ⟨given, rfl⟩ := hnamed _ List.mem_cons_self
          simp only [givenNames, List.zip_cons_cons, List.map_cons, Option.getD_some,
            List.lookup_cons] at hx ⊢
          by_cases hname : name = given
          · subst hname
            simp only [beq_self_eq_true, Option.some.injEq] at hx ⊢
            exact ⟨m, rfl, hx ▸ hy⟩
          · have hgiven : (some name == some given) = false := by simpa using hname
            rw [beq_false_of_ne hname] at hx
            rw [hgiven]
            exact ih (fun arg harg => hnamed arg (List.mem_cons_of_mem _ harg)) hx

theorem lookup_filter {α : Type} {bound : List (String × α)} {name k : String} {v : α}
    (h : (bound.filter (·.1 ≠ k)).lookup name = some v) : bound.lookup name = some v := by
  have hname : name ≠ k := by
    rintro rfl
    have hnone : (bound.filter (·.1 ≠ name)).lookup name = none :=
      List.lookup_eq_none_iff.mpr fun p hp => by
        simpa using Ne.symm (of_decide_eq_true (List.mem_filter.mp hp).2)
    cases hnone.symm.trans h
  induction bound with
  | nil => simp at h
  | cons first rest ih =>
      obtain ⟨given, w⟩ := first
      rw [List.lookup_cons]
      by_cases hk : given = k
      · rw [beq_false_of_ne (hk ▸ hname)]
        exact ih (by simpa [hk] using h)
      · simp only [List.filter_cons, ne_eq, hk, not_false_eq_true, decide_true, if_true,
          List.lookup_cons] at h
        split at h
        · exact h
        · exact ih h

/-- The values that are passed for the parameters are those of the arguments with their names. -/
theorem passes_means {bound : List (String × Compiled)} {args : List (Option String × Meaning)}
    {ps : List Parameter} {es : List Expr} (hpasses : s.Passes bound ps es)
    (hbound : ∀ {name x}, bound.lookup name = some x → ∃ m, args.lookup (some name) = some m ∧
      x.Means db env m) :
    ps.mapM (Meaning.argument s args) = some (es.map (·.eval db env)) := by
  induction hpasses with
  | nil => rfl
  | @cons bound p ps x o es hx ho hes ih =>
      obtain ⟨m, hm, hmeans⟩ := hbound hx
      have hargument : Meaning.argument s args p = some (o.expr.eval db env) := by
        simp [Meaning.argument, hm, Meaning.read, s.operand_means hmeans ho]
      rw [List.mapM_cons, hargument, ih fun hlookup => hbound (lookup_filter hlookup)]
      rfl

/-- **Calls of functions of the schema** evaluate to calls on the meanings of the arguments. -/
theorem callCustom_means {called : String} {names : List (Option String)} {xs : List Compiled}
    {ms : List Meaning} (hxs : Compiled.MeanAll db env xs ms)
    (hz : s.callCustom called (names.zip xs) = .ok z) :
    z.Means db env ((Meaning.callCustom s db called (names.zip ms)).getD .nothing) := by
  obtain ⟨g, type, es, hg, htype, -, hnames, hpasses, rfl⟩ := s.callCustom_ok hz
  have hvalues := passes_means hpasses fun hlookup => lookup_means hxs
    (fun arg harg => (hnames arg harg).imp fun _ => And.left) hlookup
  simp only [Meaning.callCustom, hg, htype, hvalues, Except.toOption, Option.bind_eq_bind,
    Option.bind_some, pure, Option.getD_some]
  exact .value _ (by rw [Expr.eval, Sql.listEval_eq])

end Schema

end

end FilterSql
