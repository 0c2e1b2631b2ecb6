import FilterSql.Compile.Compiler
import FilterSql.Proofs.Compile.Operation
import FilterSql.Proofs.Filter.Parts

/-!
# Runs of the compiler

A run takes the number of the next alias, and ends with a result and the number that comes next
then, or fails. Here a run that has not failed is taken apart: into the runs of its steps
(`Numbered.bind_ok`), and then for each function of the compiler into what it has done
(`Filter.compile_binary_ok` and its like). Proofs about compiled filters start from these and
unfold no definition of the compiler.
-/

namespace FilterSql

open Sql (Expr Select)

/-! ## Steps

The runs of the five things that the compiler is made of: a result, a sequence, a check, a failure
and the next number. Each lemma tells when a run succeeds, and with what. -/

namespace Numbered

variable {α β : Type} {n m : Nat}

theorem bind_ok {x : Numbered α} {f : α → Numbered β} {b : β} :
    (x >>= f).run n = .ok (b, m) ↔ ∃ a k, x.run n = .ok (a, k) ∧ (f a).run k = .ok (b, m) := by
  rw [StateT.run_bind, Checked.bind_ok, Prod.exists]

theorem pure_ok {a b : α} : (pure a : Numbered α).run n = .ok (b, m) ↔ a = b ∧ n = m := by
  rw [StateT.run_pure, Checked.pure_ok, Prod.mk.injEq]

theorem lift_ok {e : Except FilterError α} {a : α} :
    (liftM e : Numbered α).run n = .ok (a, m) ↔ e = .ok a ∧ n = m := by
  have h : (liftM e : Numbered α).run n = e >>= fun a => pure (a, n) := rfl
  rw [h, Checked.bind_ok]
  constructor
  · rintro ⟨b, hb, hpure⟩
    obtain ⟨rfl, rfl⟩ := Prod.mk.inj (Checked.pure_ok.mp hpure)
    exact ⟨hb, rfl⟩
  · rintro ⟨ha, rfl⟩
    exact ⟨a, ha, rfl⟩

theorem throw_ok {e : FilterError} {a : α} : (throw e : Numbered α).run n = .ok (a, m) ↔ False := by
  have h : (throw e : Numbered α).run n = throw e >>= fun a => pure (a, n) := rfl
  rw [h, Checked.bind_ok]
  simp [Checked.throw_ok]

theorem fresh_ok {k : Nat} : fresh.run n = .ok (k, m) ↔ k = n ∧ m = n + 1 := by
  have h : fresh.run n = .ok (n, n + 1) := rfl
  rw [h]
  simp [eq_comm]

end Numbered

/-! ## Conditions

What `conditionOf` compiles has to be a condition; otherwise it fails behind the run. -/

theorem conditionOf_ok {x : Numbered Compiled} {e : Expr} {n m : Nat} :
    (conditionOf x).run n = .ok (e, m) ↔ ∃ y, x.run n = .ok (y, m) ∧ y.predicate? = some e := by
  rw [conditionOf]
  simp only [Numbered.bind_ok, Numbered.lift_ok, Compiled.condition_ok]
  constructor
  · rintro ⟨y, k, hy, he, rfl⟩
    exact ⟨y, hy, he⟩
  · rintro ⟨y, hy, he⟩
    exact ⟨y, m, hy, he, rfl⟩

/-! ## Queries

The runs of questions, down to the single query of a hop. -/

namespace Hop

theorem joinCondition_ok {columns : List JoinColumn} {equation : JoinColumn → Expr} {e : Expr} :
    joinCondition columns equation = .ok e ↔ Expr.conjunction? (columns.map equation) = some e := by
  rw [joinCondition]
  cases Expr.conjunction? (columns.map equation) <;> simp

/-- What the query of a hop consists of besides its columns and its table: the joins, which a link
table adds, and the condition. A link table takes the number `n`, and `k` comes next. -/
inductive Selects (h : Hop) (source own : String) (n : Nat) :
    List Sql.Join → Expr → Nat → Prop where
  | direct {e : Expr} (hlink : h.linkTable? = none)
      (he : Expr.conjunction? (h.joinColumns.map fun j =>
        (Expr.qualified own j.target).equal (.qualified source (h.columnLead ++ j.source))) =
        some e) :
      Selects h source own n [] e n
  | linked {link : LinkTable} {on e : Expr} (hlink : h.linkTable? = some link)
      (hon : Expr.conjunction? (link.columns.map fun j =>
        (Expr.qualified (tableAlias n) j.source).equal (.qualified own j.target)) = some on)
      (he : Expr.conjunction? (h.joinColumns.map fun j =>
        (Expr.qualified (tableAlias n) j.target).equal
          (.qualified source (h.columnLead ++ j.source))) = some e) :
      Selects h source own n [.mk link.table (some (tableAlias n)) on] e (n + 1)

/-- `Selects` determines the joins, the condition and the next number of a query. -/
theorem Selects.unique {h : Hop} {source own : String} {n k k' : Nat} {joins joins' : List Sql.Join}
    {e e' : Expr} (hs : h.Selects source own n joins e k)
    (hs' : h.Selects source own n joins' e' k') :
    joins' = joins ∧ e' = e ∧ k' = k := by
  cases hs with
  | direct hlink he =>
      cases hs' with
      | direct _ he' => exact ⟨rfl, Option.some.inj (he'.symm.trans he), rfl⟩
      | linked hlink' => simp [hlink] at hlink'
  | linked hlink hon he =>
      cases hs' with
      | direct hlink' => simp [hlink] at hlink'
      | linked hlink' hon' he' =>
          obtain rfl := Option.some.inj (hlink.symm.trans hlink')
          obtain rfl := Option.some.inj (hon.symm.trans hon')
          exact ⟨rfl, Option.some.inj (he'.symm.trans he), rfl⟩

theorem Selects.le {h : Hop} {source own : String} {n k : Nat} {joins : List Sql.Join} {e : Expr}
    (hs : h.Selects source own n joins e k) : n ≤ k := by
  cases hs with
  | direct => exact Nat.le_refl n
  | linked => exact Nat.le_succ n

/-- What a query asks of its rows: the join condition `on`, and the narrowing condition if there is
one. -/
def asked (on : Expr) : Option Expr → Expr
  | some x => on.and x
  | none => on

/-- The query of a hop, whose table has the alias `own`, with a condition that may narrow it. -/
def selection (h : Hop) (columns : List Expr) (own : String) (joins : List Sql.Join) (on : Expr)
    (narrowed : Option Expr) : Select :=
  .mk columns (some (h.target.table, some own)) joins (some (asked on narrowed))

variable {h : Hop} {c : Context} {source own : String} {n m : Nat}

theorem query_ok {columns : List Expr} {q : Select} :
    (h.query columns source own).run n = .ok (q, m) ↔
      ∃ joins e, h.Selects source own n joins e m ∧ q = h.selection columns own joins e none := by
  rw [query]
  cases hlink : h.linkTable? with
  | none =>
      simp only [Numbered.bind_ok, Numbered.lift_ok, Numbered.pure_ok, joinCondition_ok]
      constructor
      · rintro ⟨e, k, ⟨he, rfl⟩, rfl, rfl⟩
        exact ⟨[], e, .direct hlink he, rfl⟩
      · rintro ⟨joins, e, hselects, rfl⟩
        cases hselects with
        | direct _ he => exact ⟨e, n, ⟨he, rfl⟩, rfl, rfl⟩
        | linked hsome => simp [hlink] at hsome
  | some link =>
      simp only [Numbered.bind_ok, Numbered.lift_ok, Numbered.pure_ok, Numbered.fresh_ok,
        joinCondition_ok]
      constructor
      · rintro ⟨k, _, ⟨rfl, rfl⟩, on, _, ⟨hon, rfl⟩, e, _, ⟨he, rfl⟩, rfl, rfl⟩
        exact ⟨_, e, .linked hlink hon he, rfl⟩
      · rintro ⟨joins, e, hselects, rfl⟩
        cases hselects with
        | direct hnone => simp [hlink] at hnone
        | linked hsome hon he =>
            obtain rfl := Option.some.inj (hlink.symm.trans hsome)
            exact ⟨n, n + 1, ⟨rfl, rfl⟩, _, _, ⟨hon, rfl⟩, e, _, ⟨he, rfl⟩, rfl, rfl⟩

/-- `extend` opens a level with the next number. -/
theorem extend_ok {scope : Scope} {binding : Binding} {inner : Context} :
    (c.extend scope binding).run n = .ok (inner, m) ↔
      inner = .inside ⟨scope, n, binding⟩ c ∧ m = n + 1 := by
  rw [Context.extend]
  simp only [Numbered.bind_ok, Numbered.pure_ok, Numbered.fresh_ok]
  constructor
  · rintro ⟨k, _, ⟨rfl, rfl⟩, rfl, rfl⟩
    exact ⟨rfl, rfl⟩
  · rintro ⟨rfl, rfl⟩
    exact ⟨n, n + 1, ⟨rfl, rfl⟩, rfl, rfl⟩

theorem someRow_ok {binding : Binding} {condition : Context → Numbered (Option Expr)} {e : Expr} :
    (someRow binding condition c source h).run n = .ok (e, m) ↔
      ∃ joins on k narrowed, h.Selects source (tableAlias n) (n + 1) joins on k ∧
        (condition (.inside ⟨h.target, n, binding⟩ c)).run k = .ok (narrowed, m) ∧
        e = .hasRows (h.selection [.constant (.int 1)] (tableAlias n) joins on narrowed) := by
  rw [someRow]
  simp only [Numbered.bind_ok, extend_ok, query_ok]
  constructor
  · rintro ⟨_, _, ⟨rfl, rfl⟩, _, k, ⟨joins, on, hselects, rfl⟩, narrowed, _, hcondition, he⟩
    refine ⟨joins, on, k, narrowed, hselects, ?_⟩
    cases narrowed <;>
    · obtain ⟨rfl, rfl⟩ := Numbered.pure_ok.mp he
      exact ⟨hcondition, rfl⟩
  · rintro ⟨joins, on, k, narrowed, hselects, hcondition, rfl⟩
    refine ⟨_, _, ⟨rfl, rfl⟩, _, k, ⟨joins, on, hselects, rfl⟩, narrowed, m, hcondition, ?_⟩
    cases narrowed <;> rfl

/-- The run of `someRow` with a condition, which is compiled on the level that the query opens. -/
theorem narrowedRow_ok {binding : Binding} {condition : Context → Numbered Expr} {e : Expr} :
    (someRow binding (fun inner => do return some (← condition inner)) c source h).run n =
      .ok (e, m) ↔
      ∃ joins on k x, h.Selects source (tableAlias n) (n + 1) joins on k ∧
        (condition (.inside ⟨h.target, n, binding⟩ c)).run k = .ok (x, m) ∧
        e = .hasRows (h.selection [.constant (.int 1)] (tableAlias n) joins on (some x)) := by
  rw [someRow_ok]
  simp only [Numbered.bind_ok, Numbered.pure_ok]
  constructor
  · rintro ⟨joins, on, k, _, hselects, ⟨x, _, hx, rfl, rfl⟩, rfl⟩
    exact ⟨joins, on, k, x, hselects, hx, rfl⟩
  · rintro ⟨joins, on, k, x, hselects, hx, rfl⟩
    exact ⟨joins, on, k, _, hselects, ⟨x, m, hx, rfl, rfl⟩, rfl⟩

theorem countRows_ok {e : Expr} :
    (countRows c source h).run n = .ok (e, m) ↔
      ∃ joins on, h.Selects source (tableAlias n) (n + 1) joins on m ∧
        e = .scalar (h.selection [.countAll] (tableAlias n) joins on none) := by
  rw [countRows]
  simp only [Numbered.bind_ok, extend_ok, query_ok, Numbered.pure_ok]
  constructor
  · rintro ⟨_, _, ⟨rfl, rfl⟩, _, _, ⟨joins, on, hselects, rfl⟩, rfl, rfl⟩
    exact ⟨joins, on, hselects, rfl⟩
  · rintro ⟨joins, on, hselects, rfl⟩
    exact ⟨_, _, ⟨rfl, rfl⟩, _, m, ⟨joins, on, hselects, rfl⟩, rfl, rfl⟩

/-- Behind more than one hop, `ask` asks the question inside the query of the first hop. -/
theorem ask_step_ok {question : Question} {next : Hop} {rest : List Hop} {e : Expr} :
    (ask question c source (h :: next :: rest)).run n = .ok (e, m) ↔
      ∃ joins on k x, h.Selects source (tableAlias n) (n + 1) joins on k ∧
        (ask question (.inside ⟨h.target, n, .navigation none⟩ c) (tableAlias n)
          (next :: rest)).run k =
          .ok (x, m) ∧
        e = .hasRows (h.selection [.constant (.int 1)] (tableAlias n) joins on (some x)) := by
  rw [ask_cons_cons]
  exact narrowedRow_ok

end Hop

/-! ## Filters

A lemma for each form of a filter tells when its compilation succeeds, and with what. It names the
search that comes first (`binaryNavigating`) and the compilation that follows (`composed`,
`called`). -/

/-- Whether there is a row behind the hops of `nav` for which the condition holds that is compiled
there. -/
def Navigating.question (nav : Navigating) (compile : Context → Numbered Compiled) : Hop.Question :=
  Hop.someRow (.navigation (some nav.pin)) fun inner => do
    return some (← conditionOf (compile inner))

theorem within_some_ok {c : Context} {nav : Navigating} {compile : Context → Numbered Compiled}
    {x : Compiled} {n m : Nat} :
    (c.within (some nav) compile).run n = .ok (x, m) ↔
      ∃ e, x = .subquery e ∧
        (Hop.ask (nav.question compile) c nav.anchor.label nav.hops).run n = .ok (e, m) := by
  rw [Context.within]
  simp only [Numbered.bind_ok, Numbered.pure_ok]
  constructor
  · rintro ⟨e, _, he, rfl, rfl⟩
    exact ⟨e, rfl, he⟩
  · rintro ⟨e, rfl, he⟩
    exact ⟨e, m, he, rfl, rfl⟩

/-- `within` gives a condition behind a member; where nothing navigates, `compile` has to give
one. -/
theorem within_isCondition {c : Context} {n? : Option Navigating}
    {compile : Context → Numbered Compiled} {x : Compiled} {n m : Nat}
    (hcompile : ∀ {x n m}, (compile c).run n = .ok (x, m) → x.isCondition = true)
    (h : (c.within n? compile).run n = .ok (x, m)) : x.isCondition = true := by
  cases n? with
  | none => exact hcompile h
  | some nav =>
      obtain ⟨e, rfl, -⟩ := within_some_ok.mp h
      rfl

theorem Navigating.question_ok {nav : Navigating} {compile : Context → Numbered Compiled}
    {c : Context} {source : String} {h : Hop} {e : Expr} {n m : Nat} :
    (nav.question compile c source h).run n = .ok (e, m) ↔
      ∃ joins on k y narrowed, h.Selects source (tableAlias n) (n + 1) joins on k ∧
        (compile (.inside ⟨h.target, n, .navigation (some nav.pin)⟩ c)).run k = .ok (y, m) ∧
        y.predicate? = some narrowed ∧
        e = .hasRows
          (h.selection [.constant (.int 1)] (tableAlias n) joins on (some narrowed)) := by
  rw [Navigating.question]
  apply Hop.narrowedRow_ok.trans
  simp only [conditionOf_ok]
  constructor
  · rintro ⟨joins, on, k, x, hselects, ⟨y, hy, hx⟩, rfl⟩
    exact ⟨joins, on, k, y, x, hselects, hy, hx, rfl⟩
  · rintro ⟨joins, on, k, y, x, hselects, hy, hx, rfl⟩
    exact ⟨joins, on, k, x, hselects, ⟨y, hy, hx⟩, rfl⟩

section

variable {s : Schema} {c : Context} {a : Address}

theorem navigatingAll_single_ok {f : Filter} {ns : List Navigating} :
    navigatingAll s c a 0 [f] = .ok ns ↔ f.navigating s c (0 :: a) = .ok ns := by
  simp only [navigatingAll, Checked.bind_ok, Checked.pure_ok]
  constructor
  · rintro ⟨ms, hms, _, rfl, rfl⟩
    rwa [List.append_nil]
  · intro h
    exact ⟨ns, h, [], rfl, List.append_nil ns⟩

theorem navigatingAll_pair_ok {l r : Filter} {ns : List Navigating} :
    navigatingAll s c a 0 [l, r] = .ok ns ↔
      ∃ ls rs, l.navigating s c (0 :: a) = .ok ls ∧ r.navigating s c (1 :: a) = .ok rs ∧
        ls ++ rs = ns := by
  simp only [navigatingAll, Checked.bind_ok, Checked.pure_ok]
  constructor
  · rintro ⟨ls, hl, _, ⟨rs, hr, _, rfl, rfl⟩, rfl⟩
    exact ⟨ls, rs, hl, hr, by rw [List.append_nil]⟩
  · rintro ⟨ls, rs, hl, hr, rfl⟩
    exact ⟨ls, hl, rs, ⟨rs, hr, [], rfl, List.append_nil rs⟩, rfl⟩

end

namespace Filter

variable {s : Schema} {c : Context} {a : Address} {x : Compiled} {n m : Nat}

/-- The member that a binary operator is compiled behind. Only comparisons look for one. -/
def binaryNavigating (s : Schema) (c : Context) (a : Address) (l : Filter) (op : BinaryOperator)
    (r : Filter) : Except FilterError (Option Navigating) :=
  if op.isComparison then do
    Navigating.only? ((← l.navigating s c (0 :: a)) ++ (← r.navigating s c (1 :: a)))
  else pure none

/-- Compiles the operands of a binary operator where they stand, and puts them together by
`compose`. -/
def composed (s : Schema) (a : Address) (l : Filter) (op : BinaryOperator) (r : Filter)
    (c : Context) :
    Numbered Compiled := do
  let x ← l.compile s c (0 :: a)
  let y ← r.compile s c (1 :: a)
  s.compose op x y

theorem composed_ok {l r : Filter} {op : BinaryOperator} :
    (composed s a l op r c).run n = .ok (x, m) ↔
      ∃ y k z, (l.compile s c (0 :: a)).run n = .ok (y, k) ∧
        (r.compile s c (1 :: a)).run k = .ok (z, m) ∧
        s.compose op y z = .ok x := by
  rw [composed]
  simp only [Numbered.bind_ok, Numbered.lift_ok]
  constructor
  · rintro ⟨y, k, hy, z, _, hz, hx, rfl⟩
    exact ⟨y, k, z, hy, hz, hx⟩
  · rintro ⟨y, k, z, hy, hz, hx⟩
    exact ⟨y, k, hy, z, m, hz, hx, rfl⟩

/-- `binaryNavigating` searches both operands of a comparison, and those of no other operator. -/
theorem binaryNavigating_ok {l r : Filter} {op : BinaryOperator} {n? : Option Navigating} :
    binaryNavigating s c a l op r = .ok n? ↔
      op.isComparison = true ∧
      (∃ ns, navigatingAll s c a 0 [l, r] = .ok ns ∧ Navigating.only? ns = .ok n?) ∨
        op.isComparison = false ∧ n? = none := by
  rw [binaryNavigating]
  cases op.isComparison with
  | false =>
      simp only [Bool.false_eq_true, if_false, Checked.pure_ok, false_and, true_and, false_or]
      exact eq_comm
  | true =>
      simp only [if_true, Checked.bind_ok, navigatingAll_pair_ok, true_and, Bool.true_eq_false,
        false_and, or_false]
      constructor
      · rintro ⟨ls, hl, rs, hr, h⟩
        exact ⟨ls ++ rs, ⟨ls, rs, hl, hr, rfl⟩, h⟩
      · rintro ⟨_, ⟨ls, rs, hl, hr, rfl⟩, h⟩
        exact ⟨ls, hl, rs, hr, h⟩

theorem compile_binary_ok {l r : Filter} {op : BinaryOperator} :
    ((binary l op r).compile s c a).run n = .ok (x, m) ↔
      op ≠ .has ∧ ∃ n?, binaryNavigating s c a l op r = .ok n? ∧
        (c.within n? (composed s a l op r)).run n = .ok (x, m) := by
  rw [Filter.compile]
  by_cases hhas : op = .has
  · rw [if_pos hhas, Numbered.throw_ok]
    exact ⟨False.elim, fun h => h.1 hhas⟩
  · have hfold : (fun c : Context => do
        let x ← l.compile s c (0 :: a)
        let y ← r.compile s c (1 :: a)
        (s.compose op x y : Numbered Compiled)) = composed s a l op r := rfl
    -- Only a comparison looks into its operands for a member to be compiled behind.
    by_cases hcompare : op.isComparison
    · simp only [hhas, hcompare, if_true, if_false, binaryNavigating, Numbered.bind_ok,
        Numbered.lift_ok, Checked.bind_ok, hfold]
      constructor
      · rintro ⟨ns, _, ⟨hns, rfl⟩, ns', _, ⟨hns', rfl⟩, n?, _, ⟨hn, rfl⟩, hx⟩
        exact ⟨hhas, n?, ⟨ns, hns, ns', hns', hn⟩, hx⟩
      · rintro ⟨-, n?, ⟨ns, hns, ns', hns', hn⟩, hx⟩
        exact ⟨ns, n, ⟨hns, rfl⟩, ns', n, ⟨hns', rfl⟩, n?, n, ⟨hn, rfl⟩, hx⟩
    · simp only [hhas, hcompare, Bool.false_eq_true, if_false, binaryNavigating, Numbered.bind_ok,
        Numbered.pure_ok, Checked.pure_ok, hfold]
      constructor
      · rintro ⟨_, _, ⟨rfl, rfl⟩, hx⟩
        exact ⟨hhas, none, rfl, hx⟩
      · rintro ⟨-, _, rfl, hx⟩
        exact ⟨none, n, ⟨rfl, rfl⟩, hx⟩

theorem compile_unary_ok {operand : Filter} {op : UnaryOperator} :
    ((unary op operand).compile s c a).run n = .ok (x, m) ↔
      ∃ y, (operand.compile s c (0 :: a)).run n = .ok (y, m) ∧ y.composeUnary op = .ok x := by
  rw [Filter.compile]
  simp only [Numbered.bind_ok, Numbered.lift_ok]
  constructor
  · rintro ⟨y, _, hy, hx, rfl⟩
    exact ⟨y, hy, hx⟩
  · rintro ⟨y, hy, hx⟩
    exact ⟨y, m, hy, hx, rfl⟩

/-- Compiles the arguments of a built-in function where they stand, and calls it by
`callBuiltIn`. -/
def called (s : Schema) (a : Address) (f : BuiltIn) (args : List Filter) (c : Context) :
    Numbered Compiled := do
  s.callBuiltIn f (← compileAll s c a 0 args)

theorem called_ok {f : BuiltIn} {args : List Filter} :
    (called s a f args c).run n = .ok (x, m) ↔
      ∃ ys, (compileAll s c a 0 args).run n = .ok (ys, m) ∧ s.callBuiltIn f ys = .ok x := by
  rw [called]
  simp only [Numbered.bind_ok, Numbered.lift_ok]
  constructor
  · rintro ⟨y, _, hy, hx, rfl⟩
    exact ⟨y, hy, hx⟩
  · rintro ⟨y, hy, hx⟩
    exact ⟨y, m, hy, hx, rfl⟩

theorem compile_call_ok {f : BuiltIn} {args : List Filter} :
    ((call f args).compile s c a).run n = .ok (x, m) ↔
      ∃ ns n?, navigatingAll s c a 0 args = .ok ns ∧ Navigating.only? ns = .ok n? ∧
        (c.within n? (called s a f args)).run n = .ok (x, m) := by
  have hfold : (fun c : Context => do
      (s.callBuiltIn f (← compileAll s c a 0 args) : Numbered Compiled)) = called s a f args := rfl
  rw [Filter.compile, hfold]
  simp only [Numbered.bind_ok, Numbered.lift_ok]
  constructor
  · rintro ⟨ns, _, ⟨hns, rfl⟩, n?, _, ⟨hn, rfl⟩, hx⟩
    exact ⟨ns, n?, hns, hn, hx⟩
  · rintro ⟨ns, n?, hns, hn, hx⟩
    exact ⟨ns, n, ⟨hns, rfl⟩, n?, n, ⟨hn, rfl⟩, hx⟩

theorem compile_enumMember_ok {type member : String}
    (h : ((enumMember type member).compile s c a).run n = .ok (x, m)) :
    ∃ v t, s.coerceMember type member none = .ok (v, t) ∧ .value (.parameter v) t = x ∧ n = m := by
  rw [Filter.compile] at h
  obtain ⟨⟨v, t⟩, _, hlift, h⟩ := Numbered.bind_ok.mp h
  obtain ⟨hvalue, rfl⟩ := Numbered.lift_ok.mp hlift
  obtain ⟨rfl, rfl⟩ := Numbered.pure_ok.mp h
  exact ⟨v, t, hvalue, rfl, rfl⟩

theorem compile_typeName_ok {name : String}
    (h : ((typeName name).compile s c a).run n = .ok (x, m)) :
    ∃ t, DataType.ofName? name = some t ∧ .typeName t = x ∧ n = m := by
  rw [Filter.compile] at h
  cases ht : DataType.ofName? name with
  | none =>
      rw [ht] at h
      exact (Numbered.throw_ok.mp h).elim
  | some t =>
      rw [ht] at h
      obtain ⟨rfl, rfl⟩ := Numbered.pure_ok.mp h
      exact ⟨t, rfl, rfl, rfl⟩

theorem compileAll_nil_ok {i : Nat} {xs : List Compiled} :
    (compileAll s c a i []).run n = .ok (xs, m) ↔ [] = xs ∧ n = m := by
  rw [compileAll, Numbered.pure_ok]

theorem compileAll_cons_ok {i : Nat} {f : Filter} {fs : List Filter} {xs : List Compiled} :
    (compileAll s c a i (f :: fs)).run n = .ok (xs, m) ↔
      ∃ y k ys, (f.compile s c (i :: a)).run n = .ok (y, k) ∧
        (compileAll s c a (i + 1) fs).run k = .ok (ys, m) ∧ y :: ys = xs := by
  rw [compileAll]
  simp only [Numbered.bind_ok, Numbered.pure_ok]
  constructor
  · rintro ⟨y, k, hy, ys, _, hys, hxs, rfl⟩
    exact ⟨y, k, ys, hy, hys, hxs⟩
  · rintro ⟨y, k, ys, hy, hys, hxs⟩
    exact ⟨y, k, hy, ys, m, hys, hxs, rfl⟩

theorem compileAll_length {i : Nat} {fs : List Filter} {xs : List Compiled}
    (h : (compileAll s c a i fs).run n = .ok (xs, m)) : xs.length = fs.length := by
  induction fs generalizing i n xs with
  | nil =>
      obtain ⟨rfl, rfl⟩ := compileAll_nil_ok.mp h
      rfl
  | cons f fs ih =>
      obtain ⟨y, k, ys, -, hys, rfl⟩ := compileAll_cons_ok.mp h
      rw [List.length_cons, List.length_cons, ih hys]

end Filter

/-! ## Members

A path is compiled by what it denotes, so there is one equation for each `Target`. -/

section Members

variable {s : Schema} {c : Context} {a : Address} {path : Path} {x : Compiled} {n m : Nat}

/-- `compileBody` compiles the body of the quantifier below the address of the path. -/
theorem compileBody_eq : compileBody s c a path =
    match path.body? with
    | some body => body.compile s c (0 :: a)
    | none => throw (.defect .noBody) := by
  induction path with
  | nil => rw [compileBody, Path.body?]
  | cons first rest ih => cases first <;> simp only [compileBody, Path.body?, ih]

/-- `compileArguments` compiles the arguments as operands, and keeps their names. -/
theorem compileArguments_ok {args : List Argument} {i : Nat}
    {xs : List (Option String × Compiled)} :
    (compileArguments s c a i args).run n = .ok (xs, m) ↔
      ∃ ys, (compileAll s c a i (args.map Argument.value)).run n = .ok (ys, m) ∧
        xs = (args.map Argument.name).zip ys := by
  induction args generalizing i n m xs with
  | nil =>
      rw [compileArguments, List.map_nil]
      simp only [Numbered.pure_ok, Filter.compileAll_nil_ok]
      constructor
      · rintro ⟨rfl, rfl⟩
        exact ⟨[], ⟨rfl, rfl⟩, rfl⟩
      · rintro ⟨_, ⟨rfl, rfl⟩, rfl⟩
        exact ⟨rfl, rfl⟩
  | cons arg rest ih =>
      obtain ⟨name, f⟩ := arg
      rw [compileArguments, List.map_cons]
      simp only [Numbered.bind_ok, Numbered.pure_ok, Filter.compileAll_cons_ok, ih, Argument.value]
      constructor
      · rintro ⟨y, k, hy, _, _, ⟨ys, hys, rfl⟩, rfl, rfl⟩
        exact ⟨y :: ys, ⟨y, k, ys, hy, hys, rfl⟩, rfl⟩
      · rintro ⟨_, ⟨y, k, ys, hy, hys, rfl⟩, rfl⟩
        exact ⟨y, k, hy, _, m, ⟨ys, hys, rfl⟩, rfl, rfl⟩

theorem compilePath_eq : compilePath s c a path = compileArguments s c a 0 path.arguments := by
  rcases path with _ | ⟨_ | _ | _ | _ | _ | _, _⟩ <;>
    simp only [compilePath, Path.arguments, compileArguments]

theorem navigatingArguments_eq {args : List Argument} {i : Nat} :
    navigatingArguments s c a i args = navigatingAll s c a i (args.map Argument.value) := by
  induction args generalizing i with
  | nil => rw [navigatingArguments, List.map_nil, navigatingAll]
  | cons arg rest ih =>
      obtain ⟨name, f⟩ := arg
      rw [navigatingArguments, List.map_cons, navigatingAll, ih, Argument.value]

theorem navigatingPath_eq :
    navigatingPath s c a path = navigatingAll s c a 0 (path.arguments.map Argument.value) := by
  rcases path with _ | ⟨_ | _ | _ | _ | _ | _, _⟩ <;>
    simp only [navigatingPath, Path.arguments, List.map_nil, navigatingAll, navigatingArguments_eq]

theorem navigatingAll_mem {fs : List Filter} {i : Nat} {ns : List Navigating} {nav : Navigating}
    (h : navigatingAll s c a i fs = .ok ns) (hnav : nav ∈ ns) :
    ∃ f ∈ fs, ∃ j ms, i ≤ j ∧ f.navigating s c (j :: a) = .ok ms ∧ nav ∈ ms := by
  induction fs generalizing i ns with
  | nil =>
      obtain rfl := Except.ok.inj h
      simp at hnav
  | cons f fs ih =>
      obtain ⟨ms, hms, h⟩ := Checked.bind_ok.mp h
      obtain ⟨rest, hrest, h⟩ := Checked.bind_ok.mp h
      obtain rfl := Checked.pure_ok.mp h
      rcases List.mem_append.mp hnav with hnav | hnav
      · exact ⟨f, List.mem_cons_self, i, ms, Nat.le_refl i, hms, hnav⟩
      · obtain ⟨g, hg, j, ms, hij, hms, hnav⟩ := ih hrest hnav
        exact ⟨g, List.mem_cons_of_mem f hg, j, ms, Nat.le_of_succ_le hij, hms, hnav⟩

/-- `Searched f fs`: members are searched for in the operands `fs`, and not in `f` itself. -/
inductive Filter.Searched (s : Schema) (c : Context) (a : Address) :
    Filter → List Filter → Prop where
  | arithmetic {l r : Filter} {op : BinaryOperator} (hop : op.isArithmetic = true) :
      Searched s c a (.binary l op r) [l, r]
  | condition {l r : Filter} {op : BinaryOperator} (hop : op.isArithmetic = false) :
      Searched s c a (.binary l op r) []
  | minus (operand : Filter) : Searched s c a (.unary .minus operand) [operand]
  | not (operand : Filter) : Searched s c a (.unary .not operand) []
  | call (f : BuiltIn) (args : List Filter) : Searched s c a (.call f args) args
  | function {path : Path} {anchor : Level} {name : String}
      (hfound : s.denote c a path = .ok (anchor, .function name)) :
      Searched s c a (.member path) (path.arguments.map Argument.value)
  | member {path : Path} {anchor : Level} {target : Target}
      (hfound : s.denote c a path = .ok (anchor, target))
      (hnavigation : ∀ hops offset, target ≠ .navigation hops offset)
      (hfunction : ∀ name, target ≠ .function name) :
      Searched s c a (.member path) []
  | literal (l : Literal) : Searched s c a (.literal l) []
  | enumMember (type member : String) : Searched s c a (.enumMember type member) []
  | typeName (name : String) : Searched s c a (.typeName name) []
  | parameterAlias (name : String) : Searched s c a (.parameterAlias name) []

theorem Filter.Searched.parts {f g : Filter} {fs : List Filter} (h : f.Searched s c a fs)
    (hg : g ∈ fs) :
    g ∈ f.parts := by
  cases h with
  | arithmetic | minus | call => exact hg
  | function =>
      obtain ⟨arg, harg, rfl⟩ := List.mem_map.mp hg
      exact Path.arguments_mem harg
  | condition | not | member | literal | enumMember | typeName | parameterAlias => simp at hg

/-- `navigating` finds in a filter what it finds in the operands that are `Searched`. -/
theorem Filter.Searched.navigating_eq {f : Filter} {fs : List Filter} {ns : List Navigating}
    (hsearched : f.Searched s c a fs) (h : navigatingAll s c a 0 fs = .ok ns) :
    f.navigating s c a = .ok ns := by
  cases hsearched with
  | arithmetic hop =>
      obtain ⟨ls, rs, hl, hr, rfl⟩ := navigatingAll_pair_ok.mp h
      rw [Filter.navigating, if_pos hop, hl, hr]
      rfl
  | condition hop =>
      rw [Filter.navigating, if_neg (by simp [hop])]
      exact h
  | minus operand =>
      rw [Filter.navigating]
      exact navigatingAll_single_ok.mp h
  | function hfound =>
      rw [Filter.navigating, hfound, navigatingPath_eq]
      exact h
  | @member path anchor target hfound hnavigation hfunction =>
      rw [Filter.navigating, hfound]
      cases target with
      | navigation hops offset => exact absurd rfl (hnavigation hops offset)
      | function name => exact absurd rfl (hfunction name)
      | _ => exact h
  | call | not | literal | enumMember | typeName | parameterAlias => exact h

/-- **The search for members that navigate.** A member may navigate itself, or else the operands
that are `Searched` are gone through in order. -/
theorem Filter.navigating_ok {f : Filter} {ns : List Navigating} :
    f.navigating s c a = .ok ns ↔
      (∃ path anchor hops offset, f = .member path ∧
        s.denote c a path = .ok (anchor, .navigation hops offset) ∧
        ns = [⟨a, path, anchor, hops, offset⟩]) ∨
      ∃ fs, f.Searched s c a fs ∧ navigatingAll s c a 0 fs = .ok ns := by
  constructor
  · intro h
    cases f with
    | binary l op r =>
        rw [Filter.navigating] at h
        cases hop : op.isArithmetic with
        | false =>
            rw [if_neg (by simp [hop])] at h
            exact .inr ⟨[], .condition hop, h⟩
        | true =>
            rw [if_pos hop] at h
            obtain ⟨ls, hl, h⟩ := Checked.bind_ok.mp h
            obtain ⟨rs, hr, h⟩ := Checked.bind_ok.mp h
            have hns : ls ++ rs = ns := Checked.pure_ok.mp h
            exact .inr ⟨[l, r], .arithmetic hop, navigatingAll_pair_ok.mpr ⟨ls, rs, hl, hr, hns⟩⟩
    | unary op operand =>
        cases op with
        | not => exact .inr ⟨[], .not operand, h⟩
        | minus =>
            rw [Filter.navigating] at h
            exact .inr ⟨[operand], .minus operand, navigatingAll_single_ok.mpr h⟩
    | call f args => exact .inr ⟨args, .call f args, h⟩
    | member path =>
        rw [Filter.navigating] at h
        obtain ⟨⟨anchor, target⟩, hfound, h⟩ := Checked.bind_ok.mp h
        cases target with
        | navigation hops offset =>
            obtain rfl := Checked.pure_ok.mp h
            exact .inl ⟨path, anchor, hops, offset, rfl, hfound, rfl⟩
        | function name =>
            rw [navigatingPath_eq] at h
            exact .inr ⟨_, .function hfound, h⟩
        | _ => exact .inr ⟨[], .member hfound (by simp) (by simp), h⟩
    | literal l => exact .inr ⟨[], .literal l, h⟩
    | enumMember type member => exact .inr ⟨[], .enumMember type member, h⟩
    | typeName name => exact .inr ⟨[], .typeName name, h⟩
    | parameterAlias name => exact .inr ⟨[], .parameterAlias name, h⟩
  · rintro (⟨path, anchor, hops, offset, rfl, hfound, rfl⟩ | ⟨fs, hsearched, h⟩)
    · rw [Filter.navigating, hfound]
      rfl
    · exact hsearched.navigating_eq h

/-- Each member that `navigating` finds denotes a `navigation`. -/
theorem Filter.navigating_mem {f : Filter} {ns : List Navigating} {nav : Navigating}
    (h : f.navigating s c a = .ok ns) (hnav : nav ∈ ns) :
    s.denote c nav.address nav.path = .ok (nav.anchor, .navigation nav.hops nav.offset) := by
  induction f using Filter.induction generalizing a ns with
  | step f ih =>
      rcases navigating_ok.mp h with ⟨path, anchor, hops, offset, rfl, hfound, rfl⟩ | ⟨fs,
        hsearched, h⟩
      · obtain rfl := List.mem_singleton.mp hnav
        exact hfound
      · obtain ⟨g, hg, i, ms, -, hms, hnav⟩ := navigatingAll_mem h hnav
        exact ih g (hsearched.parts hg) hms hnav

/-- `Navigating.only?` commutes with a change of each member. -/
theorem Navigating.only?_map {ns : List Navigating} {n? : Option Navigating}
    (change : Navigating → Navigating) (h : Navigating.only? ns = .ok n?) :
    Navigating.only? (ns.map change) = .ok (n?.map change) := by
  rcases ns with _ | ⟨n, _ | ⟨_, _⟩⟩
  · obtain rfl := Except.ok.inj h
    rfl
  · obtain rfl := Except.ok.inj h
    rfl
  · cases h

theorem Navigating.only?_none {ns : List Navigating} (h : Navigating.only? ns = .ok none) :
    ns = [] := by
  rcases ns with _ | ⟨n, _ | ⟨_, _⟩⟩
  · rfl
  · cases h
  · cases h

theorem Navigating.only?_some {ns : List Navigating} {nav : Navigating}
    (h : Navigating.only? ns = .ok (some nav)) :
    ns = [nav] := by
  rcases ns with _ | ⟨n, _ | ⟨_, _⟩⟩
  · cases h
  · cases h
    rfl
  · cases h

/-- Compiles a member that `denote` has `found` to start at a level and to be a target. -/
def Path.compileAs (s : Schema) (a : Address) (path : Path) (c : Context) (found : Level × Target) :
    Numbered Compiled :=
  found.2.compile s c path found.1 (fun inner => compileBody s inner a path)
    (fun inner => navigatingPath s inner a path) (fun inner => compilePath s inner a path)

/-- Compiles a member on the level `inner` that was opened for its hops. -/
def Path.compileBehind (s : Schema) (a : Address) (path : Path) (inner : Context) :
    Numbered Compiled := do
  path.compileAs s a inner (← s.denote inner a path)

theorem Path.compileBehind_ok :
    (path.compileBehind s a c).run n = .ok (x, m) ↔
      ∃ found, s.denote c a path = .ok found ∧ (path.compileAs s a c found).run n = .ok (x, m) := by
  rw [Path.compileBehind]
  simp only [Numbered.bind_ok, Numbered.lift_ok]
  constructor
  · rintro ⟨found, _, ⟨hfound, rfl⟩, hx⟩
    exact ⟨found, hfound, hx⟩
  · rintro ⟨found, hfound, hx⟩
    exact ⟨found, n, ⟨hfound, rfl⟩, hx⟩

theorem Filter.compile_member_ok :
    ((Filter.member path).compile s c a).run n = .ok (x, m) ↔
      ∃ anchor target, s.denote c a path = .ok (anchor, target) ∧
        ((match target with
          | .navigation hops offset =>
              c.within (some ⟨a, path, anchor, hops, offset⟩) (path.compileBehind s a)
          | _ => path.compileAs s a c (anchor, target)).run n = .ok (x, m)) := by
  rw [Filter.compile]
  simp only [Numbered.bind_ok, Numbered.lift_ok, Prod.exists]
  constructor
  · rintro ⟨anchor, target, _, ⟨hfound, rfl⟩, hx⟩
    exact ⟨anchor, target, hfound, by cases target <;> exact hx⟩
  · rintro ⟨anchor, target, hfound, hx⟩
    exact ⟨anchor, target, n, ⟨hfound, rfl⟩, by cases target <;> exact hx⟩

/-- A member that is no `navigation` is compiled where it stands. -/
theorem Path.compileAs_of_member {anchor : Level} {target : Target}
    (hfound : s.denote c a path = .ok (anchor, target))
    (hnavigation : ∀ hops offset, target ≠ .navigation hops offset)
    (hx : ((Filter.member path).compile s c a).run n = .ok (x, m)) :
    (path.compileAs s a c (anchor, target)).run n = .ok (x, m) := by
  obtain ⟨anchor', target', hfound', hx⟩ := Filter.compile_member_ok.mp hx
  obtain ⟨rfl, rfl⟩ := Prod.mk.inj (Except.ok.inj (hfound.symm.trans hfound'))
  cases target with
  | navigation hops offset => exact absurd rfl (hnavigation hops offset)
  | _ => exact hx

/-! What each target of a member is compiled to: a lemma for each constructor of `Target`. -/

theorem Path.compileAs_element_ok {anchor : Level} :
    (path.compileAs s a c (anchor, .element)).run n = .ok (x, m) ↔
      ∃ p, anchor.scope.elementPath? = some p ∧ .ofPath anchor.label p = x ∧ n = m := by
  rw [Path.compileAs, Target.compile]
  cases anchor.scope.elementPath? with
  | none => simp only [Numbered.throw_ok, reduceCtorEq, false_and, exists_false]
  | some p => simp only [Numbered.pure_ok, Option.some.injEq, exists_eq_left']

theorem Path.compileAs_leaf_ok {anchor : Level} {p : AttributePath} :
    (path.compileAs s a c (anchor, .attribute p)).run n = .ok (x, m) ↔
    .ofPath anchor.label p = x ∧ n = m := by
  rw [Path.compileAs, Target.compile, Numbered.pure_ok]

/-- A member cannot be a `navigation` again where it is compiled on its own level. -/
theorem Path.compileAs_navigation_ok {anchor : Level} {hops : List Hop} {offset : Nat} :
    ¬ (path.compileAs s a c (anchor, .navigation hops offset)).run n = .ok (x, m) := by
  rw [Path.compileAs, Target.compile, Numbered.throw_ok]
  exact id

theorem Path.compileAs_count_ok {anchor : Level} {hops : List Hop} :
    (path.compileAs s a c (anchor, .count hops)).run n = .ok (x, m) ↔
      ∃ e, (Hop.ask Hop.countRows c anchor.label hops).run n = .ok (e, m) ∧
        .value e { dataType := .long, nullable := false } = x := by
  rw [Path.compileAs, Target.compile]
  simp only [Numbered.bind_ok, Numbered.pure_ok]
  constructor
  · rintro ⟨e, _, he, rfl, rfl⟩
    exact ⟨e, he, rfl⟩
  · rintro ⟨e, he, rfl⟩
    exact ⟨e, m, he, rfl, rfl⟩

/-- The question whether a hop leads to a row at all. -/
def Hop.anyRow : Hop.Question :=
  Hop.someRow (.navigation none) fun _ => return none

theorem Path.compileAs_nonempty_ok {anchor : Level} {hops : List Hop} :
    (path.compileAs s a c (anchor, .nonempty hops)).run n = .ok (x, m) ↔
      ∃ e, (Hop.ask Hop.anyRow c anchor.label hops).run n = .ok (e, m) ∧ .subquery e = x := by
  rw [Path.compileAs, Target.compile]
  simp only [Numbered.bind_ok, Numbered.pure_ok]
  constructor
  · rintro ⟨e, _, he, rfl, rfl⟩
    exact ⟨e, he, rfl⟩
  · rintro ⟨e, he, rfl⟩
    exact ⟨e, m, he, rfl, rfl⟩

/-- The condition that the body of the quantifier in `path` is compiled to. -/
def Path.bodyCondition (s : Schema) (a : Address) (path : Path) (inner : Context) : Numbered Expr :=
  conditionOf (compileBody s inner a path)

/-- The negation of `Path.bodyCondition`. -/
def Path.bodyViolation (s : Schema) (a : Address) (path : Path) (inner : Context) :
    Numbered Expr := do
  return .not (← path.bodyCondition s a inner)

/-- The question whether there is an element for which the body of `path` holds. -/
def Path.matching (s : Schema) (a : Address) (path : Path) (name : String) : Hop.Question :=
  Hop.someRow (.element name) fun inner => do return some (← path.bodyCondition s a inner)

/-- The question whether there is an element for which the body of `path` does not hold. -/
def Path.violating (s : Schema) (a : Address) (path : Path) (name : String) : Hop.Question :=
  Hop.someRow (.element name) fun inner => do return some (← path.bodyViolation s a inner)

theorem Path.compileAs_any_ok {anchor : Level} {hops : List Hop} {name : String} :
    (path.compileAs s a c (anchor, .any hops name)).run n = .ok (x, m) ↔
      ∃ e, (Hop.ask (path.matching s a name) c anchor.label hops).run n = .ok (e, m) ∧
        .subquery e = x := by
  rw [Path.compileAs, Target.compile]
  simp only [Numbered.bind_ok, Numbered.pure_ok]
  constructor
  · rintro ⟨e, _, he, rfl, rfl⟩
    exact ⟨e, he, rfl⟩
  · rintro ⟨e, he, rfl⟩
    exact ⟨e, m, he, rfl, rfl⟩

/-- `all` asks for an element that matches and for none that violates the body. -/
theorem Path.compileAs_all_ok {anchor : Level} {hops : List Hop} {name : String} :
    (path.compileAs s a c (anchor, .all hops name)).run n = .ok (x, m) ↔
      ∃ e k e', (Hop.ask (path.matching s a name) c anchor.label hops).run n = .ok (e, k) ∧
        (Hop.ask (path.violating s a name) c anchor.label hops).run k = .ok (e', m) ∧
        .subquery (e.and (.not e')) = x := by
  have hviolating : path.violating s a name = Hop.someRow (.element name) fun inner => do
      return some (.not (← conditionOf (compileBody s inner a path))) := by
    simp only [Path.violating, Path.bodyViolation, Path.bodyCondition, bind_assoc, pure_bind]
  rw [Path.compileAs, Target.compile, hviolating]
  simp only [Numbered.bind_ok, Numbered.pure_ok]
  constructor
  · rintro ⟨e, k, he, e', _, he', rfl, rfl⟩
    exact ⟨e, k, e', he, he', rfl⟩
  · rintro ⟨e, k, e', he, he', rfl⟩
    exact ⟨e, k, he, e', m, he', rfl, rfl⟩

/-- Compiles the arguments of the `function` in a path, and calls it by `callCustom`. -/
def Path.called (s : Schema) (a : Address) (path : Path) (name : String) (c : Context) :
    Numbered Compiled := do
  s.callCustom name (← compileArguments s c a 0 path.arguments)

theorem Path.called_ok {name : String} :
    (path.called s a name c).run n = .ok (x, m) ↔
      ∃ ys, (compileAll s c a 0 (path.arguments.map Argument.value)).run n = .ok (ys, m) ∧
        s.callCustom name ((path.arguments.map Argument.name).zip ys) = .ok x := by
  rw [Path.called]
  simp only [Numbered.bind_ok, Numbered.lift_ok, compileArguments_ok]
  constructor
  · rintro ⟨_, _, ⟨ys, hys, rfl⟩, hx, rfl⟩
    exact ⟨ys, hys, hx⟩
  · rintro ⟨ys, hys, hx⟩
    exact ⟨_, m, ⟨ys, hys, rfl⟩, hx, rfl⟩

theorem Path.compileAs_function_ok {anchor : Level} {name : String} :
    (path.compileAs s a c (anchor, .function name)).run n = .ok (x, m) ↔
      ∃ ns n?, navigatingAll s c a 0 (path.arguments.map Argument.value) = .ok ns ∧
        Navigating.only? ns = .ok n? ∧ (c.within n? (path.called s a name)).run n = .ok (x, m) := by
  have hfold : (fun c : Context => do
      (s.callCustom name (← compilePath s c a path) : Numbered Compiled)) =
      path.called s a name := by
    funext c
    rw [compilePath_eq]
    rfl
  rw [Path.compileAs, Target.compile, hfold, navigatingPath_eq]
  simp only [Numbered.bind_ok, Numbered.lift_ok]
  constructor
  · rintro ⟨ns, _, ⟨hns, rfl⟩, n?, _, ⟨hn, rfl⟩, hx⟩
    exact ⟨ns, n?, hns, hn, hx⟩
  · rintro ⟨ns, n?, hns, hn, hx⟩
    exact ⟨ns, n, ⟨hns, rfl⟩, n?, n, ⟨hn, rfl⟩, hx⟩

end Members

/-! ## Whole filters

The outermost functions look up the entity type, and ask for a condition at the end. -/

namespace Schema

variable {s : Schema} {f : Filter} {e : Expr}

/-- `compileOn` starts counting at one, since the alias of the root rows has the number zero. -/
theorem compileOn_ok {type : EntityType} :
    s.compileOn type f = .ok e ↔
      ∃ x m, (f.compile s (.ofEntity type) []).run 1 = .ok (x, m) ∧ x.predicate? = some e := by
  rw [compileOn, Checked.bind_ok]
  constructor
  · rintro ⟨⟨x, m⟩, hx, h⟩
    refine ⟨x, m, hx, Compiled.condition_ok.mp ?_⟩
    cases x with
    | literal l => cases h
    | predicate | value | member | subquery | typeName => exact h
  · rintro ⟨x, m, hx, he⟩
    refine ⟨(x, m), hx, ?_⟩
    cases x with
    | literal l => cases he
    | predicate | value | member | subquery | typeName => exact Compiled.condition_ok.mpr he

theorem filtered_ok {entity : String} {type : EntityType} :
    s.filtered entity = .ok type ↔ s.entityType? entity = some type := by
  rw [filtered]
  cases s.entityType? entity <;> simp

theorem compile_ok {entity : String} :
    s.compile entity f = .ok e ↔ ∃ type, s.entityType? entity = some type ∧
    s.compileOn type f = .ok e := by
  rw [compile, Checked.bind_ok]
  simp only [filtered_ok]

theorem select_ok {entity : String} {q : Select} :
    s.select entity f = .ok q ↔ ∃ type e, s.entityType? entity = some type ∧
    s.compileOn type f = .ok e ∧
      .mk [.wildcard (some (tableAlias 0))] (some (type.table, some (tableAlias 0))) []
        (some e) = q := by
  rw [select, Checked.bind_ok]
  simp only [filtered_ok, Checked.bind_ok, Checked.pure_ok, Select.ofTable, Select.filter]
  constructor
  · rintro ⟨type, htype, e, he, rfl⟩
    exact ⟨type, e, htype, he, rfl⟩
  · rintro ⟨type, e, htype, he, rfl⟩
    exact ⟨type, htype, e, he, rfl⟩

end Schema

end FilterSql
