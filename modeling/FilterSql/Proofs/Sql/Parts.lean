import FilterSql.Sql.Basic

/-!
# The parts of a tree

Expressions stand in expressions as operands and arguments, and in queries as columns, as
conditions of joins and as the condition. `Expr.parts` lists the expressions right below an
expression, those of a query in it included. By `Expr.induction`, what passes from the parts to the
whole holds of every expression, so a proof about trees speaks of queries only where it is about
them.
-/

namespace FilterSql.Sql

/-! ## Parts

`Expr`, `Select` and `Join` are defined by mutual recursion. Their parts are all expressions. -/

/-- The condition that a join is made on. -/
def Join.on : Join → Expr
  | .mk _ _ on => on

/-- The expressions right below a query, in the order in which its text has them. -/
def Select.parts : Select → List Expr
  | .mk columns _ joins condition => columns ++ joins.map Join.on ++ condition.toList

/-- The expressions right below an expression, in the order in which its text has them. -/
def Expr.parts : Expr → List Expr
  | .column .. | .parameter _ | .constant _ | .functionOfAll _ | .now | .wildcard _ => []
  | .not e | .isNull e | .isNotNull e | .extract _ e | .cast e _ => [e]
  | .binary left _ right => [left, right]
  | .like e pattern _ => [e, pattern]
  | .position needle haystack => [needle, haystack]
  | .function _ args => args
  | .hasRows query | .scalar query => query.parts

/-! ## Induction

Parts are smaller than the whole, in the measure that `sizeOf` takes of the three types together. -/

theorem Join.sizeOf_on (join : Join) : sizeOf join.on < sizeOf join := by
  obtain ⟨table, label, on⟩ := join
  rw [Join.on, Join.mk.sizeOf_spec]
  omega

theorem Select.sizeOf_part {query : Select} {part : Expr} (h : part ∈ query.parts) :
    sizeOf part < sizeOf query := by
  obtain ⟨columns, source, joins, condition⟩ := query
  rw [Select.mk.sizeOf_spec]
  simp only [Select.parts, List.mem_append, List.mem_map, Option.mem_toList] at h
  rcases h with (hcolumn | ⟨join, hjoin, rfl⟩) | hcondition
  · have hlt := List.sizeOf_lt_of_mem hcolumn
    omega
  · have hlt := List.sizeOf_lt_of_mem hjoin
    have hon := join.sizeOf_on
    omega
  · obtain rfl := Option.mem_def.mp hcondition
    rw [Option.some.sizeOf_spec]
    omega

theorem Expr.sizeOf_part {e part : Expr} (h : part ∈ e.parts) : sizeOf part < sizeOf e := by
  cases e with
  | hasRows query | scalar query =>
      have hlt := Select.sizeOf_part h
      simp only [Expr.hasRows.sizeOf_spec, Expr.scalar.sizeOf_spec]
      omega
  | function name args =>
      have hlt : sizeOf part < sizeOf args := List.sizeOf_lt_of_mem h
      rw [Expr.function.sizeOf_spec]
      omega
  | column | parameter | constant | functionOfAll | now | wildcard => simp [Expr.parts] at h
  | not | isNull | isNotNull | extract | cast | binary | like | position =>
      simp only [Expr.parts, List.mem_cons, List.not_mem_nil, or_false] at h
      grind

/-- **Induction on expressions**: what passes from the parts of an expression to the expression
itself holds of every expression. -/
theorem Expr.induction {P : Expr → Prop} (step : ∀ e, (∀ part ∈ e.parts, P part) → P e)
    (e : Expr) : P e :=
  step e fun part _ => Expr.induction step part
termination_by sizeOf e
decreasing_by exact Expr.sizeOf_part ‹_›

/-! ## Conjunctions

The conditions of a query are joined by `AND`, which nests them to the left. -/

theorem foldl_and_of {P : Expr → Prop} (hand : ∀ {a b}, P a → P b → P (a.and b)) {e : Expr}
    {es : List Expr} (h : ∀ x ∈ e :: es, P x) : P (es.foldl Expr.and e) := by
  induction es generalizing e with
  | nil => exact h e List.mem_cons_self
  | cons first rest ih =>
      apply ih
      intro x hx
      rcases List.mem_cons.mp hx with rfl | hx
      · exact hand (h e (by simp)) (h first (by simp))
      · exact h x (by simp [hx])

/-- What `AND` preserves holds of `Expr.conjunction?` if it holds of each of its parts. -/
theorem conjunction?_of {P : Expr → Prop} (hand : ∀ {a b}, P a → P b → P (a.and b)) {es : List Expr}
    {e : Expr} (h : Expr.conjunction? es = some e) (hes : ∀ x ∈ es, P x) : P e := by
  cases es with
  | nil => simp [Expr.conjunction?] at h
  | cons first rest =>
      obtain rfl := Option.some.inj h
      exact foldl_and_of hand hes

end FilterSql.Sql
