import FilterSql.Proofs.Sql.Parts

/-!
# Other aliases

`Expr.relabel ρ` is the same tree with other names for its tables. A table has its alias from the
query or the join that brings it in, and columns refer to it by that alias. Names of tables,
columns and functions are not aliases and stay. `Select.filter`, `Select.join` and
`Expr.conjunction?` commute with it.
-/

namespace FilterSql.Sql

mutual

/-- The expression with each alias changed by `ρ`, declared ones and used ones alike. -/
def Expr.relabel (ρ : String → String) : Expr → Expr
  | .column qualifier name => .column (qualifier.map ρ) name
  | .parameter v => .parameter v
  | .constant v => .constant v
  | .binary left op right => .binary (left.relabel ρ) op (right.relabel ρ)
  | .not e => .not (e.relabel ρ)
  | .isNull e => .isNull (e.relabel ρ)
  | .isNotNull e => .isNotNull (e.relabel ρ)
  | .like e pattern escape => .like (e.relabel ρ) (pattern.relabel ρ) escape
  | .function name args => .function name (listRelabel ρ args)
  | .functionOfAll name => .functionOfAll name
  | .position needle haystack => .position (needle.relabel ρ) (haystack.relabel ρ)
  | .extract field e => .extract field (e.relabel ρ)
  | .cast e type => .cast (e.relabel ρ) type
  | .now => .now
  | .hasRows query => .hasRows (query.relabel ρ)
  | .scalar query => .scalar (query.relabel ρ)
  | .wildcard qualifier => .wildcard (qualifier.map ρ)

def listRelabel (ρ : String → String) : List Expr → List Expr
  | [] => []
  | e :: es => e.relabel ρ :: listRelabel ρ es

/-- The query with each alias changed by `ρ`, the ones that it declares included. -/
def Select.relabel (ρ : String → String) : Select → Select
  | .mk columns source joins condition =>
      .mk (listRelabel ρ columns) (source.map fun (table, label) =>
        (table, label.map ρ)) (joinsRelabel ρ joins)
        (match condition with
        | some e => some (e.relabel ρ)
        | none => none)

def joinsRelabel (ρ : String → String) : List Join → List Join
  | [] => []
  | .mk table label on :: joins => .mk table (label.map ρ) (on.relabel ρ) :: joinsRelabel ρ joins

end

variable {ρ : String → String}

theorem joinsRelabel_append (joins joins' : List Join) :
    joinsRelabel ρ (joins ++ joins') = joinsRelabel ρ joins ++ joinsRelabel ρ joins' := by
  induction joins with
  | nil => rfl
  | cons join joins ih =>
      obtain ⟨table, label, on⟩ := join
      rw [List.cons_append, joinsRelabel, joinsRelabel, ih, List.cons_append]

namespace Select

theorem relabel_filter (q : Select) (e : Expr) :
    (q.filter e).relabel ρ = (q.relabel ρ).filter (e.relabel ρ) := by
  obtain ⟨columns, source, joins, condition⟩ := q
  cases condition <;> rfl

theorem relabel_join (q : Select) (table : TableName) (label : Option String) (on : Expr) :
    (q.join table label on).relabel ρ = (q.relabel ρ).join table (label.map ρ) (on.relabel ρ) := by
  obtain ⟨columns, source, joins, condition⟩ := q
  cases condition with
  | none | some =>
      rw [join, relabel, relabel, join, joinsRelabel_append]
      rfl

end Select

/-- Changing the aliases of a conjunction changes those of its parts. -/
theorem Expr.conjunction?_relabel (es : List Expr) :
    conjunction? (es.map (Expr.relabel ρ)) = (conjunction? es).map (Expr.relabel ρ) := by
  have hfold (e : Expr) (es : List Expr) :
      (es.map (Expr.relabel ρ)).foldl Expr.and (e.relabel ρ) = (es.foldl Expr.and e).relabel ρ := by
    induction es generalizing e with
    | nil => rfl
    | cons first rest ih => exact ih (e.and first)
  cases es with
  | nil => rfl
  | cons e es => exact congrArg some (hfold e es)

end FilterSql.Sql
