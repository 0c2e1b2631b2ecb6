import FilterSql.Sql.Basic

/-!
# What SQL expressions evaluate to

`Expr.eval` evaluates an expression over the tables of a database, with a row for each alias.
Conditions have three truth values, and a row passes a condition that is true of it, not one that
is unknown. A query ranges over the combinations of rows of its tables that pass its conditions
(`Select.matches`). What a database makes of single values is a parameter: `Database` leaves open
how values compare, which texts match a pattern, and what its functions give.
-/

namespace FilterSql

/-! ## Truth values

The connectives of SQL, on `some true`, `some false` and `none` for unknown. -/

namespace Sql

/-- Whether something is so, or `none` if that is not known. -/
abbrev Truth := Option Bool

namespace Truth

def conj : Truth → Truth → Truth
  | some true, u => u
  | some false, _ => some false
  | none, some false => some false
  | none, _ => none

def disj : Truth → Truth → Truth
  | some false, u => u
  | some true, _ => some true
  | none, some true => some true
  | none, _ => none

def neg : Truth → Truth
  | some b => some !b
  | none => none

/-- Whether a condition of this truth value lets a row pass: unknown is not enough. -/
def holds : Truth → Bool
  | some b => b
  | none => false

/-- The value that a condition has as an expression. -/
def value : Truth → Value
  | some b => .boolean b
  | none => .null

theorem conj_some (b b' : Bool) : conj (some b) (some b') = some (b && b') := by
  cases b <;> rfl

theorem neg_some (b : Bool) : neg (some b) = some !b := rfl

theorem neg_holds (t : Truth) : t.neg.holds = !(t != some false) := by
  rcases t with _ | _ | _ <;> rfl

/-- `NOT` of no condition is true exactly if none of them is false. It is what a subquery for `all`
asks. -/
theorem not_any_neg {α : Type} (as : List α) (judge : α → Truth) :
    (!as.any fun a => (judge a).neg.holds) = as.all fun a => judge a != some false := by
  simp only [List.not_any_eq_all_not, neg_holds, Bool.not_not]

theorem conj_holds (t u : Truth) : (t.conj u).holds = (t.holds && u.holds) := by
  rcases t with _ | _ | _ <;> rcases u with _ | _ | _ <;> rfl

end Truth

end Sql

/-- The truth value that `v` has as a condition. Only booleans have one. -/
def Value.truth : Value → Sql.Truth
  | .boolean b => some b
  | _ => none

@[simp]
theorem Sql.Truth.truth_value (t : Truth) : t.value.truth = t := by
  cases t <;> rfl

namespace Sql

/-! ## Databases

Rows and tables, and the meaning of what expressions are made of. -/

/-- A row as a function of its columns, null where it has no such column. -/
abbrev Row := String → Value

structure Database where
  /-- How two values compare, neither of which is null. -/
  compare : Comparison → Value → Value → Bool
  like : Value → Value → Option Char → Truth
  arith : Arithmetic → Value → Value → Value
  function : String → List Value → Value
  position : Value → Value → Value
  extract : DateField → Value → Value
  cast : Value → DataType → Value
  now : Value
  rows : TableName → List Row

/-- How two values compare. With a null on either side that is unknown. -/
def Database.compared (db : Database) (op : Comparison) (v w : Value) : Truth :=
  if v.isNull || w.isNull then none else some (db.compare op v w)

/-- The row that each alias stands for. The table without an alias is under `none`. -/
abbrev Rows := Option String → Row

/-- Lets an alias stand for `row`, and leaves the others. -/
def Rows.bind (env : Rows) (label : Option String) (row : Row) : Rows :=
  fun l => if l = label then row else env l

@[simp]
theorem Rows.bind_self (env : Rows) (label : Option String) (row : Row) :
    env.bind label row label = row := by
  simp [bind]

theorem Rows.bind_other {env : Rows} {label l : Option String} {row : Row} (h : l ≠ label) :
    env.bind label row l = env l := by
  simp [bind, h]

/-! ## Evaluation

By recursion on the tree, expressions and queries together. A query first lists the environments of
its rows and then takes one value of them. -/

mutual

def Expr.eval (db : Database) (env : Rows) : Expr → Value
  | .column qualifier name => env qualifier name
  | .parameter v => v
  | .constant v => v
  | .binary l op r =>
      match op with
      | .compare op => (db.compared op (l.eval db env) (r.eval db env)).value
      | .and => (Truth.conj (l.eval db env).truth (r.eval db env).truth).value
      | .or => (Truth.disj (l.eval db env).truth (r.eval db env).truth).value
      | .arith op => db.arith op (l.eval db env) (r.eval db env)
  | .not e => (Truth.neg (e.eval db env).truth).value
  | .isNull e => .boolean (e.eval db env).isNull
  | .isNotNull e => .boolean !(e.eval db env).isNull
  | .like e pattern escape => (db.like (e.eval db env) (pattern.eval db env) escape).value
  | .function name args => db.function name (listEval db env args)
  | .position needle haystack => db.position (needle.eval db env) (haystack.eval db env)
  | .extract field e => db.extract field (e.eval db env)
  | .cast e type => db.cast (e.eval db env) type
  | .now => db.now
  | .hasRows q => .boolean !(q.matches db env).isEmpty
  | .scalar q => q.single db (q.matches db env)
  -- These stand for no single value. The number of rows is that of a whole query.
  | .functionOfAll _ => .null
  | .wildcard _ => .null

def listEval (db : Database) (env : Rows) : List Expr → List Value
  | [] => []
  | e :: es => e.eval db env :: listEval db env es

/-- The environments of the rows that a query is about: those that pass the conditions of its joins
and its own. -/
def Select.matches (db : Database) (env : Rows) : Select → List Rows
  | .mk _ source joins condition =>
      let rows := joinRows db joins <|
        match source with
        | some (table, label) => (db.rows table).map (env.bind label)
        | none => [env]
      match condition with
      | some e => rows.filter fun env => Truth.holds (e.eval db env).truth
      | none => rows

/-- Puts each row of the joined tables beside the rows that are there, where the condition of the
join lets it pass. -/
def joinRows (db : Database) : List Join → List Rows → List Rows
  | [], rows => rows
  | .mk table label on :: joins, rows =>
      joinRows db joins <| rows.flatMap fun env =>
        ((db.rows table).map (env.bind label)).filter fun env => Truth.holds (on.eval db env).truth

/-- The single value of a query that is about `rows`: how many there are, or the first column of
the first row. -/
def Select.single (db : Database) : Select → List Rows → Value
  | .mk columns _ _ _, rows =>
      match columns with
      | [.functionOfAll _] => .long rows.length
      | e :: _ =>
          match rows with
          | env :: _ => e.eval db env
          | [] => .null
      | [] => .null

end

/-- The rows that a query of all columns of one table answers with. Other queries have no such
answer here. -/
def Select.answer? (db : Database) (env : Rows) : Select → Option (List Row)
  | .mk [.wildcard label] source joins condition =>
      some (((Select.mk [.wildcard label] source joins condition).matches db env).map (· label))
  | _ => none

/-! ## Conditions

`Expr.holds` reads an expression as a condition, and a conjunction holds if its parts do. -/

variable {db : Database} {env : Rows}

theorem listEval_eq (es : List Expr) : listEval db env es = es.map (·.eval db env) := by
  induction es with
  | nil => rfl
  | cons e es ih => rw [listEval, ih, List.map_cons]

/-- Whether `e` is true as a condition, for the rows that the aliases stand for. -/
def Expr.holds (db : Database) (env : Rows) (e : Expr) : Bool :=
  Truth.holds (e.eval db env).truth

theorem Expr.holds_and (l r : Expr) :
    (l.and r).holds db env = (l.holds db env && r.holds db env) := by
  rw [holds, Expr.and, eval, Truth.truth_value, Truth.conj_holds, holds, holds]

theorem foldl_and_holds (e : Expr) (es : List Expr) :
    (es.foldl Expr.and e).holds db env = (e.holds db env && es.all (·.holds db env)) := by
  induction es generalizing e with
  | nil => rw [List.foldl_nil, List.all_nil, Bool.and_true]
  | cons e' es ih => rw [List.foldl_cons, ih, Expr.holds_and, List.all_cons, Bool.and_assoc]

/-- The conjunction of `es` holds exactly if all of `es` do. -/
theorem conjunction?_holds {es : List Expr} {e : Expr} (h : Expr.conjunction? es = some e) :
    e.holds db env = es.all (·.holds db env) := by
  cases es with
  | nil => simp [Expr.conjunction?] at h
  | cons e' es =>
      obtain rfl := Option.some.inj h
      rw [foldl_and_holds, List.all_cons]

end Sql

end FilterSql
