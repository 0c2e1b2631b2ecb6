import FilterSql.Compile.Resolution
import FilterSql.Sql.Basic

/-!
# Compiled expressions

What a filter becomes before it is combined with others. Literals stay as they are until it is
known what they stand beside; the rest is SQL already, as a condition or as a value of a known
type. `Compiled.condition` puts a compiled expression into the place of a condition, and an
`Operand` is one in the place of a value.
-/

namespace FilterSql

open Sql (Expr)

inductive Compiled where
  | predicate (e : Expr)
  | value (e : Expr) (type : ValueType)
  /-- An attribute of a table with an alias. -/
  | member (e : Expr) (path : AttributePath)
  /-- A condition about related rows. -/
  | subquery (e : Expr)
  | literal (l : Literal)
  /-- The name of a type. -/
  | typeName (t : DataType)

namespace Compiled

/-- The type of a compiled value or attribute. -/
def type? : Compiled → Option ValueType
  | value _ type => some type
  | member _ path => some path.type
  | _ => none

/-- Whether a compiled expression is a condition as it stands: no value, not even a boolean one. -/
def isCondition : Compiled → Bool
  | predicate _ | subquery _ => true
  | _ => false

/-- Whether a compiled expression can be used as a condition. Besides what `isCondition` holds of,
boolean values and attributes can. -/
def isPredicate : Compiled → Bool
  | predicate _ | subquery _ => true
  | c => c.type?.any (·.dataType = .boolean)

/-- A short description of a compiled expression for messages. -/
def describe : Compiled → String
  | predicate _ => "predicate"
  | value _ type => toString type.dataType ++ " value"
  | member _ path => "member " ++ marked (toString path)
  | subquery _ => "subquery"
  | literal l => "literal " ++ l.written
  | typeName t => "type " ++ toString t

/-- Uses `c` as a condition. What `isPredicate` has let pass has an expression. -/
def condition (c : Compiled) : Except FilterError Expr :=
  if !c.isPredicate then .error (.notSupported (.asCondition c.describe))
  else match c with
    | predicate e | subquery e | value e _ | member e _ => .ok e
    | literal _ | typeName _ => .error (.defect (.noExpression c.describe))

/-- The condition that a compiled expression stands for, if it stands for one: the view of
`condition` without its errors, which `condition_eq` ties to it. -/
def predicate? : Compiled → Option Expr
  | predicate e | subquery e => some e
  | value e type => if type.dataType = .boolean then some e else none
  | member e path => if path.type.dataType = .boolean then some e else none
  | literal _ | typeName _ => none

theorem isPredicate_eq (c : Compiled) : c.isPredicate = c.predicate?.isSome := by
  cases c with
  | predicate | subquery | literal | typeName => rfl
  | value e type =>
      by_cases h : type.dataType = .boolean <;> simp [isPredicate, predicate?, type?, h]
  | member e path =>
      by_cases h : path.type.dataType = .boolean <;> simp [isPredicate, predicate?, type?, h]

/-- **The check leaves nothing behind that has no expression**: `condition` is `predicate?` with an
error for what stands for no condition. -/
theorem condition_eq (c : Compiled) : c.condition =
    match c.predicate? with
    | some e => .ok e
    | none => .error (.notSupported (.asCondition c.describe)) := by
  cases c with
  | predicate | subquery | literal | typeName => rfl
  | value e type =>
      by_cases h : type.dataType = .boolean <;>
        simp [condition, isPredicate, predicate?, type?, h]
  | member e path =>
      by_cases h : path.type.dataType = .boolean <;>
        simp [condition, isPredicate, predicate?, type?, h]

/-- The attribute at `path` of the table with the alias `label`. -/
def ofPath (label : String) (path : AttributePath) : Compiled :=
  member (.qualified label path.column) path

/-- A value of a `type` about which nothing else is known. -/
def ofType (e : Expr) (type : DataType) : Compiled :=
  value e (.of type)

end Compiled

/-- An expression in the place of a value. -/
structure Operand where
  expr : Expr
  type : ValueType
  /-- Whether it is the literal `null`. -/
  isNull : Bool := false

end FilterSql
