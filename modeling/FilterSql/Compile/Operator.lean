import FilterSql.Compile.Coercion

/-!
# Operators

Comparisons, arithmetic and logic on compiled operands. The left operand goes first: a literal
there takes the type of the right one, and a literal on the right takes the type that the left one
has then, which is `Schema.operands`. A condition compared with a boolean literal is the condition
itself or its negation. `Schema.compose` is all binary operators and `Compiled.composeUnary` all
unary ones.
-/

namespace FilterSql

open Sql (Expr)

/-! ### Conditions

Conditions have no type and are not operands of `compareValues`; what they can be compared with is
told by the form of a literal. -/

namespace Compiled

/-- The boolean that a literal of that kind stands for. -/
def boolean? : Compiled → Option Bool
  | literal l => if l.kind = .boolean then some (l.text == "true") else none
  | _ => none

/-- Compares the condition `c` with the boolean that a `literal` has been found to be. That it has
been found is checked again. -/
def compareCondition (op : Comparison) (c : Compiled) (literal : Option Bool) :
    Except FilterError Compiled :=
  match literal with
  | none => .error (.defect .comparedWithNonBoolean)
  | some expected =>
      let test (kept : Bool) : Except FilterError Compiled := do
        let e ← c.condition
        return predicate (if kept then e else .not e)
      match op with
      | .eq => test expected
      | .ne => test (!expected)
      | _ => .error (.notSupported (.conditionWithBoolean (.compare op)))

/-- Joins two conditions with `op`, which is `AND` or `OR`. -/
def combine (op : Sql.Operator) (a b : Compiled) : Except FilterError Compiled := do
  let l ← a.condition
  let r ← b.condition
  return predicate (.binary l op r)

def negateCondition (c : Compiled) : Except FilterError Compiled :=
  if !c.isPredicate then .error (.notSupported (.notOf c.describe))
  else do return predicate (.not (← c.condition))

end Compiled

/-! ### Comparisons

A comparison is one of three: of a condition with a boolean, of a value with null, or of two values
whose types have something in common. -/

/-- Compares `e` with null, for which there are tests of its own. -/
def compareNull (op : Comparison) (e : Expr) : Except FilterError Compiled :=
  match op with
  | .eq => .ok (.predicate (.isNull e))
  | .ne => .ok (.predicate (.isNotNull e))
  | _ => .error (.notSupported (.withNull (.compare op)))

/-- Refuses to compare values of families that have nothing in common, and members of two enum
types. -/
def ValueType.checkComparable (a b : ValueType) : Except FilterError Unit :=
  if !a.dataType.comparable b.dataType then
    .error (.notSupported (.comparison a.dataType b.dataType))
  else match a.enumType, b.enumType with
    | some l, some r => if l = r then .ok () else .error (.invalidValue r l (.otherEnumType l))
    | _, _ => .ok ()

namespace Schema

/-- The two operands, each literal read as a value of the other's type. One that is null says
nothing about the type of the other. -/
def operands (s : Schema) (a b : Compiled) : Except FilterError (Operand × Operand) := do
  let l ← s.operand a b.type?
  let r ← s.operand b (if l.isNull then none else some l.type)
  return (l, r)

/-- Compares the values of `a` and `b`. -/
def compareValues (s : Schema) (op : Comparison) (a b : Compiled) :
    Except FilterError Compiled := do
  let (l, r) ← s.operands a b
  if l.isNull then compareNull op r.expr
  else if r.isNull then compareNull op l.expr
  else
    l.type.checkComparable r.type
    return .predicate (.binary l.expr (.compare op) r.expr)

/-- Compares `a` and `b`, of which one may be a condition and the other a boolean literal. -/
def compare (s : Schema) (op : Comparison) (a b : Compiled) : Except FilterError Compiled :=
  if a.isCondition && b.boolean?.isSome then a.compareCondition op b.boolean?
  else if b.isCondition && a.boolean?.isSome then b.compareCondition op a.boolean?
  else s.compareValues op a b

end Schema

/-! ### Arithmetic

The result has the wider type of the two. Null has no part in arithmetic. -/

namespace Compiled

/-- The type that `c` is read as in arithmetic, beside an operand of the type `other`. A literal of
a kind that is wider keeps the type of its own form. -/
def arithmeticType (c : Compiled) (other : Option ValueType) : Option ValueType :=
  match c with
  | literal l => other.filter fun t => t.dataType.widen? l.kind.dataType = some t.dataType
  | _ => other

/-- The literal of the number with the other sign. Nothing but the literal of a number has one. -/
def negate (c : Compiled) : Except FilterError Compiled :=
  let refused := .error (.notSupported (.minusOf c.describe))
  match c with
  | literal l =>
      if l.kind.isNumeric then
        .ok (literal ⟨match l.text.toList with
          | '-' :: rest => String.ofList rest
          | text => String.ofList ('-' :: text), l.kind⟩)
      else refused
  | _ => refused

end Compiled

namespace Schema

def calculate (s : Schema) (op : Arithmetic) (a b : Compiled) : Except FilterError Compiled := do
  let l ← s.operand a (a.arithmeticType (b.type?.map (·.loose)))
  let r ← s.operand b (b.arithmeticType (if l.isNull then none else some l.type.loose))
  if l.isNull || r.isNull then throw (.notSupported (.withNull (.arith op)))
  match l.type.dataType.widen? r.type.dataType with
  | some type => return .ofType (.binary l.expr (.arith op) r.expr) type
  | none => throw (.notSupported (.arithmetic (.arith op) l.type.dataType r.type.dataType))

/-! ### All operators

What is missing here is the search for a member that navigates, which comes before. -/

def compose (s : Schema) (op : BinaryOperator) (a b : Compiled) : Except FilterError Compiled :=
  match op with
  | .compare op => s.compare op a b
  | .arith op => s.calculate op a b
  | .and => Compiled.combine .and a b
  | .or => Compiled.combine .or a b
  | .has => .error (.notSupported .has)

end Schema

def Compiled.composeUnary (op : UnaryOperator) (c : Compiled) : Except FilterError Compiled :=
  match op with
  | .not => c.negateCondition
  | .minus => c.negate

end FilterSql
