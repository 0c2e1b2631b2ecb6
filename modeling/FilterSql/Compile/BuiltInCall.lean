import FilterSql.Compile.Coercion
import FilterSql.Sql.Like

/-!
# Calls of built-in functions

A built-in function becomes an expression of SQL. Its arguments are counted first by
`BuiltIn.checkArity`; then each is taken with `BuiltIn.next`, put into the place of a value and
checked for its type. A text to look for that is written as a literal becomes a pattern at once,
with its special characters escaped; any other is joined with wildcards by the database.
`Schema.callBuiltIn` is the call of any function.
-/

namespace FilterSql

open scoped Power

open Sql (Expr)

/-! ### Arguments

What an argument may be is told by the data type of its value. A literal is read as a value of the
type that is wanted. -/

namespace BuiltIn

/-- The least and the greatest number of arguments that a function is called with. -/
def arity : BuiltIn → Nat × Nat
  | now => (0, 0)
  | length | toLower | toUpper | trim | year | month | day | hour | minute | second | date | time
  | round | floor | ceiling => (1, 1)
  | contains | startsWith | endsWith | indexOf | concat | cast => (2, 2)
  | substring => (2, 3)
  | isOf => (1, 2)

/-- Refuses a call of `f` for the `actual` number of its arguments. -/
def checkArity (f : BuiltIn) (actual : Nat) : Except FilterError Unit :=
  let (least, greatest) := f.arity
  if least ≤ actual ∧ actual ≤ greatest then .ok ()
  else
    let expected :=
      if least = greatest then toString least else toString least ++ " to " ++ toString greatest
    .error (.arityMismatch f.word expected actual)

/-- Takes the next argument of `f`. There is one as long as `checkArity` has counted more. -/
def next (f : BuiltIn) : List Compiled → Except FilterError (Compiled × List Compiled)
  | [] => .error (.defect (.missingArgument f.word))
  | c :: rest => .ok (c, rest)

/-- A call passes with as many arguments as `arity` says. -/
theorem checkArity_ok {f : BuiltIn} {n : Nat} :
    f.checkArity n = .ok () ↔ f.arity.1 ≤ n ∧ n ≤ f.arity.2 := by
  simp only [checkArity]
  split
  · simp only [*, true_and]
  · simp only [*, reduceCtorEq]

end BuiltIn

namespace Schema

/-- An argument of `f` whose type `accepts` lets pass. It is no literal `null`. -/
def argument (s : Schema) (f : BuiltIn) (accepts : DataType → Bool) (beside : Option ValueType)
    (c : Compiled) : Except FilterError Operand := do
  let a ← s.operand c beside
  if a.isNull then throw (.notSupported (.nullArgument f))
  if !accepts a.type.dataType then throw (.notSupported (.argument f a.type.dataType))
  return a

/-- An argument of `f` that is a text. -/
def textArgument (s : Schema) (f : BuiltIn) (c : Compiled) : Except FilterError Expr := do
  return (← s.argument f (·.isTextual) (some (.of .string)) c).expr

/-- An argument of `f` that is a whole number. -/
def wholeArgument (s : Schema) (f : BuiltIn) (c : Compiled) : Except FilterError Expr := do
  return (← s.argument f (·.isIntegral) (some (.of .int)) c).expr

/-- An argument of `f` that is a date or an instant. -/
def dayArgument (s : Schema) (f : BuiltIn) (c : Compiled) : Except FilterError Expr := do
  return (← s.argument f (fun t => t == .date || t == .timestamp) none c).expr

/-- An argument of `f` that is a time of day or an instant. -/
def clockArgument (s : Schema) (f : BuiltIn) (c : Compiled) : Except FilterError Expr := do
  return (← s.argument f (fun t => t == .time || t == .timestamp) none c).expr

/-! ### Patterns

A literal is escaped here, so what it says is found as it stands; a text that the database computes
has its wildcards mean what they mean in a pattern. -/

/-- The pattern for the text `c` within the margins `m`, with the escape character that it needs. -/
def likePattern (s : Schema) (f : BuiltIn) (m : Sql.Like.Margins) (c : Compiled) :
    Except FilterError (Expr × Option Char) :=
  let computed : Except FilterError (Expr × Option Char) := do
    let e ← s.textArgument f c
    return (.function "CONCAT" (m.around (.constant (.string "%")) [e]), none)
  match c with
  | .literal l =>
      if l.kind = .string then
        .ok (.parameter (.string (Sql.Like.pattern m l.text)), Sql.Like.escapeOf l.text)
      else computed
  | _ => computed

/-- Whether the first argument has the second in it, within the margins `m`. -/
def matching (s : Schema) (f : BuiltIn) (m : Sql.Like.Margins) (args : List Compiled) :
    Except FilterError Compiled := do
  let (a, args) ← f.next args
  let text ← s.textArgument f a
  let (b, _) ← f.next args
  let (pattern, escape) ← s.likePattern f m b
  return .predicate (.like text pattern escape)

/-! ### Built-in functions

Functions of one form share a definition, which is given the name in SQL, the part of a date or the
reader of the argument. -/

/-- The start of a `substring`, counted from one. Filters count from zero. -/
def startArgument (s : Schema) (f : BuiltIn) (c : Compiled) : Except FilterError Expr :=
  let computed : Except FilterError Expr := do
    let e ← s.wholeArgument f c
    return .binary e (.arith .add) (.constant (.int 1))
  match c with
  | .literal l =>
      if l.kind = .integer then
        match Text.intOfBits? 32 l.text.toList with
        | .ok n =>
            if n + 1 < 2 ^ (31 : Nat) then .ok (.parameter (.int (n + 1)))
            else Literal.refuse l.text .int .outOfRange
        | .error _ => Literal.refuse l.text .int .outOfRange
      else computed
  | _ => computed

/-- Calls `name` on a single text, and gives a value of `type`. -/
def textFunction (s : Schema) (f : BuiltIn) (name : String) (type : DataType)
    (args : List Compiled) : Except FilterError Compiled := do
  let (a, _) ← f.next args
  return .ofType (.function name [← s.textArgument f a]) type

/-- A part of a date or a time, which `read` tells the argument to be. -/
def fieldFunction (f : BuiltIn) (field : Sql.DateField) (read : Compiled → Except FilterError Expr)
    (args : List Compiled) : Except FilterError Compiled := do
  let (a, _) ← f.next args
  return .ofType (.extract field (← read a)) .int

/-- The date or the time of an instant, as a cast to `target`. -/
def castFunction (f : BuiltIn) (target : DataType) (read : Compiled → Except FilterError Expr)
    (args : List Compiled) : Except FilterError Compiled := do
  let (a, _) ← f.next args
  return .ofType (.cast (← read a) target) target

/-- Calls `name` on a number, and keeps the type of this. -/
def roundingFunction (s : Schema) (f : BuiltIn) (name : String) (args : List Compiled) :
    Except FilterError Compiled := do
  let (a, _) ← f.next args
  let a ← s.argument f (·.isNumeric) none a
  return .value (.function name [a.expr]) a.type.loose

/-- Where the second argument is in the first, counted from zero. `position` counts from one. -/
def positionFunction (s : Schema) (f : BuiltIn) (args : List Compiled) :
    Except FilterError Compiled := do
  let (a, args) ← f.next args
  let text ← s.textArgument f a
  let (b, _) ← f.next args
  let part ← s.textArgument f b
  return .ofType (.binary (.position part text) (.arith .sub) (.constant (.int 1))) .long

/-- `SUBSTRING` from the start on, with a length or without. -/
def partFunction (s : Schema) (f : BuiltIn) (args : List Compiled) :
    Except FilterError Compiled := do
  let (a, args) ← f.next args
  let text ← s.textArgument f a
  let (b, args) ← f.next args
  let start ← s.startArgument f b
  match args with
  | [] => return .ofType (.function "SUBSTRING" [text, start]) .string
  | c :: _ =>
      let length ← s.wholeArgument f c
      return .ofType (.function "SUBSTRING" [text, start, length]) .string

/-- `CONCAT` of two texts. -/
def joinFunction (s : Schema) (f : BuiltIn) (args : List Compiled) :
    Except FilterError Compiled := do
  let (a, args) ← f.next args
  let left ← s.textArgument f a
  let (b, _) ← f.next args
  let right ← s.textArgument f b
  return .ofType (.function "CONCAT" [left, right]) .string

/-- The type that a cast goes to, which is `string` or `date`. -/
def castTarget : Compiled → Except FilterError DataType
  | .typeName t =>
      if t = .string ∨ t = .date then .ok t else .error (.notSupported (.castTo (toString t)))
  | c => .error (.notSupported (.castTo c.describe))

/-- The first argument, cast to the type that the second one names (`castTarget`). -/
def castTo (s : Schema) (f : BuiltIn) (args : List Compiled) : Except FilterError Compiled := do
  let (a, args) ← f.next args
  let (b, _) ← f.next args
  let target ← castTarget b
  let a ← s.operand a none
  return .ofType (.cast a.expr target) target

/-! ### What is left of them where no argument is missing

With its arguments spelled out, each function is the rest of its steps: `next` has done its work
and cannot fail. -/

section

variable {s : Schema} {f : BuiltIn}

theorem matching_pair (m : Sql.Like.Margins) (a b : Compiled) : s.matching f m [a, b] = (do
    let text ← s.textArgument f a
    let (pattern, escape) ← s.likePattern f m b
    return .predicate (.like text pattern escape)) := rfl

theorem textFunction_singleton (name : String) (type : DataType) (a : Compiled) :
    s.textFunction f name type [a] = (do
      return .ofType (.function name [← s.textArgument f a]) type) := rfl

theorem fieldFunction_singleton (field : Sql.DateField) (read : Compiled → Except FilterError Expr)
    (a : Compiled) :
    fieldFunction f field read [a] = (do return .ofType (.extract field (← read a)) .int) := rfl

theorem castFunction_singleton (target : DataType) (read : Compiled → Except FilterError Expr)
    (a : Compiled) :
    castFunction f target read [a] = (do return .ofType (.cast (← read a) target) target) := rfl

theorem roundingFunction_singleton (name : String) (a : Compiled) :
    s.roundingFunction f name [a] = (do
      let a ← s.argument f (·.isNumeric) none a
      return .value (.function name [a.expr]) a.type.loose) := rfl

theorem positionFunction_pair (a b : Compiled) : s.positionFunction f [a, b] = (do
    let text ← s.textArgument f a
    let part ← s.textArgument f b
    return .ofType (.binary (.position part text) (.arith .sub) (.constant (.int 1))) .long) := rfl

theorem partFunction_pair (a b : Compiled) : s.partFunction f [a, b] = (do
    let text ← s.textArgument f a
    let start ← s.startArgument f b
    return .ofType (.function "SUBSTRING" [text, start]) .string) := rfl

theorem partFunction_triple (a b c : Compiled) : s.partFunction f [a, b, c] = (do
    let text ← s.textArgument f a
    let start ← s.startArgument f b
    let length ← s.wholeArgument f c
    return .ofType (.function "SUBSTRING" [text, start, length]) .string) := rfl

theorem joinFunction_pair (a b : Compiled) : s.joinFunction f [a, b] = (do
    let left ← s.textArgument f a
    let right ← s.textArgument f b
    return .ofType (.function "CONCAT" [left, right]) .string) := rfl

theorem castTo_pair (a b : Compiled) : s.castTo f [a, b] = (do
    let target ← castTarget b
    let a ← s.operand a none
    return .ofType (.cast a.expr target) target) := rfl

end

/-! ### All of them

Counting comes first, so a call with too few arguments is never blamed for their types. -/

/-- Calls `f` with arguments that have been counted. -/
def applyBuiltIn (s : Schema) (f : BuiltIn) (args : List Compiled) : Except FilterError Compiled :=
  match f with
  | .contains => s.matching f ⟨true, true⟩ args
  | .startsWith => s.matching f ⟨false, true⟩ args
  | .endsWith => s.matching f ⟨true, false⟩ args
  | .length => s.textFunction f "CHAR_LENGTH" .long args
  | .indexOf => s.positionFunction f args
  | .substring => s.partFunction f args
  | .toLower => s.textFunction f "LOWER" .string args
  | .toUpper => s.textFunction f "UPPER" .string args
  | .trim => s.textFunction f "TRIM" .string args
  | .concat => s.joinFunction f args
  | .year => fieldFunction f .year (s.dayArgument f) args
  | .month => fieldFunction f .month (s.dayArgument f) args
  | .day => fieldFunction f .day (s.dayArgument f) args
  | .hour => fieldFunction f .hour (s.clockArgument f) args
  | .minute => fieldFunction f .minute (s.clockArgument f) args
  | .second => fieldFunction f .second (s.clockArgument f) args
  | .date => castFunction f .date (s.dayArgument f) args
  | .time => castFunction f .time (s.clockArgument f) args
  | .now => .ok (.ofType .now .timestamp)
  | .round => s.roundingFunction f "ROUND" args
  | .floor => s.roundingFunction f "FLOOR" args
  | .ceiling => s.roundingFunction f "CEILING" args
  | .cast => s.castTo f args
  | .isOf => .error (.notSupported .isOf)

/-- Calls `f` with any arguments. -/
def callBuiltIn (s : Schema) (f : BuiltIn) (args : List Compiled) :
    Except FilterError Compiled := do
  f.checkArity args.length
  s.applyBuiltIn f args

end Schema

end FilterSql
