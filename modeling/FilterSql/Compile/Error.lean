import FilterSql.Filter.Basic
import FilterSql.Schema.Basic
import FilterSql.Value.Basic

/-!
# Why a filter is refused

A filter that can be read may still have no meaning for a schema. A `FilterError` is the cause,
from which its `message`, the `category` of the party to blame and the `status` of an answer over
HTTP follow. Most causes are faults of the filter; those of `Unsupported` and `Incomparable` are
limits of the compiler, and a `Defect` is a rule that the compiler itself has broken.
-/

namespace FilterSql

/-! ### Causes

Each cause keeps what its message names. What is shared by several causes, such as a value that
does not fit its type, is a type of its own. -/

/-- Why a literal is no value of the type that it is read as. -/
inductive ValueFault where
  | doesNotConvert (kind : LiteralKind)
  | outOfRange
  | notBoolean
  | notFinite
  | tooLong (limit : Nat)
  | tooManyPlaces (limit : Nat)
  | tooManyDigits (limit : Nat)
  | decimal (fault : Decimal.Fault)
  | uuid (fault : Uuid.Fault)
  | calendar (fault : Calendar.Fault)
  /-- The enum type in front of a member is not in the schema. -/
  | unknownEnumType
  /-- The enum type of the other operand is not in the schema. -/
  | enumTypeMissing
  | otherEnumType (expected : String)
  | noSuchMember (type : String)
deriving DecidableEq, Repr

/-- What has no counterpart in SQL here. Operands are given by the text of `Compiled.describe`. -/
inductive Unsupported where
  | has
  | isOf
  | unknownFunction (name : String)
  | parameterAlias (name : String)
  | typeName (name : String)
  | typeAsValue (type : DataType)
  | asCondition (operand : String)
  | literalAsFilter (literal : Literal)
  | asValue (member : String)
  | complexAsValue (name : String)
  | navigationAsValue (member : String)
  | notCollection (member : String)
  | segmentAfter (second first : String)
  | boundFunction (name : String)
  | navigations (members : List String)
  | withNull (op : BinaryOperator)
  | arithmetic (op : BinaryOperator) (left right : DataType)
  | comparison (left right : DataType)
  | conditionWithBoolean (op : BinaryOperator)
  | notOf (operand : String)
  | minusOf (operand : String)
  | nullArgument (function : BuiltIn)
  | argument (function : BuiltIn) (type : DataType)
  | castTo (target : String)
  | literalOf (type : DataType)
deriving DecidableEq, Repr

/-- What a function returns that can be compared with nothing. -/
inductive Incomparable where
  | collection (function : String)
  | structured (function : String) (kind : ReturnKind)
deriving DecidableEq, Repr

/-- A schema that cannot be compiled for, or a rule of the compiler that is broken: what one
function has checked, another one finds not to hold. Each function that relies on a check of
another has a case here, which it fails with. Only `noJoinColumns` and `noReturnType` are faults of
a schema. -/
inductive Defect where
  /-- `Hop.ask` is given no hop. -/
  | noHop
  /-- `Hop.levels` runs out of hops. -/
  | hopsEnded
  /-- `Schema.resolve` is given no names. -/
  | emptyPath (owner : String)
  /-- `Schema.attributeType` is given an attribute that holds no single value. -/
  | noScalarType (name : String)
  /-- `Hop.joinCondition` has no columns to join by. -/
  | noJoinColumns
  /-- `Schema.returnedType` finds a function of a primitive type that does not say of which. -/
  | noReturnType (function : String)
  /-- `compileBody` finds no body in a path. -/
  | noBody
  /-- `Schema.target` finds a name behind the names of a member. -/
  | nameInTail (name member : String)
  /-- `BuiltIn.next` runs out of arguments that `BuiltIn.checkArity` has counted. -/
  | missingArgument (function : String)
  /-- `Compiled.compareCondition` is given no boolean. -/
  | comparedWithNonBoolean
  /-- `Compiled.condition` finds no expression in what `Compiled.isPredicate` has let pass. -/
  | noExpression (operand : String)
  /-- `Target.compile` is given a member that navigates out of the level that was opened for it.
  There the compiler would open one more level and start again; `Filter.steps_enough` says that it
  never has to, so one level is all that `Filter.compile` opens, and this case stands for the next
  one. -/
  | navigatesTwice (member : String)
deriving DecidableEq, Repr

inductive FilterError where
  | invalidPath (path owner : String)
  | invalidValue (value target : String) (fault : ValueFault)
  | notSupported (what : Unsupported)
  | notComparable (what : Incomparable)
  | arityMismatch (function expected : String) (actual : Nat)
  | unboundParameter (function parameter : String)
  | unknownParameter (function parameter : String)
  | duplicateParameter (function parameter : String)
  | defect (what : Defect)
deriving DecidableEq, Repr

/-! ### Messages

Each type of causes has its `message`, and the message of an error is put together of them. -/

def ValueFault.message : ValueFault → String
  | doesNotConvert kind => kind.name ++ " literal does not convert"
  | outOfRange => "out of range"
  | notBoolean => "not a boolean"
  | notFinite => "not a finite number"
  | tooLong limit => "longer than " ++ toString limit ++ " characters"
  | tooManyPlaces limit => "more than " ++ toString limit ++ " fractional digits"
  | tooManyDigits limit => "exceeds precision " ++ toString limit
  | decimal fault => fault.message
  | uuid fault => fault.message
  | calendar fault => fault.message
  | unknownEnumType => "unknown enum type"
  | enumTypeMissing => "enum type is unknown"
  | otherEnumType expected => "expected a member of " ++ expected
  | noSuchMember type => "no such member of " ++ type

/-- The `word` between apostrophes. -/
def marked (word : String) : String :=
  "'" ++ word ++ "'"

def Unsupported.message : Unsupported → String
  | has => "has"
  | isOf => "isof"
  | unknownFunction name => name
  | parameterAlias name => "alias @" ++ name
  | typeName name => "type " ++ name
  | typeAsValue type => "type " ++ toString type ++ " used as a value"
  | asCondition operand => operand ++ " used as a condition"
  | literalAsFilter literal => "literal " ++ literal.written ++ " used as a filter"
  | asValue member => marked member ++ " used as a value"
  | complexAsValue name => "complex attribute " ++ marked name ++ " used as a value"
  | navigationAsValue member => "navigation property " ++ marked member ++ " used as a value"
  | notCollection member => marked member ++ " does not address a collection"
  | segmentAfter second first => marked second ++ " after " ++ marked first
  | boundFunction name => "bound function " ++ marked name
  | navigations members => "navigation on both sides: " ++ ", ".intercalate members
  | withNull op => marked op.word ++ " with null"
  | arithmetic op left right =>
      marked op.word ++ " on " ++ toString left ++ " and " ++ toString right
  | comparison left right => "comparison of " ++ toString left ++ " with " ++ toString right
  | conditionWithBoolean op => marked op.word ++ " between a condition and a boolean"
  | notOf operand => marked "not" ++ " on " ++ operand
  | minusOf operand => marked "-" ++ " on " ++ operand
  | nullArgument function => function.word ++ " with null"
  | argument function type => function.word ++ " on " ++ toString type
  | castTo target => "cast to " ++ target
  | literalOf type => "literal of type " ++ toString type

def ReturnKind.name : ReturnKind → String
  | primitive => "Primitive"
  | enum => "Enum"
  | geospatial => "Geospatial"
  | complex => "Complex"
  | entity => "Entity"

def Incomparable.message : Incomparable → String
  | collection function => marked function ++ " returns a collection"
  | structured function kind => marked function ++ " returns a " ++ kind.name ++ " value"

def Defect.message : Defect → String
  | noHop => "navigation without a relationship hop"
  | hopsEnded => "navigation chain ended early"
  | emptyPath owner => "empty attribute path on " ++ marked owner
  | noScalarType name => "attribute " ++ marked name ++ " has no scalar type"
  | noJoinColumns => "relationship declares no join columns"
  | noReturnType function => "function " ++ marked function ++ " declares no return type"
  | noBody => "any() without a variable has no body"
  | nameInTail name member =>
      "property " ++ marked name ++ " left in the tail of " ++ marked member
  | missingArgument function => function ++ ": argument missing after arity check"
  | comparedWithNonBoolean => "predicate compared with a non-boolean"
  | noExpression operand => operand ++ " passed the predicate check"
  | navigatesTwice member => marked member ++ " navigates twice"

/-- A message about a function: its name, and then the `complaint`. -/
def functionMessage (function complaint : String) : String :=
  "Function " ++ marked function ++ " " ++ complaint

namespace FilterError

def message : FilterError → String
  | invalidPath path owner =>
      "Invalid path: " ++ marked path ++ " is not a member of " ++ marked owner
  | invalidValue value target fault =>
      "Invalid value " ++ marked value ++ " for " ++ target ++ ": " ++ fault.message
  | notSupported what => "Not supported: " ++ what.message
  | notComparable what => "Not supported for comparison: " ++ what.message
  | arityMismatch function expected actual =>
      functionMessage function ("expects " ++ expected ++ " argument(s), got " ++ toString actual)
  | unboundParameter function parameter =>
      functionMessage function ("has no argument bound to parameter " ++ marked parameter)
  | unknownParameter function parameter =>
      functionMessage function ("has no parameter " ++ marked parameter)
  | duplicateParameter function parameter =>
      functionMessage function ("has parameter " ++ marked parameter ++ " bound more than once")
  | defect what => "Internal error: " ++ what.message

/-! ### Blame

The category of an error depends on its cause alone, and the status on its category. -/

/-- Who is to blame for an error. -/
inductive Category where
  /-- The filter is wrong. -/
  | client
  /-- The filter is right and cannot be compiled here. -/
  | unsupported
  /-- A rule of the compiler is broken. -/
  | defect
deriving DecidableEq, Repr

def category : FilterError → Category
  | invalidPath .. | invalidValue .. | arityMismatch .. | unboundParameter .. | unknownParameter ..
  | duplicateParameter .. => .client
  | notSupported _ | notComparable _ => .unsupported
  | defect _ => .defect

/-- The status code of an answer over HTTP, which the `category` decides. -/
def status (e : FilterError) : Nat :=
  match e.category with
  | .client => 400
  | .unsupported => 501
  | .defect => 500

end FilterError

end FilterSql
