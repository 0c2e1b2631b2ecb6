import FilterSql.Filter.Word
import FilterSql.Text.Quoted

/-!
# Filters

A filter as a tree. Its leaves are literals, members of enum types, type names, aliases and member
paths; a path is a row of segments, of which the quantifiers `any` and `all` hold a filter of their
own and a function its arguments. So `Filter`, `Segment` and `Argument` are one mutual definition,
and `Path` is a row of segments.
-/

namespace FilterSql

/-! ### Literals

A literal keeps the text it was written with. What value that is gets decided where it is used, by
the type of the other operand. -/

/-- The kind that the form of a literal shows. `Literal.text` is not looked at again to tell it. -/
inductive LiteralKind where
  | null | boolean | integer | decimal | double | string | date | timeOfDay | dateTimeOffset | guid
deriving DecidableEq, Repr, Inhabited

namespace LiteralKind

def names : List (String × LiteralKind) :=
  [("Null", null), ("Boolean", boolean), ("Integer", integer), ("Decimal", decimal),
   ("Double", double), ("String", string), ("Date", date), ("TimeOfDay", timeOfDay),
   ("DateTimeOffset", dateTimeOffset), ("Guid", guid)]

def ofName? (name : String) : Option LiteralKind :=
  names.lookup name

def name (k : LiteralKind) : String :=
  ((names.find? (·.2 == k)).map (·.1)).getD ""

end LiteralKind

/-- A literal as written; of a string, what stands between its quotes. -/
structure Literal where
  text : String
  kind : LiteralKind
deriving DecidableEq, Repr, Inhabited

namespace Literal

def null : Literal :=
  ⟨"null", .null⟩

/-- Whether `l` is the word `null` in any case. The string of that text is not. -/
def isNull (l : Literal) : Bool :=
  l.kind != .string && l.text.toList.map Char.toLower == "null".toList

/-- The literal `l` as a filter writes it. -/
def written (l : Literal) : String :=
  match l.kind with
  | .string => Text.quote '\'' l.text
  | _ => l.text

end Literal

/-! ### Trees

A built-in function is called by name and has arguments without names. A call of any other function
is a segment, so that it can be followed by further segments of its path. -/

mutual

inductive Filter where
  | binary (left : Filter) (op : BinaryOperator) (right : Filter)
  | unary (op : UnaryOperator) (operand : Filter)
  | member (path : List Segment)
  | literal (l : Literal)
  /-- A member of an enum type by name, as in `Color'Red'`. -/
  | enumMember (type member : String)
  | call (function : BuiltIn) (arguments : List Filter)
  /-- The name of a type, an argument of `cast`. -/
  | typeName (name : String)
  | parameterAlias (name : String)

/-- One part of a member path. -/
inductive Segment where
  /-- An attribute, an association, a variable of a quantifier or `$it`. -/
  | property (name : String)
  | count
  /-- `any()`, which asks for an element and nothing of it. -/
  | nonempty
  | any (bound : String) (body : Filter)
  | all (bound : String) (body : Filter)
  /-- A call of a function that is not built in. -/
  | function (name : String) (arguments : List Argument)

/-- An argument of a function, with the name of its parameter if one is given. -/
inductive Argument where
  | mk (name : Option String) (value : Filter)

end

instance : Inhabited Filter := ⟨.literal .null⟩

/-- A member path, which is a row of segments. -/
abbrev Path := List Segment

namespace Argument

def name : Argument → Option String
  | mk name _ => name

def value : Argument → Filter
  | mk _ value => value

end Argument

/-- The segment as a message shows it, the insides of its brackets left out. -/
def Segment.shown : Segment → String
  | property name => name
  | count => "$count"
  | nonempty => "any()"
  | any x _ => "any(" ++ x ++ ":...)"
  | all x _ => "all(" ++ x ++ ":...)"
  | function name _ => name ++ "(...)"

namespace Path

/-- The path as a message shows it, with slashes between its segments. -/
def shown (path : Path) : String :=
  "/".intercalate (path.map Segment.shown)

/-- Whether the last segment of `path` is a quantifier. -/
def isQuantifier (path : Path) : Bool :=
  match path.getLast? with
  | some .nonempty | some (.any ..) | some (.all ..) => true
  | _ => false

def isCount (path : Path) : Bool :=
  match path.getLast? with
  | some .count => true
  | _ => false

end Path

namespace Filter

/-- Whether the filter is a literal with `Literal.isNull`. -/
def isNull : Filter → Bool
  | literal l => l.isNull
  | _ => false

end Filter

end FilterSql
