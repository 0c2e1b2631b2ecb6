/-!
# Words of the filter language

The operators and the built-in functions, each with the word that a filter writes for it and the
name it has where a filter is shown as a tree. Words are in lower case and match only as they are.
Each kind has one `table`, which `ofWord?`, `ofName?`, `word` and `name` look into.
-/

namespace FilterSql

/-! ### Operators

Comparisons and arithmetic operators are types of their own, since SQL has the same ones; the
others only occur in a filter. -/

inductive Comparison where
  | eq | ne | gt | ge | lt | le
deriving DecidableEq, Repr

inductive Arithmetic where
  | add | sub | mul | div | mod
deriving DecidableEq, Repr

inductive BinaryOperator where
  | compare (op : Comparison)
  | arith (op : Arithmetic)
  | and
  | or
  | has
deriving DecidableEq, Repr

inductive UnaryOperator where
  | not
  | minus
deriving DecidableEq, Repr

namespace BinaryOperator

/-- All operators with their words and their names. -/
def table : List (BinaryOperator × String × String) :=
  [(.compare .eq, "eq", "Eq"), (.compare .ne, "ne", "Ne"), (.compare .gt, "gt", "Gt"),
   (.compare .ge, "ge", "Ge"), (.compare .lt, "lt", "Lt"), (.compare .le, "le", "Le"),
   (.and, "and", "And"), (.or, "or", "Or"),
   (.arith .add, "add", "Add"), (.arith .sub, "sub", "Sub"), (.arith .mul, "mul", "Mul"),
   (.arith .div, "div", "Div"), (.arith .mod, "mod", "Mod"), (.has, "has", "Has")]

def ofWord? (word : String) : Option BinaryOperator :=
  (table.find? (·.2.1 == word)).map (·.1)

def ofName? (name : String) : Option BinaryOperator :=
  (table.find? (·.2.2 == name)).map (·.1)

/-- The word for `op` in a filter. -/
def word (op : BinaryOperator) : String :=
  ((table.lookup op).map (·.1)).getD ""

/-- The name of `op` in a tree. -/
def name (op : BinaryOperator) : String :=
  ((table.lookup op).map (·.2)).getD ""

def isComparison : BinaryOperator → Bool
  | compare _ => true
  | _ => false

def isArithmetic : BinaryOperator → Bool
  | arith _ => true
  | _ => false

theorem ofWord?_word (op : BinaryOperator) : ofWord? op.word = some op := by
  rcases op with (_ | _ | _ | _ | _ | _) | (_ | _ | _ | _ | _) | _ | _ | _ <;> rfl

end BinaryOperator

namespace UnaryOperator

def name : UnaryOperator → String
  | not => "Not"
  | minus => "Minus"

def ofName? : String → Option UnaryOperator
  | "Not" => some not
  | "Minus" => some minus
  | _ => none

end UnaryOperator

/-! ### Functions

The functions that the language itself defines. A function of the schema is called by a path, and
is not among them. -/

inductive BuiltIn where
  | contains | startsWith | endsWith | length | indexOf | substring
  | toLower | toUpper | trim | concat
  | year | month | day | hour | minute | second | date | time | now
  | round | floor | ceiling | cast | isOf
deriving DecidableEq, Repr

namespace BuiltIn

/-- All built-in functions with their words and their names. -/
def table : List (BuiltIn × String × String) :=
  [(contains, "contains", "Contains"), (startsWith, "startswith", "StartsWith"),
   (endsWith, "endswith", "EndsWith"), (length, "length", "Length"),
   (indexOf, "indexof", "IndexOf"), (substring, "substring", "Substring"),
   (toLower, "tolower", "ToLower"), (toUpper, "toupper", "ToUpper"), (trim, "trim", "Trim"),
   (concat, "concat", "Concat"), (year, "year", "Year"), (month, "month", "Month"),
   (day, "day", "Day"), (hour, "hour", "Hour"), (minute, "minute", "Minute"),
   (second, "second", "Second"), (date, "date", "Date"), (time, "time", "Time"),
   (now, "now", "Now"), (round, "round", "Round"), (floor, "floor", "Floor"),
   (ceiling, "ceiling", "Ceiling"), (cast, "cast", "Cast"), (isOf, "isof", "IsOf")]

def ofWord? (word : String) : Option BuiltIn :=
  (table.find? (·.2.1 == word)).map (·.1)

def ofName? (name : String) : Option BuiltIn :=
  (table.find? (·.2.2 == name)).map (·.1)

/-- The word for `f` in a filter. -/
def word (f : BuiltIn) : String :=
  ((table.lookup f).map (·.1)).getD ""

/-- The name of `f` in a tree. -/
def name (f : BuiltIn) : String :=
  ((table.lookup f).map (·.2)).getD ""

theorem ofWord?_word (f : BuiltIn) : ofWord? f.word = some f := by
  cases f <;> rfl

end BuiltIn

end FilterSql
