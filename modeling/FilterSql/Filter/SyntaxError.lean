import FilterSql.Text.Rest

/-!
# Syntax errors

A text that is no filter is blamed at the furthest place where a rule of the grammar was tried,
with the rules that were tried there. While the grammar is read, every attempt at a rule is noted
as an `Attempt` with the attempts inside it; `Furthest.ofAttempts` goes over these notes once the
text has been refused, and `SyntaxError.message` puts the result into words.
-/

namespace FilterSql

/-- The rules of the grammar that a message may name. Rules that no text can fail at are not among
them. -/
inductive Rule where
  | endOfInput
  | filter | expression | logicalOr | logicalAnd | comparison | additive | multiplicative | unary
  | orWord | andWord | comparisonWord | additiveWord | multiplicativeWord | notWord | minusSign
  | null | boolean | dateTimeOffset | date | timeOfDay | guid | double | decimal | integer | string
  | enumMember | call | argument | parameterName | typeName | parameterAlias
  | member | any | all | count | property | boundName | qualifiedName
deriving DecidableEq, Repr

namespace Rule

/-- All rules with their names, in the order in which a message lists them. -/
def table : List (Rule × String) :=
  [(endOfInput, "EOI"), (filter, "filter"), (expression, "expression"), (logicalOr, "logical_or"),
   (logicalAnd, "logical_and"), (comparison, "comparison"), (additive, "additive"),
   (multiplicative, "multiplicative"), (unary, "unary"), (orWord, "op_or"), (andWord, "op_and"),
   (comparisonWord, "op_comparison"), (additiveWord, "op_additive"),
   (multiplicativeWord, "op_multiplicative"), (notWord, "op_not"), (minusSign, "op_neg"),
   (null, "lit_null"), (boolean, "lit_boolean"), (dateTimeOffset, "lit_datetime"),
   (date, "lit_date"), (timeOfDay, "lit_time"), (guid, "lit_guid"), (double, "lit_double"),
   (decimal, "lit_decimal"), (integer, "lit_integer"), (string, "lit_string"),
   (enumMember, "lit_enum"), (call, "call"), (argument, "call_arg"), (parameterName, "param_name"),
   (typeName, "type_ref"), (parameterAlias, "alias"), (member, "member"), (any, "any_segment"),
   (all, "all_segment"), (count, "count_segment"), (property, "property"),
   (boundName, "lambda_variable"), (qualifiedName, "qualified_name")]

end Rule

/-! ### Attempts

Notes on attempts are collected by the grammar and never read by it. Only where the text that was
left is shortest do they matter, which `Furthest` keeps track of. -/

/-- An attempt at a `rule`: the `text` left where it was made, whether it `failed`, and the
attempts it was made of. -/
inductive Attempt where
  | mk (rule : Rule) (text : List Char) (failed : Bool) (inner : List Attempt)

/-- The furthest place of an attempt, as the number of characters left there, and the rules tried
at it. -/
structure Furthest where
  left : Nat
  rules : List Rule

namespace Furthest

/-- The number of rules tried at the place where `left` characters are left. -/
def triedAt (t : Furthest) (left : Nat) : Nat :=
  if left = t.left then t.rules.length else 0

/-- Notes that `rule` failed at a place where `before` rules had been tried when it began. If one
rule inside it has been tried there since, that one stands for it; if none or several, it stands
for them. -/
def fail (t : Furthest) (rule : Rule) (left before : Nat) : Furthest :=
  if t.triedAt left = before + 1 then t
  else if left = t.left then { t with rules := t.rules.take before ++ [rule] }
  else if left < t.left then ⟨left, [rule]⟩
  else t

mutual

/-- Goes over an attempt and what is inside it. -/
def note (t : Furthest) : Attempt → Furthest
  | .mk rule s failed inner =>
      let left := s.length
      let before := t.triedAt left
      let t := noteAll t inner
      if failed then t.fail rule left before else t

def noteAll (t : Furthest) : List Attempt → Furthest
  | [] => t
  | a :: as => noteAll (note t a) as

end

/-- The furthest place of all `attempts` at `text`. -/
def ofAttempts (text : List Char) (attempts : List Attempt) : Furthest :=
  noteAll ⟨text.length, []⟩ attempts

end Furthest

/-! ### Errors

A place is told by line and column, which are counted in the text in front of it. -/

/-- The place of a syntax error and the rules expected there. Lines and columns count from one. -/
structure SyntaxError where
  line : Nat
  column : Nat
  expected : List Rule
deriving Repr

namespace SyntaxError

/-- Line and column behind the characters `before`. A line ends with a line feed. -/
def place (before : List Char) : Nat × Nat :=
  before.foldl (fun (line, column) c =>
    if c = '\n' then (line + 1, 1) else (line, column + 1)) (1, 1)

/-- The error of a `text` that the `attempts` failed to read. -/
def ofAttempts (text : List Char) (attempts : List Attempt) : SyntaxError :=
  let t := Furthest.ofAttempts text attempts
  let (line, column) := place (text.take (text.length - t.left))
  ⟨line, column, (Rule.table.map (·.1)).filter t.rules.contains⟩

/-- Names in a sentence: two with `or` between them, more with commas as well. -/
def alternatives : List String → String
  | [] => ""
  | [a] => a
  | [a, b] => a ++ " or " ++ b
  | names => ", ".intercalate names.dropLast ++ ", or " ++ names.getLastD ""

/-- What is wrong according to `e`, without the place. -/
def reason (e : SyntaxError) : String :=
  "Syntax error: expected " ++ alternatives (e.expected.map fun r => (Rule.table.lookup r).getD "")

def message (e : SyntaxError) : String :=
  "Parse error at line " ++ toString e.line ++ ", column " ++ toString e.column ++ ": " ++ e.reason

end SyntaxError

end FilterSql
