/-!
# Patterns

The patterns of `LIKE`. In a pattern `%` stands for any text and `_` for any character, unless the
escape character is in front of them. A text is looked for by `pattern`, which matches it and
nothing else, with room for anything on the sides that `Margins` leaves open; `escapeOf` tells
whether the pattern needs an escape character to be declared.
-/

namespace FilterSql.Sql.Like

/-- The character that takes the meaning from a special one behind it. -/
def escapeMark : Char := '\\'

def isSpecial (c : Char) : Bool :=
  c == '%' || c == '_' || c == escapeMark

/-- The pattern that matches `text` and nothing else. -/
def escape (text : List Char) : List Char :=
  text.flatMap fun c => if isSpecial c then [escapeMark, c] else [c]

/-- Which sides of a text anything may stand on. -/
structure Margins where
  before : Bool
  after : Bool

/-- Puts a `wildcard` on the sides of a row where anything may stand. -/
def Margins.around {α : Type} (m : Margins) (wildcard : α) (row : List α) : List α :=
  (if m.before then [wildcard] else []) ++ row ++ (if m.after then [wildcard] else [])

/-- The pattern of `text` within the margins `m`. -/
def pattern (m : Margins) (text : String) : String :=
  String.ofList (m.around '%' (escape text.toList))

/-- The escape character, if the pattern of `text` needs one. -/
def escapeOf (text : String) : Option Char :=
  if text.toList.any isSpecial then some escapeMark else none

end FilterSql.Sql.Like
