import FilterSql.Json.Basic

/-!
# Writing JSON text

Two layouts of a document: `Json.compact` without any blanks, and `Json.pretty` with one member or
item a line, two blanks of indentation for each level and one blank behind a colon. Both write
scalars with `scalar` and strings with `quoted`, so they escape the same characters: the quotation
mark, the backslash and the control characters.
-/

namespace FilterSql.Json

/-- The hexadecimal digit for `n`, in lower case. -/
def hexChar (n : Nat) : Char :=
  if n < 10 then Char.ofNat (48 + n) else Char.ofNat (87 + n)

/-- The character `c` as it is written inside a string. Only what JSON forbids there is escaped;
the characters outside ASCII stand as they are. -/
def escapeChar (c : Char) : List Char :=
  if c = '"' then ['\\', '"']
  else if c = '\\' then ['\\', '\\']
  else if c = '\n' then ['\\', 'n']
  else if c = '\r' then ['\\', 'r']
  else if c = '\t' then ['\\', 't']
  else if c = '\x08' then ['\\', 'b']
  else if c = '\x0c' then ['\\', 'f']
  else if c.toNat < 0x20 then ['\\', 'u', '0', '0', hexChar (c.toNat / 16), hexChar (c.toNat % 16)]
  else [c]

/-- The string `s` between quotation marks. -/
def quoted (s : String) : List Char :=
  '"' :: s.toList.flatMap escapeChar ++ ['"']

/-- The text of a value without parts. The ill-formed one gets a text that is read as ill-formed
again. -/
def scalar : Json → List Char
  | .null => "null".toList
  | .bool true => "true".toList
  | .bool false => "false".toList
  | .int n => (toString n).toList
  | .real text => text.toList
  | .string s => quoted s
  | .illFormed => "\"\\ud800\"".toList
  | .array _ | .object _ => []

mutual

/-- The characters of a document without blanks. -/
def compactChars : Json → List Char
  | .array items => '[' :: compactItems items ++ [']']
  | .object fields => '\x7b' :: compactFields fields ++ ['\x7d']
  | j => scalar j

def compactItems : List Json → List Char
  | [] => []
  | [j] => compactChars j
  | j :: js => compactChars j ++ ',' :: compactItems js

def compactFields : List (String × Json) → List Char
  | [] => []
  | [(name, j)] => quoted name ++ ':' :: compactChars j
  | (name, j) :: fs => quoted name ++ ':' :: compactChars j ++ ',' :: compactFields fs

end

/-- A new line and the blanks that start a line at this `depth`. -/
def lineStart (depth : Nat) : List Char :=
  '\n' :: List.replicate (2 * depth) ' '

mutual

/-- The characters of a document with a line for each item or member; `depth` is that of the value
itself. -/
def prettyChars (depth : Nat) : Json → List Char
  | .array [] => ['[', ']']
  | .array items => '[' :: prettyItems (depth + 1) items ++ lineStart depth ++ [']']
  | .object [] => ['\x7b', '\x7d']
  | .object fields => '\x7b' :: prettyFields (depth + 1) fields ++ lineStart depth ++ ['\x7d']
  | j => scalar j

def prettyItems (depth : Nat) : List Json → List Char
  | [] => []
  | [j] => lineStart depth ++ prettyChars depth j
  | j :: js => lineStart depth ++ prettyChars depth j ++ ',' :: prettyItems depth js

def prettyFields (depth : Nat) : List (String × Json) → List Char
  | [] => []
  | [(name, j)] => lineStart depth ++ quoted name ++ ':' :: ' ' :: prettyChars depth j
  | (name, j) :: fs =>
      lineStart depth ++ quoted name ++ ':' :: ' ' :: prettyChars depth j ++
        ',' :: prettyFields depth fs

end

def compact (j : Json) : String :=
  String.ofList j.compactChars

def pretty (j : Json) : String :=
  String.ofList (j.prettyChars 0)

end FilterSql.Json
