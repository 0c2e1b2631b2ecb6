import FilterSql.Text.Rest

/-!
# Tokens of the filter language

The forms of words, literals and names. A `Pattern` looks at the front of a text and tells how many
characters it matches; the patterns of this module are built by sequence, ordered choice and
repetition, and a choice once made is not taken back. `read?` turns a pattern into a reader, while
`string?` reads what no pattern can, since a string has its quotes taken off. A word ends where no
character of a name follows, which is `notBefore isNameChar`.
-/

namespace FilterSql.Token

open Text (Rest dropSome?)

/-- The number of characters that are matched at the front of a text, `none` if it does not
match. -/
abbrev Pattern := List Char → Option Nat

/-! ### Building patterns

A sequence goes on behind what its first part has matched; `alt` asks its second part only if the
first does not match. -/

/-- Matches one character that satisfies `p`. -/
def one (p : Char → Bool) : Pattern
  | c :: _ => if p c then some 1 else none
  | [] => none

/-- Matches the fixed text `w`. -/
def exactly (w : String) : Pattern := fun s =>
  if w.toList.isPrefixOf s then some w.length else none

/-- Matches `a` and then `b` behind it. -/
def seq (a b : Pattern) : Pattern := fun s =>
  match a s with
  | none => none
  | some n => (b (s.drop n)).map (n + ·)

/-- Matches what `a` does, or else what `b` does. -/
def alt (a b : Pattern) : Pattern := fun s =>
  match a s with
  | some n => some n
  | none => b s

/-- Matches `a` or nothing. -/
def opt (a : Pattern) : Pattern := fun s =>
  some ((a s).getD 0)

/-- Matches all leading characters that satisfy `p`, of which there may be none. -/
def many (p : Char → Bool) : Pattern := fun s =>
  some (s.takeWhile p).length

/-- Matches all leading characters that satisfy `p`, of which there must be one. -/
def many1 (p : Char → Bool) : Pattern :=
  seq (one p) (many p)

/-- Matches a fixed number of characters that satisfy `p`. -/
def count (p : Char → Bool) : Nat → Pattern
  | 0 => fun _ => some 0
  | n + 1 => seq (one p) (count p n)

/-- Matches nothing, provided that no character follows that satisfies `p`. -/
def notBefore (p : Char → Bool) : Pattern
  | c :: _ => if p c then none else some 0
  | [] => some 0

/-- Matches the patterns one behind another. -/
def row : List Pattern → Pattern
  | [] => fun _ => some 0
  | p :: ps => seq p (row ps)

/-- Matches `p` as often as it takes some characters, and counts these. It never fails. -/
def star (p : Pattern) (s : List Char) : Nat :=
  match p s, s with
  | some (n + 1), _ :: t => n + 1 + star p (t.drop n)
  | _, _ => 0
termination_by s.length
decreasing_by simp only [List.length_cons, List.length_drop]; omega

/-! ### Names and words

A name starts with a letter, an underscore or a dollar sign. Words are no different from names, so
the grammar has to look for them first. -/

/-- Whether `c` may stand in a name behind its first character. -/
def isNameChar (c : Char) : Bool :=
  c.isAlphanum || c == '_'

def isNameStart (c : Char) : Bool :=
  c.isAlpha || c == '_' || c == '$'

def name : Pattern :=
  row [one isNameStart, many isNameChar]

/-- Matches a point and a `name`. -/
def pointName : Pattern :=
  row [exactly ".", name]

/-- Matches a `name`, and any number of others behind points. -/
def qualifiedName : Pattern :=
  row [name, fun s => some (star pointName s)]

/-- Matches a `name`, and at least one other behind a point. -/
def typeName : Pattern :=
  row [name, pointName, fun s => some (star pointName s)]

/-- Matches the word `w`, if no character of a name follows it. -/
def word (w : String) : Pattern :=
  row [exactly w, notBefore isNameChar]

/-- Matches the first of the words `ws` that is there, which no character of a name may follow. -/
def wordOf (ws : List String) : Pattern :=
  row [ws.foldr (fun w p => alt (exactly w) p) (fun _ => none), notBefore isNameChar]

def orWord : Pattern := word "or"

def andWord : Pattern := word "and"

def notWord : Pattern := word "not"

def comparisonWord : Pattern := wordOf ["eq", "ne", "gt", "ge", "lt", "le", "has"]

def additiveWord : Pattern := wordOf ["add", "sub"]

def multiplicativeWord : Pattern := wordOf ["mul", "div", "mod"]

/-- Matches a minus sign that is not the sign of a number behind it. -/
def minusSign : Pattern :=
  row [exactly "-", notBefore Char.isDigit]

def countWord : Pattern := word "$count"

def parameterAlias : Pattern :=
  row [exactly "@", name]

/-! ### Literals

The kinds differ in their first characters or in how they go on, and those that share a beginning
exclude each other by what may not follow: a `date` no `T`, an `integer` no point. -/

/-- Matches the word `null` in any case. -/
def null : Pattern :=
  row [row ("null".toList.map fun c => one (·.toLower == c)), notBefore isNameChar]

def boolean : Pattern := wordOf ["true", "false"]

/-- Matches year, month and day. -/
def datePart : Pattern :=
  row [count Char.isDigit 4, exactly "-", count Char.isDigit 2, exactly "-", count Char.isDigit 2]

/-- Matches hour and minute, which may have seconds behind them, and these a fraction. -/
def timePart : Pattern :=
  row [count Char.isDigit 2, exactly ":", count Char.isDigit 2,
    opt (row [exactly ":", count Char.isDigit 2, opt (row [exactly ".", many1 Char.isDigit])])]

def sign : Pattern :=
  alt (exactly "+") (exactly "-")

def dateTimeOffset : Pattern :=
  row [datePart, exactly "T", timePart,
    alt (exactly "Z") (row [sign, count Char.isDigit 2, exactly ":", count Char.isDigit 2])]

def date : Pattern :=
  row [datePart, notBefore fun c => c == 'T' || isNameChar c]

def timeOfDay : Pattern :=
  row [timePart, notBefore isNameChar]

def isHexDigit (c : Char) : Bool :=
  c.isDigit || ('a' ≤ c && c ≤ 'f') || ('A' ≤ c && c ≤ 'F')

def guid : Pattern :=
  row [count isHexDigit 8, exactly "-", count isHexDigit 4, exactly "-", count isHexDigit 4,
    exactly "-", count isHexDigit 4, exactly "-", count isHexDigit 12, notBefore isNameChar]

def exponent : Pattern :=
  row [one fun c => c == 'e' || c == 'E', opt sign, many1 Char.isDigit]

def double : Pattern :=
  row [opt (exactly "-"), many1 Char.isDigit, opt (row [exactly ".", many1 Char.isDigit]), exponent,
    notBefore isNameChar]

def decimal : Pattern :=
  row [opt (exactly "-"), many1 Char.isDigit, exactly ".", many1 Char.isDigit, notBefore isNameChar]

def integer : Pattern :=
  row [opt (exactly "-"), many1 Char.isDigit, notBefore fun c => isNameChar c || c == '.']

/-! ### Reading tokens

A reader returns what it has read with the `Rest` of the text. A token is never empty, so a pattern
that matches nothing is no token. -/

/-- The text of a token at the front of `s`, if the pattern `p` matches. -/
def read? (p : Pattern) (s : List Char) : Option (String × Rest s) :=
  match p s with
  | none => none
  | some n => (dropSome? n s).map fun r => (String.ofList (s.take n), r)

/-- The content of a string up to its closing quote, for a text behind the opening one. Two quotes
stand for one, which is why `stringBody?` builds the content as it goes. -/
def stringBody? : (s : List Char) → Option (List Char × Rest s)
  | '\'' :: '\'' :: r =>
      match stringBody? r with
      | none => none
      | some (cs, q) =>
          some ('\'' :: cs, ⟨q.1, by have := q.2; simp only [List.length_cons]; omega⟩)
  | '\'' :: r => some ([], ⟨r, by simp⟩)
  | c :: r =>
      match stringBody? r with
      | none => none
      | some (cs, q) => some (c :: cs, ⟨q.1, by have := q.2; simp only [List.length_cons]; omega⟩)
  | [] => none

/-- The content of a string in quotes, by `stringBody?`. -/
def string? : (s : List Char) → Option (String × Rest s)
  | '\'' :: r =>
      match stringBody? r with
      | none => none
      | some (cs, q) =>
          some (String.ofList cs, ⟨q.1, by have := q.2; simp only [List.length_cons]; omega⟩)
  | _ => none

/-- The single character `c`. -/
def char? (c : Char) : (s : List Char) → Option (Unit × Rest s)
  | d :: r => if d = c then some ((), ⟨r, by simp⟩) else none
  | [] => none

/-! ### Blanks

Only blanks of ASCII count here, unlike `Text.isBlank`. -/

/-- Whether `c` may stand between tokens. -/
def isSpace (c : Char) : Bool :=
  c == ' ' || c == '\t' || c == '\r' || c == '\n'

def skipSpace (s : List Char) : List Char :=
  s.dropWhile isSpace

end FilterSql.Token
