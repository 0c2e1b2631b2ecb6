import FilterSql.Json.Basic
import FilterSql.Text.Digits
import FilterSql.Text.Rest

/-!
# Reading JSON text

`Json.read?` reads one value with blanks around it and refuses everything else. Control characters
must be escaped, and a number has no leading zero. The two halves of a surrogate pair must come
together to make a text; a string that has one without the other is read as `Json.illFormed`. Each
step returns a `Rest`, what is left of the text together with the proof that it is shorter, so the
recursion through `readValue`, `readItems` and `readFields` ends by the length of the text.
-/

namespace FilterSql.Json

open Text (ofDigits spanDigits Rest)

/-- The blanks that may stand between the tokens of a document. -/
def isSpace (c : Char) : Bool :=
  c == ' ' || c == '\t' || c == '\n' || c == '\r'

def skipSpace (s : List Char) : List Char :=
  s.dropWhile isSpace

theorem skipSpace_length_le (s : List Char) : (skipSpace s).length ≤ s.length :=
  (List.dropWhile_suffix _).length_le

/-! ### Strings

`readChar` reads one character and `readString` all up to the closing mark. What has been read so
far may already be no text while there is still more to read, so both return an option inside their
result. -/

/-- The number that a hexadecimal digit stands for, in capital or small letters. -/
def hexDigit? (c : Char) : Option Nat :=
  if c.isDigit then some (c.toNat - 48)
  else if 'a' ≤ c ∧ c ≤ 'f' then some (c.toNat - 87)
  else if 'A' ≤ c ∧ c ≤ 'F' then some (c.toNat - 55)
  else none

/-- The number that four digits make, each read by `hexDigit?`. -/
def hex4? (a b c d : Char) : Option Nat := do
  let w ← hexDigit? a
  let x ← hexDigit? b
  let y ← hexDigit? c
  let z ← hexDigit? d
  return ((w * 16 + x) * 16 + y) * 16 + z

/-- The character that a letter behind a backslash stands for, if it is one of the short escapes. -/
def shortEscape? : Char → Option Char
  | '"' => some '"'
  | '\\' => some '\\'
  | '/' => some '/'
  | 'b' => some '\x08'
  | 'f' => some '\x0c'
  | 'n' => some '\n'
  | 'r' => some '\r'
  | 't' => some '\t'
  | _ => none

/-- The character that the surrogates `high` and `low` make, each a number of 16 bits. -/
def pair? (high low : Nat) : Option Char :=
  if high < 0xDC00 ∧ 0xDC00 ≤ low ∧ low < 0xE000 then
    some (Char.ofNat (0x10000 + (high - 0xD800) * 0x400 + (low - 0xDC00)))
  else none

/-- One character of a string, as it stands or escaped. Half a character without its other half is
taken off and gives `none`. -/
def readChar : (s : List Char) → Option (Option Char × Rest s)
  | '\\' :: 'u' :: a :: b :: c :: d :: r => do
      let n ← hex4? a b c d
      if n < 0xD800 ∨ 0xE000 ≤ n then
        some (some (Char.ofNat n), ⟨r, by simp only [List.length_cons]; omega⟩)
      else
        match hr : r with
        | '\\' :: 'u' :: e :: f :: g :: h :: r' =>
            match (hex4? e f g h).bind (pair? n) with
            | some c => some (some c, ⟨r', by simp only [hr, List.length_cons]; omega⟩)
            | none => some (none, ⟨r, by simp only [List.length_cons]; omega⟩)
        | _ => some (none, ⟨r, by simp only [List.length_cons]; omega⟩)
  | '\\' :: e :: r =>
      (shortEscape? e).map fun c => (some c, ⟨r, by simp only [List.length_cons]; omega⟩)
  | c :: r =>
      if c.toNat < 0x20 ∨ c = '\\' then none
      else some (some c, ⟨r, by simp only [List.length_cons]; omega⟩)
  | [] => none

/-- The characters up to the closing mark, read one by one with `readChar`; `none` if one of them
is half a character. -/
def readString (s : List Char) : Option (Option (List Char) × Rest s) :=
  match s with
  | '"' :: r => some (some [], ⟨r, by simp⟩)
  | s =>
    match readChar s with
    | none => none
    | some (c, r) =>
      match readString r.1 with
      | none => none
      | some (cs, r') => some (c.bind fun c => cs.map (c :: ·), r.trans r')
termination_by s.length
decreasing_by exact r.2

/-! ### Numbers

A number is an integer if it has neither fraction nor exponent, except for minus zero, which only
floating point has. -/

/-- Takes a point and at least one digit behind it, or nothing. -/
def readFraction (s : List Char) : Option (List Char × List Char) :=
  match s with
  | '.' :: r =>
      let (digits, r') := spanDigits r
      if digits.isEmpty then none else some ('.' :: digits, r')
  | _ => some ([], s)

/-- Takes an exponent with its sign, or nothing. -/
def readExponent (s : List Char) : Option (List Char × List Char) :=
  match s with
  | e :: r =>
      if e = 'e' ∨ e = 'E' then
        let (sign, r') := match r with
          | '+' :: t => (['+'], t)
          | '-' :: t => (['-'], t)
          | _ => ([], r)
        let (digits, r'') := spanDigits r'
        if digits.isEmpty then none else some (e :: sign ++ digits, r'')
      else some ([], s)
  | [] => some ([], s)

/-- Takes a number off the text. Its first digit is not zero unless it is the only one in front of
the point. -/
def readNumber (s : List Char) : Option (Json × List Char) := do
  let (negative, r) := match s with
    | '-' :: r => (true, r)
    | _ => (false, s)
  let (whole, r) := spanDigits r
  if whole.isEmpty ∨ (1 < whole.length ∧ whole.head? = some '0') then none else
  let (fraction, r) ← readFraction r
  let (exponent, r) ← readExponent r
  let lead := if negative then ['-'] else []
  if fraction.isEmpty ∧ exponent.isEmpty ∧ (!negative ∨ ofDigits whole ≠ 0) then
    return (.int (if negative then -(ofDigits whole : Int) else ofDigits whole), r)
  else
    return (.real (String.ofList (lead ++ whole ++ fraction ++ exponent)), r)

/-! ### Values

The three readers call each other and are defined together. Each of them is given a text that
starts with the value, the item or the name it is to read. -/

/-- The string with these characters, or `illFormed` if they make no text. -/
def ofChars (cs : Option (List Char)) : Json :=
  match cs with
  | some cs => .string (String.ofList cs)
  | none => .illFormed

/-- The member of an object, `none` if its name makes no text. -/
def member? (name : Option (List Char)) (value : Json) : Option (String × Json) :=
  name.map fun cs => (String.ofList cs, value)

/-- The object with these members, or `illFormed` if one of them is `none`. -/
def ofMembers (members : List (Option (String × Json))) : Json :=
  match members.mapM id with
  | some fields => .object fields
  | none => .illFormed

/-- Takes `null`, `true` or `false` off the text, or else a number. -/
def readWord (s : List Char) : Option (Json × List Char) :=
  match s with
  | 'n' :: 'u' :: 'l' :: 'l' :: r => some (.null, r)
  | 't' :: 'r' :: 'u' :: 'e' :: r => some (.bool true, r)
  | 'f' :: 'a' :: 'l' :: 's' :: 'e' :: r => some (.bool false, r)
  | _ => readNumber s

/-- The rest `r` of `s` if it is shorter, since a token may not be empty. -/
def shorter? (s r : List Char) : Option (Rest s) :=
  if h : r.length < s.length then some ⟨r, h⟩ else none

mutual

/-- Takes one value off a text that has no blanks in front, by its first character. -/
def readValue (s : List Char) : Option (Json × Rest s) :=
  match s with
  | '"' :: r => do
      let (cs, q) ← readString r
      some (ofChars cs, ⟨q.1, Nat.lt_succ_of_lt q.2⟩)
  | '[' :: r =>
      match hr : skipSpace r with
      | ']' :: r' => some (.array [], ⟨r', by
          have := skipSpace_length_le r; simp only [hr, List.length_cons] at *; omega⟩)
      | t => do
          let (items, q) ← readItems t
          some (.array items, ⟨q.1, by
            have := skipSpace_length_le r; have := q.2; simp only [hr, List.length_cons] at *
            omega⟩)
  | '\x7b' :: r =>
      match hr : skipSpace r with
      | '\x7d' :: r' => some (.object [], ⟨r', by
          have := skipSpace_length_le r; simp only [hr, List.length_cons] at *; omega⟩)
      | t => do
          let (fields, q) ← readFields t
          some (ofMembers fields, ⟨q.1, by
            have := skipSpace_length_le r; have := q.2; simp only [hr, List.length_cons] at *
            omega⟩)
  | s => do
      let (v, r) ← readWord s
      let q ← shorter? s r
      some (v, q)
termination_by (s.length, 0)
decreasing_by
  · have := skipSpace_length_le r
    simp only [hr, List.length_cons] at *
    exact Prod.Lex.left _ _ (by omega)
  · have := skipSpace_length_le r
    simp only [hr, List.length_cons] at *
    exact Prod.Lex.left _ _ (by omega)

/-- Takes the items of an array up to its end, for a text that starts at the first `readValue`. -/
def readItems (s : List Char) : Option (List Json × Rest s) := do
  let (v, r) ← readValue s
  match hr : skipSpace r.1 with
  | ']' :: r' => some ([v], ⟨r', by
      have := skipSpace_length_le r.1; have := r.2; simp only [hr, List.length_cons] at *; omega⟩)
  | ',' :: r' => do
      let (vs, q) ← readItems (skipSpace r')
      some (v :: vs, ⟨q.1, by
        have := skipSpace_length_le r.1; have := skipSpace_length_le r'; have := r.2; have := q.2
        simp only [hr, List.length_cons] at *; omega⟩)
  | _ => none
termination_by (s.length, 1)
decreasing_by
  · exact Prod.Lex.right _ (by omega)
  · have := skipSpace_length_le r.1
    have := skipSpace_length_le r'
    have := r.2
    simp only [hr, List.length_cons] at *
    exact Prod.Lex.left _ _ (by omega)

/-- Takes the members of an object up to its end, each with its name, a colon and a `readValue`. -/
def readFields (s : List Char) : Option (List (Option (String × Json)) × Rest s) :=
  match s with
  | '"' :: r => do
      let (name, q) ← readString r
      match hq : skipSpace q.1 with
      | ':' :: t =>
          let (v, u) ← readValue (skipSpace t)
          match hu : skipSpace u.1 with
          | '\x7d' :: r' => some ([member? name v], ⟨r', by
              have := skipSpace_length_le q.1; have := skipSpace_length_le t
              have := skipSpace_length_le u.1; have := q.2; have := u.2
              simp only [hq, hu, List.length_cons] at *; omega⟩)
          | ',' :: r' => do
              let (vs, w) ← readFields (skipSpace r')
              some (member? name v :: vs, ⟨w.1, by
                have := skipSpace_length_le q.1; have := skipSpace_length_le t
                have := skipSpace_length_le u.1; have := skipSpace_length_le r'
                have := q.2; have := u.2; have := w.2
                simp only [hq, hu, List.length_cons] at *; omega⟩)
          | _ => none
      | _ => none
  | _ => none
termination_by (s.length, 1)
decreasing_by
  · have := skipSpace_length_le q.1
    have := skipSpace_length_le t
    have := q.2
    simp only [hq, List.length_cons] at *
    exact Prod.Lex.left _ _ (by omega)
  · have := skipSpace_length_le q.1
    have := skipSpace_length_le t
    have := skipSpace_length_le u.1
    have := skipSpace_length_le r'
    have := q.2
    have := u.2
    simp only [hq, hu, List.length_cons] at *
    exact Prod.Lex.left _ _ (by omega)

end

/-- Reads a document: one value, with blanks around it and nothing else. -/
def read? (text : String) : Option Json := do
  let (v, r) ← readValue (skipSpace text.toList)
  if (skipSpace r.1).isEmpty then some v else none

end FilterSql.Json
