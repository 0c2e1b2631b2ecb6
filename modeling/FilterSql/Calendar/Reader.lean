import FilterSql.Text.Blank
import FilterSql.Text.Digits

/-!
# Reading dates and times

The steps that readers of dates, times and timestamps are made of. A step takes characters from the
front of the text or fails for one of the four causes of `Fault`; `Reader.run`, which runs a reader
on a whole text, also fails with `trailing` if the reader leaves text over. Literals of the filter
language and documents are read by the same steps, put together more or less strictly.
-/

namespace FilterSql.Calendar

open scoped Power

/-- Why a text is not a date or a time. -/
inductive Fault where
  | outOfRange
  | invalid
  | premature
  | trailing
deriving DecidableEq, Repr

def Fault.message : Fault → String
  | .outOfRange => "input is out of range"
  | .invalid => "input contains invalid characters"
  | .premature => "premature end of input"
  | .trailing => "trailing input"

/-- A step that reads from the front of a text. -/
abbrev Reader := StateT (List Char) (Except Fault)

namespace Reader

/-- Runs the reader `r` on a whole text. -/
def run (r : Reader α) (text : List Char) : Except Fault α := do
  let (a, rest) ← StateT.run r text
  if rest.isEmpty then return a else throw .trailing

/-- Skips what `Text.isBlank` takes for blanks. -/
def blanks : Reader Unit :=
  modify Text.trimStart

/-- Takes at least one digit and at most `width` of them; all that follow if there is no `width`. -/
def digits (width : Option Nat) : Reader (List Char) := do
  match ← get with
  | [] => throw .premature
  | c :: r =>
      if !c.isDigit then throw .invalid
      let (row, _) := Text.spanDigits (c :: r)
      let row := match width with
        | some w => row.take w
        | none => row
      set ((c :: r).drop row.length)
      return row

/-- Takes a number of at most `width` digits between the bounds `low` and `high`. Blanks in front
of it are skipped. -/
def number (width low high : Nat) : Reader Nat := do
  blanks
  let n := Text.ofDigits (← digits (some width))
  if n < low ∨ high < n then throw .outOfRange
  return n

/-- Takes a year: four digits at most, or any number of them behind a sign. -/
def year : Reader Int := do
  blanks
  let n : Int ← match ← get with
    | '-' :: r => do
        set r
        pure (-(Text.ofDigits (← digits none) : Int))
    | '+' :: r => do
        set r
        pure (Text.ofDigits (← digits none) : Int)
    | _ => pure (Text.ofDigits (← digits (some 4)) : Int)
  if n < -2147483648 ∨ 2147483647 < n then throw .outOfRange
  return n

/-- Takes the next character, which must satisfy `test`. -/
def char (test : Char → Bool) : Reader Char := do
  match ← get with
  | [] => throw .premature
  | c :: r => if test c then set r; return c else throw .invalid

def literal (c : Char) : Reader Unit :=
  discard (char (· == c))

/-- The nanoseconds that the digits `row` behind the point stand for. Digits behind the ninth are
cut. -/
def nanoseconds (row : List Char) : Nat :=
  let row := row.take 9
  Text.ofDigits row * 10 ^ (9 - row.length)

/-- Takes a point and at least one digit, or nothing, and gives the `nanoseconds`. -/
def fraction : Reader Nat := do
  match ← get with
  | '.' :: r => do
      set r
      return nanoseconds (← digits none)
  | _ => return 0

/-- Takes one digit as it stands, with no blanks in front. -/
def digit : Reader Nat :=
  return (← char Char.isDigit).toNat - 48

def twoDigits : Reader Nat :=
  return (← digit) * 10 + (← digit)

end Reader

end FilterSql.Calendar
