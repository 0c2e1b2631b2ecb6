/-!
# Decimal digits

Whole numbers as rows of ASCII digits. `digits` and `padded` write them; `nat?` and `int?` read a
row of any length, and `intOfBits?` reads one whose number has to fit a machine word. A reader that
fails says why with an `IntegerFault`, whose `message` ends up in the text of an error.
-/

namespace FilterSql.Power

/-- The powers of the core library. Where this namespace is open, `^` means them, also beside a
library that has powers of its own; a literal exponent is given its type there. -/
scoped instance (priority := 2000) ofCore {α : Type} [NatPow α] : Pow α Nat := instPowNat

end FilterSql.Power

namespace FilterSql.Text

open scoped Power

/-- The number that the row `digits` writes. The characters are not checked, so a caller makes sure
first that each of them is a digit. -/
def ofDigits (digits : List Char) : Nat :=
  digits.foldl (fun n c => n * 10 + (c.toNat - 48)) 0

/-- The digits of `n`, without leading zeros. -/
def digits (n : Nat) : List Char :=
  Nat.toDigits 10 n

/-- The digits of `n` with zeros in front, up to `width` characters. -/
def padded (width n : Nat) : List Char :=
  List.replicate (width - (digits n).length) '0' ++ digits n

/-- The longest row of digits in front of `s`, and what follows it. -/
def spanDigits (s : List Char) : List Char × List Char :=
  (s.takeWhile Char.isDigit, s.dropWhile Char.isDigit)

/-! ### Signed numbers

`nat?` and `int?` read numbers of any size: only the form of the text can be wrong. -/

/-- Why a text is not a whole number. `tooLarge` and `tooSmall` only come from `intOfBits?`. -/
inductive IntegerFault where
  | empty
  | invalidDigit
  | tooLarge
  | tooSmall
deriving DecidableEq, Repr

def IntegerFault.message : IntegerFault → String
  | .empty => "cannot parse integer from empty string"
  | .invalidDigit => "invalid digit found in string"
  | .tooLarge => "number too large to fit in target type"
  | .tooSmall => "number too small to fit in target type"

/-- Reads at least one digit and nothing else. -/
def nat? (s : List Char) : Except IntegerFault Nat :=
  if s.isEmpty ∨ !s.all Char.isDigit then .error .invalidDigit else .ok (ofDigits s)

/-- Reads digits with one sign in front or none. Only the empty text is `empty`; a sign alone has
an `invalidDigit`, as the row behind it has no digit at all. -/
def int? : List Char → Except IntegerFault Int
  | [] => .error .empty
  | '-' :: r => (nat? r).map fun n => -(n : Int)
  | '+' :: r => (nat? r).map Int.ofNat
  | s => (nat? s).map Int.ofNat

/-! ### Numbers of a word

`intOfBits?` reads its text from left to right and stops at the first character that is wrong, so a
row of digits that is too long may fail before a character that is no digit is seen. -/

/-- The number that more digits make of `n`. The first character that is no digit, or that takes
the number beyond `most`, decides. -/
def extendUpTo? (most : Nat) (beyond : IntegerFault) (n : Nat) : List Char → Except IntegerFault Nat
  | [] => .ok n
  | c :: cs =>
      if !c.isDigit then .error .invalidDigit
      else if most < n * 10 + (c.toNat - 48) then .error beyond
      else extendUpTo? most beyond (n * 10 + (c.toNat - 48)) cs

/-- Reads at least one digit and nothing else, for a number up to `most`. -/
def natUpTo? (most : Nat) (beyond : IntegerFault) (s : List Char) : Except IntegerFault Nat :=
  if s.isEmpty then .error .invalidDigit else extendUpTo? most beyond 0 s

/-- Reads a whole number that a signed word of `bits` bits can hold. The least one is `2 ^ (bits -
1)` below zero, so the bound depends on the sign. -/
def intOfBits? (bits : Nat) : List Char → Except IntegerFault Int
  | [] => .error .empty
  | '-' :: r => (natUpTo? (2 ^ (bits - 1)) .tooSmall r).map fun n => -(n : Int)
  | '+' :: r => (natUpTo? (2 ^ (bits - 1) - 1) .tooLarge r).map Int.ofNat
  | s => (natUpTo? (2 ^ (bits - 1) - 1) .tooLarge s).map Int.ofNat

end FilterSql.Text
