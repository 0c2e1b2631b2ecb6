import FilterSql.Decimal.Layout

/-!
# Decimal numbers

A decimal number of any size, as a whole number and a scale. The scale is kept as written, so
`1.50` and `1.5` are two spellings of one number: `Decimal.normal` gives both the same form, and
`Decimal.sameNumber` compares these forms. `Decimal.chars` writes a number and `Decimal.read?`
reads one, with all the forms and limits of the decimal type that values are kept in.
-/

namespace FilterSql

open scoped Power

/-- The number `unscaled * 10 ^ (-scale)`. -/
structure Decimal where
  unscaled : Int
  scale : Int
deriving DecidableEq, Repr

namespace Decimal

def ofInt (n : Int) : Decimal :=
  ⟨n, 0⟩

/-! ### Equality of numbers

Two spellings of one number differ in trailing zeros only, which `stripZeros` removes. -/

/-- Removes the trailing zeros of `n` and counts them. Zero has none. -/
def stripZeros (n : Nat) : Nat × Nat :=
  if _h : n = 0 ∨ n % 10 ≠ 0 then (n, 0)
  else
    let (m, k) := stripZeros (n / 10)
    (m, k + 1)
termination_by n
decreasing_by omega

/-- The spelling of `d` without trailing zeros, where zero has the scale 0. -/
def normal (d : Decimal) : Decimal :=
  if d.unscaled = 0 then ⟨0, 0⟩
  else
    let (m, k) := stripZeros d.unscaled.natAbs
    ⟨if d.unscaled < 0 then -(m : Int) else m, d.scale - k⟩

/-- Whether `a` and `b` are equal as numbers, whatever their spelling. -/
def sameNumber (a b : Decimal) : Bool :=
  a.normal == b.normal

/-- The whole number that the digits of `d` make without the point, zeros at the end of its places
left out. It is the same for all spellings of a number, and may be the same for numbers that differ
in their places. -/
def withoutPoint (d : Decimal) : Decimal :=
  ⟨d.normal.unscaled, min d.normal.scale 0⟩

/-! ### Writing

`chars` chooses between positional notation and an exponent by the number of zeros that the former
would have to write. -/

/-- The digits of the unscaled number of `d`, without its sign. -/
def digits (d : Decimal) : List Char :=
  Text.digits d.unscaled.natAbs

/-- The written form of `d`. Zero is `0`. More than five zeros behind the point, or more than
fifteen at the end that are not in the number, call for an exponent; all other numbers are written
`plain`. -/
def chars (d : Decimal) : List Char :=
  if d.unscaled = 0 then ['0']
  else
    let lead := if d.unscaled < 0 then ['-'] else []
    let body :=
      if (d.digits.length : Int) + 5 < d.scale then
        pointAfterFirst d.digits ++ 'E' :: (toString (leadingExponent d.digits d.scale)).toList
      else if d.scale < -15 then
        d.digits ++ 'e' :: '+' :: Text.digits d.scale.natAbs
      else plain d.digits d.scale
    lead ++ body

instance : ToString Decimal :=
  ⟨fun d => String.ofList d.chars⟩

/-! ### Reading

`read?` divides its text at the first `e` or `E`. The part in front of it has digits, underscores
and a point, the part behind it is a whole number of 128 bits. -/

/-- Why a text is not a decimal number. -/
inductive Fault where
  | empty
  | exponentOverflow (text : String)
  | integer (fault : Text.IntegerFault)
deriving DecidableEq, Repr

def Fault.message : Fault → String
  | .empty => "Failed to parse empty string"
  | .exponentOverflow text => "Exponent overflow when parsing '" ++ text ++ "'"
  | .integer fault => fault.message

/-- Reads the digits of a decimal without its point: at least one, with underscores between or
behind them. -/
def underscored? (s : List Char) : Except Text.IntegerFault Nat :=
  if s.isEmpty then .error .empty
  else if s.head? = some '_' then .error .invalidDigit
  else
    let digits := s.filter (· ≠ '_')
    if digits.all Char.isDigit then .ok (Text.ofDigits digits) else .error .invalidDigit

/-- Reads such digits with one sign in front or none. -/
def signed? : List Char → Except Text.IntegerFault Int
  | '-' :: r => (underscored? r).map fun n => -(n : Int)
  | '+' :: r => (underscored? r).map Int.ofNat
  | s => (underscored? s).map Int.ofNat

/-- The text `s` without its first point, and the number of digits that followed it. A point at the
end has none behind it. -/
def splitPoint (s : List Char) : List Char × Nat :=
  let lead := s.takeWhile (· ≠ '.')
  match s.dropWhile (· ≠ '.') with
  | [] => (s, 0)
  | _ :: trail => (lead ++ trail, (trail.filter (· ≠ '_')).length)

/-- Reads a decimal number: digits with at most one point and an exponent after `e` or `E`. The
scale must fit in 64 bits, else the failure is `exponentOverflow`. -/
def read? (text : String) : Except Fault Decimal := do
  let isMark := fun c => c == 'e' || c == 'E'
  let mantissa := text.toList.takeWhile (!isMark ·)
  let exponent ← match text.toList.dropWhile (!isMark ·) with
    | [] => pure 0
    | _ :: r => (Text.intOfBits? 128 r).mapError .integer
  if mantissa.isEmpty then throw .empty
  let (whole, places) := splitPoint mantissa
  let scale := (places : Int) - exponent
  if scale < -(2 ^ (63 : Nat) : Int) ∨ (2 ^ (63 : Nat) : Int) ≤ scale then
    throw (.exponentOverflow text)
  let unscaled ← (signed? whole).mapError .integer
  return ⟨unscaled, scale⟩

end Decimal

end FilterSql
