import FilterSql.Text.Digits

/-!
# Floating point numbers

The finite numbers of the binary format of 64 bits, as sign and magnitude. The magnitude counts the
numbers from zero upwards, which is also how the format stores them, so the order of magnitudes is
the order of the numbers. `Binary64.nearest?` rounds a quotient of whole numbers to the nearest
number of the format; `Binary64.mul?`, `Binary64.div?` and `Binary64.read?` are made of it.
-/

namespace FilterSql

open scoped Power

/-- A finite floating point number. There is no infinity and nothing that is not a number. -/
structure Binary64 where
  negative : Bool
  /-- The position of the absolute value among the finite numbers. -/
  magnitude : Nat
  finite : magnitude < 2047 * 2 ^ (52 : Nat) := by omega
deriving DecidableEq

namespace Binary64

def zero : Binary64 :=
  ⟨false, 0, by decide⟩

instance : Inhabited Binary64 :=
  ⟨zero⟩

def isZero (x : Binary64) : Bool :=
  x.magnitude == 0

/-- Whether `x` is below the least normal number, and not zero. -/
def isSubnormal (x : Binary64) : Bool :=
  !x.isZero && decide (x.magnitude < 2 ^ (52 : Nat))

/-- Whether `x` and `y` are equal as numbers: the two zeros are one. -/
def sameNumber (x y : Binary64) : Bool :=
  x == y || (x.isZero && y.isZero)

/-- The absolute value of `x` as `m * 2 ^ q`. -/
def parts (x : Binary64) : Nat × Int :=
  let biased : Nat := x.magnitude / 2 ^ (52 : Nat)
  let fraction : Nat := x.magnitude % 2 ^ (52 : Nat)
  if biased = 0 then (fraction, -1074) else (2 ^ (52 : Nat) + fraction, (biased : Int) - 1075)

/-- The absolute value of `x` as a quotient of whole numbers, numerator first. -/
def ratio (x : Binary64) : Nat × Nat :=
  let (m, q) := x.parts
  if 0 ≤ q then (m * 2 ^ q.toNat, 1) else (m, 2 ^ (-q).toNat)

/-! ### Rounding

A quotient is rounded in one step: `lastPlace` finds the exponent of the last place that the result
keeps, and `roundScaled` rounds the quotient to a whole number of such places. -/

/-- The quotient `num / den` rounded to a whole number, a half to the even neighbour. -/
def roundDiv (num den : Nat) : Nat :=
  let quotient := num / den
  let rest := num % den
  if den < 2 * rest ∨ (2 * rest = den ∧ quotient % 2 = 1) then quotient + 1 else quotient

/-- The quotient `num / den * 2 ^ (-q)` rounded by `roundDiv`. -/
def roundScaled (num den : Nat) (q : Int) : Nat :=
  if 0 ≤ q then roundDiv num (den * 2 ^ q.toNat) else roundDiv (num * 2 ^ (-q).toNat) den

/-- The exponent of the last place of the number that `num / den` rounds to: fifty-three binary
digits are kept, fewer below the least normal number. -/
def lastPlace (num den : Nat) : Int :=
  let guess : Int := (num.log2 : Int) - den.log2 - 53
  let quotient :=
    if 0 ≤ guess then num / (den * 2 ^ guess.toNat) else num * 2 ^ (-guess).toNat / den
  max (-1074) (if quotient < 2 ^ (53 : Nat) then guess else guess + 1)

/-- The number nearest to `num / den`, a tie going to the even one, or none if it is beyond the
largest number of the format. -/
def nearest? (negative : Bool) (num den : Nat) : Option Binary64 :=
  if num = 0 then some ⟨negative, 0, by decide⟩
  else
    let q := lastPlace num den
    let magnitude := (q + 1074).toNat * 2 ^ (52 : Nat) + roundScaled num den q
    if h : magnitude < 2047 * 2 ^ (52 : Nat) then some ⟨negative, magnitude, h⟩ else none

/-- The number nearest to `digits * 10 ^ exponent`. Exponents far outside the format are decided
without computing the power. -/
def ofDecimal? (negative : Bool) (digits : Nat) (exponent : Int) : Option Binary64 :=
  let places : Int := exponent + (Text.digits digits).length
  if digits = 0 ∨ places < -400 then some ⟨negative, 0, by decide⟩
  else if 400 < places then none
  else if 0 ≤ exponent then nearest? negative (digits * 10 ^ exponent.toNat) 1
  else nearest? negative digits (10 ^ (-exponent).toNat)

/-- The product of `x` and `y`, rounded. -/
def mul? (x y : Binary64) : Option Binary64 :=
  let (a, b) := x.ratio
  let (c, d) := y.ratio
  nearest? (x.negative != y.negative) (a * c) (b * d)

/-- The quotient of `x` by `y`, rounded, for a divisor other than zero. -/
def div? (x y : Binary64) : Option Binary64 :=
  let (a, b) := x.ratio
  let (c, d) := y.ratio
  if c = 0 then none else nearest? (x.negative != y.negative) (a * d) (b * c)

/-! ### Reading

`read?` rounds correctly: it computes the written number as an exact quotient before it rounds,
unlike `ofJsonText?`. -/

/-- The exponent behind its mark, if the text is one; an empty text stands for the exponent zero. -/
def exponent? : List Char → Option Int
  | [] => some 0
  | e :: r => if e = 'e' ∨ e = 'E' then (Text.int? r).toOption else none

/-- Reads a decimal number without its sign: digits on at least one side of an optional point, then
an optional exponent. The sign is given as `negative`. -/
def unsigned? (negative : Bool) (s : List Char) : Option Binary64 := do
  let (whole, r) := Text.spanDigits s
  let (fraction, r) := match r with
    | '.' :: r => Text.spanDigits r
    | _ => ([], r)
  if whole.isEmpty ∧ fraction.isEmpty then none
  let exponent ← exponent? r
  ofDecimal? negative (Text.ofDigits (whole ++ fraction)) (exponent - fraction.length)

/-- Reads a finite number, correctly rounded. The words for infinity and for no number are refused
like any other text, and so is a number beyond the largest. -/
def read? (text : String) : Option Binary64 :=
  match text.toList with
  | '-' :: r => unsigned? true r
  | '+' :: r => unsigned? false r
  | s => unsigned? false s

end Binary64

end FilterSql
