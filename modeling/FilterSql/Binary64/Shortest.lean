import FilterSql.Binary64.Basic
import FilterSql.Decimal.Basic

/-!
# Shortest decimal text of a floating point number

The digits of a floating point number are the fewest that read back as that number, and among those
the nearest to it; of two equally near, `Tie` says which is taken. `shortest` finds them by trying
coarse decimal grids before fine ones: on each grid only the two neighbours of the number can be
nearest to it, and the first grid with a neighbour that rounds to the number gives the digits.
Everything is exact arithmetic on whole numbers. `positional` and `jsonText` lay the digits out.
-/

namespace FilterSql.Binary64

open scoped Power

/-- The reals that round to `value / den`, from `low / den` to `high / den`. The bounds themselves
do so if the interval is `closed`, for a number whose last binary digit is even. -/
structure Interval where
  low : Nat
  value : Nat
  high : Nat
  den : Nat
  closed : Bool

/-- The `Interval` of a number other than zero. Below a power of two the numbers lie twice as
close. -/
def interval (x : Binary64) : Interval :=
  let (m, q) := x.parts
  let narrow := x.magnitude % 2 ^ (52 : Nat) = 0 ∧ 2 ^ (53 : Nat) ≤ x.magnitude
  let (up, down) := (2, if narrow then 1 else 2)
  let (scale, den) := if 0 ≤ q then (2 ^ q.toNat, 4) else (1, 4 * 2 ^ (-q).toNat)
  ⟨(4 * m - down) * scale, 4 * m * scale, (4 * m + up) * scale, den, m % 2 = 0⟩

/-- Whether `num / den'` lies in the interval `i`. -/
def Interval.contains (i : Interval) (num den' : Nat) : Bool :=
  if i.closed then i.low * den' ≤ num * i.den ∧ num * i.den ≤ i.high * den'
  else i.low * den' < num * i.den ∧ num * i.den < i.high * den'

/-- The distance of `num / den'` from the number in `i`, in units of the common denominator. -/
def Interval.distance (i : Interval) (num den' : Nat) : Nat :=
  let a := num * i.den
  let b := i.value * den'
  (a - b) + (b - a)

/-- The point `n` of the grid of multiples of `10 ^ k`, as a quotient. -/
def gridPoint (k : Int) (n : Nat) : Nat × Nat :=
  if 0 ≤ k then (n * 10 ^ k.toNat, 1) else (n, 10 ^ (-k).toNat)

/-- Which of two decimals that are equally short and equally near is taken. -/
inductive Tie where
  | up
  | even
  deriving DecidableEq, Repr

/-- Of the neighbours `below` and `below + 1` at the same distance, the one that `tie` takes. -/
def Tie.pick (tie : Tie) (below : Nat) : Nat :=
  match tie with
  | .up => below + 1
  | .even => if below % 2 = 0 then below else below + 1

/-- The point of the grid of multiples of `10 ^ k` that rounds to the number in `i`, the nearer one
if both neighbours of the number do. -/
def onGrid? (tie : Tie) (i : Interval) (k : Int) : Option Nat :=
  let below := if 0 ≤ k then i.value / (i.den * 10 ^ k.toNat) else i.value * 10 ^ (-k).toNat / i.den
  let (a, d) := gridPoint k below
  let (b, _) := gridPoint k (below + 1)
  match i.contains a d, i.contains b d with
  | true, true =>
      match compare (i.distance a d) (i.distance b d) with
      | .lt => some below
      | .eq => some (tie.pick below)
      | .gt => some (below + 1)
  | true, false => some below
  | false, true => some (below + 1)
  | false, false => none

/-- The exponent of the first decimal digit of `num / den`, which is not zero. The logarithm gives
a guess that is off by one place at most. -/
def decimalExponent (num den : Nat) : Int :=
  let guess : Int := ((num.log2 : Int) - den.log2) * 1233 / 4096
  let reaches (e : Int) : Bool :=
    if 0 ≤ e then den * 10 ^ e.toNat ≤ num else den ≤ num * 10 ^ (-e).toNat
  if reaches (guess + 1) then guess + 1
  else if reaches guess then guess
  else guess - 1

/-- Tries the grids of one digit, two digits and so on with `onGrid?`. Seventeen digits always
suffice, so the last resort is not reached. -/
def firstGrid (tie : Tie) (i : Interval) (e : Int) : List Nat → Nat × Int
  | [] => (0, 0)
  | n :: ns =>
      let k := e - n
      match onGrid? tie i k with
      | some d => (d, k)
      | none => firstGrid tie i e ns

/-- The shortest decimal of the absolute value of `x`, without trailing zeros. -/
def shortest (tie : Tie) (x : Binary64) : Decimal :=
  if x.isZero then ⟨0, 0⟩
  else
    let i := x.interval
    let (d, k) := firstGrid tie i (decimalExponent i.value i.den) (List.range 17)
    Decimal.normal ⟨d, -k⟩

/-- The text `body` with the sign of `x` in front. -/
def signed (x : Binary64) (body : List Char) : String :=
  String.ofList (if x.negative then '-' :: body else body)

/-- The text of `x` in positional notation, however long, without a point for a whole number. A tie
goes up. -/
def positional (x : Binary64) : String :=
  let d := x.shortest .up
  x.signed (Decimal.plain d.digits d.scale)

/-- The text of `x` as a number of a JSON document. Between the fifth place behind the point and
the sixteenth in front of it notation is positional, with at least one digit behind the point. A
tie goes to the even digit. -/
def jsonText (x : Binary64) : String :=
  let d := x.shortest .even
  let e := Decimal.leadingExponent d.digits d.scale
  x.signed <|
    if -5 ≤ e ∧ e ≤ 15 then
      Decimal.plain d.digits d.scale ++ if d.scale ≤ 0 then ['.', '0'] else []
    else
      Decimal.pointAfterFirst d.digits ++ 'e' :: (if e < 0 then '-' else '+') ::
        Text.digits e.natAbs

end FilterSql.Binary64
