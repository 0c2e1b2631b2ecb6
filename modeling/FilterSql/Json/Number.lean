import FilterSql.Binary64.Basic
import FilterSql.Json.Basic
import FilterSql.Text.Digits

/-!
# Numbers of a JSON document

The number that the text of a JSON number stands for, in floating point. `Binary64.ofJsonText?`
leaves out digits beyond 64 bits and applies the power of ten in rounded steps, so the result is
near the written number but not always nearest to it; beyond the range of floating point there is
none. `Json.wellFormed` tells the documents of which every part has a value.
-/

namespace FilterSql

open scoped Power

namespace Binary64

/-- The number `n` with those of the digits behind it that fit in 64 bits, and how many digits were
left out. -/
def leadingDigits (n : Nat) : List Char → Nat × Nat
  | [] => (n, 0)
  | c :: cs =>
      let n' := n * 10 + (c.toNat - 48)
      if n' < 2 ^ (64 : Nat) then leadingDigits n' cs else (n, cs.length + 1)

/-- Scales `x` by the power of ten with this `exponent`: one rounded multiplication or division by
the nearest number to the power, after steps of 308 places down for a tiny number. -/
def scale? (x : Binary64) (exponent : Int) : Nat → Option Binary64
  | 0 => none
  | fuel + 1 =>
      if exponent.natAbs ≤ 308 then do
        let power ← ofDecimal? false 1 exponent.natAbs
        if 0 ≤ exponent then x.mul? power else x.div? power
      else if x.isZero then some x
      else if 0 ≤ exponent then none
      else do
        let power ← ofDecimal? false 1 308
        scale? (← x.div? power) (exponent + 308) fuel

/-- The number that the text of a JSON number stands for. Its digits, those in front of the point
and then those behind it, are taken as one whole number by `leadingDigits` and scaled by `scale?`,
so the result may differ in the last place from the nearest number. -/
def ofJsonText? (text : String) : Option Binary64 := do
  let (negative, s) := match text.toList with
    | '-' :: r => (true, r)
    | s => (false, s)
  let (whole, r) := Text.spanDigits s
  let (fraction, r) := match r with
    | '.' :: r => Text.spanDigits r
    | _ => ([], r)
  let exponent ← exponent? r
  let (digits, droppedInFront) := leadingDigits 0 whole
  let (digits, droppedBehind) := leadingDigits digits fraction
  let x ← nearest? negative digits 1
  if x.isZero then return x
  if 2 ^ (31 : Nat) ≤ exponent.natAbs then
    if 0 ≤ exponent then none else return { Binary64.zero with negative }
  let e := exponent + droppedInFront + droppedBehind - fraction.length
  scale? x e (e.natAbs / 308 + 2)

end Binary64

namespace Json

/-- The floating point number of a JSON number; an integer may stand for one. -/
def binary64? : Json → Option Binary64
  | .int n => Binary64.ofJsonText? (toString n)
  | .real text => Binary64.ofJsonText? text
  | _ => none

mutual

/-- Whether every number in the document is in the range of floating point, and every string is a
text. -/
def wellFormed : Json → Bool
  | .null | .bool _ | .string _ => true
  | .int n => (Json.int n).binary64?.isSome
  | .real text => (Json.real text).binary64?.isSome
  | .array items => wellFormedItems items
  | .object fields => wellFormedFields fields
  | .illFormed => false

def wellFormedItems : List Json → Bool
  | [] => true
  | j :: js => j.wellFormed && wellFormedItems js

def wellFormedFields : List (String × Json) → Bool
  | [] => true
  | (_, j) :: fs => j.wellFormed && wellFormedFields fs

end

end Json

end FilterSql
