import FilterSql.Calendar.Reader

/-!
# Times of day

Hours, minutes, seconds and nanoseconds. Any minute may have a leap second, which is its second 60.
As with `Date`, the bounds are part of the type, and `Time.of?` is where they are checked.
`Time.read?` takes a literal and `Time.readLoose?` a document; both let the seconds be left out.
-/

namespace FilterSql.Calendar

open scoped Power

structure Time where
  hour : Nat
  minute : Nat
  second : Nat
  nanosecond : Nat
  valid : hour ≤ 23 ∧ minute ≤ 59 ∧ second ≤ 60 ∧ nanosecond < 10 ^ (9 : Nat)
deriving DecidableEq

namespace Time

def of? (hour minute second nanosecond : Nat) : Option Time :=
  if h : hour ≤ 23 ∧ minute ≤ 59 ∧ second ≤ 60 ∧ nanosecond < 10 ^ (9 : Nat) then
    some ⟨hour, minute, second, nanosecond, h⟩
  else none

def midnight : Time :=
  ⟨0, 0, 0, 0, by decide⟩

instance : Inhabited Time :=
  ⟨midnight⟩

/-! ### Writing

Seconds are always written, their fraction only if there is one. -/

/-- A point and three, six or nine digits for `n` nanoseconds, the fewest that are exact; nothing
for a whole second. -/
def fractionChars (n : Nat) : List Char :=
  if n = 0 then []
  else if n % 10 ^ (6 : Nat) = 0 then '.' :: Text.padded 3 (n / 10 ^ (6 : Nat))
  else if n % 10 ^ (3 : Nat) = 0 then '.' :: Text.padded 6 (n / 10 ^ (3 : Nat))
  else '.' :: Text.padded 9 n

def chars (t : Time) : List Char :=
  Text.padded 2 t.hour ++ ':' :: Text.padded 2 t.minute ++ ':' :: Text.padded 2 t.second ++
    fractionChars t.nanosecond

instance : ToString Time :=
  ⟨fun t => String.ofList t.chars⟩

/-! ### Reading

A time is read in two halves, `hourMinute` and `secondFraction`, since the second half may be
missing. -/

def ofParts (hour minute second nanosecond : Nat) : Except Fault Time :=
  match of? hour minute second nanosecond with
  | some t => .ok t
  | none => .error .outOfRange

/-- Takes hour and minute; `gap` is what may stand in front of a colon. -/
def hourMinute (gap : Reader Unit) : Reader (Nat × Nat) := do
  let h ← Reader.number 2 0 23
  gap
  Reader.literal ':'
  let m ← Reader.number 2 0 59
  return (h, m)

/-- Takes a colon, the second and its fraction. -/
def secondFraction (gap : Reader Unit) : Reader (Nat × Nat) := do
  gap
  Reader.literal ':'
  let s ← Reader.number 2 0 60
  let n ← Reader.fraction
  return (s, n)

/-- Reads the time of a literal, with seconds or else without. If both fail, the cause is that of
the second attempt. -/
def read? (text : String) : Except Fault Time :=
  let full : Reader (Nat × Nat × Nat × Nat) := do
    let (h, m) ← hourMinute (pure ())
    let (s, n) ← secondFraction (pure ())
    return (h, m, s, n)
  match full.run text.toList with
  | .ok (h, m, s, n) => ofParts h m s n
  | .error _ => do
      let (h, m) ← (hourMinute (pure ())).run text.toList
      ofParts h m 0 0

/-- Reads the time of a document: blanks may stand between its parts and after it, and the seconds
are left out if they cannot be read. -/
def readLoose? (text : String) : Except Fault Time := do
  let ((h, m), rest) ← StateT.run (hourMinute Reader.blanks) text.toList
  match StateT.run (secondFraction Reader.blanks <* Reader.blanks) rest with
  | .ok ((s, n), rest) => if rest.isEmpty then ofParts h m s n else throw .trailing
  | .error _ => if (Text.trimStart rest).isEmpty then ofParts h m 0 0 else throw .trailing

end Time

end FilterSql.Calendar
