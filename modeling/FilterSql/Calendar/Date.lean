import FilterSql.Calendar.Reader

/-!
# Dates

Days of the Gregorian calendar, extended to years before it and to the year zero. A `Date` always
exists: the proof is part of the type, so `Date.of?` is the only door to it. `Date.next?` and
`Date.previous?` step through the calendar, `Date.chars` writes a date, and `Date.read?` and
`Date.readLoose?` read one, the former in a literal and the latter in a document.
-/

namespace FilterSql.Calendar

def isLeapYear (y : Int) : Bool :=
  y % 4 == 0 && (y % 100 != 0 || y % 400 == 0)

def daysInMonth (y : Int) (m : Nat) : Nat :=
  match m with
  | 2 => if isLeapYear y then 29 else 28
  | 4 | 6 | 9 | 11 => 30
  | _ => 31

/-- The years that a date may have reach from `firstYear` to `lastYear`. -/
def firstYear : Int := -262143

def lastYear : Int := 262142

/-- Whether the calendar has the day `d` of the month `m` of the year `y`. -/
def DateExists (y : Int) (m d : Nat) : Prop :=
  firstYear ≤ y ∧ y ≤ lastYear ∧ 1 ≤ m ∧ m ≤ 12 ∧ 1 ≤ d ∧ d ≤ daysInMonth y m

instance (y : Int) (m d : Nat) : Decidable (DateExists y m d) := by
  unfold DateExists; infer_instance

structure Date where
  year : Int
  month : Nat
  day : Nat
  valid : DateExists year month day
deriving DecidableEq

namespace Date

def of? (y : Int) (m d : Nat) : Option Date :=
  if h : DateExists y m d then some ⟨y, m, d, h⟩ else none

def epoch : Date :=
  ⟨1970, 1, 1, by decide⟩

instance : Inhabited Date :=
  ⟨epoch⟩

/-- The day after `t`, unless the calendar ends with it. -/
def next? (t : Date) : Option Date :=
  if t.day < daysInMonth t.year t.month then of? t.year t.month (t.day + 1)
  else if t.month < 12 then of? t.year (t.month + 1) 1
  else of? (t.year + 1) 1 1

/-- The day before `t`, unless the calendar begins with it. -/
def previous? (t : Date) : Option Date :=
  if 1 < t.day then of? t.year t.month (t.day - 1)
  else if 1 < t.month then of? t.year (t.month - 1) (daysInMonth t.year (t.month - 1))
  else of? (t.year - 1) 12 31

/-! ### Writing

The form is the one of ISO 8601, with a sign in front of a year that four digits cannot hold. -/

/-- The year `y` with four digits at least, and a sign if it is not one of those that four digits
hold. -/
def yearChars (y : Int) : List Char :=
  if 0 ≤ y ∧ y ≤ 9999 then Text.padded 4 y.natAbs
  else (if y < 0 then '-' else '+') :: Text.padded 4 y.natAbs

def chars (t : Date) : List Char :=
  yearChars t.year ++ '-' :: Text.padded 2 t.month ++ '-' :: Text.padded 2 t.day

instance : ToString Date :=
  ⟨fun t => String.ofList t.chars⟩

/-! ### Reading

Both readers take the three parts with `parts` and check with `ofParts` that the day exists. What
differs is the blanks that they skip. -/

/-- The date of the parts read. A day that does not exist is `outOfRange`. -/
def ofParts (y : Int) (m d : Nat) : Except Fault Date :=
  match of? y m d with
  | some t => .ok t
  | none => .error .outOfRange

/-- Takes year, month and day with hyphens between them; `gap` is what may stand in front of a
hyphen. -/
def parts (gap : Reader Unit) : Reader (Int × Nat × Nat) := do
  let y ← Reader.year
  gap
  Reader.literal '-'
  let m ← Reader.number 2 1 12
  gap
  Reader.literal '-'
  let d ← Reader.number 2 1 31
  return (y, m, d)

/-- Reads the date of a literal. That the day exists is checked last. -/
def read? (text : String) : Except Fault Date := do
  let (y, m, d) ← (parts (pure ())).run text.toList
  ofParts y m d

/-- Reads the date of a document, with blanks between its parts and after it. -/
def readLoose? (text : String) : Except Fault Date := do
  let (y, m, d) ← (do
    let p ← parts Reader.blanks
    Reader.blanks
    return p : Reader _).run text.toList
  ofParts y m d

end Date

end FilterSql.Calendar
