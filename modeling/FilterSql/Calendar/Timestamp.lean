import FilterSql.Calendar.Date
import FilterSql.Calendar.Time

/-!
# Timestamps

Instants, kept as date and time at offset zero. A written timestamp has an offset from that, which
`Timestamp.atOffset?` subtracts when it is read; the subtraction moves the date by a day at most.
`Timestamp.read?` takes the literals of the filter language, which need their seconds, and
`Timestamp.readLoose?` the texts of a document.
-/

namespace FilterSql.Calendar

/-- A date and a time at offset zero. -/
structure Timestamp where
  date : Date
  time : Time
deriving DecidableEq, Inhabited

namespace Timestamp

/-- The instant at which clocks that are `offset` minutes ahead show `date` and `time`, unless it
is beyond the calendar. The offset is less than a day. -/
def atOffset? (date : Date) (time : Time) (offset : Int) : Option Timestamp := do
  let minutes : Int := time.hour * 60 + time.minute - offset
  let date ←
    if minutes < 0 then date.previous?
    else if 1440 ≤ minutes then date.next?
    else some date
  let minutes := (minutes % 1440).toNat
  let time ← Time.of? (minutes / 60) (minutes % 60) time.second time.nanosecond
  return ⟨date, time⟩

/-! ### Writing

Date and time are written as by themselves; the caller of `text` says how offset zero is written. -/

/-- The timestamp with `T` between date and time and the text `zero` for its offset. -/
def text (t : Timestamp) (zero : String) : String :=
  toString t.date ++ "T" ++ toString t.time ++ zero

instance : ToString Timestamp :=
  ⟨fun t => t.text "+00:00"⟩

/-! ### Reading

The parts of a literal have fixed widths, and what is missing at its end is told by its length in
bytes. A document may have blanks between the parts. -/

/-- Takes the sign of an offset. The minus sign of Unicode is one, too. -/
def offsetSign : Reader Int := do
  let c ← Reader.char fun c => c == '+' || c == '-' || c == '\u2212'
  return if c = '+' then 1 else -1

/-- Takes two digits of an offset. What is missing is told by bytes: at least two must be left. -/
def offsetDigits : Reader (Nat × Nat) := do
  let r ← get
  if (String.ofList r).utf8ByteSize < 2 then throw .premature
  match r with
  | a :: b :: rest =>
      if a.isDigit && b.isDigit then
        set rest
        return (a.toNat - 48, b.toNat - 48)
      else throw .invalid
  | _ => throw .invalid

/-- Takes an offset in minutes: `Z`, or hours and minutes behind a sign, with `between` them. -/
def offset (between : Reader Unit) : Reader Int := do
  match ← get with
  | 'Z' :: r | 'z' :: r => do
      set r
      return 0
  | _ => do
      let sign ← offsetSign
      let (a, b) ← offsetDigits
      between
      let (c, d) ← offsetDigits
      if 6 ≤ c then throw .outOfRange
      return sign * (((a * 10 + b) * 60 + c * 10 + d : Nat) : Int)

/-- The instant of the parts, once the whole text has been read. An offset of a day or more is
`outOfRange`. -/
def ofParts (date : Date) (time : Time) (offset : Int) : Except Fault Timestamp := do
  if 1440 ≤ offset.natAbs then throw .outOfRange
  match atOffset? date time offset with
  | some t => return t
  | none => throw .outOfRange

/-- Reads the timestamp of a literal, in which each part has a fixed number of digits. -/
def read? (text : String) : Except Fault Timestamp := do
  if text.utf8ByteSize < 19 then throw .premature
  let parts : Reader (Date × Time × Int) := do
    let y := (← Reader.twoDigits) * 100 + (← Reader.twoDigits)
    Reader.literal '-'
    let m ← Reader.twoDigits
    Reader.literal '-'
    let d ← Reader.twoDigits
    let date ← Date.ofParts y m d
    discard (Reader.char fun c => c == 'T' || c == 't' || c == ' ')
    let h ← Reader.twoDigits
    Reader.literal ':'
    let min ← Reader.twoDigits
    Reader.literal ':'
    let s ← Reader.twoDigits
    let n ← Reader.fraction
    let time ← Time.ofParts h min s n
    let off ← offset (Reader.literal ':')
    return (date, time, off)
  let (date, time, off) ← parts.run text.toList
  ofParts date time off

/-- Skips colons and blanks, any number of either. -/
def colonsAndBlanks : Reader Unit :=
  modify (List.dropWhile fun c => c == ':' || Text.isBlank c)

/-- Reads the timestamp of a document: blanks may stand between its parts, the word `UTC` stands
for offset zero, and the colon of an offset may be missing. -/
def readLoose? (text : String) : Except Fault Timestamp := do
  let parts : Reader ((Int × Nat × Nat) × (Nat × Nat) × (Nat × Nat) × Int) := do
    let date ← Date.parts Reader.blanks
    discard (Reader.char fun c => c == 'T' || c == 't' || c == ' ')
    let hm ← Time.hourMinute Reader.blanks
    let sn ← Time.secondFraction Reader.blanks
    Reader.blanks
    let off ← match ← get with
      | u :: t :: c :: r =>
          if u.toUpper = 'U' ∧ t.toUpper = 'T' ∧ c.toUpper = 'C' then do
            set r
            pure 0
          else offset colonsAndBlanks
      | _ => offset colonsAndBlanks
    Reader.blanks
    return (date, hm, sn, off)
  let ((y, m, d), (h, min), (s, n), off) ← parts.run text.toList
  let date ← Date.ofParts y m d
  let time ← Time.ofParts h min s n
  ofParts date time off

end Timestamp

end FilterSql.Calendar
