import FilterSql.Json.Number
import FilterSql.Value.Basic

/-!
# Values in JSON

`Value.toJson` writes a value as an object with one member, named after the kind of the value, or
as a bare word if the kind has no content. `Value.ofJson?` is strict about kinds and ranges, but
takes dates, times and timestamps with blanks between their parts, identifiers in each of their
forms, and numbers for decimals.
-/

namespace FilterSql

open scoped Power

/-- The exact decimal value of `x`, with as few places as it needs. A subnormal number has all
places that the format reaches. -/
def Binary64.toDecimal (x : Binary64) : Decimal :=
  if x.isZero then ⟨0, 0⟩
  else
    let (m, q) := x.parts
    let sign : Int := if x.negative then -1 else 1
    if 0 ≤ q then ⟨sign * (m * 2 ^ q.toNat : Nat), 0⟩
    else
      let places := (-q).toNat
      let halved := (List.range places).takeWhile fun i => m % 2 ^ (i + 1) = 0
      let k := if x.isSubnormal then 0 else halved.length
      ⟨sign * (m / 2 ^ k * 5 ^ (places - k) : Nat), (places - k : Nat)⟩

namespace Json

/-- The decimal that a JSON value stands for, written as a string or as a number. A number that is
no integer of 64 bits is a floating point number first. -/
def decimal? : Json → Option Decimal
  | .string s => (Decimal.read? s).toOption
  | .int n =>
      if -9223372036854775808 ≤ n ∧ n < 18446744073709551616 then some (.ofInt n)
      else (Binary64.ofJsonText? (toString n)).map Binary64.toDecimal
  | .real text => (Binary64.ofJsonText? text).map Binary64.toDecimal
  | _ => none

/-- What `read` makes of a string, if it accepts that. -/
def parsed? (read : String → Except ε α) (j : Json) : Option α := do
  (read (← j.string?)).toOption

/-- The two strings of an array that has nothing else. -/
def stringPair? : Json → Option (String × String)
  | .array [.string a, .string b] => some (a, b)
  | _ => none

def byte? (j : Json) : Option UInt8 :=
  (j.intBetween? 0 255).map fun n => UInt8.ofNat n.toNat

end Json

namespace Value

open Calendar (Date Time Timestamp)

/-- The name of the kind of a value. -/
def tag : Value → String
  | short _ => "Short"
  | int _ => "Int"
  | long _ => "Long"
  | float _ => "Float"
  | decimal _ => "Decimal"
  | string _ => "String"
  | boolean _ => "Boolean"
  | uuid _ => "Uuid"
  | bytes _ => "Bytes"
  | date _ => "Date"
  | time _ => "Time"
  | timestamp _ => "Timestamp"
  | enum _ _ => "Enum"
  | null => "Null"

def content : Value → Json
  | short n | int n | long n => .int n
  | float x => .real x.jsonText
  | decimal d => .string (toString d)
  | string s => .string s
  | boolean b => .bool b
  | uuid u => .string (toString u)
  | bytes bs => .array (bs.map fun b => .int b.toNat)
  | date t => .string (toString t)
  | time t => .string (toString t)
  | timestamp t => .string (t.text "Z")
  | enum type member => .array [.string type, .string member]
  | null => .null

def toJson (v : Value) : Json :=
  match v with
  | null => .string "Null"
  | v => .object [(v.tag, v.content)]

/-- The value of the kind `tag` with this content. The kind `Null` has none and is not among
them. -/
def ofContent? (tag : String) (content : Json) : Option Value :=
  match tag with
  | "Short" => (content.intBetween? (-32768) 32767).map short
  | "Int" => (content.intBetween? (-2147483648) 2147483647).map int
  | "Long" => content.int64?.map long
  | "Float" => content.binary64?.map float
  | "Decimal" => content.decimal?.map decimal
  | "String" => content.string?.map string
  | "Boolean" => content.bool?.map boolean
  | "Uuid" => (content.parsed? Uuid.read?).map uuid
  | "Bytes" => (content.list? Json.byte?).map bytes
  | "Date" => (content.parsed? Date.readLoose?).map date
  | "Time" => (content.parsed? Time.readLoose?).map time
  | "Timestamp" => (content.parsed? Timestamp.readLoose?).map timestamp
  | "Enum" => content.stringPair?.map fun (type, member) => enum type member
  | _ => none

def ofJson? (j : Json) : Option Value :=
  if j.unit? = some "Null" then some null
  else
    match j.tagged? with
    | some (tag, some content) => ofContent? tag content
    | _ => none

end Value

end FilterSql
