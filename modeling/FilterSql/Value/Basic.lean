import FilterSql.Binary64.Shortest
import FilterSql.Calendar.Timestamp
import FilterSql.DataType
import FilterSql.Text.Quoted
import FilterSql.Uuid

/-!
# Values

A value that a query compares with, bound as a parameter or written into the text. `Value.same` is
the equality of values, in which decimals and floating point numbers count as numbers;
`Value.hashed` is what a hash may look at. `Value.literal` writes a value in standard SQL and
`Value.sqlLiteral` in a dialect.
-/

namespace FilterSql

open Calendar (Date Time Timestamp)

inductive Value where
  | short (n : Int)
  | int (n : Int)
  | long (n : Int)
  | float (x : Binary64)
  | decimal (d : Decimal)
  | string (s : String)
  | boolean (b : Bool)
  | uuid (u : Uuid)
  | bytes (bs : List UInt8)
  | date (t : Date)
  | time (t : Time)
  | timestamp (t : Timestamp)
  /-- A member of an enum type, by the names of both. -/
  | enum (type member : String)
  | null
deriving DecidableEq, Inhabited

namespace Value

def isNull (v : Value) : Bool :=
  v == null

def dataType : Value → DataType
  | short _ => .short
  | int _ => .int
  | long _ => .long
  | float _ => .double
  | decimal _ => .decimal
  | string _ => .string
  | boolean _ => .boolean
  | uuid _ => .uuid
  | bytes _ => .binary
  | date _ => .date
  | time _ => .time
  | timestamp _ => .timestamp
  | enum _ _ => .enum
  | null => .null

/-! ### Equality

`same` is not the equality of the type `Value`, which tells the spellings of a decimal apart. Two
values with one hash need not be the `same`, and the two zeros of floating point show that the
converse fails as well. -/

/-- Whether the two values are the same: of one kind and equal in it. -/
def same : Value → Value → Bool
  | float x, float y => x.sameNumber y
  | decimal a, decimal b => a.sameNumber b
  | a, b => a == b

/-- The content that a hash of the value is taken of: a decimal without its point, a floating point
number with its sign. -/
def hashed : Value → Value
  | decimal d => decimal d.withoutPoint
  | v => v

/-- Whether every hash function agrees on `a` and `b`, since it is given the same content for
both. -/
def sameHash (a b : Value) : Bool :=
  a.hashed == b.hashed

/-! ### Literals

Where a statement is shown without parameters, its values are written into the text as literals. -/

/-- The two hexadecimal digits of the byte `b`, in lower case. -/
def byteChars (b : UInt8) : List Char :=
  [Uuid.hexChar (b.toNat / 16), Uuid.hexChar (b.toNat % 16)]

/-- The text `s` between apostrophes. -/
def quoted (s : String) : String :=
  Text.quote '\'' s

/-- The literal of the value in standard SQL, in which a backslash has no meaning of its own. -/
def literal : Value → String
  | short n | int n | long n => toString n
  | float x => x.positional
  | decimal d => toString d
  | string s => quoted s
  | boolean b => if b then "TRUE" else "FALSE"
  | uuid u => quoted (toString u)
  | bytes bs => "X" ++ quoted (String.ofList (bs.flatMap byteChars))
  | date t => quoted (toString t)
  | time t => quoted (toString t)
  | timestamp t => quoted (toString t)
  | enum _ member => quoted member
  | null => "NULL"

/-- The literal of the value in a dialect. A backslash in a string would start an escape in MySQL,
so it is doubled there; the member of an enum type is written as it is. -/
def sqlLiteral : Dialect → Value → String
  | .mysql, string s => quoted (String.ofList (Text.double '\\' s.toList))
  | _, v => v.literal

end Value

end FilterSql
