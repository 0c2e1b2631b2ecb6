import FilterSql.Dialect
import FilterSql.Text.Blank
import FilterSql.Text.Upper

/-!
# Data types

The declared type of an attribute, a parameter or a literal. `DataType.ofName?` knows a type by its
name in the entity data model (`Edm.Int32`) or, in any case of its letters, in a database
(`integer`); `edmName` and `sqlName` write it for the two worlds. Numeric types form a ladder, on
which arithmetic moves upwards with `widen?`, and `comparable` says which types may stand on both
sides of a comparison.
-/

namespace FilterSql

inductive DataType where
  | boolean | byte | short | int | long | float | double | decimal | string | char
  | uuid | date | time | timestamp | binary | enum | geometry | null
deriving DecidableEq, Repr

namespace DataType

/-! ### Names

Several names may stand for one type, so the tables are read in one direction only. What is written
is a name of its own for each type and dialect. -/

/-- The names of the entity data model. -/
def edmNames : List (String × DataType) :=
  [("Edm.Boolean", boolean), ("Edm.Byte", byte), ("Edm.SByte", short), ("Edm.Int16", short),
   ("Edm.Int32", int), ("Edm.Int64", long), ("Edm.Single", float), ("Edm.Double", double),
   ("Edm.Decimal", decimal), ("Edm.String", string), ("Edm.Guid", uuid), ("Edm.Date", date),
   ("Edm.TimeOfDay", time), ("Edm.DateTimeOffset", timestamp), ("Edm.Binary", binary),
   ("Edm.Enum", enum), ("Edm.Geometry", geometry), ("Edm.GeometryPoint", geometry),
   ("Edm.Geography", geometry), ("Edm.GeographyPoint", geometry), ("Edm.Null", null)]

/-- The names of databases, in upper case. -/
def sqlNames : List (String × DataType) :=
  [("BOOLEAN", boolean), ("BOOL", boolean), ("TINYINT", byte), ("SMALLINT", short), ("INT2", short),
   ("INT", int), ("INTEGER", int), ("INT4", int), ("BIGINT", long), ("INT8", long), ("REAL", float),
   ("FLOAT", float), ("FLOAT4", float), ("DOUBLE", double), ("DOUBLE PRECISION", double),
   ("FLOAT8", double), ("DECIMAL", decimal), ("NUMERIC", decimal), ("VARCHAR", string),
   ("CHARACTER VARYING", string), ("TEXT", string), ("CHAR", char), ("CHARACTER", char),
   ("BPCHAR", char), ("UUID", uuid), ("DATE", date), ("TIME", time), ("TIMESTAMP", timestamp),
   ("TIMESTAMPTZ", timestamp), ("DATETIME", timestamp), ("BYTEA", binary), ("BINARY", binary),
   ("VARBINARY", binary), ("BLOB", binary), ("ENUM", enum), ("GEOMETRY", geometry), ("NULL", null)]

/-- The type called `name`, blanks around it ignored: one of `edmNames` as it stands, or one of
`sqlNames` in any case. -/
def ofName? (name : String) : Option DataType :=
  let trimmed := Text.trim name.toList
  match edmNames.lookup (String.ofList trimmed) with
  | some t => some t
  | none => sqlNames.lookup (String.ofList (Text.upper trimmed))

/-- The name of `DataType` in the entity data model, which does not tell the two textual types
apart. -/
def edmName : DataType → String
  | boolean => "Edm.Boolean"
  | byte => "Edm.Byte"
  | short => "Edm.Int16"
  | int => "Edm.Int32"
  | long => "Edm.Int64"
  | float => "Edm.Single"
  | double => "Edm.Double"
  | decimal => "Edm.Decimal"
  | string | char => "Edm.String"
  | uuid => "Edm.Guid"
  | date => "Edm.Date"
  | time => "Edm.TimeOfDay"
  | timestamp => "Edm.DateTimeOffset"
  | binary => "Edm.Binary"
  | enum => "Edm.Enum"
  | geometry => "Edm.Geometry"
  | null => "Edm.Null"

instance : ToString DataType :=
  ⟨edmName⟩

/-- The name of a type where a `CAST` of the dialect names one. -/
def sqlName : Dialect → DataType → String
  | _, boolean => "BOOLEAN"
  | .postgres, byte => "SMALLINT"
  | .mysql, byte => "TINYINT UNSIGNED"
  | _, short => "SMALLINT"
  | .postgres, int => "INTEGER"
  | .mysql, int => "INT"
  | _, long => "BIGINT"
  | .postgres, float => "REAL"
  | .mysql, float => "FLOAT"
  | .postgres, double => "DOUBLE PRECISION"
  | .mysql, double => "DOUBLE"
  | _, decimal => "DECIMAL"
  | .postgres, string => "VARCHAR"
  | .mysql, string => "CHAR"
  | _, char => "CHAR"
  | .postgres, uuid => "UUID"
  | .mysql, uuid => "CHAR(36)"
  | _, date => "DATE"
  | _, time => "TIME"
  | .postgres, timestamp => "TIMESTAMP WITH TIME ZONE"
  | .mysql, timestamp => "DATETIME"
  | .postgres, binary => "BYTEA"
  | .mysql, binary => "BINARY"
  | .postgres, enum => "VARCHAR"
  | .mysql, enum => "CHAR"
  | _, geometry => "GEOMETRY"
  | _, null => "NULL"

/-- Whether a length in brackets may follow the name of the type. -/
def hasLength : Dialect → DataType → Bool
  | _, string | _, char => true
  | .mysql, binary => true
  | _, _ => false

/-- The name of `t` with its length in brackets, where one is given and `hasLength` allows it. -/
def sqlNameOfLength (d : Dialect) (t : DataType) (length : Option Nat) : String :=
  match length with
  | some n => if t.hasLength d then t.sqlName d ++ "(" ++ toString n ++ ")" else t.sqlName d
  | none => t.sqlName d

/-! ### Families

The numeric types are those with a rank; a wider one has the higher rank. All of `isNumeric`,
`isIntegral` and `isTextual` decide by the type alone. -/

/-- The place of a type on the ladder of numeric types. -/
def rank? : DataType → Option Nat
  | byte => some 1
  | short => some 2
  | int => some 3
  | long => some 4
  | decimal => some 5
  | float => some 6
  | double => some 7
  | _ => none

def isNumeric (t : DataType) : Bool :=
  t.rank?.isSome

def isIntegral (t : DataType) : Bool :=
  t == byte || t == short || t == int || t == long

def isTextual (t : DataType) : Bool :=
  t == string || t == char

/-- The type of an arithmetic result of `a` and `b`: the higher of the two on the ladder, and a
short in place of a byte. -/
def widen? (a b : DataType) : Option DataType :=
  match a.rank?, b.rank? with
  | some l, some r =>
      let wider := if r ≤ l then a else b
      some (if wider = byte then short else wider)
  | _, _ => none

/-- Pairs of different families whose values may be compared: enum members, identifiers and
strings, and days and instants. -/
def crossComparable : DataType → DataType → Bool
  | enum, string | uuid, string | date, timestamp => true
  | _, _ => false

/-- Whether values of the types `a` and `b` may be compared. `crossComparable` is asked in both
directions, so the answer does not depend on the order. -/
def comparable (a b : DataType) : Bool :=
  a == b || a == null || b == null ||
    (a.isNumeric && b.isNumeric) || (a.isTextual && b.isTextual) ||
    crossComparable a b || crossComparable b a

theorem comparable_comm (a b : DataType) : comparable a b = comparable b a := by
  cases a <;> cases b <;> decide

end DataType

end FilterSql
