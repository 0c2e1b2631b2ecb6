import FilterSql.Compile.Compiled

/-!
# Coercion of literals

The value that a literal means. Beside an operand of a known type `Schema.coerce` reads it as a
value of that type, within the limits of its declaration, and refuses it if it is none; nothing is
rounded, cut or wrapped around. On its own it is read by `Literal.alone`, as its form says. The
literal `null` is null beside any type. `Schema.operand` puts any compiled expression into the
place of a value, for which a literal has to be coerced.
-/

namespace FilterSql

open scoped Power

open Calendar (Date Time Timestamp)
open Sql (Expr)

/-! ### Readers

Each type has a reader for the text of its literals. They differ in what they take, and agree in
how they blame a text. -/

namespace Literal

/-- Blames the literal `value` for not being of this `type`. -/
def refuse {α : Type} (value : String) (type : DataType) (fault : ValueFault) :
    Except FilterError α :=
  .error (.invalidValue value (toString type) fault)

/-- Runs the reader `read` on the text of a literal and passes its fault on as one of the type. -/
def readAs {ε α : Type} (text : String) (type : DataType) (fault : ε → ValueFault)
    (read : String → Except ε α) : Except FilterError α :=
  match read text with
  | .ok v => .ok v
  | .error e => refuse text type (fault e)

def readBoolean (text : String) : Except FilterError Value :=
  if text = "true" then .ok (.boolean true)
  else if text = "false" then .ok (.boolean false)
  else refuse text .boolean .notBoolean

/-- Reads a whole number between two bounds. -/
def readInteger (text : String) (type : DataType) (low high : Int) (make : Int → Value) :
    Except FilterError Value :=
  match Text.int? text.toList with
  | .ok n => if low ≤ n ∧ n ≤ high then .ok (make n) else refuse text type .outOfRange
  | .error _ => refuse text type .outOfRange

def readFloat (text : String) : Except FilterError Value :=
  match Binary64.read? text with
  | some x => .ok (.float x)
  | none => refuse text .double .notFinite

def readDecimal (text : String) : Except FilterError Decimal :=
  readAs text .decimal .decimal Decimal.read?

def readUuid (text : String) : Except FilterError Value := do
  return .uuid (← readAs text .uuid .uuid Uuid.read?)

def readDate (text : String) : Except FilterError Date :=
  readAs text .date .calendar Date.read?

def readTime (text : String) : Except FilterError Value := do
  return .time (← readAs text .time .calendar Time.read?)

def readTimestamp (text : String) : Except FilterError Value := do
  return .timestamp (← readAs text .timestamp .calendar Timestamp.read?)

end Literal

/-! ### Limits of decimals

A declaration may limit the digits of a decimal in all and those behind the point. How many a
number has depends on its spelling, since only some of its zeros are left out. -/

namespace Decimal

/-- Removes zeros of `n` at the end of the places behind the point, but not its only digit. -/
def trimPlaces (n : Nat) (scale : Int) : Nat × Int :=
  if _h : 0 < scale ∧ 10 ≤ n ∧ n % 10 = 0 then trimPlaces (n / 10) (scale - 1) else (n, scale)
termination_by n
decreasing_by omega

/-- The numbers of digits that a column needs for `d`, in all and behind the point. They are
counted in words of 64 bits with a sign. -/
def extent (d : Decimal) : Int × Int :=
  let (n, scale) := trimPlaces d.unscaled.natAbs d.scale
  let count : Int := (Text.digits n).length
  (if scale < 0 then (count - scale).bmod (2 ^ (64 : Nat)) else max count scale, max scale 0)

/-- What keeps `d` out of a column with these `limits`. -/
def excess? (d : Decimal) (limits : Facets) : Option ValueFault :=
  let (count, places) := d.extent
  let tooManyPlaces := limits.scale.bind fun most =>
    if (most : Int) < places then some most else none
  let tooManyDigits := limits.precision.bind fun most =>
    let allowed : Int := match limits.scale with
      | some s => most - s + places
      | none => most
    if allowed < count then some most else none
  match tooManyPlaces, tooManyDigits with
  | some most, _ => some (.tooManyPlaces most)
  | none, some most => some (.tooManyDigits most)
  | none, none => none

end Decimal

/-! ### Coercion

`coerceTo` is one case for each type. The kinds of literals that a type takes are listed there, and
the others are refused as `doesNotConvert`. -/

/-- The type that the kind of a literal shows. -/
def LiteralKind.dataType : LiteralKind → DataType
  | null => .null
  | boolean => .boolean
  | integer => .long
  | decimal => .decimal
  | double => .double
  | string => .string
  | date => .date
  | timeOfDay => .time
  | dateTimeOffset => .timestamp
  | guid => .uuid

def LiteralKind.isNumeric (k : LiteralKind) : Bool :=
  k == integer || k == decimal || k == double

namespace Literal

/-- The value that the form of `l` shows. A whole number takes the first of three types that holds
it. -/
def alone (l : Literal) : Except FilterError Value :=
  match l.kind with
  | .null => .ok .null
  | .boolean => readBoolean l.text
  | .integer =>
      match Text.intOfBits? 64 l.text.toList with
      | .ok n => .ok (if -(2 ^ (31 : Nat)) ≤ n ∧ n < 2 ^ (31 : Nat) then .int n else .long n)
      | .error _ => do return .decimal (← readDecimal l.text)
  | .decimal => do return .decimal (← readDecimal l.text)
  | .double => readFloat l.text
  | .string => .ok (.string l.text)
  | .date => do return .date (← readDate l.text)
  | .timeOfDay => readTime l.text
  | .dateTimeOffset => readTimestamp l.text
  | .guid => readUuid l.text

end Literal

/-- The value of a member of the enum type `t`, as it is stored. -/
def EnumType.value (t : EnumType) (member : String) : Except FilterError Value :=
  let unknown := .error (.invalidValue member t.name (.noSuchMember t.name))
  match t.storage with
  | .name => if t.hasMember member then .ok (.enum t.name member) else unknown
  | .ordinal =>
      match t.ordinal? member with
      | some n => .ok (.long n)
      | none => unknown

namespace Schema

/-- The value of `l` as one of this `type`, which is not null. -/
def coerceTo (s : Schema) (l : Literal) (type : ValueType) : Except FilterError Value :=
  let target := type.dataType
  let ofKinds (kinds : List LiteralKind) (read : Except FilterError Value) :
    Except FilterError Value :=
    if l.kind ∈ kinds then read else Literal.refuse l.written target (.doesNotConvert l.kind)
  match target with
  | .boolean => ofKinds [.boolean] (Literal.readBoolean l.text)
  | .byte => ofKinds [.integer] (Literal.readInteger l.text target 0 255 .short)
  | .short =>
      ofKinds [.integer] (Literal.readInteger l.text target (-2 ^ (15 : Nat))
        (2 ^ (15 : Nat) - 1) .short)
  | .int =>
      ofKinds [.integer] (Literal.readInteger l.text target (-2 ^ (31 : Nat))
        (2 ^ (31 : Nat) - 1) .int)
  | .long =>
      ofKinds [.integer] (Literal.readInteger l.text target (-2 ^ (63 : Nat))
        (2 ^ (63 : Nat) - 1) .long)
  | .float | .double => ofKinds [.integer, .decimal, .double] (Literal.readFloat l.text)
  | .decimal => ofKinds [.integer, .decimal, .double] do
      let d ← Literal.readDecimal l.text
      match d.excess? type.facets with
      | some fault => Literal.refuse l.text .decimal fault
      | none => return .decimal d
  | .string | .char => ofKinds [.string] <|
      match type.facets.maxLength with
      | some most =>
          if most < l.text.length then Literal.refuse l.text target (.tooLong most)
          else .ok (.string l.text)
      | none => .ok (.string l.text)
  | .uuid => ofKinds [.guid, .string] (Literal.readUuid l.text)
  | .date => ofKinds [.date, .string] do return .date (← Literal.readDate l.text)
  | .time => ofKinds [.timeOfDay, .string] (Literal.readTime l.text)
  | .timestamp =>
      if l.kind = .date then do return .timestamp ⟨← Literal.readDate l.text, Time.midnight⟩
      else ofKinds [.dateTimeOffset, .string] (Literal.readTimestamp l.text)
  | .enum => ofKinds [.string] <|
      match type.enumType.bind s.enumType? with
      | some t => t.value l.text
      | none => Literal.refuse l.text target .enumTypeMissing
  | .binary | .geometry => .error (.notSupported (.literalOf target))
  | .null => l.alone

/-- The value of `l` beside an operand of the type `beside`, if there is one. -/
def coerce (s : Schema) (l : Literal) (beside : Option ValueType) : Except FilterError Value :=
  if l.isNull then .ok .null
  else match beside with
    | some type => if type.dataType = .null then l.alone else s.coerceTo l type
    | none => l.alone

/-- The value of a member of an enum type, which has to be that of the operand `beside` it if that
has one. -/
def coerceMember (s : Schema) (type member : String) (beside : Option ValueType) :
    Except FilterError (Value × ValueType) := do
  let written := type ++ marked member
  let declared ← match s.enumType? type with
    | some t => pure t
    | none => throw (.invalidValue written type .unknownEnumType)
  if let some expected := beside.bind (·.enumType) then
    let expected := s.enumName expected
    if expected ≠ declared.name then
      throw (.invalidValue written expected (.otherEnumType expected))
  return (← declared.value member, .enumeration declared.name)

/-- Puts `c` into the place of a value. A literal is read as one beside an operand of the type
`beside`. -/
def operand (s : Schema) (c : Compiled) (beside : Option ValueType) : Except FilterError Operand :=
  match c with
  | .literal l =>
      if l.isNull then .ok ⟨.constant .null, beside.getD (.of .null), true⟩
      else do
        let v ← s.coerce l beside
        return ⟨.parameter v, (beside.filter (·.dataType ≠ .null)).getD (.of v.dataType), false⟩
  | .value e type => .ok ⟨e, type, false⟩
  | .member e path => .ok ⟨e, path.type, false⟩
  | .predicate e | .subquery e => .ok ⟨e, .of .boolean, false⟩
  | .typeName t => .error (.notSupported (.typeAsValue t))

end Schema

end FilterSql
