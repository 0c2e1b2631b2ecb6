import FilterSql.Text.Digits

/-!
# Universally unique identifiers

An identifier is 128 bits, written as five groups of hexadecimal digits with hyphens between them.
`Uuid.read?` takes that form, that form in braces or behind `urn:uuid:`, and the digits alone. A
text that is none of these is blamed by `Uuid.blame` for its first wrong character, else for its
length, its number of groups or the first group of the wrong length.
-/

namespace FilterSql

open scoped Power

structure Uuid where
  bits : BitVec 128
deriving DecidableEq

namespace Uuid

instance : Inhabited Uuid :=
  ⟨⟨0⟩⟩

/-! ### Writing

Digits are written in lower case, in the groups of `groupLengths`. -/

def hexChar (n : Nat) : Char :=
  if n < 10 then Char.ofNat (48 + n) else Char.ofNat (87 + n)

/-- The thirty-two digits of `u`, in lower case. -/
def hexDigits (u : Uuid) : List Char :=
  (List.range 32).map fun i => hexChar (u.bits.toNat / 16 ^ (31 - i) % 16)

/-- The lengths of the five groups. -/
def groupLengths : List Nat := [8, 4, 4, 4, 12]

def chars (u : Uuid) : List Char :=
  let d := u.hexDigits
  d.take 8 ++ '-' :: (d.drop 8).take 4 ++ '-' :: (d.drop 12).take 4 ++
    '-' :: (d.drop 16).take 4 ++ '-' :: d.drop 20

instance : ToString Uuid :=
  ⟨fun u => String.ofList u.chars⟩

/-! ### Reading

`simple?` and `hyphenated?` read the two plain forms, `unbraced?` and `unprefixed?` take off what
may stand around the latter. The length in bytes decides which of them are tried. -/

/-- Why a text is not an identifier. Groups are counted from zero, and offsets are in bytes. -/
inductive Fault where
  | length (found : Nat)
  | character (found : Char) (offset : Nat)
  | groupCount (found : Nat)
  | groupLength (group expected found : Nat)
deriving DecidableEq, Repr

def Fault.message : Fault → String
  | .length found => "invalid length: found " ++ toString found
  | .character found offset =>
      "invalid character: found `" ++ found.toString ++ "` at " ++ toString offset
  | .groupCount found => "invalid group count: expected 5, found " ++ toString found
  | .groupLength group expected found =>
      "invalid group length in group " ++ toString group ++ ": expected " ++ toString expected ++
        ", found " ++ toString found

def hexValue? (c : Char) : Option Nat :=
  if c.isDigit then some (c.toNat - 48)
  else if 'a' ≤ c ∧ c ≤ 'f' then some (c.toNat - 87)
  else if 'A' ≤ c ∧ c ≤ 'F' then some (c.toNat - 55)
  else none

/-- The number that a row of hexadecimal digits writes. -/
def ofHex? (s : List Char) : Option Nat :=
  s.foldlM (fun n c => (hexValue? c).map (n * 16 + ·)) 0

/-- Reads thirty-two digits. -/
def simple? (s : List Char) : Option Uuid :=
  if s.length = 32 then (ofHex? s).map fun n => ⟨BitVec.ofNat 128 n⟩ else none

/-- Reads five groups with hyphens between them. -/
def hyphenated? (s : List Char) : Option Uuid :=
  if s.length = 36 ∧ s[8]? = some '-' ∧ s[13]? = some '-' ∧ s[18]? = some '-' ∧
    s[23]? = some '-' then
    simple? (s.take 8 ++ (s.drop 9).take 4 ++ (s.drop 14).take 4 ++ (s.drop 19).take 4 ++ s.drop 24)
  else none

/-- The text without the braces around it, if it has them. -/
def unbraced? : List Char → Option (List Char)
  | '\x7b' :: r => if r.getLast? = some '\x7d' then some r.dropLast else none
  | _ => none

/-- The text without `urn:uuid:` in front, in any case of its letters. -/
def unprefixed? (s : List Char) : Option (List Char) :=
  if (s.take 9).map Char.toLower = "urn:uuid:".toList then some (s.drop 9) else none

/-- The first character that may not occur in an identifier, with its offset in bytes. -/
def wrongCharacter? (offset : Nat) : List Char → Option (Char × Nat)
  | [] => none
  | c :: cs =>
      if c == '-' || (hexValue? c).isSome then wrongCharacter? (offset + c.utf8Size) cs
      else some (c, offset)

/-- The positions of the hyphens, counted from `position`. -/
def hyphens (position : Nat) : List Char → List Nat
  | [] => []
  | c :: cs => if c = '-' then position :: hyphens (position + 1) cs else hyphens (position + 1) cs

/-- The fault of the first of four groups whose hyphen is not where it belongs. -/
def wrongGroup? (group start : Nat) : List Nat → List Nat → Option Fault
  | hyphen :: hyphens, length :: lengths =>
      if hyphen = start + length then wrongGroup? (group + 1) (hyphen + 1) hyphens lengths
      else some (.groupLength group length (hyphen - start))
  | _, _ => none

/-- The fault of the text `s` of `bytes` bytes, of which `offset` were in front of `s`. A text with
no hyphen is taken for the digits alone, if it `mayBeSimple`. -/
def blame (s : List Char) (bytes offset : Nat) (mayBeSimple : Bool) : Fault :=
  match wrongCharacter? offset s with
  | some (c, i) => .character c i
  | none =>
      let marks := hyphens 0 s
      if marks.isEmpty ∧ mayBeSimple then .length bytes
      else if marks.length ≠ 4 then .groupCount (marks.length + 1)
      else (wrongGroup? 0 0 marks groupLengths).getD (.groupLength 4 12 (bytes - 24))

def read? (text : String) : Except Fault Uuid :=
  let s := text.toList
  let bytes := text.utf8ByteSize
  if bytes = 0 ∨ 45 < bytes then .error (.length bytes)
  else
    let wrapped :=
      if bytes = 36 then some s
      else if bytes = 38 then unbraced? s
      else if bytes = 45 then unprefixed? s
      else none
    match wrapped with
    | some inner =>
        match hyphenated? inner with
        | some u => .ok u
        | none => .error (blame inner 36 0 false)
    | none =>
        match simple? s, unbraced? s, unprefixed? s with
        | some u, _, _ => .ok u
        | none, some inner, _ => .error (blame inner bytes 1 false)
        | none, none, some inner => .error (blame inner bytes 9 false)
        | none, none, none => .error (blame s bytes 0 true)

end Uuid

end FilterSql
