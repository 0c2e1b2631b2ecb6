/-!
# JSON documents

The tree of a JSON document. An object keeps its members in the order written, repeated names
included, because a reader of records refuses a field that is given twice. A number is an integer,
or keeps its text when it is written with a fraction or an exponent. The escapes in a string may
name halves of characters that make no text: such a string may stand where a document is not looked
at, so `Json.illFormed` has a place in the tree, but nothing can be made of it. Readers of records
are put together of `Json.members?` with `Json.required`, `Json.orElse` and `Json.optional`.
-/

namespace FilterSql

/-- A JSON value. -/
inductive Json where
  | null
  | bool (value : Bool)
  | int (value : Int)
  /-- A number written with a fraction or an exponent, and also minus zero. -/
  | real (text : String)
  | string (value : String)
  | array (items : List Json)
  | object (fields : List (String × Json))
  /-- A string that is no text, or an object with a name that is none. -/
  | illFormed
deriving Inhabited

namespace Json

/-- The text of a `string`, `none` for any other value. -/
def string? : Json → Option String
  | .string s => some s
  | _ => none

/-- The truth value of a `bool`, `none` for any other value. -/
def bool? : Json → Option Bool
  | .bool b => some b
  | _ => none

/-- An integer from `low` to `high`, ends included. -/
def intBetween? (low high : Int) : Json → Option Int
  | .int n => if low ≤ n ∧ n ≤ high then some n else none
  | _ => none

/-- An integer that 32 bits without a sign can hold, `none` for any other value. -/
def nat32? (j : Json) : Option Nat :=
  (j.intBetween? 0 4294967295).map Int.toNat

/-- An integer that 64 bits with a sign can hold, `none` for any other value. -/
def int64? : Json → Option Int :=
  intBetween? (-9223372036854775808) 9223372036854775807

/-- The items of an array, each read by `item`. One that `item` refuses makes the whole array
fail. -/
def list? (item : Json → Option α) : Json → Option (List α)
  | .array items => items.mapM item
  | _ => none

/-- What `value` reads, or none for `null`. Something else that `value` refuses is a failure. -/
def nullable? (value : Json → Option α) : Json → Option (Option α)
  | .null => some none
  | j => (value j).map some

/-- The document of a value that may be missing, which `null` stands for. -/
def ofOption (value : α → Json) : Option α → Json
  | none => .null
  | some a => value a

/-- The only member of an object that has exactly one, or a bare word: the forms in which a value
of one of several kinds is written. A bare word is a kind without content, so its content is
`none`. -/
def tagged? : Json → Option (String × Option Json)
  | .string tag => some (tag, none)
  | .object [(tag, content)] => some (tag, some content)
  | _ => none

/-- A kind without content: a bare word, or the word with `null` for its content. `tagged?` tells
the two apart. -/
def unit? (j : Json) : Option String :=
  match j.tagged? with
  | some (tag, none) | some (tag, some .null) => some tag
  | _ => none

mutual

/-- How deep arrays and objects are nested, `0` for a value that is neither. -/
def depth : Json → Nat
  | .array items => depthOfItems items + 1
  | .object fields => depthOfFields fields + 1
  | _ => 0

def depthOfItems : List Json → Nat
  | [] => 0
  | j :: js => max j.depth (depthOfItems js)

def depthOfFields : List (String × Json) → Nat
  | [] => 0
  | (_, j) :: fs => max j.depth (depthOfFields fs)

end

/-! ### Records

The fields of a record are looked up by name. A field that is absent is told from one that is
`null`, and each kind of field says what it makes of either. -/

/-- The fields of a record by name, `none` for an absent one. Unknown names are ignored; one of
`names` may not be repeated. -/
def members? (names : List String) : Json → Option (String → Option Json)
  | .object fields =>
      if names.all fun n => fields.countP (·.1 == n) ≤ 1 then some fun n => fields.lookup n
      else none
  | _ => none

/-- The fields of a record that may also be an array, which gives them in the order of `names`. -/
def record? (names : List String) : Json → Option (String → Option Json)
  | .array items =>
      if items.length ≤ names.length then some fun n => (names.zip items).lookup n
      else none
  | j => j.members? names

/-- A field that must be present, and be a value that `value` takes. -/
def required (value : Json → Option α) (field : Option Json) : Option α :=
  field.bind value

/-- A field that may be absent, which then has the value `default`. -/
def orElse (default : α) (value : Json → Option α) : Option Json → Option α
  | none => some default
  | some j => value j

/-- A field that may be absent or `null`, both of which stand for none. -/
def optional (value : Json → Option α) : Option Json → Option (Option α) :=
  orElse none (nullable? value)

end Json

end FilterSql
