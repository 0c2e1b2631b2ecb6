import FilterSql.Filter.Basic
import FilterSql.Filter.SyntaxError
import FilterSql.Filter.Token

/-!
# The grammar of filters

Text to tree: `or` binds loosest, then `and`, comparisons, sums, products and the unary operators,
each binary level grouping to the left. Alternatives are tried in order and the first that fits is
kept. Blanks may stand between any two tokens.

Every function reads at the front of a text that has no blanks in front, and returns a `Parsed`
value with what is left of the text, beside the notes on the rules it has attempted. The values do
not depend on the notes; they serve the error message alone. The recursion ends by the length of
the text and, where nothing has been taken from it, by the `Level.rank` of the level.
-/

namespace FilterSql

open Text (Rest)

namespace Grammar

/-! ### Results of reading

`Parsed` is for what takes at least one character and `Tail` for what may be absent. The
combinators put two steps together in a value and its notes at once. -/

/-- The outcome of reading something that takes at least one character, with the rules that were
tried. -/
structure Parsed (s : List Char) (α : Type) where
  value : Option (α × Rest s)
  attempts : List Attempt

/-- The outcome of reading something that may be absent, which never fails. -/
structure Tail (s : List Char) (α : Type) where
  value : α
  rest : { r : List Char // r.length ≤ s.length }
  attempts : List Attempt

/-- The text behind `q` without the blanks in front. -/
def skip {s : List Char} (q : Rest s) : Rest s :=
  q.dropWhile Token.isSpace

namespace Parsed

variable {s : List Char} {α β : Type}

/-- The outcome of what no rule is named for, so that nothing is noted. -/
def plain (value : Option (α × Rest s)) : Parsed s α :=
  ⟨value, []⟩

/-- A `rule` without other rules inside. -/
def token (rule : Rule) (value : Option (α × Rest s)) : Parsed s α :=
  ⟨value, [.mk rule s value.isNone []]⟩

/-- A `rule` with what is read inside it by `p`. -/
def within (rule : Rule) (p : Parsed s α) : Parsed s α :=
  ⟨p.value, [.mk rule s p.value.isNone p.attempts]⟩

def map (f : α → β) (p : Parsed s α) : Parsed s β :=
  ⟨p.value.map fun (a, q) => (f a, q), p.attempts⟩

/-- Reads `p` and what `k` reads directly behind it. -/
def before (p : Parsed s α) (k : α → (q : Rest s) → Parsed q.1 β) : Parsed s β :=
  match p.value with
  | none => ⟨none, p.attempts⟩
  | some (a, q) =>
      let r := k a q
      ⟨r.value.map fun (b, w) => (b, q.trans w), p.attempts ++ r.attempts⟩

/-- Reads `p` and what `k` reads behind it, with blanks between them. -/
def andThen (p : Parsed s α) (k : α → (q : Rest s) → Parsed q.1 β) : Parsed s β :=
  p.before fun a q =>
    let r := k a (skip q)
    ⟨r.value.map fun (b, w) =>
      (b, w.widen (List.dropWhile_suffix Token.isSpace).length_le), r.attempts⟩

/-- Reads `p` and, behind blanks, what `k` reads, which may be absent. -/
def andTail (p : Parsed s α) (k : α → (q : Rest s) → Tail q.1 β) : Parsed s β :=
  match p.value with
  | none => ⟨none, p.attempts⟩
  | some (a, q) =>
      let t := k a (skip q)
      ⟨some (t.value, ⟨t.rest.1, Nat.lt_of_le_of_lt t.rest.2 (skip q).2⟩), p.attempts ++ t.attempts⟩

/-- Reads `p`, or else `q`. The notes of a first alternative that failed are kept. -/
def orElse (p : Parsed s α) (q : Unit → Parsed s α) : Parsed s α :=
  match p.value with
  | some _ => p
  | none =>
      let r := q ()
      ⟨r.value, p.attempts ++ r.attempts⟩

/-- Reads `p` if that is possible; else the value is `absent` and nothing is taken. -/
def getD (p : Parsed s α) (absent : α) : Tail s α :=
  match p.value with
  | some (a, q) => ⟨a, ⟨q.1, Nat.le_of_lt q.2⟩, p.attempts⟩
  | none => ⟨absent, ⟨s, Nat.le_refl _⟩, p.attempts⟩

end Parsed

def Tail.map {s : List Char} {α β : Type} (f : α → β) (t : Tail s α) : Tail s β :=
  ⟨f t.value, t.rest, t.attempts⟩

open Parsed (plain token within)

/-! ### Levels of binary operators

The five levels are one definition with a parameter, which `binary` reads. They differ in the words
of their operators and in the rules that a message names. -/

inductive Level where
  | or | and | comparison | additive | multiplicative
deriving DecidableEq, Repr

namespace Level

/-- The level that binds next more tightly, `none` behind the last one, where the unary operators
are. -/
def tighter? : Level → Option Level
  | or => some and
  | and => some comparison
  | comparison => some additive
  | additive => some multiplicative
  | multiplicative => none

/-- How many levels bind at least as tightly as this one, itself among them. -/
def rank : Level → Nat
  | or => 5
  | and => 4
  | comparison => 3
  | additive => 2
  | multiplicative => 1

theorem rank_tighter {l m : Level} (h : l.tighter? = some m) : m.rank < l.rank := by
  cases l <;> cases h <;> decide

def rule : Level → Rule
  | or => .logicalOr
  | and => .logicalAnd
  | comparison => .comparison
  | additive => .additive
  | multiplicative => .multiplicative

def wordRule : Level → Rule
  | or => .orWord
  | and => .andWord
  | comparison => .comparisonWord
  | additive => .additiveWord
  | multiplicative => .multiplicativeWord

def words : Level → Token.Pattern
  | or => Token.orWord
  | and => Token.andWord
  | comparison => Token.comparisonWord
  | additive => Token.additiveWord
  | multiplicative => Token.multiplicativeWord

end Level

/-- Reads an operator of the level `l`. -/
def operator (l : Level) (s : List Char) : Parsed s BinaryOperator :=
  token l.wordRule <|
    (Token.read? l.words s).bind fun (w, q) => (BinaryOperator.ofWord? w).map (·, q)

/-! ### Leaves

What is read without recursion. The order of the alternatives in `literal` matters where one form
is the beginning of another. -/

/-- Reads a token that is a literal of this `kind`. -/
def literalOf (rule : Rule) (kind : LiteralKind) (p : Token.Pattern) (s : List Char) :
    Parsed s Filter :=
  (token rule (Token.read? p s)).map fun text => .literal ⟨text, kind⟩

/-- Reads a `Filter.enumMember`: a name and a string with nothing between them. -/
def enumMember (s : List Char) : Parsed s Filter :=
  within .enumMember <|
    (token .qualifiedName (Token.read? Token.qualifiedName s)).before fun type q =>
      (token .string (Token.string? q.1)).map fun member => .enumMember type member

/-- Reads a literal of any kind, or a member of an enum type. -/
def literal (s : List Char) : Parsed s Filter :=
  ((token .null (Token.read? Token.null s)).map fun _ => Filter.literal .null)
  |>.orElse fun _ => literalOf .boolean .boolean Token.boolean s
  |>.orElse fun _ => literalOf .dateTimeOffset .dateTimeOffset Token.dateTimeOffset s
  |>.orElse fun _ => literalOf .date .date Token.date s
  |>.orElse fun _ => literalOf .timeOfDay .timeOfDay Token.timeOfDay s
  |>.orElse fun _ => literalOf .guid .guid Token.guid s
  |>.orElse fun _ => literalOf .double .double Token.double s
  |>.orElse fun _ => literalOf .decimal .decimal Token.decimal s
  |>.orElse fun _ => literalOf .integer .integer Token.integer s
  |>.orElse fun _ => ((token .string (Token.string? s)).map fun text => .literal ⟨text, .string⟩)
  |>.orElse fun _ => enumMember s

/-- Reads a `Filter.typeName`, which has a point in it. -/
def typeName (s : List Char) : Parsed s Filter :=
  (token .typeName (Token.read? Token.typeName s)).map .typeName

/-- Reads a `Filter.parameterAlias`. The `@` in front is not part of its name. -/
def parameterAlias (s : List Char) : Parsed s Filter :=
  (token .parameterAlias (Token.read? Token.parameterAlias s)).map fun text =>
    .parameterAlias (String.ofList text.toList.tail)

/-- The filter for a call: of a built-in function if it has that `name` and no argument is named,
else a path of one segment. -/
def callOf (name : String) (arguments : List Argument) : Filter :=
  match BuiltIn.ofWord? name, arguments.all (·.name.isNone) with
  | some f, true => .call f (arguments.map (·.value))
  | _, _ => .member [.function name arguments]

/-! ### The recursion

All readers of this section call each other. Those that take no character first come with a smaller
second component of their measure. -/

mutual

def expression (s : List Char) : Parsed s Filter :=
  within .expression (binary .or s)
termination_by (s.length, 7 + 2 * Level.or.rank)

/-- Reads operands of the next level with operators of the level `l` between them. -/
def binary (l : Level) (s : List Char) : Parsed s Filter :=
  within l.rule <| (operand l s).andTail fun left q => binaryTail l left q.1
termination_by (s.length, 6 + 2 * l.rank)

/-- Reads an operand of the level `l`. -/
def operand (l : Level) (s : List Char) : Parsed s Filter :=
  match h : l.tighter? with
  | some m =>
      have := Level.rank_tighter h
      binary m s
  | none => unary s
termination_by (s.length, 5 + 2 * l.rank)

/-- Reads the operators of the level `l` that follow the operand `left`, each with its right
operand. -/
def binaryTail (l : Level) (left : Filter) (s : List Char) : Tail s Filter :=
  let next := (operator l s).andThen fun op q => (operand l q.1).map (op, ·)
  match next.value with
  | none => ⟨left, ⟨s, Nat.le_refl _⟩, next.attempts⟩
  | some ((op, right), q) =>
      have := (skip q).2
      let t := binaryTail l (.binary left op right) (skip q).1
      ⟨t.value, ⟨t.rest.1, Nat.le_trans t.rest.2 (Nat.le_of_lt (skip q).2)⟩,
        next.attempts ++ t.attempts⟩
termination_by (s.length, 0)

def unary (s : List Char) : Parsed s Filter :=
  within .unary (signs s)
termination_by (s.length, 4)

/-- Reads the unary operators in front of a `primary`, the innermost of which stands last. An
operator that has been read is kept, whatever follows. -/
def signs (s : List Char) : Parsed s Filter :=
  let sign : Parsed s UnaryOperator :=
    ((token .notWord (Token.read? Token.notWord s)).map fun _ => UnaryOperator.not)
    |>.orElse fun _ => (token .minusSign (Token.read? Token.minusSign s)).map fun _ => .minus
  match sign.value with
  | some _ => sign.andThen fun op q => (signs q.1).map (.unary op)
  | none =>
      let p := primary s
      ⟨p.value, sign.attempts ++ p.attempts⟩
termination_by (s.length, 3)

def primary (s : List Char) : Parsed s Filter :=
  ((plain (Token.char? '(' s)).andThen fun _ q => expression q.1).andThen
    (fun e q => (plain (Token.char? ')' q.1)).map fun _ => e)
  |>.orElse fun _ => literal s
  |>.orElse fun _ => call s
  |>.orElse fun _ => typeName s
  |>.orElse fun _ => parameterAlias s
  |>.orElse fun _ => member s
termination_by (s.length, 2)

/-- Reads a name and the `arguments` in brackets behind it. -/
def call (s : List Char) : Parsed s Filter :=
  within .call <|
    (((token .qualifiedName (Token.read? Token.qualifiedName s)).andThen fun name q =>
        (plain (Token.char? '(' q.1)).map fun _ => name).andTail fun name q =>
      (arguments q.1).map (name, ·)).andThen fun (name, args) q =>
    (plain (Token.char? ')' q.1)).map fun _ => callOf name args
termination_by (s.length, 1)

/-- Reads each `argument` up to the closing bracket, with commas between them, or none. -/
def arguments (s : List Char) : Tail s (List Argument) :=
  ((argument s).andTail fun a q => (moreArguments q.1).map (a :: ·)).getD []
termination_by (s.length, 9 + 2 * Level.or.rank)

def moreArguments (s : List Char) : Tail s (List Argument) :=
  (((plain (Token.char? ',' s)).andThen fun _ q => argument q.1).andTail fun a q =>
    (moreArguments q.1).map (a :: ·)).getD []
termination_by (s.length, 0)

/-- Reads an `expression`, which may have the name of a parameter and an equals sign in front. -/
def argument (s : List Char) : Parsed s Argument :=
  let named := (token .parameterName (Token.read? Token.name s)).andThen fun name q =>
    (plain (Token.char? '=' q.1)).map fun _ => name
  within .argument <|
    match named.value with
    | some _ => named.andThen fun name q => (expression q.1).map (.mk (some name))
    | none =>
        let e := expression s
        ⟨e.value.map fun (v, q) => (.mk none v, q), named.attempts ++ e.attempts⟩
termination_by (s.length, 8 + 2 * Level.or.rank)

/-- Reads each `segment` of a path, with slashes between them. -/
def member (s : List Char) : Parsed s Filter :=
  within .member <| ((segment s).andTail fun x q => (moreSegments q.1).map (x :: ·)).map .member
termination_by (s.length, 1)

def moreSegments (s : List Char) : Tail s (List Segment) :=
  (((plain (Token.char? '/' s)).andThen fun _ q => segment q.1).andTail fun x q =>
    (moreSegments q.1).map (x :: ·)).getD []
termination_by (s.length, 0)

def segment (s : List Char) : Parsed s Segment :=
  (within .any <|
    (((plain (Token.read? (Token.exactly "any") s)).andThen fun _ q =>
        plain (Token.char? '(' q.1)).andTail fun _ q =>
      (((token .boundName (Token.read? Token.name q.1)).andThen fun x q =>
          (plain (Token.char? ':' q.1)).map fun _ => x).andThen fun x q =>
        (expression q.1).map fun body => Segment.any x body).getD .nonempty).andThen fun x q =>
    (plain (Token.char? ')' q.1)).map fun _ => x)
  |>.orElse fun _ =>
    (within .all <|
      ((((plain (Token.read? (Token.exactly "all") s)).andThen fun _ q =>
          plain (Token.char? '(' q.1)).andThen fun _ q =>
        ((token .boundName (Token.read? Token.name q.1)).andThen fun x q =>
          (plain (Token.char? ':' q.1)).map fun _ => x)).andThen fun x q =>
        (expression q.1).map fun body => Segment.all x body).andThen fun x q =>
      (plain (Token.char? ')' q.1)).map fun _ => x)
  |>.orElse fun _ => ((token .count (Token.read? Token.countWord s)).map fun _ => Segment.count)
  |>.orElse fun _ => (token .property (Token.read? Token.name s)).map .property
termination_by (s.length, 0)

end

end Grammar

end FilterSql
