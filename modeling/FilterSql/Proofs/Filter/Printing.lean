import FilterSql.Filter.Grammar

/-!
# Printing filters

A filter is printed as a row of lexemes. An operand stands in brackets where the levels of the
operators would group it elsewhere, and an operand of a unary operator stands in brackets unless it
is unary itself. Any number of blanks may stand between lexemes, and next to the word of an
operator there must be one. So a filter has many printings (`Filter.Printed`), of which
`Filter.print` is the shortest.
-/

namespace FilterSql

open Token (isSpace)

/-! ## Lexemes

Printing is a relation between a row of lexemes and a text. It has nothing to do with the grammar
that reads the text. -/

/-- A token as it is printed, with what must stand beside it. -/
structure Lexeme where
  text : String
  /-- Whether there must be a blank in front of it. -/
  before : Bool := false
  /-- Whether there must be a blank behind it. -/
  behind : Bool := false
deriving DecidableEq, Repr

namespace Lexeme

/-- A punctuation mark, which needs no blank on either side. -/
def mark (c : Char) : Lexeme :=
  ⟨String.singleton c, false, false⟩

/-- The word of a `BinaryOperator`, with blanks around it. -/
def word (w : String) : Lexeme :=
  ⟨w, true, true⟩

/-- Rows of lexemes with the mark `c` between them. -/
def separated (c : Char) : List (List Lexeme) → List Lexeme
  | [] => []
  | first :: more => first ++ more.flatMap (mark c :: ·)

/-- The lexemes `ls`, in brackets if these are `needed`. -/
def bracketed (needed : Bool) (ls : List Lexeme) : List Lexeme :=
  if needed then mark '(' :: (ls ++ [mark ')']) else ls

/-- Whether a blank must stand between `l` and the lexemes behind it. -/
def apart (l : Lexeme) (ls : List Lexeme) : Bool :=
  l.behind || ls.head?.any (·.before)

/-- The shortest text of the lexemes, with blanks only between those that have to be `apart`. -/
def spread : List Lexeme → List Char
  | [] => []
  | l :: ls => l.text.toList ++ if l.apart ls then ' ' :: spread ls else spread ls

end Lexeme

open Lexeme (mark word separated bracketed)

/-- The texts of a row of lexemes: blanks stand where two of them have to be `apart`, and may stand
elsewhere. -/
inductive Laid : List Lexeme → List Char → Prop
  | done {blanks : List Char} (hblanks : ∀ c ∈ blanks, isSpace c) : Laid [] blanks
  | next {l : Lexeme} {ls : List Lexeme} {blanks s : List Char} (hblanks : ∀ c ∈ blanks, isSpace c)
      (hapart : l.apart ls → ∃ c ∈ s.head?, isSpace c) (hrest : Laid ls s) :
      Laid (l :: ls) (blanks ++ (l.text.toList ++ s))

namespace Laid

theorem blank {ls : List Lexeme} {s : List Char} {c : Char} (hc : isSpace c) (h : Laid ls s) :
    Laid ls (c :: s) := by
  cases h with
  | done hblanks => exact .done (List.forall_mem_cons.mpr ⟨hc, hblanks⟩)
  | next hblanks hapart hrest =>
      rw [← List.cons_append]
      exact .next (List.forall_mem_cons.mpr ⟨hc, hblanks⟩) hapart hrest

theorem spread : (ls : List Lexeme) → Laid ls (Lexeme.spread ls)
  | [] => .done (List.forall_mem_nil _)
  | l :: ls => by
      rw [Lexeme.spread]
      refine .next (List.forall_mem_nil _) (fun hapart => ?_) ?_
      · exact ⟨' ', by rw [if_pos hapart]; rfl, rfl⟩
      · split
        · exact blank rfl (spread ls)
        · exact spread ls

end Laid

/-! ## Filters

The lexemes of a filter, with brackets where they are needed. A printing is any text that `Laid`
allows for them, with blanks wherever these may stand, and `print` is the shortest one. -/

/-- The level of `Grammar` at which an operator is read. -/
def BinaryOperator.level : BinaryOperator → Grammar.Level
  | .or => .or
  | .and => .and
  | .compare _ | .has => .comparison
  | .arith .add | .arith .sub => .additive
  | .arith .mul | .arith .div | .arith .mod => .multiplicative

def UnaryOperator.lexeme : UnaryOperator → Lexeme
  | .not => ⟨"not", false, true⟩
  | .minus => mark '-'

namespace Filter

/-- How loosely a filter holds together: the `rank` of its operator's level, and zero if it is not
`binary`. -/
def rank : Filter → Nat
  | binary _ op _ => op.level.rank
  | _ => 0

def isUnary : Filter → Bool
  | unary .. => true
  | _ => false

end Filter

mutual

/-- The lexemes of a filter. An operand with a larger `rank` than the operator stands in brackets,
and so does a right one with an equal rank. -/
def Filter.lexemes : Filter → List Lexeme
  | .binary l op r =>
      bracketed (op.level.rank < l.rank) l.lexemes ++
        word op.word :: bracketed (op.level.rank ≤ r.rank) r.lexemes
  | .unary op operand => op.lexeme :: bracketed (!operand.isUnary) operand.lexemes
  | .member path => separated '/' (segmentLexemes path)
  | .literal l => [{ text := l.written }]
  | .enumMember type member => [{ text := type ++ Text.quote '\'' member }]
  | .call f args =>
      { text := f.word } :: mark '(' :: (separated ',' (operandLexemes args) ++ [mark ')'])
  | .typeName name => [{ text := name }]
  | .parameterAlias name => [{ text := "@" ++ name }]

def Segment.lexemes : Segment → List Lexeme
  | .property name => [{ text := name }]
  | .count => [{ text := "$count" }]
  | .nonempty => [{ text := "any" }, mark '(', mark ')']
  | .any x body =>
      { text := "any" } :: mark '(' :: { text := x } :: mark ':' :: (body.lexemes ++ [mark ')'])
  | .all x body =>
      { text := "all" } :: mark '(' :: { text := x } :: mark ':' :: (body.lexemes ++ [mark ')'])
  | .function name args =>
      { text := name } :: mark '(' :: (separated ',' (argumentLexemes args) ++ [mark ')'])

def Argument.lexemes : Argument → List Lexeme
  | .mk none value => value.lexemes
  | .mk (some name) value => { text := name } :: mark '=' :: value.lexemes

def segmentLexemes : List Segment → List (List Lexeme)
  | [] => []
  | x :: rest => x.lexemes :: segmentLexemes rest

def operandLexemes : List Filter → List (List Lexeme)
  | [] => []
  | f :: rest => f.lexemes :: operandLexemes rest

def argumentLexemes : List Argument → List (List Lexeme)
  | [] => []
  | a :: rest => a.lexemes :: argumentLexemes rest

end

@[simp] theorem segmentLexemes_eq (path : List Segment) :
    segmentLexemes path = path.map Segment.lexemes := by
  induction path with
  | nil => rw [segmentLexemes, List.map_nil]
  | cons x rest ih => rw [segmentLexemes, ih, List.map_cons]

@[simp] theorem operandLexemes_eq (fs : List Filter) :
    operandLexemes fs = fs.map Filter.lexemes := by
  induction fs with
  | nil => rw [operandLexemes, List.map_nil]
  | cons f rest ih => rw [operandLexemes, ih, List.map_cons]

@[simp] theorem argumentLexemes_eq (args : List Argument) :
    argumentLexemes args = args.map Argument.lexemes := by
  induction args with
  | nil => rw [argumentLexemes, List.map_nil]
  | cons a rest ih => rw [argumentLexemes, ih, List.map_cons]

namespace Filter

/-- `text` is a printing of the filter, with any blanks between its lexemes. -/
def Printed (f : Filter) (text : String) : Prop :=
  Laid f.lexemes text.toList

/-- The shortest printing of a filter, the `spread` of its lexemes. -/
def print (f : Filter) : String :=
  String.ofList (Lexeme.spread f.lexemes)

theorem printed_print (f : Filter) : f.Printed f.print := by
  rw [Printed, print, String.toList_ofList]
  exact Laid.spread f.lexemes

example : (Filter.binary (.binary (.member [.property "a"]) .or (.member [.property "b"])) .and
    (.unary .not (.literal ⟨"it's", .string⟩))).print = "(a or b) and not ('it''s')" := by
  decide +kernel

end Filter

end FilterSql
