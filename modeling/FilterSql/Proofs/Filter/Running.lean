import FilterSql.Filter.Reading
import FilterSql.Proofs.Filter.Tokens

/-!
# Runs of the grammar

The functions of the grammar return proofs that the text gets shorter, and notes for error
messages. `run` drops both and leaves what is read and the remaining text. Each function has an
equation for its run, in which blanks are skipped in front of all that follows something else.
Where an equation would repeat an alternative, the alternative has a name of its own (`operation`,
`sign`, `grouped`).
-/

namespace FilterSql

open Text (Rest)
open Token (skipSpace)

namespace Grammar

variable {s r t : List Char} {α β : Type}

/-! ## Combinators

`Parsed.run` and `Tail.run` forget the lengths and the notes of failures, and keep what is read.
Each combinator has an equation for its run in terms of those of its parts. -/

/-- What is read and the text that is left, without the proof that a `Rest` has with it. -/
def taken (v : Option (α × Rest s)) : Option (α × List Char) :=
  v.map fun (a, q) => (a, q.1)

def Parsed.run (p : Parsed s α) : Option (α × List Char) :=
  taken p.value

def Tail.run (t : Tail s α) : α × List Char :=
  (t.value, t.rest.1)

namespace Parsed

theorem run_plain (v : Option (α × Rest s)) : (plain v).run = taken v := rfl

theorem run_token (rule : Rule) (v : Option (α × Rest s)) : (token rule v).run = taken v := rfl

theorem run_within (rule : Rule) (p : Parsed s α) : (within rule p).run = p.run := rfl

theorem run_map (f : α → β) (p : Parsed s α) :
    (p.map f).run = p.run.map fun (a, r) => (f a, r) := by
  rw [run, run, map, taken, taken, Option.map_map, Option.map_map]
  rfl

theorem run_before (p : Parsed s α) (g : α → (t : List Char) → Parsed t β) :
    (p.before fun a q => g a q.1).run = p.run.bind fun (a, r) => (g a r).run := by
  rw [run, run, before]
  cases p.value with
  | none => rfl
  | some v =>
      show taken (Option.map _ _) = Option.bind (some _) _
      rw [Option.bind_some, taken, Option.map_map]
      rfl

theorem run_andThen (p : Parsed s α) (g : α → (t : List Char) → Parsed t β) :
    (p.andThen fun a q => g a q.1).run = p.run.bind fun (a, r) => (g a (skipSpace r)).run := by
  rw [run, run, andThen, before]
  cases p.value with
  | none => rfl
  | some v =>
      show taken (Option.map _ (Option.map _ _)) = Option.bind (some _) _
      rw [Option.bind_some, taken, Option.map_map, Option.map_map]
      rfl

theorem run_andTail (p : Parsed s α) (g : α → (t : List Char) → Tail t β) :
    (p.andTail fun a q => g a q.1).run = p.run.map fun (a, r) => (g a (skipSpace r)).run := by
  rw [run, run, andTail]
  cases p.value <;> rfl

theorem run_orElse (p : Parsed s α) (q : Unit → Parsed s α) :
    (p.orElse q).run = p.run.or (q ()).run := by
  rw [run, run, orElse]
  cases hp : p.value with
  | none => rfl
  | some v => rw [hp]; rfl

theorem run_getD (p : Parsed s α) (absent : α) : (p.getD absent).run = p.run.getD (absent, s) := by
  rw [run, getD]
  cases p.value <;> rfl

end Parsed

open Parsed (run_plain run_token run_within run_map run_before run_andThen run_andTail
  run_orElse run_getD)

/-! ## Tokens

`tokenAt` matches a pattern at the front of a text, and `behind` a single character. Both give the
text that is left. -/

/-- The token that the pattern `p` matches at the front of a text, and the text behind it. -/
def tokenAt (p : Token.Pattern) (s : List Char) : Option (String × List Char) :=
  taken (Token.read? p s)

/-- The text behind the character `c`, if it stands at the front. -/
def behind (c : Char) : List Char → Option (List Char)
  | d :: r => if d = c then some r else none
  | [] => none

theorem taken_char (c : Char) (s : List Char) :
    taken (Token.char? c s) = (behind c s).map ((), ·) := by
  cases s with
  | nil => rfl
  | cons d r =>
      rw [Token.char?, behind]
      split <;> rfl

/-! ## Functions

One equation for each function of the grammar, in the order of the grammar. -/

theorem expression_run : (expression s).run = (binary .or s).run := by
  rw [expression, run_within]

theorem binary_run (l : Level) :
    (binary l s).run = (operand l s).run.map fun (left, r) =>
      (binaryTail l left (skipSpace r)).run := by
  rw [binary, run_within]
  exact run_andTail _ fun left t => binaryTail l left t

theorem operand_run_tighter {l m : Level} (h : l.tighter? = some m) :
    (operand l s).run = (binary m s).run := by
  rw [operand]
  split
  next m' h' =>
    cases h.symm.trans h'
    rfl
  next h' => cases h.symm.trans h'

theorem operand_run_unary {l : Level} (h : l.tighter? = none) :
    (operand l s).run = (unary s).run := by
  rw [operand]
  split
  next m' h' => cases h.symm.trans h'
  next h' => rfl

/-- An operator of level `l` and its right operand. -/
def operation (l : Level) (s : List Char) : Option ((BinaryOperator × Filter) × List Char) :=
  (operator l s).run.bind fun (op, r) => (operand l (skipSpace r)).run.map fun (right, r) =>
    ((op, right), r)

theorem binaryTail_run (l : Level) (left : Filter) :
    (binaryTail l left s).run =
      match operation l s with
      | none => (left, s)
      | some ((op, right), r) => (binaryTail l (.binary left op right) (skipSpace r)).run := by
  have hnext : ((operator l s).andThen fun op q => (operand l q.1).map (op, ·)).run =
    operation l s := by
    rw [run_andThen _ fun op t => (operand l t).map (op, ·)]
    simp only [run_map]
    rfl
  rw [binaryTail, ← hnext, Parsed.run]
  split
  next h => rw [h]; rfl
  next op right q h => rw [h]; rfl

theorem unary_run : (unary s).run = (signs s).run := by
  rw [unary, run_within]

/-- The operator that `signs` takes first. -/
def sign (s : List Char) : Option (UnaryOperator × List Char) :=
  ((tokenAt Token.notWord s).map fun (_, r) => (UnaryOperator.not, r)).or
    ((tokenAt Token.minusSign s).map fun (_, r) => (.minus, r))

theorem signs_run :
    (signs s).run =
      match sign s with
      | some (op, r) => (signs (skipSpace r)).run.map fun (f, r) => (.unary op f, r)
      | none => (primary s).run := by
  have hsign : (Parsed.orElse ((Parsed.token .notWord (Token.read? Token.notWord s)).map fun _ =>
    UnaryOperator.not)
      fun _ => (Parsed.token .minusSign (Token.read? Token.minusSign s)).map fun _ =>
        .minus).run = sign s := by
    rw [run_orElse, run_map, run_map]
    rfl
  rw [signs, ← hsign]
  dsimp only
  split
  next v h =>
    rw [run_andThen _ fun op t => (signs t).map (Filter.unary op)]
    simp only [Parsed.run, taken, h, Option.map_some, Option.bind_some]
    exact run_map _ _
  next h =>
    simp only [Parsed.run, taken, h, Option.map_none]

/-- The expression in brackets that `primary` takes. -/
def grouped (s : List Char) : Option (Filter × List Char) :=
  (behind '(' s).bind fun r => (expression (skipSpace r)).run.bind fun (f, r) =>
    (behind ')' (skipSpace r)).map (f, ·)

theorem primary_run :
    (primary s).run = (grouped s).or ((literal s).run.or ((call s).run.or ((typeName s).run.or
      ((parameterAlias s).run.or (member s).run)))) := by
  have hgrouped : (((Parsed.plain (Token.char? '(' s)).andThen fun _ q =>
    expression q.1).andThen fun e q =>
      (Parsed.plain (Token.char? ')' q.1)).map fun _ => e).run = grouped s := by
    rw [run_andThen _ fun e t => (Parsed.plain (Token.char? ')' t)).map fun _ => e,
      run_andThen _ fun _ t => expression t]
    simp only [run_map, run_plain, taken_char, Option.map_map]
    rw [grouped, Option.bind_map, Option.bind_assoc]
    rfl
  rw [primary]
  simp only [run_orElse, hgrouped]

/-- The name of a `call`, up to the bracket that opens its arguments. -/
def called (s : List Char) : Option (String × List Char) :=
  (tokenAt Token.qualifiedName s).bind fun (name, r) => (behind '(' (skipSpace r)).map (name, ·)

theorem call_run :
    (call s).run = (called s).bind fun (name, r) =>
      (behind ')' (skipSpace (arguments (skipSpace r)).run.2)).map
        (callOf name (arguments (skipSpace r)).run.1, ·) := by
  have hcalled :
    ((Parsed.token .qualifiedName (Token.read? Token.qualifiedName s)).andThen fun name q =>
      (Parsed.plain (Token.char? '(' q.1)).map fun _ => name).run = called s := by
    rw [run_andThen _ fun name t => (Parsed.plain (Token.char? '(' t)).map fun _ => name]
    simp only [run_map, run_plain, taken_char, Option.map_map]
    rfl
  rw [call, run_within, run_andThen _ fun (x : String × List Argument) t =>
    (Parsed.plain (Token.char? ')' t)).map fun _ => callOf x.1 x.2,
    run_andTail _ fun name t => (arguments t).map (name, ·), hcalled, Option.bind_map]
  simp only [run_map, run_plain, taken_char, Option.map_map]
  rfl

theorem arguments_run :
    (arguments s).run =
      match (argument s).run with
      | some (a, r) =>
          (a :: (moreArguments (skipSpace r)).run.1, (moreArguments (skipSpace r)).run.2)
      | none => ([], s) := by
  rw [arguments, run_getD, run_andTail _ fun a t => (moreArguments t).map (a :: ·)]
  cases (argument s).run <;> rfl

/-- A further `argument`, behind a comma. -/
def nextArgument (s : List Char) : Option (Argument × List Char) :=
  (behind ',' s).bind fun r => (argument (skipSpace r)).run

theorem moreArguments_run :
    (moreArguments s).run =
      match nextArgument s with
      | some (a, r) =>
          (a :: (moreArguments (skipSpace r)).run.1, (moreArguments (skipSpace r)).run.2)
      | none => ([], s) := by
  have hnext : ((Parsed.plain (Token.char? ',' s)).andThen fun _ q => argument q.1).run =
    nextArgument s := by
    rw [run_andThen _ fun _ t => argument t, run_plain, taken_char, Option.bind_map]
    rfl
  rw [moreArguments, run_getD, run_andTail _ fun a t => (moreArguments t).map (a :: ·), hnext]
  cases nextArgument s <;> rfl

/-- The name of an `argument`, up to the equals sign. -/
def named (s : List Char) : Option (String × List Char) :=
  (tokenAt Token.name s).bind fun (name, r) => (behind '=' (skipSpace r)).map (name, ·)

theorem argument_run :
    (argument s).run =
      match named s with
      | some (name, r) => (expression (skipSpace r)).run.map fun (f, r) => (.mk (some name) f, r)
      | none => (expression s).run.map fun (f, r) => (.mk none f, r) := by
  have hnamed : ((Parsed.token .parameterName (Token.read? Token.name s)).andThen fun name q =>
      (Parsed.plain (Token.char? '=' q.1)).map fun _ => name).run = named s := by
    rw [run_andThen _ fun name t => (Parsed.plain (Token.char? '=' t)).map fun _ => name]
    simp only [run_map, run_plain, taken_char, Option.map_map]
    rfl
  rw [argument, ← hnamed]
  dsimp only
  rw [run_within]
  split
  next v h =>
    rw [run_andThen _ fun name t => (expression t).map (Argument.mk (some name))]
    simp only [Parsed.run, taken, h, Option.map_some, Option.bind_some]
    exact run_map _ _
  next h =>
    simp only [Parsed.run, taken, h, Option.map_none, Option.map_map]
    rfl

theorem member_run :
    (member s).run = (segment s).run.map fun (x, r) =>
      (.member (x :: (moreSegments (skipSpace r)).run.1), (moreSegments (skipSpace r)).run.2) := by
  rw [member, run_within, run_map, run_andTail _ fun x t =>
    (moreSegments t).map (x :: ·), Option.map_map]
  rfl

/-- A further `segment`, behind a slash. -/
def nextSegment (s : List Char) : Option (Segment × List Char) :=
  (behind '/' s).bind fun r => (segment (skipSpace r)).run

theorem moreSegments_run :
    (moreSegments s).run =
      match nextSegment s with
      | some (x, r) => (x :: (moreSegments (skipSpace r)).run.1, (moreSegments (skipSpace r)).run.2)
      | none => ([], s) := by
  have hnext : ((Parsed.plain (Token.char? '/' s)).andThen fun _ q => segment q.1).run =
    nextSegment s := by
    rw [run_andThen _ fun _ t => segment t, run_plain, taken_char, Option.bind_map]
    rfl
  rw [moreSegments, run_getD, run_andTail _ fun x t => (moreSegments t).map (x :: ·), hnext]
  cases nextSegment s <;> rfl

/-- The word `w` of a quantifier, up to the bracket behind it. -/
def quantified (w : String) (s : List Char) : Option (List Char) :=
  (tokenAt (Token.exactly w) s).bind fun (_, r) => behind '(' (skipSpace r)

/-- The variable of a quantifier, up to the colon behind it. -/
def bound (s : List Char) : Option (String × List Char) :=
  (tokenAt Token.name s).bind fun (x, r) => (behind ':' (skipSpace r)).map (x, ·)

/-- A variable, as `bound` reads it, and the body of its quantifier. -/
def abstraction (s : List Char) : Option ((String × Filter) × List Char) :=
  (bound s).bind fun (x, r) => (expression (skipSpace r)).run.map fun (body, r) => ((x, body), r)

/-- A segment with the word `any`, which may have no body. -/
def anySegment (s : List Char) : Option (Segment × List Char) :=
  (quantified "any" s).bind fun r =>
    let v :=
      ((abstraction (skipSpace r)).map fun (x, r) =>
        (Segment.any x.1 x.2, r)).getD (.nonempty, skipSpace r)
    (behind ')' (skipSpace v.2)).map (v.1, ·)

def allSegment (s : List Char) : Option (Segment × List Char) :=
  (quantified "all" s).bind fun r => (abstraction (skipSpace r)).bind fun (x, r) =>
    (behind ')' (skipSpace r)).map (Segment.all x.1 x.2, ·)

theorem quantified_run (w : String) :
    ((Parsed.plain (Token.read? (Token.exactly w) s)).andThen fun _ q =>
      Parsed.plain (Token.char? '(' q.1)).run =
      (quantified w s).map ((), ·) := by
  rw [run_andThen _ fun _ t => Parsed.plain (Token.char? '(' t), quantified, Option.map_bind]
  simp only [run_plain, taken_char]
  rfl

theorem bound_run :
    ((Parsed.token .boundName (Token.read? Token.name s)).andThen fun x q =>
      (Parsed.plain (Token.char? ':' q.1)).map fun _ => x).run = bound s := by
  rw [run_andThen _ fun x t => (Parsed.plain (Token.char? ':' t)).map fun _ => x]
  simp only [run_map, run_plain, taken_char, Option.map_map]
  rfl

theorem segment_run :
    (segment s).run =
      (anySegment s).or ((allSegment s).or
        (((tokenAt Token.countWord s).map fun (_, r) => (Segment.count, r)).or
          ((tokenAt Token.name s).map fun (name, r) => (.property name, r)))) := by
  -- A variable and the body behind its colon, as both quantifiers have them.
  have habstraction (t : List Char) (make : String → Filter → Segment) :
      (((Parsed.token .boundName (Token.read? Token.name t)).andThen fun x q =>
        (Parsed.plain (Token.char? ':' q.1)).map fun _ => x).andThen fun x q =>
        (expression q.1).map fun body => make x body).run =
          (abstraction t).map fun (x, r) => (make x.1 x.2, r) := by
    rw [run_andThen _ fun x t => (expression t).map fun body =>
      make x body, bound_run, abstraction, Option.map_bind]
    simp only [run_map]
    congr 1
    funext ⟨x, r⟩
    rw [Function.comp, Option.map_map]
    rfl
  rw [segment]
  simp only [run_orElse, run_within]
  congr 1
  · rw [run_andThen _ fun (x : Segment) t => (Parsed.plain (Token.char? ')' t)).map fun _ => x,
      run_andTail _ fun _ t =>
        (((Parsed.token .boundName (Token.read? Token.name t)).andThen fun x q =>
        (Parsed.plain (Token.char? ':' q.1)).map fun _ => x).andThen fun x q =>
        (expression q.1).map fun body => Segment.any x body).getD .nonempty, quantified_run]
    simp only [run_getD, habstraction, run_map, run_plain, taken_char, Option.map_map,
      Option.bind_map]
    rfl
  congr 1
  · rw [run_andThen _ fun (x : Segment) t => (Parsed.plain (Token.char? ')' t)).map fun _ => x,
      run_andThen _ fun x t => (expression t).map fun body => Segment.all x body,
      run_andThen _ fun _ t =>
        (Parsed.token .boundName (Token.read? Token.name t)).andThen fun x q =>
        (Parsed.plain (Token.char? ':' q.1)).map fun _ => x, quantified_run]
    simp only [bound_run, run_map, run_plain, taken_char, Option.map_map, Option.bind_map,
      Option.bind_assoc]
    simp only [allSegment, abstraction, Option.bind_assoc, Option.bind_map]
    rfl
  · simp only [run_map, run_token]
    rfl

/-! ## Leaves

The readers that do not recurse, down to `Filter.read?`, which skips the blanks at both ends of the
text. -/

theorem operator_run (l : Level) :
    (operator l s).run = (tokenAt l.words s).bind fun (w, r) =>
      (BinaryOperator.ofWord? w).map (·, r) := by
  rw [operator, run_token, tokenAt, taken, taken, Option.map_bind, Option.bind_map]
  congr 1
  funext ⟨w, q⟩
  rw [Function.comp, Option.map_map]
  rfl

theorem typeName_run : (typeName s).run = (tokenAt Token.typeName s).map fun (name, r) =>
    (.typeName name, r) := by
  rw [typeName, run_map]
  rfl

theorem parameterAlias_run :
    (parameterAlias s).run = (tokenAt Token.parameterAlias s).map fun (text, r) =>
      (.parameterAlias (String.ofList text.toList.tail), r) := by
  rw [parameterAlias, run_map]
  rfl

/-- The string in quotation marks at the front, and the text behind it. -/
def quotedAt (s : List Char) : Option (String × List Char) :=
  taken (Token.string? s)

theorem enumMember_run :
    (enumMember s).run = (tokenAt Token.qualifiedName s).bind fun (type, r) =>
      (quotedAt r).map fun (member, r) => (.enumMember type member, r) := by
  rw [enumMember, run_within, run_before _ fun type t =>
    (Parsed.token .string (Token.string? t)).map fun member => Filter.enumMember type member]
  simp only [run_map]
  rfl

/-- The literal without quotation marks at the front, by the first pattern that matches. -/
def unquotedAt (s : List Char) : List (LiteralKind × Token.Pattern) → Option (Filter × List Char)
  | [] => none
  | (kind, p) :: rest =>
      ((tokenAt p s).map fun (text, r) => (.literal ⟨text, kind⟩, r)).or (unquotedAt s rest)

theorem literal_run :
    (literal s).run = ((tokenAt Token.null s).map fun (_, r) => (.literal .null, r)).or
      ((unquotedAt s Token.unquoted).or
        (((quotedAt s).map fun (text, r) =>
          (.literal ⟨text, .string⟩, r)).or (enumMember s).run)) := by
  rw [literal]
  simp only [run_orElse, literalOf, run_map, Token.unquoted, unquotedAt, Option.or_assoc,
    Option.none_or]
  rfl

end Grammar

/-- `Filter.read?` takes a text as the `expression` that it begins with, if nothing but blanks is
left. -/
theorem Filter.read?_eq_ok {text : String} {f : Filter} :
    Filter.read? text = .ok f ↔
      ∃ r, (Grammar.expression (skipSpace text.toList)).run = some (f, r) ∧ skipSpace r = [] := by
  rw [Filter.read?, Grammar.Parsed.run, Grammar.taken]
  dsimp only
  split
  next h =>
    rw [h]
    exact ⟨nofun, fun ⟨r, hr, _⟩ => nomatch hr⟩
  next g q h =>
    rw [h]
    show (if (skipSpace q.1).isEmpty then _ else _) = _ ↔ ∃ r,
      some (g, q.1) = some (f, r) ∧ skipSpace r = []
    cases hq : skipSpace q.1 with
    | nil =>
        refine ⟨fun hok => ⟨q.1, ?_, hq⟩, fun ⟨r, hr, _⟩ => ?_⟩
        · cases hok; rfl
        · cases hr; rfl
    | cons c u =>
        refine ⟨nofun, fun ⟨r, hr, hend⟩ => ?_⟩
        cases hr
        cases hq.symm.trans hend

end FilterSql
