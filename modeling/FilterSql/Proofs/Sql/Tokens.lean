import FilterSql.Proofs.Sql.Rendering

/-!
# Tokens of a text

The text of a tree as a row of tokens: quoted names and strings, words, marks and placeholders. The
first character of a token shows its kind, and behind each token that is no mark stands a mark,
which shows where it ends. So a text can be cut into such tokens in only one way, once the bound
values are known (`Token.eq_of_spelled`). No tokenizer is needed to say so: the proof takes two
rows with the same text and compares them token by token.
-/

namespace FilterSql.Sql

inductive Token where
  /-- A name between the quotation marks of the dialect. -/
  | name (s : String)
  /-- A string between apostrophes. -/
  | literal (s : String)
  | word (s : String)
  | mark (c : Char)
  /-- A placeholder, with the value that is bound to it. -/
  | parameter (v : Value)
deriving DecidableEq

/-! ## Words and marks

Words and marks have no characters in common, and `kindOf` tells all kinds apart by one
character. -/

/-- A letter, a digit or an underscore. Beyond ASCII, `isWordChar` takes any character for a
letter. -/
def isWordChar (c : Char) : Bool :=
  c.isAlphanum || c == '_' || 128 ≤ c.toNat

/-- A text of one or more characters for which `isWordChar` holds: a keyword or the name of a
function. -/
def IsWord (s : String) : Prop :=
  s.toList ≠ [] ∧ ∀ c ∈ s.toList, isWordChar c = true

instance (s : String) : Decidable (IsWord s) :=
  decidable_of_iff (s.toList ≠ [] ∧
    s.toList.all isWordChar = true) (by rw [IsWord, List.all_eq_true])

/-- The marks that stand between words. -/
def marks : List Char :=
  [' ', '(', ')', ',', '.', '*', '=', '<', '>', '+', '-', '/', '%']

namespace Token

inductive Kind where
  | name | literal | word | mark | parameter
deriving DecidableEq

def kind : Token → Kind
  | name _ => .name
  | literal _ => .literal
  | word _ => .word
  | mark _ => .mark
  | parameter _ => .parameter

/-- The kind of token that begins with `c`. -/
def kindOf (d : Dialect) (c : Char) : Kind :=
  if c = d.identifierMark then .name
  else if c = '\'' then .literal
  else if c = '$' ∨ c = '?' then .parameter
  else if isWordChar c then .word
  else .mark

/-- Words are made of word characters, and marks are among `marks`. The other kinds may hold
anything. -/
def Valid : Token → Prop
  | word s => IsWord s
  | mark c => c ∈ marks
  | name _ | literal _ | parameter _ => True

/-! ## Spelling

What is written for a token depends on the dialect, and for a placeholder also on the number of
parameters in front of it. -/

/-- The string as it stands between apostrophes, whose doubling is left to `enclosed`. MySQL wants
backslashes doubled. -/
def escaped (d : Dialect) (s : List Char) : List Char :=
  match d with
  | .postgres => s
  | .mysql => Text.double '\\' s

/-- A text between two marks, with each `mark` in it doubled. -/
def enclosed (mark : Char) (s : List Char) : List Char :=
  mark :: (Text.double mark s ++ [mark])

/-- The characters of a token behind `bound` parameters. -/
def spelled (d : Dialect) (bound : Nat) : Token → List Char
  | name s => enclosed d.identifierMark s.toList
  | literal s => enclosed '\'' (escaped d s.toList)
  | word s => s.toList
  | mark c => [c]
  | parameter _ => (d.placeholder bound).toList

/-- The values that a token binds: that of a `parameter`, and otherwise none. -/
def bound : Token → List Value
  | parameter v => [v]
  | name _ | literal _ | word _ | mark _ => []

/-- The characters of a row of tokens behind `n` parameters. -/
def spelledAll (d : Dialect) (n : Nat) : List Token → List Char
  | [] => []
  | t :: ts => t.spelled d n ++ spelledAll d (n + t.bound.length) ts

/-- The first character that is `spelled` for a token shows its kind. -/
theorem spelled_front {d : Dialect} {n : Nat} {t : Token} (h : t.Valid) :
    ∃ c cs, t.spelled d n = c :: cs ∧ kindOf d c = t.kind := by
  cases t with
  | name s => exact ⟨_, _, rfl, if_pos rfl⟩
  | literal s =>
      refine ⟨_, _, rfl, ?_⟩
      show kindOf d '\'' = .literal
      cases d <;> decide
  | word s =>
      obtain ⟨hne, hall⟩ := h
      obtain ⟨c, cs, hshape⟩ := List.exists_cons_of_ne_nil hne
      refine ⟨c, cs, hshape, ?_⟩
      have hc : isWordChar c := hall c (by simp [hshape])
      have hother : ∀ m, isWordChar m = false → c ≠ m := by
        intro m hm heq
        simp [heq, hm] at hc
      have hname : c ≠ d.identifierMark := hother _ (by cases d <;> decide)
      simp [kindOf, kind, hname, hother '\'' (by decide), hother '$' (by decide),
        hother '?' (by decide), hc]
  | mark c =>
      refine ⟨c, [], rfl, ?_⟩
      revert c
      cases d <;> simp [Valid, marks] <;> decide
  | parameter v =>
      show ∃ c cs, (d.placeholder n).toList = c :: cs ∧ kindOf d c = .parameter
      cases d with
      | postgres => exact ⟨'$', (toString (n + 1)).toList, by simp [Dialect.placeholder], by decide⟩
      | mysql => exact ⟨'?', [], by simp [Dialect.placeholder], by decide⟩

/-- The piece of a statement that a token is written as. -/
def piece (d : Dialect) : Token → Piece
  | name s => .text (d.identifier s)
  | literal s => .text ((Value.string s).sqlLiteral d)
  | word s => .text s
  | mark c => .text (String.singleton c)
  | parameter v => .parameter v

@[simp] theorem piece_name {d : Dialect} {s : String} :
    (name s).piece d = .text (d.identifier s) := rfl

@[simp] theorem piece_literal {d : Dialect} {s : String} :
    (literal s).piece d = .text ((Value.string s).sqlLiteral d) := rfl

@[simp] theorem piece_word {d : Dialect} {s : String} : (word s).piece d = .text s := rfl

@[simp] theorem piece_mark {d : Dialect} {c : Char} :
    (mark c).piece d = .text (String.singleton c) := rfl

@[simp] theorem piece_parameter {d : Dialect} {v : Value} :
    (parameter v).piece d = .parameter v := rfl

/-- The characters of pieces are those that `spelledAll` has for their tokens. -/
theorem toList_join (d : Dialect) (n : Nat) (ts : List Token) :
    (String.join (joinText d n (ts.map (piece d)))).toList = spelledAll d n ts := by
  induction ts generalizing n with
  | nil => simp [joinText, spelledAll]
  | cons t ts ih =>
      cases t with
      | name s =>
          simp [joinText, spelledAll, spelled, bound, ih, Dialect.identifier, Text.quote, enclosed]
      | literal s =>
          cases d <;> simp [joinText, spelledAll, spelled, bound, ih, Value.sqlLiteral,
            Value.literal, Value.quoted, Text.quote, enclosed, escaped]
      | word s | mark c | parameter v => simp [joinText, spelledAll, spelled, bound, ih]

theorem parameters_pieces (d : Dialect) (ts : List Token) :
    parameters (ts.map (piece d)) = ts.flatMap bound := by
  induction ts with
  | nil => rfl
  | cons t ts ih => cases t <;> simp [parameters, bound, ih]

/-! ## Where a token ends

For each kind of token: what stands in front of a mark is known from the text alone. -/

/-- `text` is empty or begins with a mark, so a token in front of it ends there. -/
def Ends (d : Dialect) (text : List Char) : Prop :=
  ∀ c ∈ text.head?, kindOf d c = .mark

variable {d : Dialect} {n : Nat} {t t' : Token} {ts ts' : List Token} {text text' : List Char}
    {values values' : List Value}

theorem double_unique {mark : Char} {s s' : List Char} (h : text.head? ≠ some mark)
    (h' : text'.head? ≠ some mark)
    (heq : Text.double mark s ++ mark :: text = Text.double mark s' ++ mark :: text') :
    s = s' ∧ text = text' := by
  induction s generalizing s' with
  | nil =>
      cases s' with
      | nil => simpa using heq
      | cons c' s' =>
          -- A doubled mark would go on behind the mark that ends the other text.
          by_cases hc' : c' = mark <;> grind [Text.double_cons, Text.double_nil]
  | cons c s ih =>
      cases s' with
      | nil => by_cases hc : c = mark <;> grind [Text.double_cons, Text.double_nil]
      | cons c' s' =>
          have hrest
              (heq : Text.double mark s ++ mark :: text = Text.double mark s' ++ mark :: text') :
              c :: s = c :: s' ∧ text = text' := by
            obtain ⟨rfl, htext⟩ := ih heq
            exact ⟨rfl, htext⟩
          by_cases hc : c = mark <;> by_cases hc' : c' = mark <;> simp_all

/-- An `enclosed` text ends at the first mark that is not doubled. -/
theorem enclosed_unique {mark : Char} {s s' : List Char} (h : text.head? ≠ some mark)
    (h' : text'.head? ≠ some mark) (heq : enclosed mark s ++ text = enclosed mark s' ++ text') :
    s = s' ∧ text = text' :=
  double_unique h h' (by simpa [enclosed] using heq)

theorem escaped_injective {s s' : List Char} (heq : escaped d s = escaped d s') : s = s' := by
  cases d with
  | postgres => exact heq
  | mysql =>
      have hdouble : Text.double '\\' s = Text.double '\\' s' := heq
      have htexts : s = s' ∧ ([] : List Char) = [] :=
        double_unique (by simp) (by simp) (congrArg (· ++ ['\\']) hdouble)
      exact htexts.1

/-- A word ends in front of the first character that is not an `isWordChar`. -/
theorem word_unique {s s' : String} (hs : IsWord s) (hs' : IsWord s')
    (h : ∀ c ∈ text.head?, isWordChar c = false) (h' : ∀ c ∈ text'.head?, isWordChar c = false)
    (heq : s.toList ++ text = s'.toList ++ text') :
    s = s' ∧ text = text' := by
  have hword {s : String} {text : List Char} (hs : IsWord s)
      (h : ∀ c ∈ text.head?, isWordChar c = false) :
      (s.toList ++ text).takeWhile isWordChar = s.toList := by
    rw [List.takeWhile_append_of_pos hs.2]
    cases text with
    | nil => simp
    | cons c text => simp [h c rfl]
  have hsame : s.toList = s'.toList := by rw [← hword hs h, heq, hword hs' h']
  refine ⟨String.toList_injective hsame, ?_⟩
  rw [hsame] at heq
  exact List.append_cancel_left heq

theorem Ends.not_word (h : Ends d text) : ∀ c ∈ text.head?, isWordChar c = false := by
  intro c hc
  have hmark := h c hc
  cases hword : isWordChar c with
  | false => rfl
  | true => grind [kindOf]

theorem Ends.ne_identifierMark (h : Ends d text) : text.head? ≠ some d.identifierMark := by
  intro hhead
  have hmark := h _ hhead
  simp [kindOf] at hmark

theorem Ends.ne_apostrophe (h : Ends d text) : text.head? ≠ some '\'' := by
  intro hhead
  have hmark := h _ hhead
  cases d <;> simp [kindOf, Dialect.identifierMark] at hmark

/-- One token at the front of a text is known from the text: if two tokens are followed by what
`Ends` asks for, and text and values are the same, then so are the tokens and what is left. -/
theorem token_unique (ht : t.Valid) (ht' : t'.Valid) (hends : t.kind ≠ .mark → Ends d text)
    (hends' : t'.kind ≠ .mark → Ends d text') (hbound : t.bound ++ values = t'.bound ++ values')
    (heq : t.spelled d n ++ text = t'.spelled d n ++ text') : t = t' ∧ text = text' := by
  obtain ⟨c, cs, hshape, hkind⟩ := spelled_front (d := d) (n := n) ht
  obtain ⟨c', cs', hshape', hkind'⟩ := spelled_front (d := d) (n := n) ht'
  have hsame : t.kind = t'.kind := by
    rw [hshape, hshape'] at heq
    obtain ⟨rfl, -⟩ := List.cons.inj heq
    rw [← hkind, hkind']
  cases t <;> cases t' <;> try cases hsame
  case name s s' =>
    obtain ⟨hs, htext⟩ :=
      enclosed_unique (hends nofun).ne_identifierMark (hends' nofun).ne_identifierMark heq
    exact ⟨congrArg name (String.toList_injective hs), htext⟩
  case literal s s' =>
    obtain ⟨hs, htext⟩ :=
      enclosed_unique (hends nofun).ne_apostrophe (hends' nofun).ne_apostrophe heq
    exact ⟨congrArg literal (String.toList_injective (escaped_injective hs)), htext⟩
  case word s s' =>
    obtain ⟨rfl, htext⟩ := word_unique ht ht' (hends nofun).not_word (hends' nofun).not_word heq
    exact ⟨rfl, htext⟩
  case mark c c' =>
    obtain ⟨rfl, htext⟩ := List.cons.inj heq
    exact ⟨rfl, htext⟩
  case parameter v v' =>
    -- The placeholder shows its number alone, and that is one in both rows.
    obtain ⟨rfl, -⟩ := List.cons.inj hbound
    exact ⟨rfl, List.append_cancel_left heq⟩

/-! ## Rows

The condition on a row that makes each of its tokens end where `token_unique` needs it to. -/

/-- The row is empty, or its first token is a `mark`. -/
def Marked (ts : List Token) : Prop :=
  ∀ t ∈ ts.head?, t.kind = .mark

/-- All tokens are `Valid`, and each that is not a `mark` has one behind it, or nothing. -/
def Separated : List Token → Prop
  | [] => True
  | t :: ts => t.Valid ∧ (t.kind ≠ .mark → Marked ts) ∧ Separated ts

theorem marked_mark {c : Char} : Marked (mark c :: ts) := by
  rintro t ⟨⟩
  rfl

theorem Marked.append (h : Marked ts) (h' : Marked ts') : Marked (ts ++ ts') := by
  cases ts with
  | nil => exact h'
  | cons t ts => exact h

theorem Separated.append (h : Separated ts) (h' : Separated ts') (hmarked : Marked ts') :
    Separated (ts ++ ts') := by
  induction ts with
  | nil => exact h'
  | cons t ts ih =>
      obtain ⟨ht, hends, hts⟩ := h
      exact ⟨ht, fun hne => (hends hne).append hmarked, ih hts⟩

@[simp] theorem separated_nil : Separated [] := trivial

@[simp] theorem separated_single : Separated [t] ↔ t.Valid := by
  simp [Separated, Marked]

@[simp] theorem separated_mark {c : Char} :
    Separated (mark c :: ts) ↔ c ∈ marks ∧ Separated ts := by
  simp [Separated, Valid, kind]

@[simp] theorem separated_cons_mark {c : Char} :
    Separated (t :: mark c :: ts) ↔ t.Valid ∧ c ∈ marks ∧ Separated ts := by
  rw [Separated, separated_mark]
  exact ⟨fun h => ⟨h.1, h.2.2⟩, fun h => ⟨h.1, fun _ => marked_mark, h.2⟩⟩

/-- A row is `Separated` if what is in front of one of its marks is, and what is behind it. -/
@[simp] theorem separated_append_mark {c : Char} :
    Separated (ts ++ mark c :: ts') ↔ Separated ts ∧ c ∈ marks ∧ Separated ts' := by
  induction ts with
  | nil => simp
  | cons t ts ih =>
      have hmarked : Marked (ts ++ mark c :: ts') ↔ Marked ts := by
        cases ts with
        | nil => simp [Marked, kind]
        | cons next ts => rfl
      rw [List.cons_append, Separated, Separated, hmarked, ih]
      grind

theorem Separated.ends (hts : Separated ts) (h : Marked ts) : Ends d (spelledAll d n ts) := by
  cases ts with
  | nil => simp [Ends, spelledAll]
  | cons t ts =>
      obtain ⟨c, cs, hshape, hkind⟩ := spelled_front (d := d) (n := n) hts.1
      intro x hx
      obtain rfl : c = x := by simpa [spelledAll, hshape] using hx
      rw [hkind]
      exact h t rfl

theorem spelledAll_ne_nil (h : t.Valid) : spelledAll d n (t :: ts) ≠ [] := by
  obtain ⟨c, cs, hshape, -⟩ := spelled_front (d := d) (n := n) h
  simp [spelledAll, hshape]

/-- **A text is spelled in only one way**: two `Separated` rows with the same text and the same
bound values are the same row. -/
theorem eq_of_spelled (h : Separated ts) (h' : Separated ts')
    (htext : spelledAll d n ts = spelledAll d n ts')
    (hbound : ts.flatMap bound = ts'.flatMap bound) : ts = ts' := by
  induction ts generalizing ts' n with
  | nil =>
      cases ts' with
      | nil => rfl
      | cons t' ts' => exact (spelledAll_ne_nil h'.1 htext.symm).elim
  | cons t ts ih =>
      cases ts' with
      | nil => exact (spelledAll_ne_nil h.1 htext).elim
      | cons t' ts' =>
          obtain ⟨ht, hends, hts⟩ := h
          obtain ⟨ht', hends', hts'⟩ := h'
          obtain ⟨rfl, hrest⟩ := token_unique ht ht' (fun hne => hts.ends (hends hne))
            (fun hne => hts'.ends (hends' hne)) hbound htext
          have hvalues := List.append_cancel_left hbound
          rw [ih hts hts' hrest hvalues]

end Token

end FilterSql.Sql
