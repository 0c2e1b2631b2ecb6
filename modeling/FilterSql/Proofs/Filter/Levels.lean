import FilterSql.Proofs.Filter.Laying

/-!
# Reading operators

`Grammar.binary l` reads the operands of level `l` and the operators between them from left to
right. So an operation is read along its left operands: each brings the reader to the operators of
the level, with what has been read so far on their left (`Spine`). What stands behind a filter
decides whether the reader stops there (`Ends`), and printing puts brackets where it would not.
Hence a filter is read wherever its operands are (`Readable`).
-/

namespace FilterSql

open Lexeme (mark word separated bracketed)
open Token (skipSpace isSpace stops Whole Free Closed)

namespace Grammar

variable {s t u : List Char} {ls rest : List Lexeme} {f : Filter} {k : Nat} {l : Level}

/-! ## What stands behind a filter

`Ends k` says what may follow a filter so that a reader stops behind it: an operator that binds
more loosely than rank `k`, a closing bracket, a comma, or nothing. -/

/-- Behind a filter stands nothing, a mark that ends it, or an operator that binds more loosely
than rank `k`. -/
def Ends (k : Nat) (ls : List Lexeme) : Prop :=
  ∀ n ∈ ls.head?, (∃ op : BinaryOperator, n = word op.word ∧ k < op.level.rank) ∨
    ∃ c ∈ [')', ','], n = mark c

namespace Ends

theorem follows (h : Ends k ls) : Follows [')', ','] ls where
  next n hn := (h n hn).imp (fun ⟨op, hop, _⟩ => ⟨op, hop⟩) id
  marks := by simp [FilterSql.marks]

theorem mono {m : Nat} (h : Ends k ls) (hm : m ≤ k) : Ends m ls :=
  fun n hn => (h n hn).imp (fun ⟨op, hop, hk⟩ => ⟨op, hop, Nat.lt_of_le_of_lt hm hk⟩) id

theorem nil : Ends k [] := nofun

theorem mark {c : Char} (hc : c ∈ [')', ',']) : Ends k (Lexeme.mark c :: ls) := by
  rintro n ⟨⟩
  exact .inr ⟨c, hc, rfl⟩

theorem word {op : BinaryOperator} (hk : k < op.level.rank) :
    Ends k (Lexeme.word op.word :: ls) := by
  rintro n ⟨⟩
  exact .inl ⟨op, rfl, hk⟩

theorem skipped (h : Ends k ls) (hlaid : Laid ls t) : Laid ls (skipSpace t) :=
  hlaid.skipped h.follows.solid

end Ends

/-- The word of an operator at the front, with no character of a name behind it. -/
theorem word_front {op : BinaryOperator} (h : Laid (word op.word :: ls) t) :
    ∃ u, skipSpace t = op.word.toList ++ u ∧ (∀ c ∈ u.head?, Token.isNameChar c = false) ∧
      Laid ls u := by
  obtain ⟨u, hu, hapart, hrest⟩ := h.front (Lexeme.solid_word op)
  obtain ⟨c, hc, hspace⟩ := hapart rfl
  refine ⟨u, hu, fun d hd => ?_, hrest⟩
  cases hc.symm.trans hd
  exact Token.isNameChar_of_isSpace hspace

/-- Where a filter ends, no operator of its level follows. -/
theorem operation_none_of_ends (h : Ends l.rank ls) (hlaid : Laid ls t) :
    operation l (skipSpace t) = none := by
  cases ls with
  | nil => rw [hlaid.skipSpace_nil]; exact operation_none l nofun
  | cons n ls =>
      rcases h n rfl with ⟨op, rfl, hk⟩ | ⟨c, hc, rfl⟩
      · obtain ⟨u, hu, hblank, -⟩ := word_front hlaid
        rw [operation, hu, operator_other op hblank l (by rintro rfl; exact Nat.lt_irrefl _ hk),
          Option.bind_none]
      · obtain ⟨u, hu, -⟩ := hlaid.mark (Token.not_of_stops (by decide) hc)
        rw [hu]
        refine operation_none l ?_
        rintro d ⟨⟩
        exact Token.not_of_stops (by decide) hc

/-! ## Through the levels

A filter of a tight level is an operand of all looser ones, so what is shown at one level is passed
on to those above it. -/

/-- `read` gets `a` off the lexemes `ls`, whatever stands behind them that satisfies `After`. -/
def Reads {α : Type} (read : (s : List Char) → Parsed s α) (After : List Lexeme → Prop)
    (ls : List Lexeme) (a : α) : Prop :=
  ∀ rest t, After rest → Laid (ls ++ rest) t → ∃ r, (read (skipSpace t)).run = some (a, r) ∧
    Laid rest r

/-- The lexemes `ls` bring the reader of level `l` to the operators of that level, with `f` on
their left. -/
def Spine (l : Level) (ls : List Lexeme) (f : Filter) : Prop :=
  ∀ rest t, Ends (l.rank - 1) rest → Laid (ls ++ rest) t →
    ∃ r, (binary l (skipSpace t)).run = some (binaryTail l f (skipSpace r)).run ∧ Laid rest r

theorem Level.rank_pos (l : Level) : 0 < l.rank := by
  cases l <;> decide

theorem Level.rank_of_tighter {m : Level} (h : l.tighter? = some m) : l.rank - 1 = m.rank := by
  cases l <;> cases h <;> rfl

theorem Level.rank_of_tightest (h : l.tighter? = none) : l.rank - 1 = 0 := by
  cases l <;> cases h
  rfl

theorem Level.eq_of_rank {m : Level} (h : l.rank = m.rank) : l = m := by
  cases l <;> cases m <;> first | rfl | cases h

/-- An operand takes the reader of a level to its operators. -/
theorem spine_of_operand (h : Reads (operand l) (Ends (l.rank - 1)) ls f) : Spine l ls f := by
  intro rest t hends hlaid
  obtain ⟨r, hr, hrest⟩ := h rest t hends hlaid
  refine ⟨r, ?_, hrest⟩
  rw [binary_run, hr]
  rfl

/-- Where no operator of the level follows, the reader stops. -/
theorem reads_of_spine (h : Spine l ls f) : Reads (binary l) (Ends l.rank) ls f := by
  intro rest t hends hlaid
  obtain ⟨r, hr, hrest⟩ := h rest t (hends.mono (Nat.sub_le _ _)) hlaid
  refine ⟨skipSpace r, ?_, hends.skipped hrest⟩
  rw [hr, binaryTail_run, operation_none_of_ends hends hrest]

theorem operand_of_spine {m : Level} (hm : l.tighter? = some m) (h : Spine m ls f) :
    Reads (operand l) (Ends (l.rank - 1)) ls f := by
  rw [Level.rank_of_tighter hm]
  intro rest t hends hlaid
  obtain ⟨r, hr, hrest⟩ := reads_of_spine h rest t hends hlaid
  exact ⟨r, (operand_run_tighter hm).trans hr, hrest⟩

/-- What `unary` reads is an operand of every level. -/
theorem operand_of_unary (h : Reads unary (Ends 0) ls f) (l : Level) :
    Reads (operand l) (Ends (l.rank - 1)) ls f := by
  induction l using Level.climb with
  | base l hl =>
      rw [Level.rank_of_tightest hl]
      intro rest t hends hlaid
      obtain ⟨r, hr, hrest⟩ := h rest t hends hlaid
      exact ⟨r, (operand_run_unary hl).trans hr, hrest⟩
  | step l m hl ih => exact operand_of_spine hl (spine_of_operand ih)

/-- What is read at a level is read at all looser ones. -/
theorem spine_climb {m : Level} (h : Spine m ls f) (l : Level) (hl : m.rank ≤ l.rank) :
    Spine l ls f := by
  induction l using Level.climb with
  | base l htight =>
      have := Level.rank_of_tightest htight
      have := m.rank_pos
      rwa [Level.eq_of_rank (l := l) (m := m) (by omega)]
  | step l n htight ih =>
      by_cases heq : l = m
      · rwa [heq]
      · have hne : l.rank ≠ m.rank := fun h => heq (Level.eq_of_rank h)
        have := Level.rank_of_tighter htight
        exact spine_of_operand (operand_of_spine htight (ih (by omega)))

/-! ## Operators and brackets

A filter is `Readable` if it is read at every level that is at least as loose as its own. Where an
operand binds more loosely it is printed in brackets, and inside of them any level may begin
again. -/

/-- The filter is read off its lexemes: by `unary` if its outermost operator is not binary, and by
each level that is at least as loose as its own. -/
structure Readable (f : Filter) : Prop where
  unary : f.rank = 0 → Reads unary (Ends 0) f.lexemes f
  spine : ∀ l : Level, f.rank ≤ l.rank → Spine l f.lexemes f

namespace Readable

theorem of_unary (h : Reads Grammar.unary (Ends 0) f.lexemes f) : Readable f where
  unary _ := h
  spine l _ := spine_of_operand (operand_of_unary h l)

theorem rank_le (f : Filter) : f.rank ≤ Level.or.rank := by
  cases f with
  | binary l op r =>
      rw [Filter.rank]
      cases op.level <;> decide
  | _ => exact Nat.zero_le _

theorem expression (h : Readable f) :
    Reads Grammar.expression (Ends Level.or.rank) f.lexemes f := by
  intro rest t hends hlaid
  obtain ⟨r, hr, hrest⟩ := reads_of_spine (h.spine .or (rank_le f)) rest t hends hlaid
  exact ⟨r, expression_run.trans hr, hrest⟩

/-- In brackets a filter may stand wherever an operand may. -/
theorem bracket (h : Readable f) :
    Reads Grammar.unary (Ends 0) (mark '(' :: (f.lexemes ++ [mark ')'])) f := by
  intro rest t hends hlaid
  rw [List.cons_append, List.append_assoc, List.singleton_append] at hlaid
  obtain ⟨u, hu, hinner⟩ := hlaid.mark rfl
  obtain ⟨v, hv, hclose⟩ := h.expression (mark ')' :: rest) u (.mark (by decide)) hinner
  obtain ⟨w, hw, hrest⟩ := hclose.mark rfl
  refine ⟨w, ?_, hrest⟩
  have hgrouped : grouped ('(' :: u) = some (f, w) := by
    rw [grouped, behind_self, Option.bind_some, hv, Option.bind_some]
    show (behind ')' (skipSpace v)).map _ = _
    rw [hw, behind_self, Option.map_some]
  rw [hu, unary_run, signs_run, sign_none (Token.leading_of_mark rfl (by decide) u)]
  show (primary ('(' :: u)).run = _
  rw [primary_run, hgrouped, Option.some_or]

/-- An operand to the left of an operator, in brackets if it binds more loosely. -/
theorem left {op : BinaryOperator} (h : Readable f) :
    Spine op.level (bracketed (op.level.rank < f.rank) f.lexemes) f := by
  rw [bracketed]
  split
  next => exact spine_of_operand (operand_of_unary h.bracket _)
  next hle => exact h.spine _ (by simpa using hle)

/-- An operand to the right of an operator, in brackets unless it binds more tightly. -/
theorem right {op : BinaryOperator} (h : Readable f) :
    Reads (operand op.level) (Ends (op.level.rank - 1))
      (bracketed (op.level.rank ≤ f.rank) f.lexemes) f := by
  rw [bracketed]
  split
  next => exact operand_of_unary h.bracket _
  next hlt =>
    have hlt : f.rank < op.level.rank := by simpa using hlt
    cases htight : op.level.tighter? with
    | none =>
        -- There is no tighter level, and so the filter has no binary operator.
        have := Level.rank_of_tightest htight
        exact operand_of_unary (h.unary (by omega)) _
    | some m =>
        have := Level.rank_of_tighter htight
        exact operand_of_spine htight (h.spine m (by omega))

end Readable

theorem readable_binary {x y : Filter} {op : BinaryOperator} (hx : Readable x) (hy : Readable y) :
    Readable (.binary x op y) := by
  have hspine : Spine op.level (Filter.binary x op y).lexemes (.binary x op y) := by
    intro rest t hends hlaid
    rw [Filter.lexemes, List.append_assoc, List.cons_append] at hlaid
    obtain ⟨r, hr, hword⟩ :=
      hx.left _ t (Ends.word (Nat.sub_lt op.level.rank_pos (by decide))) hlaid
    obtain ⟨u, hu, hblank, hright⟩ := word_front hword
    obtain ⟨v, hv, hrest⟩ := hy.right rest u hends hright
    refine ⟨v, ?_, hrest⟩
    have hoperation : operation op.level (skipSpace r) = some ((op, y), v) := by
      rw [operation, hu, operator_word op hblank op.level rfl, Option.bind_some]
      show (operand op.level (skipSpace u)).run.map _ = _
      rw [hv, Option.map_some]
    rw [hr, binaryTail_run, hoperation]
  exact ⟨fun h0 => absurd h0 (Nat.ne_of_gt op.level.rank_pos), fun l hl => spine_climb hspine l hl⟩

/-! ### Unary operators

A unary operator is followed by a unary filter, so its operand is printed in brackets if it is
binary. The sign of a number is not an operator, which `minusSign` sees to. -/

/-- The operand of a unary operator begins with a bracket or with another unary operator. -/
theorem operand_front (x : Filter) :
    ∃ n more, bracketed (!x.isUnary) x.lexemes = n :: more ∧
      n ∈ [mark '(', UnaryOperator.not.lexeme, UnaryOperator.minus.lexeme] := by
  cases x with
  | unary op operand =>
      rw [Filter.lexemes]
      cases op
      · exact ⟨_, _, rfl, by simp⟩
      · exact ⟨_, _, rfl, by simp⟩
  | _ => exact ⟨_, _, rfl, List.mem_cons_self⟩

theorem sign_of_lexeme (op : UnaryOperator) {n : Lexeme}
    (hn : n ∈ [mark '(', UnaryOperator.not.lexeme, UnaryOperator.minus.lexeme])
    (h : Laid (op.lexeme :: n :: ls) t) :
    ∃ u, sign (skipSpace t) = some (op, u) ∧ Laid (n :: ls) u := by
  cases op with
  | not =>
      obtain ⟨u, hu, hapart, hrest⟩ := h.front ⟨'n', _, rfl, rfl⟩
      obtain ⟨c, hc, hspace⟩ := hapart rfl
      have hclosed : ∀ d ∈ u.head?, Closed d Token.notWord := by
        intro d hd
        cases hc.symm.trans hd
        exact Token.closed_notWord (Token.isNameChar_of_isSpace hspace)
      have hwhole : Whole Token.notWord "not" := by decide
      refine ⟨u, ?_, hrest⟩
      have htoken : tokenAt Token.notWord ("not".toList ++ u) = some ("not", u) :=
        tokenAt_whole hwhole (by decide) hclosed
      rw [hu, sign]
      show ((tokenAt Token.notWord ("not".toList ++ u)).map _).or _ = _
      rw [htoken]
      rfl
  | minus =>
      obtain ⟨u, hu, hrest⟩ := h.mark rfl
      refine ⟨u, ?_, hrest⟩
      -- In front of a digit the sign would be that of a number.
      have hdigit : ∀ d ∈ u.head?, Char.isDigit d = false := by
        obtain ⟨c, v, hshape, hc, hcd⟩ : ∃ c v, n.text.toList = c :: v ∧ isSpace c = false ∧
          Char.isDigit c = false := by
          simp only [List.mem_cons, List.not_mem_nil, or_false] at hn
          rcases hn with rfl | rfl | rfl
          · exact ⟨'(', _, Lexeme.toList_mark _, rfl, rfl⟩
          · exact ⟨'n', _, rfl, rfl, rfl⟩
          · exact ⟨'-', _, Lexeme.toList_mark _, rfl, rfl⟩
        obtain ⟨w, hw, -⟩ := hrest.front ⟨c, v, hshape, hc⟩
        rw [hshape] at hw
        intro d hd
        rcases head_of_skipSpace hw d hd with hspace | rfl
        · cases hdigit : d.isDigit with
          | false => rfl
          | true =>
              rw [Token.isSpace_eq_false (p := Char.isDigit) (by decide) hdigit] at hspace
              cases hspace
        · exact hcd
      have hword : Token.exactly "not" ('-' :: u) = none := Token.exactly_of_front rfl (by decide)
      have hnot : Token.notWord ('-' :: u) = none := by
        rw [Token.notWord, Token.word, Token.row_cons]
        exact Token.seq_eq_none hword
      have hminus : Token.minusSign (['-'] ++ u) = some ['-'].length := by
        rw [Token.minusSign, Token.row_cons, Token.row_single]
        exact Token.seq_eq_some.mpr ⟨1,
          Token.exactly_eq_some.mpr ⟨List.prefix_append ['-'] u, rfl⟩, 0,
          Token.notBefore_eq_some.mpr ⟨hdigit, rfl⟩, rfl⟩
      rw [hu, sign, tokenAt_none hnot]
      show Option.map _ (tokenAt Token.minusSign (['-'] ++ u)) = _
      rw [tokenAt_append hminus (by decide)]
      rfl

theorem readable_unary {x : Filter} {op : UnaryOperator} (hx : Readable x) :
    Readable (.unary op x) := by
  refine .of_unary fun rest t hends hlaid => ?_
  have hoperand : Reads unary (Ends 0) (bracketed (!x.isUnary) x.lexemes) x := by
    cases hun : x.isUnary with
    | false => exact hx.bracket
    | true => exact hx.unary (by cases x <;> first | rfl | cases hun)
  rw [Filter.lexemes, List.cons_append] at hlaid
  obtain ⟨n, more, hfront, hn⟩ := operand_front x
  obtain ⟨u, hu, hrest⟩ := sign_of_lexeme op hn (by rwa [hfront] at hlaid)
  obtain ⟨r, hr, hlast⟩ := hoperand rest u hends (by rwa [hfront])
  refine ⟨r, ?_, hlast⟩
  rw [unary_run, signs_run, hu]
  show (signs (skipSpace u)).run.map _ = _
  rw [← unary_run, hr, Option.map_some]

/-- A filter with no sign in front is readable if `primary` reads it. -/
theorem Readable.of_primary
    (h : ∀ rest t, Ends 0 rest → Laid (f.lexemes ++ rest) t →
      sign (skipSpace t) = none ∧ ∃ r, (primary (skipSpace t)).run = some (f, r) ∧ Laid rest r) :
      Readable f := by
  refine .of_unary fun rest t hends hlaid => ?_
  obtain ⟨hsign, r, hr, hrest⟩ := h rest t hends hlaid
  refine ⟨r, ?_, hrest⟩
  rw [unary_run, signs_run, hsign]
  exact hr

end Grammar

end FilterSql
