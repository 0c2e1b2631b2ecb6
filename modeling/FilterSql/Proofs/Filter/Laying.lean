import FilterSql.Proofs.Filter.Lookahead

/-!
# Reading lexemes

`Laid ls t` says that the text `t` is the row of lexemes `ls`, laid out with blanks. The lemmas
here say what is then at the front of `t` and what follows the first lexeme. Whatever reads one
lexeme leaves a text that the others are laid out in, so that reading goes along the row.
-/

namespace FilterSql

open Lexeme (mark word separated)
open Token (skipSpace isSpace stops Whole Free Closed)

namespace Lexeme

/-- A lexeme that begins with a character that is no blank, so that skipping blanks ends in front
of it. -/
def Solid (l : Lexeme) : Prop :=
  ∃ c u, l.text.toList = c :: u ∧ isSpace c = false

theorem toList_mark (c : Char) : (mark c).text.toList = [c] := by
  rw [mark, String.toList_singleton]

theorem solid_mark {c : Char} (hc : isSpace c = false) : (mark c).Solid :=
  ⟨c, [], toList_mark c, hc⟩

theorem word_front (op : BinaryOperator) : ∃ c u, op.word.toList = c :: u ∧ Token.isNameChar c := by
  rcases op with (_ | _ | _ | _ | _ | _) | (_ | _ | _ | _ | _) | _ | _ | _ <;> exact ⟨_,
    _, rfl, rfl⟩

theorem solid_word (op : BinaryOperator) : (word op.word).Solid := by
  obtain ⟨c, u, hshape, hc⟩ := word_front op
  exact ⟨c, u, hshape, Token.isSpace_of_isNameChar hc⟩

theorem solid_name {x : String} {behind before : Bool} {n : Nat}
    (hx : Token.name x.toList = some n) :
    (Lexeme.mk x before behind).Solid := by
  obtain ⟨c, u, hshape, hc⟩ := Token.name_front hx
  exact ⟨c, u, hshape, Token.isSpace_of_isNameStart hc⟩

end Lexeme

namespace Laid

variable {l : Lexeme} {ls : List Lexeme} {s t u : List Char} {c : Char}

theorem skipSpace_append {blanks : List Char} (hblanks : ∀ c ∈ blanks, isSpace c) (s : List Char) :
    skipSpace (blanks ++ s) = skipSpace s :=
  List.dropWhile_append_of_pos hblanks

theorem skipSpace_nil (h : Laid [] t) : skipSpace t = [] := by
  cases h with
  | done hblanks => exact List.append_nil t ▸ skipSpace_append hblanks []

/-- Behind the blanks stands the first lexeme, and the others are laid out behind it. -/
theorem front (h : Laid (l :: ls) t) (hl : l.Solid) :
    ∃ u, skipSpace t = l.text.toList ++ u ∧ (l.apart ls → ∃ c ∈ u.head?, isSpace c) ∧
      Laid ls u := by
  cases h with
  | @next _ _ blanks s hblanks hapart hrest =>
      obtain ⟨c, v, htext, hc⟩ := hl
      refine ⟨s, ?_, hapart, hrest⟩
      rw [skipSpace_append hblanks, htext]
      exact Grammar.skipSpace_cons hc

theorem mark (h : Laid (Lexeme.mark c :: ls) t) (hc : isSpace c = false) :
    ∃ u, skipSpace t = c :: u ∧ Laid ls u := by
  obtain ⟨u, hu, -, hrest⟩ := h.front (Lexeme.solid_mark hc)
  rw [Lexeme.toList_mark] at hu
  exact ⟨u, hu, hrest⟩

/-- Blanks in front may be left out. -/
theorem skipped (h : Laid ls t) (hls : ∀ l ∈ ls.head?, l.Solid) : Laid ls (skipSpace t) := by
  cases h with
  | done hblanks =>
      rw [(Laid.done hblanks).skipSpace_nil]
      exact .done (List.forall_mem_nil _)
  | @next l ls blanks s hblanks hapart hrest =>
      obtain ⟨u, hu, -⟩ := (Laid.next hblanks hapart hrest).front (hls l rfl)
      obtain ⟨c, v, htext, hc⟩ := hls l rfl
      rw [skipSpace_append hblanks, htext, List.cons_append, Grammar.skipSpace_cons hc,
        ← List.cons_append, ← htext]
      exact .next (List.forall_mem_nil _) hapart hrest

end Laid

/-! ## What follows

Whether a token ends where a lexeme does depends on the next lexeme. `Follows` keeps what the
lemmas on tokens have to know of it. -/

/-- The marks of the grammar that may stand behind a name or an operand. -/
def marks : List Char :=
  ['(', ')', ',', '/', '=', ':']

theorem isSpace_of_marks {c : Char} (hc : c ∈ marks) : isSpace c = false :=
  Token.not_of_stops (by decide) hc

/-- If there is a next lexeme, it is the word of an operator or one of the marks `ds`. -/
structure Follows (ds : List Char) (ls : List Lexeme) : Prop where
  next : ∀ n ∈ ls.head?, (∃ op : BinaryOperator, n = word op.word) ∨ ∃ c ∈ ds, n = mark c
  marks : ∀ c ∈ ds, c ∈ marks

namespace Follows

variable {ds : List Char} {l : Lexeme} {ls : List Lexeme} {t u : List Char} {c : Char}

theorem of_mark (hc : c ∈ FilterSql.marks) : Follows [c] (mark c :: ls) where
  next := by
    rintro n ⟨⟩
    exact .inr ⟨c, List.mem_singleton_self c, rfl⟩
  marks := by simpa using hc

theorem mono {es : List Char} (h : Follows ds ls) (hsub : ∀ c ∈ ds, c ∈ es)
    (hes : ∀ c ∈ es, c ∈ FilterSql.marks) :
    Follows es ls where
  next n hn := (h.next n hn).imp id fun ⟨c, hc, heq⟩ => ⟨c, hsub c hc, heq⟩
  marks := hes

theorem solid (h : Follows ds ls) : ∀ l ∈ ls.head?, l.Solid := by
  intro l hl
  rcases h.next l hl with ⟨op, rfl⟩ | ⟨c, hc, rfl⟩
  · exact Lexeme.solid_word op
  · exact Lexeme.solid_mark (isSpace_of_marks (h.marks c hc))

/-- The next lexeme begins with a character of an operator's word or with one of the marks `ds`. -/
theorem head (h : Follows ds ls) (hlaid : Laid ls t) :
    ∀ c ∈ (skipSpace t).head?, c ∈ ds ∨ Token.isNameChar c := by
  cases ls with
  | nil => rw [hlaid.skipSpace_nil]; nofun
  | cons l ls =>
      obtain ⟨u, hu, -⟩ := hlaid.front (h.solid l rfl)
      rw [hu]
      rcases h.next l rfl with ⟨op, rfl⟩ | ⟨c, hc, rfl⟩
      · obtain ⟨c, v, hshape, hc⟩ := Lexeme.word_front op
        rw [show (word op.word).text.toList = c :: v from hshape]
        rintro _ ⟨⟩
        exact .inr hc
      · rw [Lexeme.toList_mark]
        rintro _ ⟨⟩
        exact .inl hc

/-- No mark other than `ds` comes next. -/
theorem head_ne (h : Follows ds ls) (hlaid : Laid ls t) (hc : c ∉ ds)
    (hmark : Token.isNameChar c = false) :
    (skipSpace t).head? ≠ some c := by
  intro hhead
  rcases h.head hlaid c hhead with hmem | hname
  · exact hc hmem
  · rw [hmark] at hname
    cases hname

/-- Directly behind a lexeme stands a blank or one of the marks `ds`. -/
theorem behind (h : Follows ds ls) (hlaid : Laid ls u)
    (hapart : l.apart ls → ∃ c ∈ u.head?, isSpace c) :
    ∀ d ∈ u.head?, isSpace d ∨ d ∈ ds := by
  intro d hd
  by_cases hspace : isSpace d
  · exact .inl hspace
  obtain ⟨v, rfl⟩ := List.head?_eq_some_iff.mp hd
  have hskip : skipSpace (d :: v) = d :: v := Grammar.skipSpace_cons (by simpa using hspace)
  cases ls with
  | nil => cases hskip.symm.trans hlaid.skipSpace_nil
  | cons n ls =>
      rcases h.next n rfl with ⟨op, rfl⟩ | ⟨c, hc, rfl⟩
      · obtain ⟨e, ⟨⟩, he⟩ := hapart (by simp [Lexeme.apart, word])
        exact .inl he
      · obtain ⟨w, hw, -⟩ := hlaid.mark (isSpace_of_marks (h.marks c hc))
        cases hskip.symm.trans hw
        exact .inr hc

end Follows

theorem mem_stops_of_isSpace {d : Char} (hd : isSpace d) : d ∈ stops := by
  simp only [isSpace, Bool.or_eq_true, beq_iff_eq] at hd
  rcases hd with ((rfl | rfl) | rfl) | rfl <;> decide

/-- A token at the front. Directly behind it is the end, a blank or one of the marks `ds`, none of
which is a quotation mark. -/
theorem Laid.lexeme {ds : List Char} {x : String} {ls : List Lexeme} {t : List Char}
    (h : Laid ({ text := x } :: ls) t) (hx : Lexeme.Solid { text := x }) (hnext : Follows ds ls) :
    ∃ u, skipSpace t = x.toList ++ u ∧ Laid ls u ∧ (∀ d ∈ u.head?, d ∈ ':' :: stops) ∧
      u.head? ≠ some '\'' := by
  obtain ⟨u, hu, hapart, hrest⟩ := h.front hx
  have hbehind : ∀ d ∈ u.head?, isSpace d ∨ d ∈ marks := fun d hd =>
    (hnext.behind hrest hapart d hd).imp id (hnext.marks d)
  have hmarks : ∀ c ∈ marks, c ∈ ':' :: stops := by simp [marks, stops]
  refine ⟨u, hu, hrest, fun d hd => ?_, fun hquote => ?_⟩
  · rcases hbehind d hd with hspace | hmark
    · exact List.mem_cons_of_mem _ (mem_stops_of_isSpace hspace)
    · exact hmarks d hmark
  · rcases hbehind _ hquote with hspace | hmark
    · cases hspace
    · exact absurd hmark (by decide)

end FilterSql
