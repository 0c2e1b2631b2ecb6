import FilterSql.Proofs.Filter.Printing
import FilterSql.Proofs.Filter.Running

/-!
# What the grammar sees ahead

The alternatives of the grammar are told apart by the front of a text. These lemmas say what a
token gives in front of other text, and where an alternative gives nothing: in front of a mark that
opens nothing, a literal in front of a name, a quantifier without a bracket behind its word. The
last ones are about a name in front of a colon or an equals sign: an expression either does not
begin there or ends in front of that mark (`expression_alone`).
-/

namespace FilterSql

open Token (skipSpace isSpace stops Whole Free Closed)

namespace Grammar

variable {s r t u : List Char} {c d : Char} {p : Token.Pattern} {x : String}

/-! ## Tokens

`tokenAt p` gives what the pattern `p` takes as a string. -/

theorem tokenAt_none (h : p s = none) : tokenAt p s = none := by
  rw [tokenAt, Token.read?, h]
  rfl

theorem tokenAt_append (h : p (t ++ r) = some t.length) (ht : t ≠ []) :
    tokenAt p (t ++ r) = some (String.ofList t, r) := by
  rw [tokenAt, Token.read?, h]
  show taken (Option.map _ (Text.dropSome? _ _)) = _
  rw [Text.dropSome?, dif_pos ⟨List.length_pos_iff.mpr ht, by simp [ht]⟩]
  show some (String.ofList ((t ++ r).take t.length), (t ++ r).drop t.length) = _
  rw [List.take_left, List.drop_left]

theorem tokenAt_whole (h : Whole p x) (hx : x.toList ≠ []) (hr : ∀ d ∈ r.head?, Closed d p) :
    tokenAt p (x.toList ++ r) = some (x, r) := by
  rw [tokenAt_append (by rw [Closed.append hr]; exact h) hx, String.ofList_toList]

/-- What `tokenAt` gives stands at the front of the text, and the pattern takes all of it. -/
theorem tokenAt_eq_some (h : tokenAt p s = some (x, r))
    (hbound : ∀ {n}, p s = some n → n ≤ s.length) :
    s = x.toList ++ r ∧ p s = some x.toList.length := by
  obtain ⟨v, hv, heq⟩ := Option.map_eq_some_iff.mp h
  rw [Token.read?] at hv
  split at hv
  next => cases hv
  next n hn =>
    rw [Text.dropSome?] at hv
    split at hv
    next =>
      cases hv
      cases heq
      rw [String.toList_ofList]
      refine ⟨(List.take_append_drop n s).symm, ?_⟩
      rw [List.length_take, Nat.min_eq_left (hbound hn), hn]
    next => cases hv

theorem tokenAt_exactly {w : String} (h : tokenAt (Token.exactly w) s = some (x, r)) :
    s = w.toList ++ r := by
  have hbound {n : Nat} (hn : Token.exactly w s = some n) : n ≤ s.length := by
    obtain ⟨hfront, rfl⟩ := Token.exactly_eq_some.mp hn
    exact hfront.length_le
  obtain ⟨rfl, hx⟩ := tokenAt_eq_some h hbound
  obtain ⟨hfront, hlength⟩ := Token.exactly_eq_some.mp hx
  rw [(List.prefix_of_prefix_length_le hfront (List.prefix_append _ r)
    (Nat.le_of_eq hlength)).eq_of_length hlength]

/-- `Token.exactly w` finds the word `w` at the front. -/
theorem tokenAt_self {w : String} (hw : w.toList ≠ []) (r : List Char) :
    tokenAt (Token.exactly w) (w.toList ++ r) = some (w, r) := by
  rw [tokenAt_append (Token.exactly_eq_some.mpr ⟨List.prefix_append _ _, rfl⟩) hw,
    String.ofList_toList]

theorem behind_self (c : Char) (r : List Char) : behind c (c :: r) = some r := by
  rw [behind, if_pos rfl]

theorem behind_eq_some : behind c s = some r ↔ s = c :: r := by
  cases s with
  | nil => simp [behind]
  | cons d u =>
      rw [behind]
      split <;> simp_all

theorem behind_none (h : s.head? ≠ some c) : behind c s = none := by
  cases s with
  | nil => rfl
  | cons d r => rw [behind, if_neg fun hd => h (congrArg some hd)]

theorem skipSpace_cons (hc : isSpace c = false) : skipSpace (c :: r) = c :: r := by
  rw [skipSpace, List.dropWhile_cons_of_neg (by rw [hc]; decide)]

theorem skipSpace_idem (s : List Char) : skipSpace (skipSpace s) = skipSpace s := by
  induction s with
  | nil => rfl
  | cons c r ih =>
      by_cases hc : isSpace c
      · rw [show skipSpace (c :: r) = skipSpace r from List.dropWhile_cons_of_pos hc]
        exact ih
      · rw [skipSpace_cons (by simpa using hc), skipSpace_cons (by simpa using hc)]

/-- If a text begins with `c` behind its blanks, it begins with a blank or with `c`. -/
theorem head_of_skipSpace (h : skipSpace r = c :: u) : ∀ d ∈ r.head?, isSpace d ∨ d = c := by
  cases r with
  | nil => nofun
  | cons d v =>
      rintro d ⟨⟩
      by_cases hd : isSpace d
      · exact .inl hd
      · rw [skipSpace_cons (by simpa using hd)] at h
        exact .inr (List.cons.inj h).1

theorem stops_of_skipSpace (h : skipSpace r = c :: u) (hc : c ∈ ':' :: stops) :
    ∀ d ∈ r.head?, d ∈ ':' :: stops := by
  intro d hd
  rcases head_of_skipSpace h d hd with hspace | rfl
  · simp only [isSpace, Bool.or_eq_true, beq_iff_eq] at hspace
    rcases hspace with ((rfl | rfl) | rfl) | rfl <;> decide
  · exact hc

/-! ## Strings

The body of a string ends at the first apostrophe that is not doubled. -/

theorem stringBody_quotes :
    taken (Token.stringBody? ('\'' :: '\'' :: r)) = (taken (Token.stringBody? r)).map fun (cs, q) =>
      ('\'' :: cs, q) := by
  rw [Token.stringBody?]
  cases Token.stringBody? r <;> rfl

theorem stringBody_end (hr : r.head? ≠ some '\'') :
    taken (Token.stringBody? ('\'' :: r)) = some ([], r) := by
  cases r with
  | nil => rfl
  | cons d r =>
      rw [Token.stringBody?]
      · rfl
      · rintro r' ⟨⟩
        exact hr rfl

theorem stringBody_cons (hc : c ≠ '\'') :
    taken (Token.stringBody? (c :: r)) = (taken (Token.stringBody? r)).map fun (cs, q) =>
      (c :: cs, q) := by
  rw [Token.stringBody?]
  · cases Token.stringBody? r <;> rfl
  · rintro r' ⟨⟩
    exact absurd rfl hc
  · rintro ⟨⟩
    exact absurd rfl hc

/-- What `Text.double` has doubled is read as it was. -/
theorem stringBody_double (hr : r.head? ≠ some '\'') (cs : List Char) :
    taken (Token.stringBody? (Text.double '\'' cs ++ '\'' :: r)) = some (cs, r) := by
  induction cs with
  | nil => exact stringBody_end hr
  | cons c cs ih =>
      rw [Text.double_cons]
      by_cases hc : c = '\''
      · subst hc
        rw [if_pos rfl]
        show taken (Token.stringBody? ('\'' :: '\'' :: (Text.double '\'' cs ++ '\'' :: r))) = _
        rw [stringBody_quotes, ih, Option.map_some]
      · rw [if_neg hc]
        show taken (Token.stringBody? (c :: (Text.double '\'' cs ++ '\'' :: r))) = _
        rw [stringBody_cons hc, ih, Option.map_some]

theorem quotedAt_quote (hr : r.head? ≠ some '\'') (x : String) :
    quotedAt ((Text.quote '\'' x).toList ++ r) = some (x, r) := by
  rw [Text.quote, String.toList_ofList]
  show quotedAt ('\'' :: (Text.double '\'' x.toList ++ ['\''] ++ r)) = _
  rw [List.append_assoc, List.singleton_append]
  have hbody := stringBody_double hr x.toList
  rw [quotedAt, Token.string?]
  cases h : Token.stringBody? (Text.double '\'' x.toList ++ '\'' :: r) with
  | none => rw [h] at hbody; cases hbody
  | some v =>
      rw [h] at hbody
      obtain ⟨hcs, hq⟩ := Prod.mk.inj (Option.some.inj hbody)
      show some (String.ofList v.1, v.2.1) = _
      rw [hcs, hq, String.ofList_toList]

theorem quotedAt_none (hs : s.head? ≠ some '\'') : quotedAt s = none := by
  cases s with
  | nil => rfl
  | cons c r =>
      rw [quotedAt, Token.string?]
      · rfl
      · rintro r' ⟨⟩
        exact hs rfl

/-! ## Names

Many words of the grammar could begin a name. They are taken for words only if no character of a
name follows. -/

theorem name_shape (hx : Token.name s = some s.length) :
    ∃ c w, s = c :: w ∧ Token.isNameStart c ∧ ∀ d ∈ w, Token.isNameChar d := by
  obtain ⟨k, hk, m, hm, hsum⟩ := Token.seq_eq_some.mp hx
  obtain ⟨c, w, rfl, hc, rfl⟩ := Token.one_eq_some.mp hk
  rw [Token.row_single] at hm
  cases hm
  rw [List.drop_succ_cons, List.drop_zero, List.length_cons, Nat.add_comm] at hsum
  have hw : w.takeWhile Token.isNameChar = w :=
    (List.takeWhile_prefix Token.isNameChar).eq_of_length (Nat.succ.inj hsum)
  refine ⟨c, w, rfl, hc, fun d hd => ?_⟩
  rw [← hw] at hd
  exact List.all_eq_true.mp List.all_takeWhile d hd

/-- A pattern that ends in `notBefore isNameChar` takes all of a name, if it takes anything of
it. -/
theorem tokenAt_word {a : Token.Pattern}
    (hp : p = Token.seq a (Token.row [Token.notBefore Token.isNameChar])) (ha : ∀ s, a s ≠ some 0)
    (hclosed : ∀ d ∈ ':' :: stops, Closed d p) (hx : Whole Token.name x) (hpx : p x.toList ≠ none)
    (hr : ∀ d ∈ r.head?, d ∈ ':' :: stops) : tokenAt p (x.toList ++ r) = some (x, r) := by
  obtain ⟨c, w, hshape, hc, hw⟩ := name_shape hx
  refine tokenAt_whole ?_ (by rw [hshape]; nofun) fun d hd => hclosed d (hr d hd)
  obtain ⟨n, hn⟩ := Option.ne_none_iff_exists'.mp hpx
  have hle := (hclosed ' ' (by decide)).bounded hn
  rw [Whole, hn, Option.some.injEq]
  rw [hp, Token.row_single] at hn
  obtain ⟨k, hk, m, hm, rfl⟩ := Token.seq_eq_some.mp hn
  obtain ⟨hhead, rfl⟩ := Token.notBefore_eq_some.mp hm
  match k, hk with
  | 0, hk => exact absurd hk (ha _)
  | k + 1, hk =>
      -- What follows the word would be a character of the name, and the word does not allow that.
      rw [hshape] at hle hhead ⊢
      rw [List.drop_succ_cons] at hhead
      cases hdrop : w.drop k with
      | nil =>
          have := List.drop_eq_nil_iff.mp hdrop
          rw [List.length_cons] at hle ⊢
          omega
      | cons d v =>
          rw [hdrop] at hhead
          have hd : d ∈ w := List.mem_of_mem_drop (hdrop ▸ List.mem_cons_self)
          exact absurd (hw d hd) (by rw [hhead d rfl]; decide)

theorem name_ne_nil {n : Nat} (hx : Token.name s = some n) : s ≠ [] := by
  obtain ⟨c, w, rfl, -⟩ := Token.name_front hx
  exact List.cons_ne_nil c w

/-! ## Operators

Each word of an operator is read at one level and refused at the others. The words are no parts of
names, because a character of names must not follow them. -/

theorem closed_words (hd : Token.isNameChar d = false) : (l : Level) → Closed d l.words
  | .or => Token.closed_word hd (by decide)
  | .and => Token.closed_word hd (by decide)
  | .comparison => Token.closed_wordOf hd (by decide)
  | .additive => Token.closed_wordOf hd (by decide)
  | .multiplicative => Token.closed_wordOf hd (by decide)

theorem operator_none (l : Level) (hs : ∀ c ∈ s.head?, Token.isNameChar c = false) :
    (operator l s).run = none := by
  have hwords : l.words ([] ++ s) = l.words [] :=
    Closed.append (fun c hc => closed_words (hs c hc) l) []
  rw [operator_run, tokenAt_none, Option.bind_none]
  rw [← List.nil_append s, hwords]
  cases l <;> rfl

theorem operation_none (l : Level) (hs : ∀ c ∈ s.head?, Token.isNameChar c = false) :
    operation l s = none := by
  rw [operation, operator_none l hs, Option.bind_none]

/-- `operator` reads the word of an operator at the level of this operator. -/
theorem operator_word (op : BinaryOperator) (hr : ∀ c ∈ r.head?, Token.isNameChar c = false)
    (l : Level) (hl : op.level = l) : (operator l (op.word.toList ++ r)).run = some (op, r) := by
  have hwords : Whole l.words op.word := by
    subst hl
    rcases op with (_ | _ | _ | _ | _ | _) | (_ | _ | _ | _ | _) | _ | _ | _ <;> decide
  have hne : op.word.toList ≠ [] := by
    rcases op with (_ | _ | _ | _ | _ | _) | (_ | _ | _ | _ | _) | _ | _ | _ <;> decide
  rw [operator_run, tokenAt_whole hwords hne fun c hc => closed_words (hr c hc) l]
  simp only [Option.bind_some, BinaryOperator.ofWord?_word, Option.map_some]

/-- `operator` does not read the word of an operator of another level. -/
theorem operator_other (op : BinaryOperator) (hr : ∀ c ∈ r.head?, Token.isNameChar c = false)
    (l : Level) (hl : op.level ≠ l) : (operator l (op.word.toList ++ r)).run = none := by
  have hwords : l.words op.word.toList = none := by
    rcases op with (_ | _ | _ | _ | _ | _) | (_ | _ | _ | _ | _) | _ | _ | _ <;> cases l <;>
      first | decide | exact absurd rfl hl
  rw [operator_run, tokenAt_none, Option.bind_none]
  rw [Closed.append (fun c hc => closed_words (hr c hc) l), hwords]

/-! ## Through the levels

Between an expression and a unary filter there are five levels. A text without operators passes
through them unchanged, which is shown once by `Level.climb`. -/

/-- Induction on levels, from the tightest one up along `tighter?`. -/
theorem Level.climb {P : Level → Prop} (base : ∀ l : Level, l.tighter? = none → P l)
    (step : ∀ l m : Level, l.tighter? = some m → P m → P l) (l : Level) : P l := by
  have hmul := base .multiplicative rfl
  have hadd := step .additive _ rfl hmul
  have hcomparison := step .comparison _ rfl hadd
  have hand := step .and _ rfl hcomparison
  cases l with
  | multiplicative => exact hmul
  | additive => exact hadd
  | comparison => exact hcomparison
  | and => exact hand
  | or => exact step .or _ rfl hand

theorem operand_none (h : (unary s).run = none) (l : Level) : (operand l s).run = none := by
  induction l using Level.climb with
  | base l hl => rw [operand_run_unary hl, h]
  | step l m hl ih => rw [operand_run_tighter hl, binary_run, ih, Option.map_none]

theorem expression_none (h : (unary s).run = none) : (expression s).run = none := by
  rw [expression_run, binary_run, operand_none h, Option.map_none]

/-- Where no operator follows, `binary` reads the operand and the blanks behind it. -/
theorem binary_alone {l : Level} {f : Filter} (h : (operand l s).run = some (f, r))
    (hr : ∀ c ∈ (skipSpace r).head?, Token.isNameChar c = false) :
    (binary l s).run = some (f, skipSpace r) := by
  rw [binary_run, h]
  show some (binaryTail l f (skipSpace r)).run = _
  rw [binaryTail_run, operation_none l hr]

theorem operand_alone {f : Filter} (h : (unary s).run = some (f, r))
    (hr : ∀ c ∈ (skipSpace r).head?, Token.isNameChar c = false) (l : Level) :
    ∃ r', (operand l s).run = some (f, r') ∧ skipSpace r' = skipSpace r := by
  induction l using Level.climb with
  | base l hl => exact ⟨r, by rw [operand_run_unary hl, h], rfl⟩
  | step l m hl ih =>
      obtain ⟨r', hm, hskip⟩ := ih
      refine ⟨skipSpace r', ?_, by rw [skipSpace_idem, hskip]⟩
      rw [operand_run_tighter hl, binary_alone hm (hskip ▸ hr)]

theorem expression_operand {f : Filter} (h : (unary s).run = some (f, r))
    (hr : ∀ c ∈ (skipSpace r).head?, Token.isNameChar c = false) :
    (expression s).run = some (f, skipSpace r) := by
  obtain ⟨r', hor, hskip⟩ := operand_alone h hr .or
  rw [expression_run, binary_alone hor (hskip ▸ hr), hskip]

/-! ## Where nothing begins

For each reader the front of a text at which it fails. The alternatives of the grammar are tried in
order, so a later one is reached only where all earlier ones fail. -/

theorem unquotedAt_none {ps : List (LiteralKind × Token.Pattern)} (h : ∀ x ∈ ps, x.2 s = none) :
    unquotedAt s ps = none := by
  induction ps with
  | nil => rfl
  | cons x ps ih =>
      obtain ⟨hx, hps⟩ := List.forall_mem_cons.mp h
      rw [unquotedAt, tokenAt_none hx, ih hps]
      rfl

/-- If none of `Token.leading` stands at the front, `sign` fails, and so does every literal without
quotes. -/
theorem sign_none (h : ∀ a ∈ Token.leading, a s = none) : sign s = none := by
  rw [sign, tokenAt_none (h _ (by simp [Token.leading])),
    tokenAt_none (h _ (by simp [Token.leading]))]
  rfl

theorem literal_unquoted_none (h : ∀ a ∈ Token.leading, a s = none)
    (hquoted : s.head? ≠ some '\'') :
    (literal s).run = (enumMember s).run := by
  have hnull : tokenAt Token.null s = none := tokenAt_none (h _ (by simp [Token.leading]))
  have hrest : unquotedAt s Token.unquoted = none :=
    unquotedAt_none fun x hx =>
      h _ (by simp only [Token.leading, List.mem_cons,
        List.mem_map]; exact .inr (.inr (.inr ⟨x, hx, rfl⟩)))
  rw [literal_run, hnull, hrest, quotedAt_none hquoted]
  rfl

theorem name_none (hc : Token.isNameStart c = false) : Token.name (c :: r) = none :=
  Token.seq_eq_none (Token.one_of_not hc)

theorem qualifiedName_none (h : Token.name s = none) : Token.qualifiedName s = none :=
  Token.seq_eq_none h

theorem typeName_none (h : Token.name s = none) : Token.typeName s = none :=
  Token.seq_eq_none h

theorem enumMember_none (h : Token.qualifiedName s = none) : (enumMember s).run = none := by
  rw [enumMember_run, tokenAt_none h, Option.bind_none]

theorem call_none (h : called s = none) : (call s).run = none := by
  rw [call_run, h, Option.bind_none]

theorem called_none (h : Token.qualifiedName s = none) : called s = none := by
  rw [called, tokenAt_none h, Option.bind_none]

theorem called_none_of_bracket (hname : tokenAt Token.qualifiedName s = some (x, r))
    (hopen : (skipSpace r).head? ≠ some '(') : called s = none := by
  rw [called, hname]
  show (behind '(' (skipSpace r)).map _ = none
  rw [behind_none hopen, Option.map_none]

theorem moreSegments_none (h : s.head? ≠ some '/') : (moreSegments s).run = ([], s) := by
  rw [moreSegments_run, nextSegment, behind_none h, Option.bind_none]

theorem grouped_none (h : s.head? ≠ some '(') : grouped s = none := by
  rw [grouped, behind_none h, Option.bind_none]

theorem quantified_none {w : String} (h : Token.exactly w s = none) : quantified w s = none := by
  rw [quantified, tokenAt_none h, Option.bind_none]

theorem segment_none (hany : quantified "any" s = none) (hall : quantified "all" s = none)
    (hcount : Token.countWord s = none) (hname : Token.name s = none) : (segment s).run = none := by
  rw [segment_run, anySegment, allSegment, hany, hall, tokenAt_none hcount, tokenAt_none hname]
  rfl

theorem parameterAlias_none (h : s.head? ≠ some '@') : (parameterAlias s).run = none := by
  rw [parameterAlias_run, tokenAt_none, Option.map_none]
  cases s with
  | nil => rfl
  | cons c r => exact Token.seq_eq_none (Token.exactly_of_front rfl fun hc => h (congrArg some hc))

theorem isNameStart_eq_false (hc : Token.isNameChar c = false) (hdollar : c ≠ '$') :
    Token.isNameStart c = false := by
  rw [Token.isNameChar, Char.isAlphanum, Bool.or_eq_false_iff, Bool.or_eq_false_iff] at hc
  rw [Token.isNameStart, hc.1.1, hc.2, beq_eq_false_iff_ne.mpr hdollar]
  rfl

theorem typeName_run_none (h : Token.typeName s = none) : (typeName s).run = none := by
  rw [typeName_run, tokenAt_none h, Option.map_none]

/-- `unary` reads nothing from a mark that opens nothing. -/
theorem unary_of_mark (hc : Token.isNameChar c = false) (hmark : c ∉ ['-', '(', '\'', '@', '$'])
    (r : List Char) :
    (unary (c :: r)).run = none := by
  simp only [List.mem_cons, List.not_mem_nil, or_false, not_or] at hmark
  obtain ⟨hdash, hopen, hquote, hat, hdollar⟩ := hmark
  have hleading := Token.leading_of_mark hc hdash r
  have hname : Token.name (c :: r) = none := name_none (isNameStart_eq_false hc hdollar)
  have ha : c ≠ 'a' := Token.ne_of_isNameChar hc rfl
  rw [unary_run, signs_run, sign_none hleading]
  show (primary (c :: r)).run = none
  rw [primary_run, grouped_none (by simpa using hopen),
    literal_unquoted_none hleading (by simpa using hquote),
    enumMember_none (qualifiedName_none hname), call_none (called_none (qualifiedName_none hname)),
    typeName_run_none (typeName_none hname), parameterAlias_none (by simpa using hat), member_run,
    segment_none (quantified_none (Token.exactly_of_front rfl ha))
      (quantified_none (Token.exactly_of_front rfl ha))
      (Token.seq_eq_none (Token.exactly_of_front rfl hdollar)) hname]
  rfl

theorem expression_of_mark (hc : Token.isNameChar c = false)
    (hmark : c ∉ ['-', '(', '\'', '@', '$']) (r : List Char) :
    (expression (c :: r)).run = none :=
  expression_none (unary_of_mark hc hmark r)

theorem arguments_empty (r : List Char) : (arguments (')' :: r)).run = ([], ')' :: r) := by
  have hname : Token.name (')' :: r) = none := name_none rfl
  have hnamed : named (')' :: r) = none := by rw [named, tokenAt_none hname, Option.bind_none]
  rw [arguments_run, argument_run, hnamed, expression_of_mark rfl (by decide), Option.map_none]

/-- If a segment is `any()`, it is the alternative for `any()` that gives it. -/
theorem anySegment_of_nonempty (h : (segment s).run = some (.nonempty, r)) :
    anySegment s = some (.nonempty, r) := by
  rw [segment_run] at h
  rcases Option.or_eq_some_iff.mp h with h | ⟨-, h⟩
  · exact h
  rcases Option.or_eq_some_iff.mp h with h | ⟨-, h⟩
  · obtain ⟨t, -, ht⟩ := Option.bind_eq_some_iff.mp h
    obtain ⟨v, -, hv⟩ := Option.bind_eq_some_iff.mp ht
    obtain ⟨w, -, hw⟩ := Option.map_eq_some_iff.mp hv
    cases hw
  rcases Option.or_eq_some_iff.mp h with h | ⟨-, h⟩
  all_goals
    obtain ⟨v, -, hv⟩ := Option.map_eq_some_iff.mp h
    cases hv

/-- What is read as `any()` at the front of a path is a call as well. -/
theorem call_of_nonempty (h : (segment s).run = some (.nonempty, r)) : (call s).run ≠ none := by
  obtain ⟨t, ht, hclose⟩ := Option.bind_eq_some_iff.mp (anySegment_of_nonempty h)
  -- With an abstraction between the brackets it would have been read as a quantifier with a body.
  have hend : skipSpace t = ')' :: r := by
    cases habs : abstraction (skipSpace t) with
    | some v =>
        rw [habs] at hclose
        obtain ⟨w, -, hw⟩ := Option.map_eq_some_iff.mp hclose
        cases hw
    | none =>
        rw [habs] at hclose
        obtain ⟨w, hw, heq⟩ := Option.map_eq_some_iff.mp hclose
        cases heq
        rw [← skipSpace_idem]
        exact behind_eq_some.mp hw
  obtain ⟨⟨w, u⟩, hu, hopen⟩ := Option.bind_eq_some_iff.mp ht
  have hskip : skipSpace u = '(' :: t := behind_eq_some.mp hopen
  have hs : s = "any".toList ++ u := tokenAt_exactly hu
  have hcalled : called s = some ("any", t) := by
    rw [called, hs, tokenAt_whole (Token.qualifiedName_of_name (by decide)) (by decide) fun d hd =>
      Token.closed_qualifiedName (stops_of_skipSpace hskip (by decide) d hd)]
    show (behind '(' (skipSpace u)).map _ = _
    rw [hskip, behind_self, Option.map_some]
  rw [call_run, hcalled]
  show (behind ')' (skipSpace (arguments (skipSpace t)).run.2)).map _ ≠ none
  rw [hend, arguments_empty]
  nofun

/-! ## Names alone

A name `x` in front of a text `r` that does not go on with it. -/

section

variable (hx : Whole Token.name x) (hr : ∀ d ∈ r.head?, d ∈ ':' :: stops)
include hx hr

theorem tokenAt_name : tokenAt Token.name (x.toList ++ r) = some (x, r) :=
  tokenAt_whole hx (name_ne_nil hx) fun d hd => Token.closed_name (hr d hd)

theorem tokenAt_qualifiedName : tokenAt Token.qualifiedName (x.toList ++ r) = some (x, r) :=
  tokenAt_whole (Token.qualifiedName_of_name hx) (name_ne_nil hx) fun d hd =>
    Token.closed_qualifiedName (hr d hd)

variable (hopen : (skipSpace r).head? ≠ some '(')
include hopen

/-- A name is not `quantified` without a bracket behind it, whatever word it begins with. -/
theorem quantified_name {w : String} (hne : w.toList ≠ []) (hw : w.toList.all Token.isNameChar) :
    quantified w (x.toList ++ r) = none := by
  have hsame : Token.exactly w (x.toList ++ r) = Token.exactly w x.toList :=
    Closed.append (fun d hd =>
      .exactly (Token.not_mem_of_isNameChar (Token.not_of_stops (by decide) (hr d hd)) hw)) _
  cases hwx : Token.exactly w x.toList with
  | none => exact quantified_none (hsame.trans hwx)
  | some n =>
      obtain ⟨⟨v, hv⟩, rfl⟩ := Token.exactly_eq_some.mp hwx
      rw [quantified, ← hv, List.append_assoc, tokenAt_self hne]
      show behind '(' (skipSpace (v ++ r)) = none
      cases v with
      | nil => exact behind_none hopen
      | cons d v =>
          -- The word is the start of a longer name, and the rest of that is no bracket.
          obtain ⟨c, u, hshape, -, hu⟩ := name_shape hx
          have hd : Token.isNameChar d := by
            refine hu d ?_
            obtain ⟨e, z, he⟩ := List.exists_cons_of_ne_nil hne
            rw [hshape, he, List.cons_append] at hv
            rw [← (List.cons.inj hv).2]
            simp
          show behind '(' (skipSpace (d :: (v ++ r))) = none
          rw [skipSpace_cons (Token.isSpace_of_isNameChar hd)]
          exact behind_none fun h => by cases h; exact absurd hd (by decide)

theorem segment_name :
    (segment (x.toList ++ r)).run =
      some (if Token.countWord x.toList = none then .property x else .count, r) := by
  rw [segment_run, anySegment, allSegment, quantified_name hx hr hopen (by decide) (by decide),
    quantified_name hx hr hopen (by decide) (by decide), tokenAt_name hx hr]
  have hcount : ∀ d ∈ ':' :: stops, Closed d Token.countWord := fun d hd =>
    .seq (.exactly (Token.not_mem_of_stops (by decide) hd))
      (.seq (.notBefore (Token.not_of_stops (by decide) hd)) .nil)
  split
  next h =>
    rw [tokenAt_none ((Closed.append (fun d hd => hcount d (hr d hd)) _).trans h)]
    rfl
  next h =>
    rw [tokenAt_word (p := Token.countWord) rfl (Token.exactly_ne_zero (by decide)) hcount hx h hr]
    rfl

end

/-- At a name, `primary` cannot read brackets or an alias. -/
theorem primary_of_name {n : Nat} (hx : Token.name s = some n) :
    (primary s).run = (literal s).run.or
      ((call s).run.or ((typeName s).run.or (member s).run)) := by
  obtain ⟨c, w, rfl, hc⟩ := Token.name_front hx
  have hfront (d : Char) (hd : Token.isNameStart d = false) : (c :: w).head? ≠ some d := by
    rintro ⟨⟩
    rw [hc] at hd
    cases hd
  rw [primary_run, grouped_none (hfront '(' rfl), parameterAlias_none (hfront '@' rfl)]
  rfl

/-- `literal` reads nothing from a name that is `Free`. -/
theorem literal_of_name (hx : Whole Token.qualifiedName x) (hfree : Free x.toList)
    (hr : ∀ d ∈ r.head?, d ∈ ':' :: stops) (hquote : r.head? ≠ some '\'') :
    (literal (x.toList ++ r)).run = none := by
  obtain ⟨k, hk⟩ := Token.name_of_qualifiedName hx
  obtain ⟨c, w, hshape, hc⟩ := Token.name_front hk
  have hfront : (x.toList ++ r).head? ≠ some '\'' := by
    rw [hshape]
    rintro ⟨⟩
    exact absurd hc (by decide)
  have hname : tokenAt Token.qualifiedName (x.toList ++ r) = some (x, r) :=
    tokenAt_whole hx (by rw [hshape]; nofun) fun d hd => Token.closed_qualifiedName (hr d hd)
  rw [literal_unquoted_none (Token.leading_of_name hx hfree hr) hfront, enumMember_run, hname]
  show (quotedAt r).map _ = none
  rw [quotedAt_none hquote, Option.map_none]

section

variable (hx : Whole Token.name x) (hr : ∀ d ∈ r.head?, d ∈ ':' :: stops)
include hx hr

theorem tokenAt_notWord (h : Token.notWord x.toList ≠ none) :
    tokenAt Token.notWord (x.toList ++ r) = some (x, r) :=
  tokenAt_word (p := Token.notWord) rfl (Token.exactly_ne_zero (by decide))
    (fun _ hd => Token.closed_notWord (Token.not_of_stops (by decide) hd)) hx h hr

theorem tokenAt_null (h : Token.null x.toList ≠ none) :
    tokenAt Token.null (x.toList ++ r) = some (x, r) :=
  tokenAt_word (p := Token.null) rfl (Token.seq_ne_zero Token.one_ne_zero)
    (fun _ hd => Token.closed_null (Token.not_of_stops (by decide) hd)) hx h hr

theorem tokenAt_boolean (h : Token.boolean x.toList ≠ none) :
    tokenAt Token.boolean (x.toList ++ r) = some (x, r) :=
  tokenAt_word (p := Token.boolean) rfl (Token.choice_ne_zero (by decide))
    (fun _ hd => Token.closed_boolean (Token.not_of_stops (by decide) hd)) hx h hr

theorem sign_of_name :
    sign (x.toList ++ r) = if Token.notWord x.toList = none then none else some (.not, r) := by
  obtain ⟨c, w, hshape, hc, -⟩ := name_shape hx
  have hminus : tokenAt Token.minusSign (x.toList ++ r) = none := by
    refine tokenAt_none ?_
    rw [hshape]
    exact Token.figures_of_not (Token.isDigit_of_isNameStart hc)
      (by rintro rfl; exact absurd hc (by decide)) _ _
      List.mem_cons_self
  rw [sign, hminus]
  split
  next h =>
    rw [tokenAt_none]
    · rfl
    · rw [Closed.append fun d hd =>
        Token.closed_notWord (Token.not_of_stops (by decide) (hr d hd)), h]
  next h =>
    rw [tokenAt_notWord hx hr h]
    rfl

/-- If no bracket, slash or quotation mark is behind a name, `primary` reads something that ends
with it. -/
theorem primary_alone (hnot : Token.notWord x.toList = none)
    (hopen : (skipSpace r).head? ≠ some '(') (hslash : (skipSpace r).head? ≠ some '/')
    (hquote : r.head? ≠ some '\'') :
    ∃ f t, (primary (x.toList ++ r)).run = some (f, t) ∧ skipSpace t = skipSpace r := by
  have hname : Token.name (x.toList ++ r) = some x.toList.length :=
    (Closed.append (fun d hd => Token.closed_name (hr d hd)) _).trans hx
  rw [primary_of_name hname]
  -- The name may be `null` or a truth value. Else it is a member, since no bracket stands behind
  -- it.
  by_cases hnull : Token.null x.toList = none
  · by_cases hboolean : Token.boolean x.toList = none
    · have htype : Token.typeName (x.toList ++ r) = none :=
        (Closed.append (fun d hd => Token.closed_typeName (hr d hd)) _).trans
          (Token.typeName_of_name hx)
      have hcalled : called (x.toList ++ r) = none :=
        called_none_of_bracket (tokenAt_qualifiedName hx hr) hopen
      rw [literal_of_name (Token.qualifiedName_of_name hx) ⟨hnot, hnull, hboolean⟩ hr hquote,
        call_none hcalled, typeName_run_none htype, member_run, segment_name hx hr hopen]
      refine ⟨_, _, rfl, ?_⟩
      rw [moreSegments_none hslash, skipSpace_idem]
    · refine ⟨.literal ⟨x, .boolean⟩, r, ?_, rfl⟩
      rw [literal_run, tokenAt_none, Token.unquoted, unquotedAt, tokenAt_boolean hx hr hboolean]
      · rfl
      · rw [Closed.append fun d hd =>
          Token.closed_null (Token.not_of_stops (by decide) (hr d hd)), hnull]
  · refine ⟨.literal .null, r, ?_, rfl⟩
    rw [literal_run, tokenAt_null hx hr hnull]
    rfl

end

/-- If `expression` reads anything from a name with `:` or `=` behind it, it ends in front of that
mark. -/
theorem expression_alone (hx : Whole Token.name x) (hr : ∀ d ∈ r.head?, d ∈ ':' :: stops)
    (hc : skipSpace r = c :: u) (hmark : c ∈ [':', '=']) {f : Filter} {t : List Char}
    (h : (expression (x.toList ++ r)).run = some (f, t)) :
    skipSpace t = c :: u := by
  have hother (d : Char) (hd : d ∉ [':', '=']) : (skipSpace r).head? ≠ some d := by
    rw [hc]
    rintro ⟨⟩
    exact hd hmark
  have hquote : r.head? ≠ some '\'' := by
    intro hhead
    obtain ⟨v, rfl⟩ := List.head?_eq_some_iff.mp hhead
    cases hc
    exact absurd hmark (by decide)
  by_cases hnot : Token.notWord x.toList = none
  · obtain ⟨g, v, hprimary, hv⟩ :=
      primary_alone hx hr hnot (hother _ (by decide)) (hother _ (by decide)) hquote
    have hunary : (unary (x.toList ++ r)).run = some (g, v) := by
      rw [unary_run, signs_run, sign_of_name hx hr, if_pos hnot]
      exact hprimary
    have hend : ∀ d ∈ (skipSpace v).head?, Token.isNameChar d = false := by
      rw [hv, hc]
      rintro d ⟨⟩
      exact Token.not_of_stops (by decide) hmark
    rw [expression_operand hunary hend, hv] at h
    cases h
    rw [skipSpace_idem, hc]
  · -- The word is the operator `not`, and neither mark starts an operand for it.
    have hunary : (unary (x.toList ++ r)).run = none := by
      rw [unary_run, signs_run, sign_of_name hx hr, if_neg hnot]
      show (signs (skipSpace r)).run.map _ = none
      have hopens : ∀ d ∈ [':', '='], d ∉ ['-', '(', '\'', '@', '$'] := by simp
      rw [← unary_run, hc, unary_of_mark (Token.not_of_stops (by decide) hmark) (hopens c hmark),
        Option.map_none]
    rw [expression_none hunary] at h
    cases h

end Grammar

end FilterSql
