import FilterSql.Filter.Basic
import FilterSql.Proofs.Filter.Patterns

/-!
# What tokens match

The names, words and literals of the filter language, and the laws of patterns that each of them
satisfies. The rest of the development needs two results: no text is one of the `leading` tokens in
full and begins with another one that is tried earlier (`leading_exclusive`), and a name that is no
reserved word begins with none of them (`leading_of_name`).
-/

namespace FilterSql.Token

variable {p q : Char → Bool} {a b : Pattern} {s t r : List Char} {c d : Char} {n m k : Nat}
    {w : String}

/-! ## Characters

Classes of characters as the patterns test them. The proofs need only that digits and letters are
characters of names, and that blanks are not. -/

theorem isAlpha_iff : c.isAlpha ↔ 65 ≤ c.toNat ∧ c.toNat ≤ 90 ∨ 97 ≤ c.toNat ∧ c.toNat ≤ 122 := by
  show (decide ('A'.val ≤ c.val ∧
    c.val ≤ 'Z'.val) || (decide ('a'.val ≤ c.val) && decide (c.val ≤ 'z'.val))) = true ↔ _
  simp only [Bool.or_eq_true, Bool.and_eq_true, decide_eq_true_eq, UInt32.le_iff_toNat_le]
  exact Iff.rfl

theorem isDigit_iff : c.isDigit ↔ 48 ≤ c.toNat ∧ c.toNat ≤ 57 := by
  show (decide ('0'.val ≤ c.val) && decide (c.val ≤ '9'.val)) = true ↔ _
  simp only [Bool.and_eq_true, decide_eq_true_eq, UInt32.le_iff_toNat_le]
  exact Iff.rfl

theorem isDigit_of_isNameStart (h : isNameStart c) : c.isDigit = false := by
  rw [isNameStart, Bool.or_eq_true, Bool.or_eq_true, isAlpha_iff, beq_iff_eq, beq_iff_eq] at h
  rw [← Bool.not_eq_true, isDigit_iff]
  rcases h with (h | rfl) | rfl
  · omega
  · decide
  · decide

theorem isNameChar_of_isHexDigit (h : isHexDigit c) : isNameChar c := by
  simp only [isHexDigit, Bool.or_eq_true, Bool.and_eq_true, decide_eq_true_eq, Char.le_def,
    UInt32.le_iff_toNat_le, isDigit_iff] at h
  change (_ ∨ 97 ≤ c.toNat ∧ c.toNat ≤ 102) ∨ 65 ≤ c.toNat ∧ c.toNat ≤ 70 at h
  rw [isNameChar, Char.isAlphanum, Bool.or_eq_true, Bool.or_eq_true, isAlpha_iff, isDigit_iff]
  omega

/-- A class `p` that holds of none of the four blanks holds of no `isSpace`. -/
theorem isSpace_eq_false (hp : [' ', '\t', '\r', '\n'].all fun d => !p d) (h : p c) :
    isSpace c = false := by
  cases hc : isSpace c with
  | false => rfl
  | true =>
      have hmem : c ∈ [' ', '\t', '\r', '\n'] := by simpa [isSpace, or_assoc] using hc
      have := List.all_eq_true.mp hp c hmem
      rw [h] at this
      cases this

theorem isSpace_of_isNameChar (h : isNameChar c) : isSpace c = false :=
  isSpace_eq_false (by decide) h

theorem isSpace_of_isNameStart (h : isNameStart c) : isSpace c = false :=
  isSpace_eq_false (by decide) h

theorem isNameChar_of_isSpace (h : isSpace c) : isNameChar c = false := by
  cases hc : isNameChar c with
  | false => rfl
  | true => rw [isSpace_of_isNameChar hc] at h; cases h

/-! ## Names

The laws of `Token.Pattern` for each pattern of names: it takes at least one character, it is
`Closed` in front of all `stops` and of a colon, its match can stand alone (`Cuts`), and it ends
where no character of names follows (`Halts`). -/

theorem one_ne_zero (s : List Char) : one p s ≠ some 0 := by
  intro h
  obtain ⟨-, -, -, -, h0⟩ := one_eq_some.mp h
  cases h0

theorem exactly_ne_zero (hw : w.toList ≠ []) (s : List Char) : exactly w s ≠ some 0 :=
  fun h => hw (List.length_eq_zero_iff.mp (exactly_eq_some.mp h).2)

theorem seq_ne_zero (ha : ∀ s, a s ≠ some 0) (s : List Char) : seq a b s ≠ some 0 := by
  intro h
  obtain ⟨k, hk, m, -, hsum⟩ := seq_eq_some.mp h
  cases (Nat.add_eq_zero_iff.mp hsum).1
  exact ha s hk

/-- What may stand directly behind a token of a printed filter. The colon behind a variable is not
in it. -/
def stops : List Char :=
  [' ', '\t', '\r', '\n', '(', ')', ',', '/', '=', '\'']

theorem not_of_stops {ds : List Char} (h : ds.all fun c => !p c) (hd : d ∈ ds) : p d = false := by
  simpa using List.all_eq_true.mp h d hd

theorem not_mem_of_stops {ds : List Char} (h : ds.all fun c => !w.toList.contains c) (hd : d ∈ ds) :
    d ∉ w.toList := by
  simpa using List.all_eq_true.mp h d hd

section

variable (hd : d ∈ ':' :: stops)
include hd

theorem closed_name : Closed d name :=
  .seq (.one (not_of_stops (by decide) hd)) (.seq (.many (not_of_stops (by decide) hd)) .nil)

theorem closed_pointName : Closed d pointName :=
  .seq (.exactly (not_mem_of_stops (by decide) hd)) (.seq (closed_name hd) .nil)

end

theorem pointName_ne_zero : ∀ s, pointName s ≠ some 0 :=
  seq_ne_zero (exactly_ne_zero (by decide))

theorem closed_points (hd : d ∈ ':' :: stops) : Closed d fun s => some (star pointName s) :=
  (closed_pointName hd).star pointName_ne_zero

theorem closed_qualifiedName (hd : d ∈ ':' :: stops) : Closed d qualifiedName :=
  .seq (closed_name hd) (.seq (closed_points hd) .nil)

theorem closed_typeName (hd : d ∈ ':' :: stops) : Closed d typeName :=
  .seq (closed_name hd) (.seq (closed_pointName hd) (.seq (closed_points hd) .nil))

theorem cuts_name : Cuts name :=
  .seq .one (.seq .many .nil)

theorem cuts_pointName : Cuts pointName :=
  .seq .exactly (.seq cuts_name .nil)

theorem lasting_pointName : Lasting pointName := by
  rw [pointName, row_cons, row_single, name, row_cons, row_single]
  exact .seq .exactly (.seq .one (.always fun _ => nofun))

theorem bounded_pointName (h : pointName s = some n) : n ≤ s.length :=
  (closed_pointName (d := ' ') (by decide)).bounded h

theorem cuts_points : Cuts fun s => some (star pointName s) :=
  .star cuts_pointName lasting_pointName bounded_pointName pointName_ne_zero

theorem cuts_qualifiedName : Cuts qualifiedName :=
  .seq cuts_name (.seq cuts_points .nil)

theorem cuts_typeName : Cuts typeName :=
  .seq cuts_name (.seq cuts_pointName (.seq cuts_points .nil))

theorem halts_name : Halts isNameChar name := by
  rw [name, row_cons, row_single]
  exact .seq .many

theorem halts_pointName : Halts isNameChar pointName := by
  rw [pointName, row_cons, row_single]
  exact .seq halts_name

theorem halts_qualifiedName : Halts isNameChar qualifiedName := by
  rw [qualifiedName, row_cons, row_single]
  exact .star halts_name halts_pointName bounded_pointName pointName_ne_zero

theorem halts_typeName : Halts isNameChar typeName := by
  rw [typeName, row_cons, row_cons, row_single]
  exact .seq (.star halts_pointName halts_pointName bounded_pointName pointName_ne_zero)

theorem over_name (hp : ∀ c, isNameStart c || isNameChar c → p c) : Over p name :=
  .seq (.one fun c hc => hp c (by simp [hc])) (.seq (.many fun c hc => hp c (by simp [hc])) .nil)

theorem name_front (h : name s = some n) : ∃ c r, s = c :: r ∧ isNameStart c := by
  obtain ⟨k, hk, -⟩ := seq_eq_some.mp h
  obtain ⟨c, r, hs, hc, -⟩ := one_eq_some.mp hk
  exact ⟨c, r, hs, hc⟩

theorem name_of_qualifiedName (h : qualifiedName s = some n) : ∃ k, name s = some k := by
  obtain ⟨k, hk, -⟩ := seq_eq_some.mp h
  exact ⟨k, hk⟩

/-- A single `name` is also a `qualifiedName`. -/
theorem qualifiedName_of_name (h : name s = some s.length) : qualifiedName s = some s.length := by
  rw [qualifiedName, row_cons, row_single, seq_eq_some]
  refine ⟨s.length, h, _, rfl, ?_⟩
  rw [List.drop_length, star_of_none rfl, Nat.add_zero]

theorem typeName_of_name (h : name s = some s.length) : typeName s = none := by
  cases ht : typeName s with
  | none => rfl
  | some n =>
      obtain ⟨k, hk, m, hm, -⟩ := seq_eq_some.mp ht
      cases h.symm.trans hk
      rw [List.drop_length] at hm
      cases hm

theorem qualifiedName_of_typeName (h : typeName s = some n) : qualifiedName s = some n := by
  rw [typeName, row_cons, row_cons, row_single] at h
  obtain ⟨k, hk, m, hm, rfl⟩ := seq_eq_some.mp h
  obtain ⟨i, hi, j, hj, rfl⟩ := seq_eq_some.mp hm
  rw [qualifiedName, row_cons, row_single, seq_eq_some]
  refine ⟨k, hk, _, rfl, ?_⟩
  cases hj
  match i, hi with
  | 0, hi => exact absurd hi (pointName_ne_zero _)
  | i + 1, hi => rw [star_of_some hi (bounded_pointName hi)]

/-! ## Words

A word is matched only if no character of a name follows it. -/

/-- No word stands at the front of the text that is read as `not`, as `null` or as a boolean. -/
structure Free (s : List Char) : Prop where
  not : notWord s = none
  null : null s = none
  boolean : boolean s = none

/-- `word w` matches the same in front of a text that does not go on with a character of names. -/
theorem word_append (h : word w t = some n) (hr : ∀ c ∈ r.head?, isNameChar c = false) :
    word w (t ++ r) = some n := by
  rw [word, row_cons, row_single] at h ⊢
  obtain ⟨k, hk, m, hm, rfl⟩ := seq_eq_some.mp h
  refine seq_eq_some.mpr ⟨k, Rigid.exactly.same r hk, m, ?_, rfl⟩
  rw [List.drop_append_of_le_length (Rigid.exactly.bounded hk)]
  obtain ⟨hc, rfl⟩ := notBefore_eq_some.mp hm
  refine notBefore_eq_some.mpr ⟨?_, rfl⟩
  cases hdrop : t.drop k with
  | nil => exact hr
  | cons c u => rw [hdrop] at hc; exact hc

/-- A choice of words that are not empty never takes `0` characters. -/
theorem choice_ne_zero {ws : List String} (h : ∀ u ∈ ws, u.toList ≠ []) (s : List Char) :
    ws.foldr (fun u p => alt (exactly u) p) (fun _ => none) s ≠ some 0 := by
  induction ws with
  | nil => nofun
  | cons u ws ih =>
      obtain ⟨hu, hws⟩ := List.forall_mem_cons.mp h
      intro h0
      rcases alt_eq_some.mp h0 with h0 | ⟨-, h0⟩
      · exact exactly_ne_zero hu s h0
      · exact ih hws h0

section

variable (hd : isNameChar d = false)
include hd

theorem ne_of_isNameChar (hc : isNameChar c) : d ≠ c := by
  rintro rfl
  rw [hd] at hc
  cases hc

theorem not_mem_of_isNameChar (h : w.toList.all isNameChar) : d ∉ w.toList :=
  fun hmem => ne_of_isNameChar hd (List.all_eq_true.mp h d hmem) rfl

theorem closed_word (h : w.toList.all isNameChar) : Closed d (word w) :=
  .seq (.exactly (not_mem_of_isNameChar hd h)) (.seq (.notBefore hd) .nil)

theorem closed_notWord : Closed d notWord :=
  closed_word hd (by decide)

theorem closed_wordOf {ws : List String} (h : ∀ u ∈ ws, u.toList.all isNameChar) :
    Closed d (wordOf ws) := by
  refine .seq ?_ (.seq (.notBefore hd) .nil)
  induction ws with
  | nil => exact .never
  | cons u ws ih =>
      obtain ⟨hu, hws⟩ := List.forall_mem_cons.mp h
      exact .alt (.exactly (not_mem_of_isNameChar hd hu)) (ih hws)

theorem closed_boolean : Closed d boolean :=
  closed_wordOf hd (by decide)

theorem toLower_of_not_isNameChar : d.toLower = d := by
  refine dif_neg ?_
  rintro ⟨hA, hZ⟩
  have hname : isNameChar d := by
    rw [isNameChar, Char.isAlphanum, Bool.or_eq_true, Bool.or_eq_true, isAlpha_iff]
    exact .inl (.inl (.inl ⟨UInt32.le_iff_toNat_le.mp hA, UInt32.le_iff_toNat_le.mp hZ⟩))
  rw [hd] at hname
  cases hname

theorem closed_null : Closed d null := by
  have letter (c : Char) (hc : isNameChar c) : (d.toLower == c) = false := by
    rw [toLower_of_not_isNameChar hd]
    exact beq_eq_false_iff_ne.mpr (ne_of_isNameChar hd hc)
  refine .seq ?_ (.seq (.notBefore hd) .nil)
  exact .seq (.one (letter _ rfl))
    (.seq (.one (letter _ rfl)) (.seq (.one (letter _ rfl)) (.seq (.one (letter _ rfl)) .nil)))

theorem isHexDigit_eq_false : isHexDigit d = false := by
  cases hex : isHexDigit d with
  | false => rfl
  | true => rw [isNameChar_of_isHexDigit hex] at hd; cases hd

theorem closed_guid (hdash : d ≠ '-') : Closed d guid := by
  have hex := isHexDigit_eq_false hd
  have dash : Closed d (exactly "-") := .exactly (by simpa using hdash)
  exact .seq (.count hex 8) <| .seq dash <| .seq (.count hex 4) <| .seq dash <|
    .seq (.count hex 4) <| .seq dash <|
    .seq (.count hex 4) <| .seq dash <| .seq (.count hex 12) <| .seq (.notBefore hd) .nil

end

/-! ## Literals

The patterns of `leading` are those of operators and literals, in the order in which they are
tried. In front of `stops` they match as if the text ended there (`closed_leading`), and what they
match can stand alone (`cuts_unquoted`). -/

/-- The literals without quotation marks apart from `null`, in the order in which they are tried. -/
def unquoted : List (LiteralKind × Pattern) :=
  [(.boolean, boolean), (.dateTimeOffset, dateTimeOffset), (.date, date), (.timeOfDay, timeOfDay),
    (.guid, guid),
   (.double, double), (.decimal, decimal), (.integer, integer)]

/-- The patterns that are tried at the front of an operand before those for strings and names. -/
def leading : List Pattern :=
  notWord :: minusSign :: null :: unquoted.map (·.2)

section

variable (hd : d ∈ stops)
include hd

theorem closed_digits : Closed d (many1 Char.isDigit) :=
  .many1 (not_of_stops (by decide) hd)

theorem closed_two : Closed d (count Char.isDigit 2) :=
  .count (not_of_stops (by decide) hd) 2

theorem closed_mark (h : stops.all fun c => !w.toList.contains c) : Closed d (exactly w) :=
  .exactly (not_mem_of_stops h hd)

theorem closed_end (h : stops.all fun c => !p c) : Closed d (row [notBefore p]) :=
  .seq (.notBefore (not_of_stops h hd)) .nil

theorem closed_datePart : Closed d datePart :=
  .seq (.count (not_of_stops (by decide) hd) 4) <| .seq (closed_mark hd (by decide)) <|
    .seq (closed_two hd) <|
    .seq (closed_mark hd (by decide)) <| .seq (closed_two hd) .nil

theorem closed_timePart : Closed d timePart :=
  .seq (closed_two hd) <| .seq (closed_mark hd (by decide)) <| .seq (closed_two hd) <| .seq
    (.opt <| .seq (closed_mark hd (by decide)) <| .seq (closed_two hd) <| .seq
      (.opt <| .seq (closed_mark hd (by decide)) <| .seq (closed_digits hd) .nil) .nil) .nil

theorem closed_sign : Closed d sign :=
  .alt (closed_mark hd (by decide)) (closed_mark hd (by decide))

theorem closed_exponent : Closed d exponent :=
  .seq (.one (not_of_stops (p := fun c => c == 'e' || c == 'E') (by decide) hd)) <|
    .seq (.opt (closed_sign hd)) <| .seq (closed_digits hd) .nil

theorem closed_leading : ∀ a ∈ leading, Closed d a := by
  have hname : isNameChar d = false := not_of_stops (by decide) hd
  have hdash : d ≠ '-' := by
    rintro rfl
    revert hd
    decide
  simp only [leading, unquoted, List.map_cons, List.map_nil, List.forall_mem_cons, List.not_mem_nil,
    false_implies, implies_true, and_true]
  refine ⟨?not, ?minus, ?null, ?boolean, ?instant, ?date, ?time, ?guid, ?double, ?decimal, ?integer⟩
  case not => exact closed_word hname (by decide)
  case minus => exact .seq (closed_mark hd (by decide)) (closed_end hd (by decide))
  case null => exact closed_null hname
  case boolean => exact closed_boolean hname
  case instant =>
    exact .seq (closed_datePart hd) <| .seq (closed_mark hd (by decide)) <|
      .seq (closed_timePart hd) <| .seq
      (.alt (closed_mark hd (by decide)) <| .seq (closed_sign hd) <| .seq (closed_two hd) <|
        .seq (closed_mark hd (by decide)) <| .seq (closed_two hd) .nil) .nil
  case date => exact .seq (closed_datePart hd) (closed_end hd (by decide))
  case time => exact .seq (closed_timePart hd) (closed_end hd (by decide))
  case guid => exact closed_guid hname hdash
  case double =>
    exact .seq (.opt (closed_mark hd (by decide))) <| .seq (closed_digits hd) <| .seq
      (.opt <| .seq (closed_mark hd (by decide)) <| .seq (closed_digits hd) .nil) <|
        .seq (closed_exponent hd) <|
      closed_end hd (by decide)
  case decimal =>
    exact .seq (.opt (closed_mark hd (by decide))) <| .seq (closed_digits hd) <|
      .seq (closed_mark hd (by decide)) <|
      .seq (closed_digits hd) <| closed_end hd (by decide)
  case integer =>
    exact .seq (.opt (closed_mark hd (by decide))) <| .seq (closed_digits hd) <|
      closed_end hd (by decide)

end

theorem cuts_fraction : Cuts (row [exactly ".", many1 Char.isDigit]) :=
  .seq .exactly (.seq .many1 .nil)

theorem lasting_fraction : Lasting (row [exactly ".", many1 Char.isDigit]) := by
  rw [row_cons, row_single]
  exact .seq .exactly .many1

theorem cuts_datePart : Cuts datePart :=
  .seq (.count 4) <| .seq .exactly <| .seq (.count 2) <| .seq .exactly <| .seq (.count 2) .nil

theorem cuts_timePart : Cuts timePart := by
  have hlast : Lasting (row [exactly ":", count Char.isDigit 2,
    opt (row [exactly ".", many1 Char.isDigit])]) := by
    rw [row_cons, row_cons, row_single]
    exact .seq .exactly (.seq (.count 2) (.always fun _ => nofun))
  exact .seq (.count 2) <| .seq .exactly <| .seq (.count 2) <|
    .seq (.opt (.seq .exactly <| .seq (.count 2) <|
      .seq (.opt cuts_fraction lasting_fraction) .nil) hlast) .nil

theorem cuts_mark (w : String) : Cuts (opt (exactly w)) :=
  .opt .exactly (.of_rigid .exactly)

theorem cuts_sign : Cuts sign :=
  .alt .exactly (.of_rigid .exactly) .exactly

theorem cuts_exponent : Cuts exponent :=
  .seq .one <| .seq (.opt cuts_sign (.alt (.of_rigid .exactly) (.of_rigid .exactly))) <|
    .seq .many1 .nil

theorem cuts_end : Cuts (row [notBefore p]) :=
  .seq .notBefore .nil

theorem cuts_unquoted : ∀ x ∈ unquoted, Cuts x.2 := by
  simp only [unquoted, List.forall_mem_cons, List.not_mem_nil, false_implies,
    implies_true, and_true]
  refine ⟨?boolean, ?instant, ?date, ?time, ?guid, ?double, ?decimal, ?integer⟩
  case boolean =>
    exact .seq (.alt .exactly (.of_rigid .exactly)
      (.alt .exactly (.of_rigid .exactly) .never)) cuts_end
  case instant =>
    exact .seq cuts_datePart <| .seq .exactly <| .seq cuts_timePart <|
      .seq (.alt .exactly (.of_rigid .exactly) <|
      .seq cuts_sign <| .seq (.count 2) <| .seq .exactly <| .seq (.count 2) .nil) .nil
  case date => exact .seq cuts_datePart cuts_end
  case time => exact .seq cuts_timePart cuts_end
  case guid =>
    exact .seq (.count 8) <| .seq .exactly <| .seq (.count 4) <| .seq .exactly <| .seq (.count 4) <|
      .seq .exactly <|
      .seq (.count 4) <| .seq .exactly <| .seq (.count 12) cuts_end
  case double =>
    exact .seq (cuts_mark _) <| .seq .many1 <| .seq (.opt cuts_fraction lasting_fraction) <|
      .seq cuts_exponent cuts_end
  case decimal => exact .seq (cuts_mark _) <| .seq .many1 <| .seq .exactly <| .seq .many1 cuts_end
  case integer => exact .seq (cuts_mark _) <| .seq .many1 cuts_end

/-! ### Characters of literals

Two kinds are often told apart by a character that one of them needs and the other cannot have. -/

/-- A digit, or one of the characters of `w`. -/
def figure (w : String) (c : Char) : Bool :=
  c.isDigit || w.toList.contains c

theorem figure_of_isDigit (c : Char) (hc : c.isDigit) : figure w c := by
  rw [figure, hc, Bool.true_or]

section

variable (hd : ∀ c, c.isDigit → p c)
include hd

theorem over_datePart (hdash : "-".toList.all p) : Over p datePart :=
  .seq (.count hd 4) <| .seq (.exactly hdash) <| .seq (.count hd 2) <| .seq (.exactly hdash) <|
    .seq (.count hd 2) .nil

theorem over_fraction (hpoint : ".".toList.all p) :
    Over p (row [exactly ".", many1 Char.isDigit]) :=
  .seq (.exactly hpoint) <| .seq (.many1 hd) .nil

theorem over_timePart (hcolon : ":".toList.all p) (hpoint : ".".toList.all p) : Over p timePart :=
  .seq (.count hd 2) <| .seq (.exactly hcolon) <| .seq (.count hd 2) <| .seq
    (.opt <| .seq (.exactly hcolon) <| .seq (.count hd 2) <|
      .seq (.opt (over_fraction hd hpoint)) .nil) .nil

end

theorem over_end : Over p (row [notBefore q]) :=
  .seq .notBefore .nil

theorem over_minusSign : Over (figure "-") minusSign :=
  .seq (.exactly (by decide)) over_end

theorem over_null : Over (fun c => "nul".toList.contains c.toLower) null := by
  have letter (x : Char) (hx : x ∈ "nul".toList) :
      Over (fun c => "nul".toList.contains c.toLower) (one fun c => c.toLower == x) :=
    .one fun c hc => by rw [beq_iff_eq.mp hc]; simpa using hx
  exact .seq (.seq (letter _ (by decide)) <| .seq (letter _ (by decide)) <|
    .seq (letter _ (by decide)) <|
    .seq (letter _ (by decide)) .nil) over_end

theorem over_boolean : Over "truefals".toList.contains boolean :=
  .seq (.alt (.exactly (by decide)) (.alt (.exactly (by decide)) .never)) over_end

theorem over_dateTimeOffset : Over (figure "-T:.Z+") dateTimeOffset :=
  have sign : Over (figure "-T:.Z+") sign := .alt (.exactly (by decide)) (.exactly (by decide))
  .seq (over_datePart figure_of_isDigit (by decide)) <| .seq (.exactly (by decide)) <|
    .seq (over_timePart figure_of_isDigit (by decide) (by decide)) <|
      .seq (.alt (.exactly (by decide)) <|
      .seq sign <| .seq (.count figure_of_isDigit 2) <| .seq (.exactly (by decide)) <|
        .seq (.count figure_of_isDigit 2) .nil) .nil

theorem over_date : Over (figure "-") date :=
  .seq (over_datePart figure_of_isDigit (by decide)) over_end

theorem over_timeOfDay : Over (figure ":.") timeOfDay :=
  .seq (over_timePart figure_of_isDigit (by decide) (by decide)) over_end

theorem over_guid : Over (fun c => isHexDigit c || c == '-') guid := by
  have hex (n : Nat) : Over (fun c => isHexDigit c || c == '-') (count isHexDigit n) :=
    .count (fun c hc => by simp [hc]) n
  have dash : Over (fun c => isHexDigit c || c == '-') (exactly "-") := .exactly (by decide)
  exact .seq (hex 8) <| .seq dash <| .seq (hex 4) <| .seq dash <| .seq (hex 4) <| .seq dash <|
    .seq (hex 4) <|
    .seq dash <| .seq (hex 12) over_end

theorem over_exponent : Over (figure "-.eE+") exponent := by
  have letter (c : Char) (hc : c == 'e' || c == 'E') : figure "-.eE+" c := by
    rcases Bool.or_eq_true _ _ ▸ hc with h | h <;> rw [beq_iff_eq.mp h] <;> decide
  exact .seq (.one letter) <| .seq (.opt (.alt (.exactly (by decide)) (.exactly (by decide)))) <|
    .seq (.many1 figure_of_isDigit) .nil

theorem over_double : Over (figure "-.eE+") double :=
  .seq (.opt (.exactly (by decide))) <| .seq (.many1 figure_of_isDigit) <|
    .seq (.opt (over_fraction figure_of_isDigit (by decide))) <| .seq over_exponent over_end

theorem over_decimal : Over (figure "-.") decimal :=
  .seq (.opt (.exactly (by decide))) <| .seq (.many1 figure_of_isDigit) <|
    .seq (.exactly (by decide)) <|
    .seq (.many1 figure_of_isDigit) over_end

theorem over_integer : Over (figure "-") integer :=
  .seq (.opt (.exactly (by decide))) <| .seq (.many1 figure_of_isDigit) over_end

/-! ### Characters that literals need

Most kinds of literals have a character that must be in them: a dash, a colon, a point, an exponent
or a letter. A kind that cannot have this character is excluded by it (`Demands.excludes`). -/

theorem demands_notWord : Demands ['o'] notWord :=
  .left (.exactly (c := 'o') (by decide) (by decide))

theorem demands_minusSign : Demands ['-'] minusSign :=
  .left (.exactly (c := '-') (by decide) (by decide))

theorem demands_null : Demands ['n', 'N'] null := by
  refine .left (.left (.one fun c hc => ?_))
  -- Only `n` and `N` have `n` as their lower case.
  have hlower : c.toLower = 'n' := beq_iff_eq.mp hc
  by_cases hupper : 'A'.val ≤ c.val ∧ c.val ≤ 'Z'.val
  · have hval : c.val + ('a'.val - 'A'.val) = 'N'.val + ('a'.val - 'A'.val) :=
      congrArg Char.val ((dif_pos hupper).symm.trans hlower)
    rw [Char.ext ((UInt32.add_left_inj _).mp hval)]
    decide
  · rw [show c = 'n' from (dif_neg hupper).symm.trans hlower]
    decide

theorem demands_boolean : Demands ['r', 'l'] boolean :=
  .left (.alt (.exactly (c := 'r') (by decide) (by decide))
    (.alt (.exactly (c := 'l') (by decide) (by decide)) .never))

theorem demands_dateTimeOffset : Demands ['T'] dateTimeOffset :=
  .right (.left (.exactly (c := 'T') (by decide) (by decide)))

theorem demands_date : Demands ['-'] date :=
  .left (.right (.left (.exactly (c := '-') (by decide) (by decide))))

theorem demands_timeOfDay : Demands [':'] timeOfDay :=
  .left (.right (.left (.exactly (c := ':') (by decide) (by decide))))

theorem demands_guid : Demands ['-'] guid :=
  .right (.left (.exactly (c := '-') (by decide) (by decide)))

theorem demands_double : Demands ['e', 'E'] double := by
  rw [double, row_cons, row_cons, row_cons, row_cons, exponent, row_cons]
  exact .right (.right (.right (.left (.left (.one fun c hc => by simpa using hc)))))

theorem demands_decimal : Demands ['.'] decimal := by
  rw [decimal, row_cons, row_cons, row_cons]
  exact .right (.right (.left (.exactly (c := '.') (by decide) (by decide))))

/-! ### Dashes

A date and a GUID have dashes at fixed places, and a number has at most one behind its sign. -/

theorem two_le_count {i j : Nat} (hij : i < j) (hi : s[i]? = some c) (hj : s[j]? = some c) :
    2 ≤ s.count c := by
  have hfront : c ∈ s.take j :=
    List.mem_of_getElem? (i := i) (by rw [List.getElem?_take_of_lt hij, hi])
  have hback : c ∈ s.drop j := List.mem_of_getElem? (i := 0) (by rw [List.getElem?_drop]; exact hj)
  have hsum : (s.take j ++ s.drop j).count c = (s.take j).count c + (s.drop j).count c :=
    List.count_append
  rw [List.take_append_drop] at hsum
  have := List.count_pos_iff.mpr hfront
  have := List.count_pos_iff.mpr hback
  omega

theorem eq_of_count (h : count p n s = some k) : k = n := by
  induction n generalizing s k with
  | zero => cases h; rfl
  | succ n ih =>
      obtain ⟨i, hi, j, hj, rfl⟩ := seq_eq_some.mp h
      obtain ⟨-, -, -, -, rfl⟩ := one_eq_some.mp hi
      rw [ih hj, Nat.add_comm]

/-- A dash behind `n` characters of a class. -/
theorem dash_behind (h : seq (count p n) (seq (exactly "-") b) s = some m) :
    s[n]? = some '-' ∧ ∃ k, b (s.drop (n + 1)) = some k := by
  obtain ⟨i, hi, j, hj, -⟩ := seq_eq_some.mp h
  cases eq_of_count hi
  obtain ⟨k, hk, l, hl, -⟩ := seq_eq_some.mp hj
  obtain ⟨⟨r, hr⟩, rfl⟩ := exactly_eq_some.mp hk
  rw [List.drop_drop] at hl
  refine ⟨?_, l, hl⟩
  have hget : (s.drop n)[0]? = some '-' := by rw [← hr]; rfl
  rwa [List.getElem?_drop] at hget

theorem dashes_date (h : date s = some n) : s[4]? = some '-' ∧ s[7]? = some '-' := by
  obtain ⟨i, hi, -⟩ := seq_eq_some.mp h
  obtain ⟨h4, k, hk⟩ := dash_behind hi
  have h7 := (dash_behind hk).1
  rw [List.getElem?_drop] at h7
  exact ⟨h4, h7⟩

theorem dashes_guid (h : guid s = some n) : s[8]? = some '-' ∧ s[13]? = some '-' := by
  obtain ⟨h8, k, hk⟩ := dash_behind h
  have h13 := (dash_behind hk).1
  rw [List.getElem?_drop] at h13
  exact ⟨h8, h13⟩

theorem date_of_guid (h : guid s = some n) : date s = none := by
  cases hdate : date s with
  | none => rfl
  | some m =>
      -- The fifth character of a date is a dash, and that of a GUID is a digit.
      obtain ⟨k, hk, -⟩ := seq_eq_some.mp h
      have hmem : '-' ∈ s.take 8 :=
        List.mem_of_getElem? (i := 4)
          (by rw [List.getElem?_take_of_lt (by decide), (dashes_date hdate).1])
      rw [← eq_of_count hk] at hmem
      have hover : Over isHexDigit (count isHexDigit 8) := .count (fun _ hc => hc) 8
      exact absurd (hover s k hk '-' hmem) (by decide)

/-- What the pattern takes has at most `n` dashes. -/
def AtMost (n : Nat) (a : Pattern) : Prop :=
  ∀ s k, a s = some k → (s.take k).count '-' ≤ n

namespace AtMost

theorem of_over (h : Over p a) (hp : p '-' = false) : AtMost 0 a := by
  intro s k hs
  refine Nat.le_of_eq (List.count_eq_zero.mpr fun hmem => ?_)
  have := h s k hs '-' hmem
  rw [hp] at this
  cases this

theorem of_length (h : ∀ s k, a s = some k → k ≤ n) : AtMost n a := by
  intro s k hs
  refine Nat.le_trans List.count_le_length ?_
  rw [List.length_take]
  exact Nat.le_trans (Nat.min_le_left _ _) (h s k hs)

theorem seq (ha : AtMost n a) (hb : AtMost m b) : AtMost (n + m) (seq a b) := by
  intro s k hs
  obtain ⟨i, hi, j, hj, rfl⟩ := seq_eq_some.mp hs
  rw [List.take_add, List.count_append]
  exact Nat.add_le_add (ha s i hi) (hb _ j hj)

/-- Behind the sign, a number has no more dashes than its pattern `b` takes. -/
theorem signed (hb : AtMost n b) (h : Token.seq (opt (exactly "-")) b s = some s.length) :
    s.tail.count '-' ≤ n := by
  obtain ⟨k, hk, m, hm, hsum⟩ := seq_eq_some.mp h
  have hcount := hb _ m hm
  rw [List.take_of_length_le (by rw [List.length_drop]; omega)] at hcount
  rcases opt_eq_some.mp hk with hk | ⟨-, rfl⟩
  · obtain ⟨-, rfl⟩ := exactly_eq_some.mp hk
    rwa [← List.drop_one]
  · exact Nat.le_trans ((List.tail_sublist s).count_le '-') hcount

end AtMost

theorem atMost_exponent : AtMost 1 exponent := by
  have letter : AtMost 0 (one fun c => c == 'e' || c == 'E') :=
    .of_over (.one fun _ hc => hc) (by decide)
  have digits : AtMost 0 (row [many1 Char.isDigit]) :=
    .of_over (p := Char.isDigit) (.seq (.many1 fun _ hc => hc) .nil) (by decide)
  have sign : AtMost 1 (opt sign) := by
    refine .of_length fun s k hs => ?_
    rcases opt_eq_some.mp hs with h | ⟨-, rfl⟩
    · rcases alt_eq_some.mp h with h | ⟨-, h⟩
      all_goals
        obtain ⟨-, rfl⟩ := exactly_eq_some.mp h
        decide
    · decide
  exact letter.seq (sign.seq digits)

theorem count_dashes_double (h : double s = some s.length) : s.tail.count '-' ≤ 1 := by
  have digits : AtMost 0 (many1 Char.isDigit) :=
    .of_over (p := Char.isDigit) (.many1 fun _ hc => hc) (by decide)
  have fraction : AtMost 0 (opt (row [exactly ".", many1 Char.isDigit])) :=
    .of_over (p := figure ".") (.opt (over_fraction figure_of_isDigit (by decide))) (by decide)
  have rest : AtMost 0 (row [notBefore isNameChar]) := .of_over (p := fun _ => false) over_end rfl
  exact (digits.seq (fraction.seq (atMost_exponent.seq rest))).signed h

theorem count_dashes_decimal (h : decimal s = some s.length) : s.tail.count '-' ≤ 1 := by
  have rest : Over (figure ".")
    (row [many1 Char.isDigit, exactly ".", many1 Char.isDigit, notBefore isNameChar]) :=
    .seq (.many1 figure_of_isDigit) <| .seq (.exactly (by decide)) <|
      .seq (.many1 figure_of_isDigit) over_end
  exact Nat.le_succ_of_le ((AtMost.of_over rest (by decide)).signed h)

theorem count_dashes_integer (h : integer s = some s.length) : s.tail.count '-' ≤ 1 := by
  have rest : Over Char.isDigit (row [many1 Char.isDigit, notBefore fun c =>
    isNameChar c || c == '.']) :=
    .seq (.many1 fun _ hc => hc) over_end
  exact Nat.le_succ_of_le ((AtMost.of_over rest (by decide)).signed h)

theorem date_of_count_dashes (h : s.tail.count '-' ≤ 1) : date s = none := by
  cases hdate : date s with
  | none => rfl
  | some n =>
      obtain ⟨h4, h7⟩ := dashes_date hdate
      have := two_le_count (s := s.tail) (i := 3) (j := 6) (by decide) (by rwa [List.getElem?_tail])
        (by rwa [List.getElem?_tail])
      omega

theorem guid_of_count_dashes (h : s.tail.count '-' ≤ 1) : guid s = none := by
  cases hguid : guid s with
  | none => rfl
  | some n =>
      obtain ⟨h8, h13⟩ := dashes_guid hguid
      have :=
        two_le_count (s := s.tail) (i := 7) (j := 12) (by decide) (by rwa [List.getElem?_tail])
        (by rwa [List.getElem?_tail])
      omega

/-! ### Minus signs

`minusSign` is an operator in front of anything but a digit, which makes it the sign of a number. -/

theorem minusSign_front (h : minusSign s = some n) :
    ∃ r, s = '-' :: r ∧ ∀ c ∈ r.head?, c.isDigit = false := by
  obtain ⟨k, hk, m, hm, -⟩ := seq_eq_some.mp h
  obtain ⟨⟨r, rfl⟩, rfl⟩ := exactly_eq_some.mp hk
  rw [row_single] at hm
  exact ⟨r, rfl, (notBefore_eq_some.mp hm).1⟩

theorem minusSign_of_count (hp : p '-' = false) (h : seq (count p (n + 1)) b s = some m) :
    minusSign s = none := by
  cases hminus : minusSign s with
  | none => rfl
  | some k =>
      obtain ⟨r, rfl, -⟩ := minusSign_front hminus
      obtain ⟨i, hi, -⟩ := seq_eq_some.mp h
      obtain ⟨j, hj, -⟩ := seq_eq_some.mp hi
      obtain ⟨c, u, hcons, hc, -⟩ := one_eq_some.mp hj
      cases hcons
      rw [hp] at hc
      cases hc

/-- `minusSign` does not match the minus sign of a number. -/
theorem minusSign_of_signed (h : seq (opt (exactly "-")) (seq (many1 Char.isDigit) b) s = some n) :
    minusSign s = none := by
  cases hminus : minusSign s with
  | none => rfl
  | some k =>
      obtain ⟨r, rfl, hr⟩ := minusSign_front hminus
      obtain ⟨i, hi, m, hm, -⟩ := seq_eq_some.mp h
      have hopt : opt (exactly "-") ('-' :: r) = some 1 := rfl
      cases hopt.symm.trans hi
      obtain ⟨j, hj, -⟩ := seq_eq_some.mp hm
      obtain ⟨l, hl, -⟩ := seq_eq_some.mp hj
      obtain ⟨c, u, hcons, hc, -⟩ := one_eq_some.mp hl
      rw [List.drop_succ_cons, List.drop_zero] at hcons
      rw [hr c (by rw [hcons]; rfl)] at hc
      cases hc

/-! ### One token at a time

A pattern that is tried earlier must not take the front of a token of a later kind, or the token
would be cut in two. The pairs that share their characters are told apart one by one. -/

theorem minusSign_of_datePart (h : seq datePart b s = some n) : minusSign s = none := by
  obtain ⟨k, hk, -⟩ := seq_eq_some.mp h
  exact minusSign_of_count (p := Char.isDigit) (by decide) hk

/-- **No text is one of the `leading` tokens in full and begins with another one that is tried
earlier.** -/
theorem leading_exclusive : leading.Pairwise fun a b => ∀ s, b s = some s.length → a s = none := by
  simp only [leading, unquoted, List.map_cons, List.map_nil, List.pairwise_cons,
    List.forall_mem_cons, List.not_mem_nil, false_implies, implies_true, and_true,
    List.Pairwise.nil]
  -- Most tokens need a character that no later one has. Dates, GUIDs and numbers have the same
  -- characters and are told apart by their dashes, and a minus sign by the digit that a number has
  -- behind it.
  refine ⟨?not, ?minus, ?null, ?boolean, ?instant, ?date, ?time, ?guid, ?double, ?decimal⟩
  case not =>
    exact ⟨demands_notWord.excludes over_minusSign, demands_notWord.excludes over_null,
      demands_notWord.excludes over_boolean, demands_notWord.excludes over_dateTimeOffset,
      demands_notWord.excludes over_date, demands_notWord.excludes over_timeOfDay,
      demands_notWord.excludes over_guid, demands_notWord.excludes over_double,
      demands_notWord.excludes over_decimal, demands_notWord.excludes over_integer⟩
  case minus =>
    exact ⟨demands_minusSign.excludes over_null, demands_minusSign.excludes over_boolean,
      fun s => minusSign_of_datePart, fun s =>
        minusSign_of_datePart, demands_minusSign.excludes over_timeOfDay,
      fun s => minusSign_of_count (by decide), fun s => minusSign_of_signed, fun s =>
        minusSign_of_signed,
      fun s => minusSign_of_signed⟩
  case null =>
    exact ⟨demands_null.excludes over_boolean, demands_null.excludes over_dateTimeOffset,
      demands_null.excludes over_date, demands_null.excludes over_timeOfDay,
      demands_null.excludes over_guid, demands_null.excludes over_double,
      demands_null.excludes over_decimal, demands_null.excludes over_integer⟩
  case boolean =>
    exact ⟨demands_boolean.excludes over_dateTimeOffset, demands_boolean.excludes over_date,
      demands_boolean.excludes over_timeOfDay, demands_boolean.excludes over_guid,
      demands_boolean.excludes over_double, demands_boolean.excludes over_decimal,
      demands_boolean.excludes over_integer⟩
  case instant =>
    exact ⟨demands_dateTimeOffset.excludes over_date,
      demands_dateTimeOffset.excludes over_timeOfDay, demands_dateTimeOffset.excludes over_guid,
      demands_dateTimeOffset.excludes over_double, demands_dateTimeOffset.excludes over_decimal,
      demands_dateTimeOffset.excludes over_integer⟩
  case date =>
    exact ⟨demands_date.excludes over_timeOfDay, fun s => date_of_guid,
      fun s h => date_of_count_dashes (count_dashes_double h), fun s h =>
        date_of_count_dashes (count_dashes_decimal h),
      fun s h => date_of_count_dashes (count_dashes_integer h)⟩
  case time =>
    exact ⟨demands_timeOfDay.excludes over_guid, demands_timeOfDay.excludes over_double,
      demands_timeOfDay.excludes over_decimal, demands_timeOfDay.excludes over_integer⟩
  case guid =>
    exact ⟨fun s h => guid_of_count_dashes (count_dashes_double h), fun s h =>
      guid_of_count_dashes (count_dashes_decimal h),
      fun s h => guid_of_count_dashes (count_dashes_integer h)⟩
  case double => exact ⟨demands_double.excludes over_decimal, demands_double.excludes over_integer⟩
  case decimal => exact demands_decimal.excludes over_integer

/-! ### Where no literal begins

What a text may begin with so that no literal is read there: a mark, or a name that is no reserved
word. -/

theorem one_of_not (h : p c = false) : one p (c :: s) = none := by
  rw [one, h]
  rfl

theorem exactly_of_front {x : Char} {u : List Char} (hw : w.toList = x :: u) (hc : c ≠ x) :
    exactly w (c :: s) = none := by
  cases h : exactly w (c :: s) with
  | none => rfl
  | some n =>
      obtain ⟨hp, -⟩ := exactly_eq_some.mp h
      rw [hw] at hp
      exact absurd (List.cons_prefix_cons.mp hp).1.symm hc

theorem signed_of_not (hdigit : c.isDigit = false) (hdash : c ≠ '-') :
    seq (opt (exactly "-")) (seq (many1 Char.isDigit) b) (c :: s) = none := by
  have hopt : opt (exactly "-") (c :: s) = some 0 := by
    rw [opt, exactly_of_front rfl hdash]
    rfl
  have hdigits : seq (many1 Char.isDigit) b (c :: s) = none :=
    seq_eq_none (seq_eq_none (one_of_not hdigit))
  rw [seq, hopt]
  show (seq (many1 Char.isDigit) b (c :: s)).map _ = none
  rw [hdigits, Option.map_none]

/-- A character that is neither a digit nor a dash begins no number, date or time. -/
theorem figures_of_not (hdigit : c.isDigit = false) (hdash : c ≠ '-') (s : List Char) :
    ∀ a ∈ [minusSign, dateTimeOffset, date, timeOfDay, double, decimal, integer],
      a (c :: s) = none := by
  have hcount (n : Nat) : count Char.isDigit (n + 1) (c :: s) = none :=
    seq_eq_none (one_of_not hdigit)
  simp only [List.forall_mem_cons, List.not_mem_nil, false_implies, implies_true, and_true]
  refine ⟨?minus, ?instant, ?date, ?time, ?double, ?decimal, ?integer⟩
  case minus => exact seq_eq_none (exactly_of_front rfl hdash)
  case instant | date => exact seq_eq_none (seq_eq_none (hcount 3))
  case time => exact seq_eq_none (seq_eq_none (hcount 1))
  case double | decimal | integer => exact signed_of_not hdigit hdash

/-- A character that is neither a dash nor in `isNameChar` begins no token of `leading`. -/
theorem leading_of_mark (hc : isNameChar c = false) (hdash : c ≠ '-') (s : List Char) :
    ∀ a ∈ leading, a (c :: s) = none := by
  have hdigit : c.isDigit = false := by
    cases h : c.isDigit with
    | false => rfl
    | true => rw [isNameChar_of_isHexDigit (by rw [isHexDigit, h]; rfl)] at hc; cases hc
  have hfigures := figures_of_not hdigit hdash s
  simp only [leading, unquoted, List.map_cons, List.map_nil, List.forall_mem_cons, List.not_mem_nil,
    false_implies, implies_true, and_true] at hfigures ⊢
  obtain ⟨minus, instant, date, time, double, decimal, integer⟩ := hfigures
  refine ⟨seq_eq_none (exactly_of_front rfl (ne_of_isNameChar hc rfl)), minus, ?null, ?boolean,
    instant, date, time, ?guid, double, decimal, integer⟩
  case null =>
    refine seq_eq_none (seq_eq_none (one_of_not ?_))
    rw [toLower_of_not_isNameChar hc]
    exact beq_eq_false_iff_ne.mpr (ne_of_isNameChar hc rfl)
  case boolean =>
    refine seq_eq_none ?_
    show alt (exactly "true") (alt (exactly "false") fun _ => none) (c :: s) = none
    rw [alt, exactly_of_front rfl (ne_of_isNameChar hc rfl), alt,
      exactly_of_front rfl (ne_of_isNameChar hc rfl)]
  case guid => exact seq_eq_none (seq_eq_none (one_of_not (isHexDigit_eq_false hc)))

/-- A token of `leading` begins with a dash or with a character of names. -/
theorem leading_front (ha : a ∈ leading) (h : a s = some n) :
    ∃ c r, s = c :: r ∧ (isNameChar c ∨ c = '-') := by
  cases s with
  | nil =>
      have hnil : ∀ a ∈ leading, a [] = none := by
        simp only [leading, unquoted, List.map_cons, List.map_nil, List.forall_mem_cons,
          List.not_mem_nil, false_implies, implies_true, and_true]
        decide
      rw [hnil a ha] at h
      cases h
  | cons c r =>
      refine ⟨c, r, rfl, ?_⟩
      by_cases hc : isNameChar c
      · exact .inl hc
      by_cases hdash : c = '-'
      · exact .inr hdash
      rw [leading_of_mark (by simpa using hc) hdash r a ha] at h
      cases h

/-- A name that is `Free` begins with no token of `leading`, whatever may follow the name. -/
theorem leading_of_name (hname : qualifiedName t = some t.length)
    (hfree : Free t) (hr : ∀ d ∈ r.head?, d ∈ ':' :: stops) :
    ∀ a ∈ leading, a (t ++ r) = none := by
  have hchar : ∀ d ∈ r.head?, isNameChar d = false := fun d hd => not_of_stops (by decide) (hr d hd)
  -- A GUID may start with a letter as well, but it needs dashes.
  have hguid : guid (t ++ r) = none := by
    have hover : Over (fun c => isNameStart c || isNameChar c || c == '.') qualifiedName := by
      have name : Over (fun c => isNameStart c || isNameChar c || c == '.') name :=
        over_name fun c hc => by rw [hc]; rfl
      exact .seq name
        (.seq (.star (.seq (.exactly (by decide)) (.seq name .nil)) bounded_pointName
          pointName_ne_zero) .nil)
    rw [Closed.append fun d hd =>
      closed_guid (hchar d hd) (by rintro rfl; exact absurd (hr _ hd) (by decide))]
    exact demands_guid.excludes hover (by decide) t hname
  obtain ⟨k, hk⟩ := name_of_qualifiedName hname
  obtain ⟨c, u, rfl, hc⟩ := name_front hk
  have hfigures :=
    figures_of_not (isDigit_of_isNameStart hc) (by rintro rfl; exact absurd hc (by decide)) (u ++ r)
  simp only [leading, unquoted, List.map_cons, List.map_nil, List.forall_mem_cons, List.not_mem_nil,
    false_implies, implies_true, and_true] at hfigures ⊢
  obtain ⟨minus, instant, date, time, double, decimal, integer⟩ := hfigures
  refine ⟨?not, minus, ?null, ?boolean, instant, date, time, hguid, double, decimal, integer⟩
  case not => rw [Closed.append fun d hd => closed_notWord (hchar d hd), hfree.not]
  case null => rw [Closed.append fun d hd => closed_null (hchar d hd), hfree.null]
  case boolean => rw [Closed.append fun d hd => closed_boolean (hchar d hd), hfree.boolean]

end FilterSql.Token
