import FilterSql.Proofs.Decimal.Numeral
import FilterSql.Compile.Coercion
import FilterSql.Proofs.Filter.WellFormed

/-!
# The numbers of the grammar

What the grammar takes for numbers are numerals, and each kind of literal has its own form:
integers without a point, decimal numbers with a point, and floating point numbers with an
exponent. `Shaped` says of a pattern which form its matches have, and passes from the parts of a
pattern to the whole.
-/

namespace FilterSql

namespace Token

variable {P Q : List Char → Prop} {p : Char → Bool} {a b : Pattern} {w : String}

/-- The characters of a numeral of this kind. -/
def IsNumeral (kind : LiteralKind) (t : List Char) : Prop :=
  ∃ n : Numeral, n.kind = kind ∧ t = n.mantissa ++ n.tail

/-- All that the pattern `a` takes is of the form `P`. -/
def Shaped (P : List Char → Prop) (a : Pattern) : Prop :=
  ∀ s n, a s = some n → P (s.take n)

namespace Shaped

theorem imp (ha : Shaped P a) (h : ∀ t, P t → Q t) : Shaped Q a :=
  fun s n hs => h _ (ha s n hs)

theorem one : Shaped (fun t => ∃ c, p c = true ∧ t = [c]) (one p) := by
  intro s n hs
  obtain ⟨c, r, rfl, hc, rfl⟩ := one_eq_some.mp hs
  exact ⟨c, hc, rfl⟩

theorem exactly : Shaped (· = w.toList) (exactly w) := by
  intro s n hs
  obtain ⟨⟨r, rfl⟩, rfl⟩ := exactly_eq_some.mp hs
  exact List.take_left

theorem notBefore : Shaped (· = []) (notBefore p) := by
  intro s n hs
  obtain ⟨-, rfl⟩ := notBefore_eq_some.mp hs
  exact List.take_zero

theorem nil : Shaped (· = []) (row []) := by
  rintro s n hs
  obtain rfl : 0 = n := Option.some.inj hs
  exact List.take_zero

theorem seq (ha : Shaped P a) (hb : Shaped Q b) :
    Shaped (fun t => ∃ u v, t = u ++ v ∧ P u ∧ Q v) (seq a b) := by
  intro s n hs
  obtain ⟨k, hk, m, hm, rfl⟩ := seq_eq_some.mp hs
  exact ⟨s.take k, (s.drop k).take m, List.take_add, ha s k hk, hb _ m hm⟩

theorem alt (ha : Shaped P a) (hb : Shaped P b) : Shaped P (alt a b) := by
  intro s n hs
  rcases alt_eq_some.mp hs with hs | ⟨-, hs⟩
  · exact ha s n hs
  · exact hb s n hs

theorem opt (ha : Shaped P a) : Shaped (fun t => t = [] ∨ P t) (opt a) := by
  intro s n hs
  rcases opt_eq_some.mp hs with hs | ⟨-, rfl⟩
  · exact .inr (ha s n hs)
  · exact .inl List.take_zero

/-- One or more digits. -/
theorem digits : Shaped (fun t => ∃ ds, ds ≠ [] ∧ t = Text.row ds) (many1 Char.isDigit) := by
  intro s n hs
  have hmany : ∃ r, s.take n = r ∧ r ≠ [] := by
    obtain ⟨k, hk, m, -, rfl⟩ := seq_eq_some.mp hs
    obtain ⟨c, r, rfl, -, rfl⟩ := one_eq_some.mp hk
    exact ⟨_, rfl, by simp⟩
  obtain ⟨ds, hds⟩ := Text.exists_row (Over.many1 (fun _ h => h) s n hs)
  obtain ⟨-, rfl, hne⟩ := hmany
  exact ⟨ds, fun h => hne (by rw [← hds, h]; rfl), hds.symm⟩

/-- A minus sign or nothing. -/
theorem minus : Shaped (fun t =>
    ∃ negative : Bool, t = (if negative then Numeral.Sign.minus else .absent).chars)
    (Token.opt (Token.exactly "-")) := by
  refine (opt exactly).imp fun t h => ?_
  rcases h with rfl | rfl
  · exact ⟨false, rfl⟩
  · exact ⟨true, rfl⟩

theorem sign : Shaped (fun t => ∃ s : Numeral.Sign, t = s.chars) (Token.opt Token.sign) := by
  refine (opt (P := fun t => t = ['+'] ∨ t = ['-']) (alt ?_ ?_)).imp fun t h => ?_
  · exact exactly.imp fun t h => .inl h
  · exact exactly.imp fun t h => .inr h
  · rcases h with rfl | rfl | rfl
    · exact ⟨.absent, rfl⟩
    · exact ⟨.plus, rfl⟩
    · exact ⟨.minus, rfl⟩

theorem exponent : Shaped (fun t => ∃ e : Numeral.Exponent, t = e.chars) Token.exponent := by
  refine Shaped.imp (one.seq (sign.seq (digits.seq nil))) ?_
  rintro _ ⟨_, _, rfl, ⟨c, hc, rfl⟩, _, _, rfl, ⟨s, rfl⟩, _, _, rfl, ⟨ds, hds, rfl⟩, rfl⟩
  rw [Bool.or_eq_true, beq_iff_eq, beq_iff_eq] at hc
  rcases hc with rfl | rfl
  · exact ⟨⟨false, s, ds, hds⟩, by simp [Numeral.Exponent.chars, Numeral.Exponent.mark]⟩
  · exact ⟨⟨true, s, ds, hds⟩, by simp [Numeral.Exponent.chars, Numeral.Exponent.mark]⟩

/-- A point with digits behind it, or nothing. -/
theorem places : Shaped (fun t => ∃ ds, t = if ds = [] then [] else '.' :: Text.row ds)
    (Token.opt (row [Token.exactly ".", many1 Char.isDigit])) := by
  refine (opt (exactly.seq (digits.seq nil))).imp ?_
  rintro _ (rfl | ⟨_, _, rfl, rfl, _, _, rfl, ⟨ds, hds, rfl⟩, rfl⟩)
  · exact ⟨[], rfl⟩
  · exact ⟨ds, by simp [hds]⟩

theorem integer : Shaped (IsNumeral .integer) Token.integer := by
  refine Shaped.imp (minus.seq (digits.seq (notBefore.seq nil))) ?_
  rintro _ ⟨_, _, rfl, ⟨negative, rfl⟩, _, _, rfl, ⟨ds, hds, rfl⟩, _, _, rfl, rfl, rfl⟩
  exact ⟨⟨negative, ds, [], none, hds⟩, rfl, by
    simp [Numeral.mantissa, Numeral.sign, Numeral.fraction, Numeral.tail]⟩

theorem decimal : Shaped (IsNumeral .decimal) Token.decimal := by
  refine Shaped.imp (minus.seq (digits.seq (exactly.seq (digits.seq (notBefore.seq nil))))) ?_
  rintro _ ⟨_, _, rfl, ⟨negative, rfl⟩, _, _, rfl, ⟨ds, hds, rfl⟩, _, _, rfl, rfl, _, _, rfl,
    ⟨ps, hps, rfl⟩, _, _, rfl, rfl, rfl⟩
  refine ⟨⟨negative, ds, ps, none, hds⟩, ?_, ?_⟩
  · cases ps with
    | nil => exact absurd rfl hps
    | cons => rfl
  · simp [Numeral.mantissa, Numeral.sign, Numeral.fraction, Numeral.tail, hps]

theorem double : Shaped (IsNumeral .double) Token.double := by
  refine Shaped.imp (minus.seq (digits.seq (places.seq (exponent.seq (notBefore.seq nil))))) ?_
  rintro _ ⟨_, _, rfl, ⟨negative, rfl⟩, _, _, rfl, ⟨ds, hds, rfl⟩, _, _, rfl, ⟨ps, rfl⟩, _, _,
    rfl, ⟨e, rfl⟩, _, _, rfl, rfl, rfl⟩
  exact ⟨⟨negative, ds, ps, some e, hds⟩, rfl, by
    simp [Numeral.mantissa, Numeral.sign, Numeral.fraction, Numeral.tail]⟩

/-- A text that the pattern matches in full is a numeral, if the matches of the pattern are. -/
theorem exists_numeral {kind : LiteralKind} {text : String} (ha : Shaped (IsNumeral kind) a)
    (htext : Whole a text) :
    ∃ n : Numeral, n.text = text ∧ n.kind = kind := by
  obtain ⟨n, hkind, hn⟩ := ha _ _ htext
  rw [List.take_length] at hn
  exact ⟨n, by rw [Numeral.text, ← hn, String.ofList_toList], hkind⟩

end Shaped

end Token

/-- A literal of a numeric kind is a numeral of that kind. -/
theorem Literal.Spelled.numeral {l : Literal} (hl : l.Spelled)
    (hnumeric : l.kind.isNumeric = true) :
    ∃ n : Numeral, n.text = l.text ∧ n.kind = l.kind := by
  rcases hl with hstring | rfl | ⟨p, hp, hwhole⟩
  · rw [hstring] at hnumeric
    cases hnumeric
  · cases hnumeric
  · cases hkind : l.kind
    case integer =>
      obtain rfl : p = Token.integer := by simpa [Token.unquoted, hkind] using hp
      exact Token.Shaped.integer.exists_numeral hwhole
    case decimal =>
      obtain rfl : p = Token.decimal := by simpa [Token.unquoted, hkind] using hp
      exact Token.Shaped.decimal.exists_numeral hwhole
    case double =>
      obtain rfl : p = Token.double := by simpa [Token.unquoted, hkind] using hp
      exact Token.Shaped.double.exists_numeral hwhole
    all_goals
      rw [hkind] at hnumeric
      cases hnumeric

end FilterSql
