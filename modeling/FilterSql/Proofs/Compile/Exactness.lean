import FilterSql.Proofs.Compile.Numbers

/-!
# Numbers as they are written

A numeric literal is read as the number that it denotes, or it is refused (`Schema.coerce_exact`).
Beside a type of integers it is taken exactly if it is an integer of that type. Beside a decimal
number without limits it is taken with all of its digits. By itself an integer has the first type
that can hold it.
-/

namespace FilterSql

/-! ## The integers of a type

`bounds?` are the ends of each integer type. The text of an integer is read if it lies between them
(`readInteger_numeral`), and refused otherwise. -/

namespace DataType

/-- The least and the greatest integer of a type, if it is one of integers. -/
def bounds? : DataType → Option (ℤ × ℤ)
  | byte => some (0, 255)
  | short => some (-2 ^ 15, 2 ^ 15 - 1)
  | int => some (-2 ^ 31, 2 ^ 31 - 1)
  | long => some (-2 ^ 63, 2 ^ 63 - 1)
  | _ => none

/-- The integer `k` as a value of the type. -/
def whole : DataType → ℤ → Value
  | byte, k | short, k => .short k
  | int, k => .int k
  | _, k => .long k

end DataType

namespace Numeral

variable {n : Numeral}

/-- Each decimal place is a character of the text. -/
theorem length_places_le (n : Numeral) : n.places.length ≤ n.text.length := by
  have hfraction : n.places.length ≤ n.fraction.length := by
    unfold fraction
    split
    next h => simp [h]
    next => simp
  rw [← String.length_toList, toList_text, mantissa]
  simp only [List.length_append]
  omega

theorem decimal_of_kind (hkind : n.kind ≠ .double) : n.decimal = ⟨n.unscaled, n.places.length⟩ := by
  simp [decimal, scale, power, exponent_of_kind hkind]

/-- Without an exponent, a number is read with the digits and the places that it is written with. -/
theorem read?_written (hkind : n.kind ≠ .double) (hmemory : n.text.length < 2 ^ 63) :
    Decimal.read? n.text = .ok ⟨n.unscaled, n.places.length⟩ := by
  have hplaces : ¬2 ^ 63 ≤ n.places.length := Nat.not_le.mpr (n.length_places_le.trans_lt hmemory)
  rw [read?_of_kind hkind, if_neg hplaces, decimal_of_kind hkind]

theorem read?_integer (hkind : n.kind = .integer) : Decimal.read? n.text = .ok ⟨n.unscaled, 0⟩ := by
  have hdouble : n.kind ≠ .double := by simp [hkind]
  have hplaces : n.places.length = 0 := by simp [of_integer hkind]
  rw [read?_of_kind hdouble, if_neg (by simp [hplaces]), decimal_of_kind hdouble, hplaces]
  rfl

end Numeral

namespace Literal

variable {l : Literal} {n : Numeral} {type : DataType} {low high : ℤ} {make : ℤ → Value} {v : Value}

/-- The text is shorter than any that fits into memory. -/
def InMemory (l : Literal) : Prop :=
  l.text.length < 2 ^ 63

theorem readInteger_numeral (hn : n.text = l.text) (hkind : n.kind = .integer) :
    readInteger l.text type low high make = .ok v ↔
      (low ≤ n.unscaled ∧ n.unscaled ≤ high) ∧ make n.unscaled = v := by
  rw [readInteger, ← hn, Numeral.int?_text hkind]
  show (if low ≤ n.unscaled ∧ n.unscaled ≤ high then _ else _) = _ ↔ _
  split
  next h => simp [h]
  next h => simp [h, refuse]

end Literal

namespace Schema

variable {s : Schema} {l : Literal} {n : Numeral} {t : ValueType} {low high : ℤ} {v : Value}

/-! ## Beside a number

Beside an operand with a numeric type, `coerce` reads the literal as a value of this type. A
decimal has no ends but those of its facets, which are left out here. -/

theorem coerceTo_whole (hbounds : t.dataType.bounds? = some (low, high)) : s.coerceTo l t =
    if l.kind = .integer then Literal.readInteger l.text t.dataType low high t.dataType.whole
    else Literal.refuse l.written t.dataType (.doesNotConvert l.kind) := by
  cases htype : t.dataType <;> simp only [htype, DataType.bounds?, reduceCtorEq, Option.some.injEq,
    Prod.mk.injEq]
    at hbounds <;> obtain ⟨rfl, rfl⟩ :=
      hbounds <;> simp only [coerceTo, htype, List.mem_singleton] <;> rfl

/-- An integer is taken if the type has it. Nothing else is taken. -/
theorem coerce_whole (hn : n.text = l.text) (hkind : n.kind = l.kind)
    (hbounds : t.dataType.bounds? = some (low, high)) : s.coerce l (some t) = .ok v ↔
      l.kind = .integer ∧ ∃ k : ℤ, k = n.value ∧ (low ≤ k ∧ k ≤ high) ∧ v = t.dataType.whole k := by
  have hnull : ¬l.isNull = true := by simp [Literal.isNull_of_numeral hn]
  have htype : t.dataType ≠ .null := by
    rintro h
    rw [h] at hbounds
    cases hbounds
  rw [coerce, if_neg hnull]
  simp only [if_neg htype, coerceTo_whole hbounds]
  split
  next hinteger =>
    have hvalue := Numeral.value_integer (hkind.trans hinteger)
    rw [Literal.readInteger_numeral hn (hkind.trans hinteger), hvalue]
    simp [hinteger, eq_comm]
  next hinteger => simp [hinteger, Literal.refuse]

section

variable (hn : n.text = l.text) (hnumeric : l.kind.isNumeric = true) (htype : t.dataType = .decimal)
    (hprecision : t.facets.precision = none) (hscale : t.facets.scale = none)
include hn hnumeric htype hprecision hscale

/-- A column without limits takes each decimal number that can be read. -/
theorem coerce_unlimited :
    s.coerce l (some t) = .ok v ↔ ∃ d, Decimal.read? l.text = .ok d ∧ .decimal d = v := by
  have hexcess (d : Decimal) : d.excess? t.facets = none := by
    simp [Decimal.excess?, hprecision, hscale]
  simp only [coerce_decimal_ok hn hnumeric htype, hexcess, true_and]

theorem coerce_unlimited_value (hv : s.coerce l (some t) = .ok v) :
    ∃ d, v = .decimal d ∧ d.toRat = n.value := by
  obtain ⟨d, hread, rfl⟩ := (coerce_unlimited hn hnumeric htype hprecision hscale).mp hv
  rw [← hn] at hread
  obtain ⟨-, rfl⟩ := Numeral.read?_text.mp hread
  exact ⟨n.decimal, rfl, n.value_eq.symm⟩

theorem coerce_unlimited_written (hkind : n.kind ≠ .double) (hmemory : l.InMemory) :
    s.coerce l (some t) = .ok (.decimal ⟨n.unscaled, n.places.length⟩) := by
  refine (coerce_unlimited hn hnumeric htype hprecision hscale).mpr ⟨_, ?_, rfl⟩
  rw [← hn]
  exact Numeral.read?_written hkind (hn ▸ hmemory)

end

/-! ## By themselves

A literal that nothing stands beside is read as the first type that it fits: 32 bits, 64 bits, and
then a decimal. One with a point is a decimal at once. -/

theorem coerce_numeral (hn : n.text = l.text) : s.coerce l none = l.alone := by
  have hnull : ¬l.isNull = true := by simp [Literal.isNull_of_numeral hn]
  rw [coerce, if_neg hnull]

theorem coerce_alone_decimal (hn : n.text = l.text) (hkind : n.kind = l.kind)
    (hdecimal : l.kind = .decimal) (hmemory : l.InMemory) :
    s.coerce l none = .ok (.decimal ⟨n.unscaled, n.places.length⟩) := by
  have hread := Numeral.read?_written (n := n) (by simp [hkind, hdecimal]) (hn ▸ hmemory)
  rw [coerce_numeral hn, Literal.alone, hdecimal, ← hn]
  simp only [Literal.readDecimal, Literal.readAs, hread]
  rfl

/-- An integer has the first type that can hold it. -/
theorem coerce_alone_whole (hn : n.text = l.text) (hkind : n.kind = l.kind)
    (hinteger : l.kind = .integer) :
    s.coerce l none = .ok (
      if -2 ^ 31 ≤ n.unscaled ∧ n.unscaled < 2 ^ 31 then .int n.unscaled
      else if -2 ^ 63 ≤ n.unscaled ∧ n.unscaled < 2 ^ 63 then .long n.unscaled
      else .decimal ⟨n.unscaled, 0⟩) := by
  have hwhole := hkind.trans hinteger
  rw [coerce_numeral hn, Literal.alone, hinteger, ← hn]
  simp only [Literal.readDecimal, Literal.readAs, Numeral.read?_integer hwhole]
  -- The text is read into 64 bits first, and then it is seen whether 32 are enough.
  cases h : Text.intOfBits? 64 n.text.toList with
  | ok k =>
      obtain ⟨hlong, rfl⟩ := (Numeral.intOfBits?_text hwhole).mp h
      simp only [if_pos hlong]
  | error fault =>
      have hlong : ¬(-2 ^ 63 ≤ n.unscaled ∧ n.unscaled < 2 ^ 63) := by
        intro hlong
        rw [(Numeral.intOfBits?_text hwhole).mpr ⟨hlong, rfl⟩] at h
        cases h
      rw [if_neg (by omega), if_neg hlong]
      rfl

/-! ## The law

`InMemory` is assumed of texts: a text with more than `2 ^ 63` characters cannot be held by any
machine, and without this, the number of decimal places might not be counted. -/

/-- **Numbers are read exactly.** A literal denotes one number `n`.

- Beside a type of integers it is taken if `n` is an integer of that type, and read as that
  integer.
- Beside a decimal number without limits it is read as `n` if it is read at all. Without an
  exponent it always is, with its own digits and places.
- By itself an integer has the first type that can hold it, and a decimal number keeps its digits
  and places. -/
theorem coerce_exact (s : Schema) {l : Literal} (hl : l.Spelled)
    (hnumeric : l.kind.isNumeric = true) :
    ∃ n : Numeral, n.text = l.text ∧ n.kind = l.kind ∧
      (∀ (t : ValueType) (low high : ℤ), t.dataType.bounds? = some (low, high) →
        ∀ v, s.coerce l (some t) = .ok v ↔
        l.kind = .integer ∧ ∃ k : ℤ, k = n.value ∧ (low ≤ k ∧ k ≤ high) ∧ v = t.dataType.whole k) ∧
      (∀ t : ValueType, t.dataType = .decimal → t.facets.precision = none → t.facets.scale = none →
        (∀ v, s.coerce l (some t) = .ok v → ∃ d, v = .decimal d ∧ d.toRat = n.value) ∧
        (l.kind ≠ .double → l.InMemory →
          s.coerce l (some t) = .ok (.decimal ⟨n.unscaled, n.places.length⟩))) ∧
      (l.kind = .integer → ∃ k : ℤ, k = n.value ∧ s.coerce l none = .ok (
        if -2 ^ 31 ≤ k ∧ k < 2 ^ 31 then .int k
        else if -2 ^ 63 ≤ k ∧ k < 2 ^ 63 then .long k
        else .decimal ⟨k, 0⟩)) ∧
      (l.kind = .decimal → l.InMemory →
        s.coerce l none = .ok (.decimal ⟨n.unscaled, n.places.length⟩)) := by
  obtain ⟨n, hn, hkind⟩ := hl.numeral hnumeric
  refine ⟨n, hn, hkind, fun t low high hbounds v => coerce_whole hn hkind hbounds, ?_, ?_, ?_⟩
  · intro t htype hprecision hscale
    exact ⟨fun v => coerce_unlimited_value hn hnumeric htype hprecision hscale,
      fun hdouble => coerce_unlimited_written hn hnumeric htype hprecision hscale (hkind ▸ hdouble)⟩
  · intro hinteger
    exact ⟨n.unscaled, (Numeral.value_integer (hkind.trans hinteger)).symm,
      coerce_alone_whole hn hkind hinteger⟩
  · exact coerce_alone_decimal hn hkind

/-- The first integer beyond 16 bits is refused beside a number of 16 bits and taken beside one of
32. -/
theorem coerce_beyond_short :
    (Literal.mk "32768" .integer).Spelled ∧ LiteralKind.integer.isNumeric = true ∧
    (¬∃ v, (default : Schema).coerce ⟨"32768", .integer⟩ (some (.of .short)) = .ok v) ∧
    (default : Schema).coerce ⟨"32768", .integer⟩ (some (.of .int)) = .ok (.int 32768) := by
  have hspelled : (Literal.mk "32768" .integer).Spelled :=
    .inr (.inr ⟨Token.integer, by simp [Token.unquoted], by decide⟩)
  obtain ⟨n, hn, hkind, hbeside, -⟩ := coerce_exact default hspelled rfl
  have hunscaled : n.unscaled = 32768 := by
    have hread := Numeral.int?_text hkind
    rw [hn] at hread
    exact (Except.ok.inj hread).symm
  have hvalue : n.value = 32768 := by
    rw [Numeral.value_integer hkind, hunscaled]
    norm_num
  refine ⟨hspelled, rfl, ?_, ?_⟩
  · rintro ⟨v, hv⟩
    obtain ⟨-, k, hk, hbounds, -⟩ := (hbeside (.of .short) _ _ rfl v).mp hv
    rw [hvalue] at hk
    have hk : k = 32768 := by exact_mod_cast hk
    omega
  · exact (hbeside (.of .int) _ _ rfl _).mpr
      ⟨rfl, 32768, by rw [hvalue]; norm_num, by norm_num, rfl⟩

end Schema

end FilterSql
