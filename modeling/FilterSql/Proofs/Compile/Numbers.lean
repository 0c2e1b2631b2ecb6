import FilterSql.Proofs.Decimal.Limits
import FilterSql.Proofs.Filter.Numerals
import FilterSql.Proofs.Compile.Binding

/-!
# The numbers of literals

What becomes of the number that a literal denotes. A decimal column takes it if it fits, apart from
zeros and from numbers with `2 ^ 63` digits (`Schema.coerce_decimal`). Arithmetic keeps it, in a
type that is wide enough, with one exception: beside a 64-bit operand an integer is refused that 64
bits cannot hold (`Schema.calculate_number`).
-/

namespace FilterSql

open Sql (Expr)

namespace Literal

variable {l : Literal} {n : Numeral}

/-- No numeral is the word `null`. -/
theorem isNull_of_numeral (hn : n.text = l.text) : l.isNull = false := by
  obtain ⟨c, r, htext, hc⟩ := n.head_text
  rw [hn] at htext
  apply isNull_of_head htext
  constructor <;> rintro rfl <;> simp at hc

end Literal

namespace Schema

variable {s : Schema} {l : Literal} {n : Numeral} {t : ValueType} {v : Value}

/-! ## Beside a decimal operand

`coerce` reads the literal as a `Decimal` with the digits as written, and compares these with the
facets. It counts zeros behind the point, except that it takes off those of a number that is not
zero. -/

/-- `coerce` reads a number beside a decimal operand as a `Decimal`, and checks it by `excess?`. -/
theorem coerce_decimal_ok (hn : n.text = l.text) (hnumeric : l.kind.isNumeric = true)
    (htype : t.dataType = .decimal) : s.coerce l (some t) = .ok v ↔
      ∃ d, Decimal.read? l.text = .ok d ∧ d.excess? t.facets = none ∧ .decimal d = v := by
  have hkind : l.kind ∈ [LiteralKind.integer, .decimal, .double] := by
    simpa [LiteralKind.isNumeric, or_assoc] using hnumeric
  have hread (d : Decimal) : Literal.readDecimal l.text = .ok d ↔ Decimal.read? l.text = .ok d := by
    rw [Literal.readDecimal, Literal.readAs]
    cases Decimal.read? l.text <;> simp [Literal.refuse]
  have hnull : ¬l.isNull = true := by simp [Literal.isNull_of_numeral hn]
  simp only [coerce, if_neg hnull, htype, coerceTo, if_pos hkind, reduceCtorEq, if_false,
    Checked.bind_ok, hread]
  refine exists_congr fun d => and_congr_right fun _ => ?_
  cases d.excess? t.facets with
  | none => simp [Checked.pure_ok]
  | some fault => simp [Literal.refuse]

/-- **Numbers beside a decimal operand** are read as what they denote, or refused. A number that
can be read, and whose digits can be counted, is taken exactly if it fits. But a zero is judged by
the zeros that it is written with (`Decimal.ZeroFits`), and a number with too many digits by what
is left of their count. -/
theorem coerce_decimal (s : Schema) {l : Literal} {type : ValueType} {precision scale : ℕ}
    (hl : l.Spelled) (hnumeric : l.kind.isNumeric = true) (htype : type.dataType = .decimal)
    (hprecision : type.facets.precision = some precision) (hscale : type.facets.scale = some scale)
    (hle : scale ≤ precision) :
    ∃ n : Numeral, n.text = l.text ∧
      (∀ v, s.coerce l (some type) = .ok v → ∃ d, v = .decimal d ∧ d.toRat = n.value) ∧
      ((∃ v, s.coerce l (some type) = .ok v) ↔ n.IsReadable ∧
        if n.decimal.IsVast then n.decimal.front.bmod (2 ^ 64) ≤ precision - scale
        else if n.value = 0 then Decimal.ZeroFits precision scale n.scale
        else Decimal.Fits precision scale n.value) := by
  obtain ⟨n, hn, -⟩ := hl.numeral hnumeric
  have hok (v : Value) : s.coerce l (some type) = .ok v ↔
      n.IsReadable ∧ n.decimal.excess? type.facets = none ∧ .decimal n.decimal = v := by
    simp only [coerce_decimal_ok hn hnumeric htype, ← hn, Numeral.read?_text, and_assoc,
      exists_and_left, exists_eq_left']
  have hzero : n.value = 0 ↔ n.decimal.unscaled = 0 := by
    rw [n.value_eq, Decimal.toRat, mul_eq_zero, or_iff_left (zpow_ne_zero _ (by norm_num)),
      Int.cast_eq_zero]
  refine ⟨n, hn, ?_, ?_⟩
  · rintro v hv
    obtain ⟨-, -, rfl⟩ := (hok v).mp hv
    exact ⟨n.decimal, rfl, n.value_eq.symm⟩
  · simp only [hok, exists_and_left, exists_eq', and_true]
    rw [Decimal.excess?_eq_none hprecision hscale hle, ← n.value_eq]
    simp only [hzero]
    rfl

/-- The type `DECIMAL(3, 1)` of a column: three digits, one of them behind the point. -/
def price : ValueType :=
  { dataType := .decimal, facets := { precision := some 3, scale := some 1 } }

/-- Zero, written with two decimal places. -/
def noPrice : Numeral :=
  ⟨false, [0], [0, 0], none, by decide⟩

/-- `0.00` is refused for `DECIMAL(3, 1)`, though the column could hold it. -/
theorem coerce_zero_refused :
    (Literal.mk "0.00" .decimal).Spelled ∧ noPrice.text = "0.00" ∧ Decimal.Fits 3 1 noPrice.value ∧
    ¬∃ v, (default : Schema).coerce ⟨"0.00", .decimal⟩ (some price) = .ok v := by
  have hspelled : (Literal.mk "0.00" .decimal).Spelled :=
    .inr (.inr ⟨Token.decimal, by simp [Token.unquoted], by decide⟩)
  have hzero : noPrice.value = 0 := by
    rw [noPrice.value_eq]
    exact zero_mul _
  obtain ⟨n, hn, -, hverdict⟩ :=
    coerce_decimal default hspelled rfl (rfl : price.dataType = .decimal) rfl rfl (by decide)
  obtain rfl : n = noPrice := Numeral.text_injective (hn.trans rfl)
  refine ⟨hspelled, hn, ?_, ?_⟩
  · rw [hzero]
    exact ⟨⟨0, by norm_num⟩, by norm_num⟩
  · have hrefused : ¬Decimal.ZeroFits 3 1 noPrice.scale := by decide
    rw [hverdict, if_neg (by decide), if_pos hzero]
    exact fun h => hrefused h.2

/-- Without its last zero the same number is taken. -/
example : (default : Schema).coerce ⟨"0.0", .decimal⟩ (some price) = .ok (.decimal ⟨0, 1⟩) := by
  cbv

end Schema

/-! ## In arithmetic

Both sides of an arithmetic operator are numbers, and the result has the type that `widen?` finds
for them. A literal is read beside the other side, which only decimals and 64-bit integers give a
type to. -/

/-- The number that a value is, `none` unless it is an integer or a decimal. -/
def Value.number? : Value → Option ℚ
  | .short k | .int k | .long k => some k
  | .decimal d => some d.toRat
  | _ => none

namespace DataType

variable {a b : DataType}

/-- `a` comes before `b` in the order of numeric types, or is the same type. -/
def Below (a b : DataType) : Prop :=
  ∃ i j, a.rank? = some i ∧ b.rank? = some j ∧ i ≤ j

theorem widen?_comm (a b : DataType) : a.widen? b = b.widen? a := by
  cases a <;> cases b <;> rfl

/-- `widen?` finds a type for any two numeric ones, and both of them are `Below` it. -/
theorem exists_widen (ha : a.isNumeric = true) (hb : b.isNumeric = true) :
    ∃ type, a.widen? b = some type ∧ a.Below type ∧ b.Below type := by
  obtain ⟨i, hi⟩ := Option.isSome_iff_exists.mp ha
  obtain ⟨j, hj⟩ := Option.isSome_iff_exists.mp hb
  have hwiden : a.widen? b =
    some (if (if j ≤ i then a else b) = byte then short else (if j ≤ i then a else b)) := by
    rw [widen?, hi, hj]
  have hwider : (if j ≤ i then a else b).rank? = some (max i j) := by
    split
    · rw [hi, max_eq_left ‹_›]
    · rw [hj, max_eq_right (by omega)]
  generalize (if j ≤ i then a else b) = wider at hwiden hwider
  have hrank : ∃ k, (if wider = byte then short else wider).rank? = some k ∧ max i j ≤ k := by
    split
    next hbyte =>
      -- A byte becomes a short, one step up.
      rw [hbyte] at hwider
      have hone : 1 = max i j := Option.some.inj hwider
      exact ⟨2, rfl, by omega⟩
    next => exact ⟨max i j, hwider, le_rfl⟩
  obtain ⟨k, hk, hle⟩ := hrank
  exact ⟨_, hwiden, ⟨i, k, hi, hk, by omega⟩, ⟨j, k, hj, hk, by omega⟩⟩

end DataType

theorem Value.isNumeric_of_number {v : Value} {q : ℚ} (h : v.number? = some q) :
    v.dataType.isNumeric = true := by
  cases v <;> first | rfl | cases h

/-- The literal is read as a value of the number `q`, with the type of that value. -/
def Schema.ReadsNumber (s : Schema) (l : Literal) (beside : Option ValueType) (q : ℚ) : Prop :=
  ∃ v type, v.number? = some q ∧ type.dataType = v.dataType ∧
    s.operand (.literal l) beside = .ok ⟨.parameter v, type, false⟩

/-- `l.Plain n`: the literal `l` is written as the numeral `n`, which has no exponent. -/
structure Literal.Plain (l : Literal) (n : Numeral) : Prop where
  text : n.text = l.text
  kind : n.kind = l.kind
  isPlain : l.kind = .integer ∨ l.kind = .decimal

namespace Literal.Plain

variable {s : Schema} {l : Literal} {n : Numeral} {t : ValueType} {v : Value} (hl : l.Plain n)
include hl

theorem isNull : l.isNull = false :=
  isNull_of_numeral hl.text

theorem isNumeric : l.kind.isNumeric = true := by
  rcases hl.isPlain with h | h <;> rw [h] <;> rfl

theorem read : Decimal.read? l.text =
    if 2 ^ 63 ≤ n.places.length then .error (.exponentOverflow l.text) else .ok n.decimal := by
  have hkind : n.kind ≠ .double := by
    rcases hl.isPlain with h | h <;> simp [hl.kind, h]
  exact hl.text ▸ Numeral.read?_of_kind hkind

/-- `alone` reads a number as what it denotes, however large it is. -/
theorem alone (hplaces : n.places.length < 2 ^ 63) :
    ∃ v, l.alone = .ok v ∧ v.number? = some n.value := by
  have hdecimal : readDecimal l.text = .ok n.decimal := by
    rw [readDecimal, readAs, hl.read, if_neg (Nat.not_le.mpr hplaces)]
  have hvalue : (Value.decimal n.decimal).number? = some n.value := by rw [n.value_eq]; rfl
  rcases hl.isPlain with hinteger | hdec
  · have hkind := hl.kind.trans hinteger
    simp only [Literal.alone, hinteger]
    cases hread : Text.intOfBits? 64 l.text.toList with
    | ok i =>
        rw [← hl.text, Numeral.intOfBits?_text hkind] at hread
        refine ⟨_, rfl, ?_⟩
        rw [Numeral.value_integer hkind, hread.2]
        split <;> rfl
    | error fault => exact ⟨_, by rw [hdecimal]; rfl, hvalue⟩
  · exact ⟨_, by rw [Literal.alone, hdec, hdecimal]; rfl, hvalue⟩

/-! ### What it is read as beside a number

`Schema.ReadsNumber` says that a literal is bound as the number that it denotes. It fails for two
reasons: the type beside the literal has no room for it, or its places cannot be counted. -/

theorem reads_alone (hplaces : n.places.length < 2 ^ 63) : s.ReadsNumber l none n.value := by
  obtain ⟨v, hv, hnumber⟩ := hl.alone hplaces
  refine ⟨v, .of v.dataType, hnumber, rfl, ?_⟩
  rw [Schema.operand, if_neg (by simp [hl.isNull]), Schema.coerce, if_neg (by simp [hl.isNull]), hv]
  rfl

theorem reads_beside (hnumber : v.number? = some n.value) (htype : t.dataType = v.dataType)
    (hv : s.coerce l (some t) = .ok v) : s.ReadsNumber l (some t) n.value := by
  have hfilter : (some t).filter (·.dataType ≠ .null) = some t := by
    rw [Option.filter_some, if_pos]
    rw [htype]
    cases v <;> first | rfl | cases hnumber
  refine ⟨v, t, hnumber, htype, ?_⟩
  rw [Schema.operand, if_neg (by simp [hl.isNull]), hv, hfilter]
  rfl

/-- Beside a decimal without limits each number is read as what it denotes (`ReadsNumber`). -/
theorem reads_decimal (hplaces : n.places.length < 2 ^ 63) (htype : t.dataType = .decimal) :
    s.ReadsNumber l (some t.loose) n.value := by
  have hread : Decimal.read? l.text = .ok n.decimal := by
    rw [hl.read, if_neg (Nat.not_le.mpr hplaces)]
  have hcoerce : s.coerce l (some t.loose) = .ok (.decimal n.decimal) :=
    (Schema.coerce_decimal_ok (t := t.loose) hl.text hl.isNumeric htype).mpr ⟨_, hread, rfl, rfl⟩
  have hnumber : (Value.decimal n.decimal).number? = some n.value := by rw [n.value_eq]; rfl
  exact hl.reads_beside hnumber htype hcoerce

theorem coerce_long (hinteger : l.kind = .integer) (htype : t.dataType = .long) :
    s.coerce l (some t) =
    if -2 ^ 63 ≤ n.unscaled ∧ n.unscaled < 2 ^ 63 then .ok (.long n.unscaled)
    else .error (.invalidValue l.text "Edm.Int64" .outOfRange) := by
  have hnull : ¬l.isNull = true := by simp [hl.isNull]
  have hread : Text.int? l.text.toList = .ok n.unscaled :=
    hl.text ▸ Numeral.int?_text (hl.kind.trans hinteger)
  have hbound : n.unscaled ≤ 2 ^ 63 - 1 ↔ n.unscaled < 2 ^ 63 := by omega
  simp only [Schema.coerce, if_neg hnull, htype, Schema.coerceTo, hinteger, readInteger,
    hread, hbound]
  rfl

/-- Beside a 64-bit operand an integer is read as what it denotes if it fits in 64 bits, and
refused if not. -/
theorem reads_long (hinteger : l.kind = .integer) (htype : t.dataType = .long) :
    if -2 ^ 63 ≤ n.value ∧ n.value < 2 ^ 63 then s.ReadsNumber l (some t.loose) n.value
    else s.operand (.literal l) (some t.loose) =
      .error (.invalidValue l.text "Edm.Int64" .outOfRange) := by
  have hvalue := Numeral.value_integer (hl.kind.trans hinteger)
  have hrange : (-2 ^ 63 ≤ n.value ∧ n.value < 2 ^ 63) ↔
    (-2 ^ 63 ≤ n.unscaled ∧ n.unscaled < 2 ^ 63) := by
    rw [hvalue]
    exact_mod_cast Iff.rfl
  have hcoerce := hl.coerce_long (s := s) (t := t.loose) hinteger htype
  simp only [hrange]
  split
  next hin =>
    rw [if_pos hin] at hcoerce
    have hnumber : (Value.long n.unscaled).number? = some n.value := by rw [hvalue]; rfl
    exact hl.reads_beside hnumber htype hcoerce
  next hout =>
    rw [if_neg hout] at hcoerce
    rw [Schema.operand, if_neg (by simp [hl.isNull]), hcoerce]
    rfl

/-- `arithmeticType` gives a literal the type of a decimal or of a 64-bit integer beside it, and no
other. -/
theorem arithmeticType (hexact : t.dataType ∈ [DataType.byte, .short, .int, .long, .decimal]) :
    (Compiled.literal l).arithmeticType (some t.loose) =
      if t.dataType = .decimal ∨ t.dataType = .long ∧ l.kind = .integer then some t.loose
      else none := by
  have hwiden : t.dataType.widen? l.kind.dataType = some t.dataType ↔
      t.dataType = .decimal ∨ t.dataType = .long ∧ l.kind = .integer := by
    simp only [List.mem_cons, List.not_mem_nil, or_false] at hexact
    rcases hexact with h | h | h | h | h <;> rcases hl.isPlain with hk | hk <;> rw [h,
      hk] <;> decide
  simp [Compiled.arithmeticType, Option.filter_some, ValueType.loose, hwiden]

/-- Places that 64 bits cannot count are refused beside every number. -/
theorem operand_overflow (hplaces : 2 ^ 63 ≤ n.places.length)
    (hexact : t.dataType ∈ [DataType.byte, .short, .int, .long, .decimal]) :
    s.operand (.literal l) ((Compiled.literal l).arithmeticType (some t.loose)) =
      .error (.invalidValue l.text "Edm.Decimal" (.decimal (.exponentOverflow l.text))) := by
  have hkind : l.kind = .decimal := by
    refine hl.isPlain.resolve_left fun hinteger => ?_
    rw [(Numeral.of_integer (hl.kind.trans hinteger)).1] at hplaces
    simp at hplaces
  have hread : readDecimal l.text =
      .error (.invalidValue l.text "Edm.Decimal" (.decimal (.exponentOverflow l.text))) := by
    rw [readDecimal, readAs, hl.read, if_pos hplaces]
    rfl
  have hnull : ¬l.isNull = true := by simp [hl.isNull]
  rw [hl.arithmeticType hexact]
  by_cases hdecimal : t.dataType = .decimal
  · rw [if_pos (.inl hdecimal), Schema.operand, if_neg hnull, Schema.coerce, if_neg hnull]
    simp only [ValueType.loose, hdecimal, Schema.coerceTo, hkind, hread]
    rfl
  · rw [if_neg (by simp [hdecimal, hkind]), Schema.operand, if_neg hnull, Schema.coerce,
      if_neg hnull]
    simp only [Literal.alone, hkind, hread]
    rfl

/-- In arithmetic a number is read as what it denotes (`ReadsNumber`), unless it is an integer too
large for the 64-bit operand beside it, or has more places than 64 bits can count. -/
theorem reads_arithmetic (hexact : t.dataType ∈ [DataType.byte, .short, .int, .long, .decimal]) :
    if t.dataType = .long ∧ l.kind = .integer ∧ ¬(-2 ^ 63 ≤ n.value ∧ n.value < 2 ^ 63) then
      s.operand (.literal l) ((Compiled.literal l).arithmeticType (some t.loose)) =
        .error (.invalidValue l.text "Edm.Int64" .outOfRange)
    else if 2 ^ 63 ≤ n.places.length then
      s.operand (.literal l) ((Compiled.literal l).arithmeticType (some t.loose)) =
        .error (.invalidValue l.text "Edm.Decimal" (.decimal (.exponentOverflow l.text)))
    else s.ReadsNumber l ((Compiled.literal l).arithmeticType (some t.loose)) n.value := by
  -- A whole number has no places, so that a literal is refused for one thing only.
  by_cases hplaces : 2 ^ 63 ≤ n.places.length
  · have hoverflow := hl.operand_overflow (s := s) hplaces hexact
    rw [if_pos hplaces, if_neg]
    · exact hoverflow
    · rintro ⟨-, hinteger, -⟩
      rw [(Numeral.of_integer (hl.kind.trans hinteger)).1] at hplaces
      simp at hplaces
  rw [if_neg hplaces, hl.arithmeticType hexact]
  have hfew := Nat.not_le.mp hplaces
  by_cases hlong : t.dataType = .long ∧ l.kind = .integer
  · have hreads := hl.reads_long (s := s) hlong.2 hlong.1
    have hbeside : t.dataType = .decimal ∨ t.dataType = .long ∧ l.kind = .integer := .inr hlong
    by_cases hin : -2 ^ 63 ≤ n.value ∧ n.value < 2 ^ 63
    · rw [if_neg fun h => h.2.2 hin, if_pos hbeside]
      rwa [if_pos hin] at hreads
    · rw [if_pos ⟨hlong.1, hlong.2, hin⟩, if_pos hbeside]
      rwa [if_neg hin] at hreads
  · rw [if_neg fun h => hlong ⟨h.1, h.2.1⟩]
    by_cases hdecimal : t.dataType = .decimal
    · rw [if_pos (.inl hdecimal)]
      exact hl.reads_decimal hfew hdecimal
    · rw [if_neg (not_or.mpr ⟨hdecimal, hlong⟩)]
      exact hl.reads_alone hfew

end Literal.Plain

namespace Schema

variable {s : Schema} {l : Literal} {e x y : Compiled} {t : ValueType}

theorem operand_of_type {a : Expr} {beside : Option ValueType} (ha : e.expr? = some a)
    (ht : e.type? = some t) :
    s.operand e beside = .ok ⟨a, t, false⟩ := by
  cases e <;> cases ha <;> cases ht <;> rfl

theorem calculate_eq {op : Arithmetic} {a b : Operand} {type : DataType}
    (ha : s.operand x (x.arithmeticType (y.type?.map (·.loose))) = .ok a)
    (hb : s.operand y (y.arithmeticType (some a.type.loose)) = .ok b) (hanull : a.isNull = false)
    (hbnull : b.isNull = false) (hwiden : a.type.dataType.widen? b.type.dataType = some type) :
    s.calculate op x y = .ok (.value (.binary a.expr (.arith op) b.expr) (.of type)) := by
  rw [calculate, ha]
  simp only [bind, Except.bind, hanull, hb, hbnull, Bool.false_eq_true, if_false, hwiden,
    Bool.or_self]
  rfl

theorem isNumeric_of_exact {type : DataType}
    (h : type ∈ [DataType.byte, .short, .int, .long, .decimal]) :
    type.isNumeric = true := by
  simp only [List.mem_cons, List.not_mem_nil, or_false] at h
  rcases h with rfl | rfl | rfl | rfl | rfl <;> rfl

theorem calculate_literal_error {op : Arithmetic} {a : Expr} {fault : FilterError}
    (ha : e.expr? = some a) (ht : e.type? = some t)
    (hl : s.operand (.literal l) ((Compiled.literal l).arithmeticType (some t.loose)) =
      .error fault) :
    s.calculate op e (.literal l) = .error fault ∧
    s.calculate op (.literal l) e = .error fault := by
  constructor
  · rw [calculate, operand_of_type ha ht]
    simp only [bind, Except.bind, Bool.false_eq_true, if_false, hl]
  · rw [calculate, ht, Option.map_some, hl]
    rfl

/-- **Numbers in arithmetic.** Beside an integer or a decimal, `calculate` binds the number that a
literal denotes, and its type is above those of both sides. The only literals refused are integers
that 64 bits cannot hold, beside a 64-bit operand, and those with more decimal places than 64 bits
can count. -/
theorem calculate_number (s : Schema) (op : Arithmetic) {e : Compiled} {a : Expr} {t : ValueType}
    {l : Literal} (ha : e.expr? = some a) (ht : e.type? = some t)
    (hexact : t.dataType ∈ [DataType.byte, .short, .int, .long, .decimal]) (hl : l.Spelled)
    (hplain : l.kind = .integer ∨ l.kind = .decimal) :
    ∃ n : Numeral, n.text = l.text ∧
      if t.dataType = .long ∧ l.kind = .integer ∧ ¬(-2 ^ 63 ≤ n.value ∧ n.value < 2 ^ 63) then
        s.compose (.arith op) e (.literal l) =
          .error (.invalidValue l.text "Edm.Int64" .outOfRange) ∧
        s.compose (.arith op) (.literal l) e = .error (.invalidValue l.text "Edm.Int64" .outOfRange)
      else if 2 ^ 63 ≤ n.places.length then
        s.compose (.arith op) e (.literal l) =
          .error (.invalidValue l.text "Edm.Decimal" (.decimal (.exponentOverflow l.text))) ∧
        s.compose (.arith op) (.literal l) e =
          .error (.invalidValue l.text "Edm.Decimal" (.decimal (.exponentOverflow l.text)))
      else ∃ v type, v.number? = some n.value ∧ t.dataType.Below type ∧ v.dataType.Below type ∧
        s.compose (.arith op) e (.literal l) =
          .ok (.value (.binary a (.arith op) (.parameter v)) (.of type)) ∧
        s.compose (.arith op) (.literal l) e =
          .ok (.value (.binary (.parameter v) (.arith op) a) (.of type)) := by
  have hnumeric : l.kind.isNumeric = true := by
    rcases hplain with h | h <;> rw [h] <;> rfl
  obtain ⟨n, hn, hkind⟩ := hl.numeral hnumeric
  refine ⟨n, hn, ?_⟩
  have hoperand := Literal.Plain.reads_arithmetic (s := s) ⟨hn, hkind, hplain⟩ hexact
  split
  next hout =>
    rw [if_pos hout] at hoperand
    exact calculate_literal_error ha ht hoperand
  next hin =>
    rw [if_neg hin] at hoperand
    split
    next hplaces =>
      rw [if_pos hplaces] at hoperand
      exact calculate_literal_error ha ht hoperand
    next hplaces =>
      rw [if_neg hplaces] at hoperand
      obtain ⟨v, own, hnumber, hown, hread⟩ := hoperand
      obtain ⟨type, hwiden, hleft, hright⟩ :=
        DataType.exists_widen (isNumeric_of_exact hexact) (Value.isNumeric_of_number hnumber)
      refine ⟨v, type, hnumber, hleft, hright, ?_, ?_⟩
      · exact calculate_eq (operand_of_type ha ht) hread rfl rfl (by rw [hown, hwiden])
      · exact calculate_eq (by rw [ht]; exact hread) (operand_of_type ha ht) rfl rfl
          (by rw [hown, DataType.widen?_comm, hwiden])

/-- The column `stock`, a number of the given type. -/
def stock (type : DataType) : Compiled :=
  .value (.qualified "t0" "stock") (.of type)

/-- The first integer beyond 64 bits, `9223372036854775808`. -/
def beyond : Numeral :=
  ⟨false, [9, 2, 2, 3, 3, 7, 2, 0, 3, 6, 8, 5, 4, 7, 7, 5, 8, 0, 8], [], none, by decide⟩

theorem calculate_beyond_long : (Literal.mk "9223372036854775808" .integer).Spelled ∧ ∃ v type,
    v.number? = some (2 ^ 63) ∧ DataType.int.Below type ∧ v.dataType.Below type ∧
      (default : Schema).compose (.arith .add) (stock .int)
        (.literal ⟨"9223372036854775808", .integer⟩) =
        .ok (.value (.binary (.qualified "t0" "stock") (.arith .add) (.parameter v)) (.of type)) ∧
      (default : Schema).compose (.arith .add) (.literal ⟨"9223372036854775808", .integer⟩)
        (stock .int) =
        .ok (.value (.binary (.parameter v) (.arith .add) (.qualified "t0" "stock"))
          (.of type)) := by
  have hspelled : (Literal.mk "9223372036854775808" .integer).Spelled :=
    .inr (.inr ⟨Token.integer, by simp [Token.unquoted], by decide⟩)
  obtain ⟨n, hn, hsum⟩ :=
    calculate_number default .add (e := stock .int) rfl rfl (by decide) hspelled (.inl rfl)
  obtain rfl : n = beyond := Numeral.text_injective (hn.trans rfl)
  have hvalue : beyond.value = 2 ^ 63 := by
    rw [Numeral.value_integer rfl, show beyond.unscaled = 2 ^ 63 by decide]
    norm_num
  rw [if_neg (by decide), if_neg (by decide), hvalue] at hsum
  exact ⟨hspelled, hsum⟩

/-- Beside a 64-bit operand the integer `beyond` is refused. -/
example : (default : Schema).compose (.arith .add) (stock .long)
    (.literal ⟨"9223372036854775808", .integer⟩) =
    .error (.invalidValue "9223372036854775808" "Edm.Int64" .outOfRange) :=
  rfl

end Schema

end FilterSql
