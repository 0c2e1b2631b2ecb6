import Mathlib.Algebra.Order.Field.Power
import Mathlib.Algebra.Order.Field.Rat
import Mathlib.Data.Nat.Digits.Defs
import Mathlib.Tactic.FieldSimp
import Mathlib.Tactic.Ring
import FilterSql.Decimal.Basic
import FilterSql.Filter.Basic
import FilterSql.Proofs.Compile.Outcome

/-!
# Numerals

The text of a number and the number that it denotes. The places of its digits tell `Numeral.value`,
and nothing that reads it. A text is one numeral at most (`Numeral.text_injective`). The readers
read the number that is denoted or nothing: a decimal number if it has a scale of 64 bits
(`Numeral.read?_text`), a whole one if the word holds it (`Numeral.intOfBits?_text`).
-/

namespace FilterSql

/-- The rational number that `d` stands for. -/
def Decimal.toRat (d : Decimal) : ℚ :=
  d.unscaled * 10 ^ (-d.scale)

/-! ## Rows of digits

Digits as numbers below ten on one side, their characters on the other. What is read from a text
always begins with a row of digits and goes on with something else. -/

namespace Text

variable {ds ds' : List (Fin 10)} {r r' s : List Char} {n most bits : ℕ} {beyond : IntegerFault}

section

variable {p : Char → Bool} (hs : ∀ c ∈ s, p c = true) (hr : ∀ c ∈ r.head?, p c = false)
include hs hr

/-- What is taken from the front of `s ++ r` ends with `s`, if all of that satisfies `p` and `r`
does not begin with such a character. -/
theorem takeWhile_stop : (s ++ r).takeWhile p = s := by
  rw [List.takeWhile_append_of_pos hs]
  cases r with
  | nil => simp
  | cons c r => simp [hr c rfl]

theorem dropWhile_stop : (s ++ r).dropWhile p = r := by
  have hparts : (s ++ r).takeWhile p ++ (s ++ r).dropWhile p = s ++ r :=
    List.takeWhile_append_dropWhile
  rw [takeWhile_stop hs hr] at hparts
  exact List.append_cancel_left hparts

end

/-! ### Their characters

`row ds` is the text of the digits and `number ds` what they make. A row is a text of digits only,
and each text of digits is a row (`exists_row`), so the digits and their text determine each
other. -/

/-- The characters of the digits `ds`. -/
def row (ds : List (Fin 10)) : List Char :=
  ds.map fun d => d.val.digitChar

/-- The number that the digits `ds` make, each one worth ten times as much as the next. -/
def number (ds : List (Fin 10)) : ℕ :=
  Nat.ofDigits 10 (ds.map Fin.val).reverse

@[simp] theorem row_nil : row [] = [] := rfl

@[simp] theorem row_cons (d : Fin 10) : row (d :: ds) = d.val.digitChar :: row ds := rfl

@[simp] theorem row_append : row (ds ++ ds') = row ds ++ row ds' :=
  List.map_append

@[simp] theorem length_row : (row ds).length = ds.length :=
  List.length_map _

@[simp] theorem row_eq_nil : row ds = [] ↔ ds = [] :=
  List.map_eq_nil_iff

theorem isDigit_digitChar : ∀ d : Fin 10, d.val.digitChar.isDigit = true := by
  decide

theorem toNat_digitChar : ∀ d : Fin 10, d.val.digitChar.toNat - 48 = d.val := by
  decide

theorem digitChar_injective : ∀ d d' : Fin 10, d.val.digitChar = d'.val.digitChar → d = d' := by
  decide

theorem isDigit_of_mem_row {c : Char} (h : c ∈ row ds) : c.isDigit = true := by
  obtain ⟨d, -, rfl⟩ := List.mem_map.mp h
  exact isDigit_digitChar d

theorem all_isDigit_row : (row ds).all Char.isDigit = true :=
  List.all_eq_true.mpr fun _ h => isDigit_of_mem_row h

/-- A character that is no digit is different from all that are in a `row`. -/
theorem ne_of_mem_row {c c' : Char} (h : c ∈ row ds) (hc : c'.isDigit = false) : c ≠ c' := by
  rintro rfl
  rw [isDigit_of_mem_row h] at hc
  cases hc

theorem filter_row {c' : Char} (hc : c'.isDigit = false) : (row ds).filter (· ≠ c') = row ds :=
  List.filter_eq_self.mpr fun c h => by simpa using ne_of_mem_row h hc

/-- A `row` does not begin with a sign, or with any other character that is no digit. -/
theorem row_ne_cons {c : Char} (hc : c.isDigit = false) (r : List Char) : row ds ≠ c :: r := by
  intro h
  exact ne_of_mem_row (h ▸ List.mem_cons_self) hc rfl

theorem exists_row (h : ∀ c ∈ s, c.isDigit = true) : ∃ ds, row ds = s := by
  induction s with
  | nil => exact ⟨[], rfl⟩
  | cons c s ih =>
      obtain ⟨ds, rfl⟩ := ih fun c' hc' => h c' (List.mem_cons_of_mem c hc')
      have hc := h c List.mem_cons_self
      rw [Char.isDigit, Bool.and_eq_true, decide_eq_true_eq, decide_eq_true_eq] at hc
      have hlow : 48 ≤ c.toNat := hc.1
      have hhigh : c.toNat ≤ 57 := hc.2
      have hchar : ∀ d : Fin 10, d.val.digitChar = Char.ofNat (48 + d.val) := by decide
      refine ⟨⟨c.toNat - 48, by omega⟩ :: ds, ?_⟩
      rw [row_cons, hchar, show 48 + (c.toNat - 48) = c.toNat by omega, Char.ofNat_toNat]

theorem row_injective (h : row ds = row ds') : ds = ds' :=
  (List.map_inj_right digitChar_injective).mp h

/-- A `row` ends where no digit follows, so a text is divided behind it in one way. -/
theorem row_append_inj (hr : ∀ c ∈ r.head?, c.isDigit = false)
    (hr' : ∀ c ∈ r'.head?, c.isDigit = false) (h : row ds ++ r = row ds' ++ r') :
    ds = ds' ∧ r = r' := by
  have hds : row ds = row ds' := by
    rw [← takeWhile_stop (fun c hc => isDigit_of_mem_row hc) hr, h,
      takeWhile_stop (fun c hc => isDigit_of_mem_row hc) hr']
  exact ⟨row_injective hds, List.append_cancel_left (hds ▸ h)⟩

/-! ### Their number

The functions of `Text` go through the characters from the left; `number` is given by the digits. -/

@[simp] theorem number_nil : number [] = 0 := rfl

theorem number_cons (d : Fin 10) : number (d :: ds) = d * 10 ^ ds.length + number ds := by
  rw [number, List.map_cons, Nat.ofDigits_reverse_cons, List.length_map, Nat.add_comm, Nat.mul_comm]
  rfl

theorem number_append : number (ds ++ ds') = number ds * 10 ^ ds'.length + number ds' := by
  induction ds with
  | nil => simp
  | cons d ds ih =>
      rw [List.cons_append, number_cons, number_cons, ih, List.length_append]
      ring

theorem number_lt (ds : List (Fin 10)) : number ds < 10 ^ ds.length := by
  have hdigit : ∀ d ∈ (ds.map Fin.val).reverse, d < 10 := by
    intro d hd
    obtain ⟨d, -, rfl⟩ := List.mem_map.mp (List.mem_reverse.mp hd)
    exact d.isLt
  simpa [number] using Nat.ofDigits_lt_base_pow_length (by decide) hdigit

theorem foldl_row :
    (row ds).foldl (fun n c => n * 10 + (c.toNat - 48)) n = n * 10 ^ ds.length + number ds := by
  induction ds generalizing n with
  | nil => simp
  | cons d ds ih =>
      rw [row_cons, List.foldl_cons, ih, toNat_digitChar, number_cons, List.length_cons]
      ring

theorem ofDigits_row : ofDigits (row ds) = number ds := by
  rw [ofDigits, foldl_row, Nat.zero_mul, Nat.zero_add]

/-! ### Reading them

`nat?` reads a row without a bound. `natUpTo?` checks the bound behind each digit (`extendUpTo?`),
so it gives up on a row as soon as its front is too large. -/

theorem nat?_row (hds : ds ≠ []) : nat? (row ds) = .ok (number ds) := by
  rw [nat?, if_neg, ofDigits_row]
  simp [hds, all_isDigit_row]

/-- `extendUpTo?` reads a `row` if the number stays within `most`. It only grows from digit to
digit, so the last one decides. -/
theorem extendUpTo?_row (hn : n ≤ most) : extendUpTo? most beyond n (row ds) =
    if n * 10 ^ ds.length + number ds ≤ most then .ok (n * 10 ^ ds.length + number ds)
    else .error beyond := by
  induction ds generalizing n with
  | nil => simp [extendUpTo?, hn]
  | cons d ds ih =>
      have hstep : n * 10 ^ (d :: ds).length + number (d :: ds) =
        (n * 10 + d) * 10 ^ ds.length + number ds := by
        rw [number_cons, List.length_cons]
        ring
      rw [row_cons, extendUpTo?, isDigit_digitChar, toNat_digitChar, hstep]
      by_cases hmost : most < n * 10 + d
      · have hgrow : n * 10 + d ≤ (n * 10 + d) * 10 ^ ds.length :=
          Nat.le_mul_of_pos_right _ (by positivity)
        rw [if_neg (by simp), if_pos hmost, if_neg (by omega)]
      · rw [if_neg (by simp), if_neg hmost, ih (by omega)]

theorem natUpTo?_row (hds : ds ≠ []) :
    natUpTo? most beyond (row ds) =
      if number ds ≤ most then .ok (number ds) else .error beyond := by
  rw [natUpTo?, if_neg (by simpa using hds), extendUpTo?_row (Nat.zero_le most), Nat.zero_mul,
    Nat.zero_add]

end Text

/-! ## Numerals

A `Numeral` is the parts of a text, and `Numeral.text` writes them. The kind of literal that the
text is can be told from its parts. -/

namespace Numeral

inductive Sign where
  | absent | plus | minus
deriving DecidableEq, Repr

def Sign.chars : Sign → List Char
  | absent => []
  | plus => ['+']
  | minus => ['-']

/-- The integer of the size `k` with the sign. -/
def Sign.of : Sign → ℕ → ℤ
  | minus, k => -k
  | _, k => k

/-- An exponent and its `mark`, which may be a capital letter. -/
@[ext] structure Exponent where
  capital : Bool
  sign : Sign
  digits : List (Fin 10)
  digits_ne : digits ≠ []

namespace Exponent

def mark (e : Exponent) : Char :=
  if e.capital then 'E' else 'e'

def chars (e : Exponent) : List Char :=
  e.mark :: (e.sign.chars ++ Text.row e.digits)

def value (e : Exponent) : ℤ :=
  e.sign.of (Text.number e.digits)

end Exponent

end Numeral

/-- Digits with a sign or without, with decimal `places` or without, and with an exponent or
without. -/
@[ext] structure Numeral where
  negative : Bool
  whole : List (Fin 10)
  places : List (Fin 10)
  exponent : Option Numeral.Exponent
  whole_ne : whole ≠ []

namespace Numeral

open Text (row number)

/-! ### Their text

A numeral is written as its sign, its digits, its places behind a point, and its exponent. Which of
these it has decides of which `LiteralKind` the text is. -/

def sign (n : Numeral) : Sign :=
  if n.negative then .minus else .absent

/-- The decimal `places`, with the point in front if there are any. -/
def fraction (n : Numeral) : List Char :=
  if n.places = [] then [] else '.' :: row n.places

/-- What stands in front of the `exponent`. -/
def mantissa (n : Numeral) : List Char :=
  n.sign.chars ++ (row n.whole ++ n.fraction)

def tail (n : Numeral) : List Char :=
  (n.exponent.map Exponent.chars).getD []

def text (n : Numeral) : String :=
  String.ofList (n.mantissa ++ n.tail)

theorem toList_text (n : Numeral) : n.text.toList = n.mantissa ++ n.tail :=
  String.toList_ofList

/-- The kind of literal that is written like this. -/
def kind (n : Numeral) : LiteralKind :=
  match n.exponent, n.places with
  | some _, _ => .double
  | none, [] => .integer
  | none, _ :: _ => .decimal

/-! ### Their number

`value` is what is denoted, and `decimal` what is kept of it. The two are the same number
(`value_eq`), but the latter also keeps the zeros. -/

/-- The power of ten that the `exponent` names, zero if there is none. -/
def power (n : Numeral) : ℤ :=
  (n.exponent.map Exponent.value).getD 0

/-- The number that is denoted, as a rational. -/
def value (n : Numeral) : ℚ :=
  (if n.negative then -1 else 1) * (number n.whole + number n.places / 10 ^ n.places.length) *
    10 ^ n.power

/-- The integer that all digits make together, without the point. -/
def unscaled (n : Numeral) : ℤ :=
  n.sign.of (number (n.whole ++ n.places))

/-- How many of the digits stand behind the point, once the `power` is taken into account. -/
def scale (n : Numeral) : ℤ :=
  n.places.length - n.power

/-- The `Decimal` with the digits as they are written. -/
def decimal (n : Numeral) : Decimal :=
  ⟨n.unscaled, n.scale⟩

variable {s s' : Sign} {ds ds' : List (Fin 10)} {r r' : List Char} {bits : ℕ} {i : ℤ}
    {n n' : Numeral}

theorem value_eq (n : Numeral) : n.value = n.decimal.toRat := by
  have hten : (10 : ℚ) ≠ 0 := by norm_num
  have hdigits : (n.unscaled : ℚ) =
      (if n.negative then -1 else 1) *
        (number n.whole * 10 ^ n.places.length + number n.places) := by
    unfold unscaled sign
    cases n.negative <;> simp [Sign.of, Text.number_append]
  rw [Decimal.toRat, decimal, hdigits, scale, neg_sub, zpow_sub₀ hten, zpow_natCast, value]
  have hpower : (10 : ℚ) ^ n.places.length ≠ 0 := pow_ne_zero _ hten
  generalize (10 : ℚ) ^ n.power = power
  field_simp

/-! ### A text is one numeral at most

The text is taken apart from the left. Each part ends where a character follows that it cannot
have, so two numerals with one text agree part by part. -/

theorem Sign.not_isDigit {c : Char} (h : c ∈ s.chars) : c.isDigit = false := by
  cases s <;> simp_all [chars]

/-- A sign ends where a digit follows, and a `row` where none does. -/
theorem sign_row_inj (hds : ds ≠ []) (hds' : ds' ≠ []) (hr : ∀ c ∈ r.head?, c.isDigit = false)
    (hr' : ∀ c ∈ r'.head?, c.isDigit = false)
    (h : s.chars ++ (row ds ++ r) = s'.chars ++ (row ds' ++ r')) :
    s = s' ∧ ds = ds' ∧ r = r' := by
  have hsign {s : Sign} {ds : List (Fin 10)} {r : List Char} (hds : ds ≠ []) :
      (s.chars ++ (row ds ++ r)).takeWhile (!·.isDigit) = s.chars := by
    refine Text.takeWhile_stop (fun c hc => by simp [Sign.not_isDigit hc]) ?_
    cases ds with
    | nil => exact absurd rfl hds
    | cons d ds => simp [Text.isDigit_digitChar d]
  have hchars : s.chars = s'.chars := by rw [← hsign hds, h, hsign hds']
  obtain rfl : s = s' := by
    cases s <;> cases s' <;> first | rfl | cases hchars
  exact ⟨rfl, Text.row_append_inj hr hr' (List.append_cancel_left h)⟩

theorem Exponent.isMark (e : Exponent) : e.mark = 'e' ∨ e.mark = 'E' := by
  unfold mark
  cases e.capital <;> simp

theorem mark_of_mem_tail {c : Char} (h : c ∈ n.tail.head?) : c = 'e' ∨ c = 'E' := by
  unfold tail at h
  cases he : n.exponent with
  | none => simp [he] at h
  | some e =>
      obtain rfl : e.mark = c := by simpa [he, Exponent.chars] using h
      exact e.isMark

/-- The `mantissa` has no mark of an exponent in it. -/
theorem mark_of_mem_mantissa {c : Char} (h : c ∈ n.mantissa) : c ≠ 'e' ∧ c ≠ 'E' := by
  have hdigit {ds : List (Fin 10)} (h : c ∈ row ds) : c ≠ 'e' ∧ c ≠ 'E' :=
    ⟨Text.ne_of_mem_row h (by decide), Text.ne_of_mem_row h (by decide)⟩
  simp only [mantissa, List.mem_append] at h
  rcases h with h | h | h
  · unfold sign at h
    split at h <;> simp_all [Sign.chars]
  · exact hdigit h
  · unfold fraction at h
    split at h
    · cases h
    · rcases List.mem_cons.mp h with rfl | h
      · decide
      · exact hdigit h

/-- The mantissa is what stands in front of the first mark, as `Decimal.read?` takes it. -/
theorem takeWhile_text (n : Numeral) :
    n.text.toList.takeWhile (fun c => !(c == 'e' || c == 'E')) = n.mantissa := by
  rw [toList_text]
  refine Text.takeWhile_stop (fun c hc => ?_) (fun c hc => ?_)
  · simp [mark_of_mem_mantissa hc]
  · rcases mark_of_mem_tail hc with rfl | rfl <;> rfl

theorem dropWhile_text (n : Numeral) :
    n.text.toList.dropWhile (fun c => !(c == 'e' || c == 'E')) = n.tail := by
  have hparts :=
    List.takeWhile_append_dropWhile (p := fun c => !(c == 'e' || c == 'E')) (l := n.text.toList)
  rw [takeWhile_text, toList_text] at hparts
  exact toList_text n ▸ List.append_cancel_left hparts

theorem fraction_inj (h : n.fraction = n'.fraction) : n.places = n'.places := by
  unfold fraction at h
  split at h <;> split at h
  next hn hn' => rw [hn, hn']
  next => cases h
  next => cases h
  next => exact Text.row_injective (List.cons.inj h).2

theorem tail_inj (h : n.tail = n'.tail) : n.exponent = n'.exponent := by
  unfold tail at h
  cases he : n.exponent <;> cases he' : n'.exponent <;> simp only [he, he', Option.map_some,
    Option.map_none, Option.getD_some, Option.getD_none, Exponent.chars] at h
  case none.none => rfl
  case none.some => cases h
  case some.none => cases h
  case some.some e e' =>
    obtain ⟨hmark, h⟩ := List.cons.inj h
    have hrow : e.sign.chars ++ (row e.digits ++ []) = e'.sign.chars ++ (row e'.digits ++ []) := by
      simpa using h
    obtain ⟨hsign, hdigits, -⟩ := sign_row_inj e.digits_ne e'.digits_ne (by simp) (by simp) hrow
    have hcapital : e.capital = e'.capital := by
      unfold Exponent.mark at hmark
      cases hc : e.capital <;> cases hc' : e'.capital <;> simp_all
    exact congrArg some (Exponent.ext hcapital hsign hdigits)

theorem text_injective (h : n.text = n'.text) : n = n' := by
  have hmantissa : n.mantissa = n'.mantissa := by rw [← takeWhile_text n, h, takeWhile_text n']
  have htail : n.tail = n'.tail := by rw [← dropWhile_text n, h, dropWhile_text n']
  have hfraction (n : Numeral) : ∀ c ∈ n.fraction.head?, c.isDigit = false := by
    unfold fraction
    split <;> simp
  obtain ⟨hsign, hwhole, hplaces⟩ :=
    sign_row_inj n.whole_ne n'.whole_ne (hfraction n) (hfraction n') hmantissa
  have hnegative : n.negative = n'.negative := by
    unfold sign at hsign
    cases hn : n.negative <;> cases hn' : n'.negative <;> simp_all
  exact Numeral.ext hnegative hwhole (fraction_inj hplaces) (tail_inj htail)

/-! ### Reading them

Each reader is given the text of a numeral, or the part of it that it has to read. -/

theorem int?_row (hds : ds ≠ []) : Text.int? (s.chars ++ row ds) = .ok (s.of (number ds)) := by
  cases s with
  | minus => simp [Sign.chars, Sign.of, Text.int?, Text.nat?_row hds, Except.map]
  | plus => simp [Sign.chars, Sign.of, Text.int?, Text.nat?_row hds, Except.map]
  | absent =>
      rw [Sign.chars, List.nil_append, Text.int?, Text.nat?_row hds]
      · rfl
      · simpa using hds
      · exact Text.row_ne_cons (by decide)
      · exact Text.row_ne_cons (by decide)

theorem signed?_row (hds : ds ≠ []) :
    Decimal.signed? (s.chars ++ row ds) = .ok (s.of (number ds)) := by
  have hunderscored : Decimal.underscored? (row ds) = .ok (number ds) := by
    have hhead : (row ds).head? ≠ some '_' := by
      rw [ne_eq, List.head?_eq_some_iff]
      rintro ⟨r, hr⟩
      exact Text.row_ne_cons (by decide) r hr
    rw [Decimal.underscored?, if_neg (by simpa using hds), if_neg hhead,
      Text.filter_row (by decide), if_pos Text.all_isDigit_row, Text.ofDigits_row]
  cases s with
  | minus => simp [Sign.chars, Sign.of, Decimal.signed?, hunderscored, Except.map]
  | plus => simp [Sign.chars, Sign.of, Decimal.signed?, hunderscored, Except.map]
  | absent =>
      rw [Sign.chars, List.nil_append, Decimal.signed?, hunderscored]
      · rfl
      · exact Text.row_ne_cons (by decide)
      · exact Text.row_ne_cons (by decide)

/-- A whole number is read if a word of `bits` bits holds it. -/
theorem intOfBits?_row (hds : ds ≠ []) : Text.intOfBits? bits (s.chars ++ row ds) = .ok i ↔
    (-2 ^ (bits - 1) ≤ i ∧ i < 2 ^ (bits - 1)) ∧ s.of (number ds) = i := by
  have hcast : ((2 ^ (bits - 1) : ℕ) : ℤ) = 2 ^ (bits - 1) := by push_cast; rfl
  have hpos : 0 < 2 ^ (bits - 1) := Nat.two_pow_pos _
  have hunsigned : (Text.natUpTo? (2 ^ (bits - 1) - 1) .tooLarge (row ds)).map Int.ofNat = .ok i ↔
      (-2 ^ (bits - 1) ≤ i ∧ i < 2 ^ (bits - 1)) ∧ (number ds : ℤ) = i := by
    rw [Text.natUpTo?_row hds, ← hcast]
    split <;> simp [Except.map] <;> omega
  -- Below zero the word reaches one number further.
  cases s with
  | minus =>
      show (Text.natUpTo? (2 ^ (bits - 1)) .tooSmall (row ds)).map (fun k => -(k : ℤ)) = .ok i ↔ _
      rw [Text.natUpTo?_row hds, ← hcast]
      split <;> simp [Except.map, Sign.of] <;> omega
  | plus => exact hunsigned
  | absent =>
      rw [Sign.chars, List.nil_append, Text.intOfBits?]
      · exact hunsigned
      · simpa using hds
      · exact Text.row_ne_cons (by decide)
      · exact Text.row_ne_cons (by decide)

theorem splitPoint_mantissa : Decimal.splitPoint n.mantissa =
    (n.sign.chars ++ row (n.whole ++ n.places), n.places.length) := by
  have hfilter : (row n.places).filter (· ≠ '_') = row n.places := Text.filter_row (by decide)
  -- The first point is the one in front of the places, if there are any.
  have hlead : ∀ c ∈ n.sign.chars ++ row n.whole, decide (c ≠ '.') = true := by
    intro c hc
    rcases List.mem_append.mp hc with hc | hc
    · have := Sign.not_isDigit hc
      unfold sign at hc
      split at hc <;> simp_all [Sign.chars]
    · simpa using Text.ne_of_mem_row hc (by decide)
  have hpoint : ∀ c ∈ n.fraction.head?, decide (c ≠ '.') = false := by
    unfold fraction
    split <;> simp
  rw [Decimal.splitPoint, mantissa, ← List.append_assoc, Text.takeWhile_stop hlead hpoint,
    Text.dropWhile_stop hlead hpoint]
  by_cases hplaces : n.places = []
  · simp [fraction, hplaces]
  · rw [fraction, if_neg hplaces]
    simp only [hfilter, Text.row_append, Text.length_row, List.append_assoc]

/-- The text of a numeral begins with the minus sign or with a digit. -/
theorem head_text (n : Numeral) : ∃ c r, n.text.toList = c :: r ∧ (c = '-' ∨ c.isDigit = true) := by
  rw [toList_text, mantissa, sign]
  cases n.negative with
  | true => exact ⟨'-', _, rfl, .inl rfl⟩
  | false =>
      obtain ⟨d, ds, hwhole⟩ := List.exists_cons_of_ne_nil n.whole_ne
      rw [hwhole]
      exact ⟨d.val.digitChar, _, rfl, .inr (Text.isDigit_digitChar d)⟩

/-- The `power` as it is read, within 128 bits. -/
def readPower (n : Numeral) : Except Decimal.Fault ℤ :=
  match n.tail with
  | [] => pure 0
  | _ :: r => (Text.intOfBits? 128 r).mapError .integer

/-- `Decimal.read?` takes the text of a numeral, and refuses only the exponent, or the scale that
it gives. -/
theorem read?_eq (n : Numeral) : Decimal.read? n.text = n.readPower >>= fun power =>
    if (n.places.length : ℤ) - power < -2 ^ 63 ∨ 2 ^ 63 ≤ (n.places.length : ℤ) - power then
      .error (.exponentOverflow n.text)
    else .ok ⟨n.unscaled, n.places.length - power⟩ := by
  have hmantissa : n.mantissa.isEmpty = false := by
    simp [mantissa, n.whole_ne]
  have hunscaled : Decimal.signed? (n.sign.chars ++ row (n.whole ++ n.places)) = .ok n.unscaled :=
    signed?_row (by simp [n.whole_ne])
  simp only [Decimal.read?, readPower, takeWhile_text, dropWhile_text, splitPoint_mantissa,
    hmantissa, hunscaled]
  cases n.tail <;> rfl

theorem readPower_ok {power : ℤ} :
    n.readPower = .ok power ↔ (-2 ^ 127 ≤ power ∧ power < 2 ^ 127) ∧ n.power = power := by
  unfold readPower tail Numeral.power
  cases n.exponent with
  | none =>
      rw [Option.map_none, Option.getD_none, Option.map_none, Option.getD_none, Checked.pure_ok]
      omega
  | some e =>
      show (Text.intOfBits? 128 (e.sign.chars ++ row e.digits)).mapError Decimal.Fault.integer =
        .ok power ↔
        (-2 ^ (128 - 1) ≤ power ∧ power < 2 ^ (128 - 1)) ∧ e.sign.of (number e.digits) = power
      rw [← intOfBits?_row e.digits_ne]
      cases Text.intOfBits? 128 (e.sign.chars ++ row e.digits) <;> simp [Except.mapError]

/-- The exponent fits in 128 bits and the scale in 64 bits, so `Decimal.read?` takes the text. -/
def IsReadable (n : Numeral) : Prop :=
  (-2 ^ 127 ≤ n.power ∧ n.power < 2 ^ 127) ∧ -2 ^ 63 ≤ n.scale ∧ n.scale < 2 ^ 63

/-- **The decimal number that is read is the one that is denoted, as it is written**, and it is
read if the numeral `IsReadable`. -/
theorem read?_text {d : Decimal} : Decimal.read? n.text = .ok d ↔ n.IsReadable ∧ n.decimal = d := by
  simp only [read?_eq, Checked.bind_ok, readPower_ok]
  constructor
  · rintro ⟨power, ⟨hpower, rfl⟩, h⟩
    split at h
    next => cases h
    next hscale => exact ⟨⟨hpower, by unfold scale; omega⟩, Except.ok.inj h⟩
  · rintro ⟨⟨hpower, hscale⟩, rfl⟩
    unfold scale at hscale
    exact ⟨n.power, ⟨hpower, rfl⟩, if_neg (by omega)⟩

/-! ### Numerals without an exponent

These are what filters write. A filter has no room for the number of places that would be too many,
but nothing in the types says so. -/

section

variable (hkind : n.kind ≠ .double)
include hkind

theorem exponent_of_kind : n.exponent = none := by
  unfold kind at hkind
  cases he : n.exponent with
  | some e => simp [he] at hkind
  | none => rfl

/-- Without an exponent the scale is the number of `places`, which may be too large for 64 bits. -/
theorem read?_of_kind : Decimal.read? n.text =
    if 2 ^ 63 ≤ n.places.length then .error (.exponentOverflow n.text) else .ok n.decimal := by
  have hexponent := exponent_of_kind hkind
  have hread : n.readPower = .ok 0 := by simp [readPower, tail, hexponent, pure, Except.pure]
  have hscale : n.scale = n.places.length := by simp [scale, power, hexponent]
  have hlimit : ((n.places.length : ℤ) < -2 ^ 63 ∨ 2 ^ 63 ≤ (n.places.length : ℤ)) ↔
    2 ^ 63 ≤ n.places.length := by
    omega
  rw [read?_eq, hread]
  simp only [bind, Except.bind, decimal, hscale, Int.sub_zero, hlimit]

end

section

variable (hkind : n.kind = .integer)
include hkind

theorem of_integer : n.places = [] ∧ n.exponent = none := by
  unfold kind at hkind
  split at hkind
  next => cases hkind
  next he hplaces => exact ⟨hplaces, he⟩
  next => cases hkind

theorem toList_integer : n.text.toList = n.sign.chars ++ row n.whole := by
  simp [toList_text, mantissa, fraction, tail, of_integer hkind]

theorem unscaled_integer : n.unscaled = n.sign.of (number n.whole) := by
  rw [unscaled, (of_integer hkind).1, List.append_nil]

theorem value_integer : n.value = n.unscaled := by
  have hscale : n.scale = 0 := by simp [scale, power, of_integer hkind]
  simp [value_eq, Decimal.toRat, decimal, hscale]

theorem int?_text : Text.int? n.text.toList = .ok n.unscaled := by
  rw [toList_integer hkind, unscaled_integer hkind, int?_row n.whole_ne]

theorem intOfBits?_text : Text.intOfBits? bits n.text.toList = .ok i ↔
    (-2 ^ (bits - 1) ≤ i ∧ i < 2 ^ (bits - 1)) ∧ n.unscaled = i := by
  rw [toList_integer hkind, unscaled_integer hkind, intOfBits?_row n.whole_ne]

end

end Numeral

end FilterSql
