import Mathlib.Data.String.Basic
import FilterSql.Proofs.Calendar.Days
import FilterSql.Proofs.Decimal.Numeral

/-!
# Written dates and times

Dates, times and timestamps as they are written, and what they stand for, in which what reads them
has no part: `Date.Written`, `Time.Written` and `Timestamp.Written`. What is written of a day or of
a time is read as that (`Date.read?_text`, `Time.read?_text`). A timestamp is read as the instant
that its offset tells, provided that its seconds are written (`Timestamp.read?_text`); with hours
and minutes alone it is not read at all (`Timestamp.read?_unfinished`).
-/

namespace FilterSql.Calendar

open Text (row number)

/-! ## Figures

The parts of a date have a fixed number of digits, which their type carries, so a written date
always has the right length. -/

/-- A row of exactly `width` digits. -/
structure Figures (width : ℕ) where
  digits : List (Fin 10)
  length_eq : digits.length = width

namespace Figures

/-- The last `width` digits of `n`. -/
def of (width n : ℕ) : Figures width :=
  ⟨(List.range width).reverse.map fun i =>
    ⟨n / 10 ^ i % 10, Nat.mod_lt _ (Nat.succ_pos 9)⟩, by simp⟩

variable {width : ℕ}

def chars (f : Figures width) : List Char :=
  row f.digits

def value (f : Figures width) : ℕ :=
  number f.digits

theorem utf8Len_row {ds : List (Fin 10)} : String.utf8Len (row ds) = ds.length := by
  have hone : ∀ d : Fin 10, d.val.digitChar.utf8Size = 1 := by decide
  induction ds with
  | nil => rfl
  | cons d ds ih => simp [ih, hone d]

@[simp] theorem utf8Len_chars (f : Figures width) : String.utf8Len f.chars = width := by
  rw [chars, utf8Len_row, f.length_eq]

theorem value_lt (f : Figures width) : f.value < 10 ^ width :=
  (Text.number_lt f.digits).trans_eq (by rw [f.length_eq])

/-- `Figures 2` are two digits with their number. -/
theorem exists_pair (f : Figures 2) :
    ∃ a b : Fin 10, f.chars = [a.val.digitChar, b.val.digitChar] ∧ f.value = a * 10 + b := by
  obtain ⟨a, b, hpair⟩ := List.length_eq_two.mp f.length_eq
  exact ⟨a, b, by rw [chars, hpair]; rfl, by simp [value, hpair, Text.number_cons]⟩

/-- Four digits are twice two, which is how `Reader.twoDigits` takes a year. -/
theorem exists_halves (f : Figures 4) :
    ∃ a b : Figures 2, f.chars = a.chars ++ b.chars ∧ f.value = a.value * 100 + b.value := by
  have hlength := f.length_eq
  have hback : (f.digits.drop 2).length = 2 := by rw [List.length_drop, hlength]
  refine ⟨⟨f.digits.take 2, by rw [List.length_take, hlength]; rfl⟩,
    ⟨f.digits.drop 2, hback⟩, ?_, ?_⟩
  · rw [chars, chars, chars, ← Text.row_append, List.take_append_drop]
  · have hvalue : Text.number (f.digits.take 2 ++ f.digits.drop 2) = _ := Text.number_append
    rwa [List.take_append_drop, hback] at hvalue

end Figures

/-! ## Steps of reading

A lemma for each step says what it takes from a text that begins with the right characters. With
`run_bind_of` a reader is then run step by step, each time rewriting with the lemma of the next
one. -/

namespace Reader

variable {α β : Type} {r : Reader α} {s s' rest : List Char} {a : α} {fault : Fault}

theorem run_bind_of (h : StateT.run r s = .ok (a, s')) (f : α → Reader β) :
    StateT.run (r >>= f) s = StateT.run (f a) s' := by
  rw [StateT.run_bind, h]
  rfl

theorem run_bind_error (h : StateT.run r s = .error fault) (f : α → Reader β) :
    StateT.run (r >>= f) s = .error fault := by
  rw [StateT.run_bind, h]
  rfl

theorem run_of (h : StateT.run r s = .ok (a, [])) : r.run s = .ok a := by
  rw [run, h]
  rfl

theorem run_discard (h : StateT.run r s = .ok (a, s')) :
    StateT.run (discard r) s = .ok ((), s') := by
  show StateT.run ((fun _ => ()) <$> r) s = _
  rw [StateT.run_map, h]
  rfl

theorem run_discard_error (h : StateT.run r s = .error fault) :
    StateT.run (discard r) s = .error fault := by
  show StateT.run ((fun _ => ()) <$> r) s = _
  rw [StateT.run_map, h]
  rfl

/-! ### Characters

`char` takes one character and `literal` a fixed text. Each has a lemma for the case that it finds
what it looks for and one for the case that it does not, where the reader fails. -/

section

variable {test : Char → Bool} {c d : Char}

theorem run_char (hc : test c = true) : StateT.run (char test) (c :: rest) = .ok (c, rest) := by
  simp [char, hc]
  rfl

theorem run_char_error (hc : test c = false) :
    StateT.run (char test) (c :: rest) = .error .invalid := by
  simp [char, hc]
  rfl

theorem run_literal : StateT.run (literal c) (c :: rest) = .ok ((), rest) :=
  run_discard (run_char (beq_self_eq_true c))

theorem run_literal_error (h : d ≠ c) : StateT.run (literal c) (d :: rest) = .error .invalid :=
  run_discard_error (run_char_error (by simpa using h))

theorem run_literal_nil : StateT.run (literal c) [] = .error .premature :=
  run_discard_error rfl

end

/-! ### Numbers

All of these are about a text that begins with a row of digits; what comes behind it is `rest`. -/

section

variable {ds : List (Fin 10)} {width low high : ℕ}

theorem run_blanks (hds : ds ≠ []) :
    StateT.run blanks (row ds ++ rest) = .ok ((), row ds ++ rest) := by
  have hstart : Text.trimStart (row ds ++ rest) = row ds ++ rest := by
    obtain ⟨d, ds, rfl⟩ := List.exists_cons_of_ne_nil hds
    have hblank : ∀ d : Fin 10, Text.isBlank d.val.digitChar = false := by decide
    simp [Text.trimStart, hblank d]
  show Except.ok ((), Text.trimStart (row ds ++ rest)) = _
  rw [hstart]

/-- Digits are taken up to the `width` of the figures, whatever follows. -/
theorem run_figures (f : Figures width) (hwidth : 0 < width) :
    StateT.run (digits (some width)) (f.chars ++ rest) = .ok (f.chars, rest) := by
  obtain ⟨ds, rfl⟩ := f
  obtain ⟨d, ds, rfl⟩ := List.exists_cons_of_ne_nil (List.ne_nil_of_length_pos hwidth)
  have hspan : (Text.spanDigits (row (d :: ds) ++ rest)).1.take (ds.length + 1) =
    row (d :: ds) := by
    rw [Text.spanDigits, List.takeWhile_append_of_pos fun _ hc => Text.isDigit_of_mem_row hc]
    exact List.take_left' Text.length_row
  rw [Text.row_cons, List.cons_append] at hspan
  simp only [Figures.chars, Text.row_cons, List.cons_append, List.length_cons]
  simp [digits, Text.isDigit_digitChar d, -List.length_take, hspan]
  rfl

/-- `digits none` takes all digits, so none may follow. -/
theorem run_digits (hds : ds ≠ []) (hrest : ∀ c ∈ rest.head?, c.isDigit = false) :
    StateT.run (digits none) (row ds ++ rest) = .ok (row ds, rest) := by
  have hspan : (Text.spanDigits (row ds ++ rest)).1 = row ds :=
    Text.takeWhile_stop (fun _ hc => Text.isDigit_of_mem_row hc) hrest
  obtain ⟨d, ds, rfl⟩ := List.exists_cons_of_ne_nil hds
  rw [Text.row_cons, List.cons_append] at hspan
  simp [digits, Text.isDigit_digitChar d, hspan]
  rfl

theorem run_number (f : Figures 2) (hlow : low ≤ f.value) (hhigh : f.value ≤ high) :
    StateT.run (Reader.number 2 low high) (f.chars ++ rest) = .ok (f.value, rest) := by
  have hds : f.digits ≠ [] := List.ne_nil_of_length_pos (by rw [f.length_eq]; decide)
  have hvalue : Text.ofDigits f.chars = f.value := Text.ofDigits_row
  have hrange : ¬(f.value < low ∨ high < f.value) := by omega
  have hblanks : StateT.run blanks (f.chars ++ rest) = .ok ((), f.chars ++ rest) := run_blanks hds
  rw [Reader.number, run_bind_of hblanks, run_bind_of (run_figures f (by decide)), hvalue]
  simp only [if_neg hrange]
  rfl

theorem run_year (f : Figures 4) : StateT.run year (f.chars ++ rest) = .ok (f.value, rest) := by
  have hds : f.digits ≠ [] := List.ne_nil_of_length_pos (by rw [f.length_eq]; decide)
  have hvalue : Text.ofDigits f.chars = f.value := Text.ofDigits_row
  have hblanks : StateT.run blanks (f.chars ++ rest) = .ok ((), f.chars ++ rest) := run_blanks hds
  have hrange : ¬((f.value : ℤ) < -2147483648 ∨ 2147483647 < (f.value : ℤ)) := by
    have hlt := f.value_lt
    omega
  have hsign {c : Char} {r : List Char} (hc : c.isDigit = false) : f.chars ++ rest ≠ c :: r := by
    obtain ⟨d, ds, hcons⟩ := List.exists_cons_of_ne_nil hds
    rw [Figures.chars, hcons, Text.row_cons, List.cons_append]
    rintro h
    rw [← (List.cons.inj h).1, Text.isDigit_digitChar d] at hc
    cases hc
  rw [year, run_bind_of hblanks, run_bind_of (a := f.chars ++ rest) rfl]
  dsimp only
  split
  next h => exact absurd h (hsign (by decide))
  next h => exact absurd h (hsign (by decide))
  next =>
    rw [run_bind_of (run_figures f (by decide)), hvalue, run_bind_of (a := (f.value : ℤ)) rfl,
      if_neg hrange]
    rfl

/-- `twoDigits` takes two digits, and no more if others follow. -/
theorem run_twoDigits (f : Figures 2) :
    StateT.run twoDigits (f.chars ++ rest) = .ok (f.value, rest) := by
  obtain ⟨a, b, hchars, hvalue⟩ := f.exists_pair
  have hdigit (d : Fin 10) (s : List Char) : StateT.run digit (d.val.digitChar :: s) =
    .ok (d.val, s) := by
    rw [digit, run_bind_of (run_char (Text.isDigit_digitChar d)), Text.toNat_digitChar]
    rfl
  rw [hchars, hvalue, twoDigits, List.cons_append, run_bind_of (hdigit a _), List.cons_append,
    run_bind_of (hdigit b _)]
  rfl

/-- Digits behind the ninth are cut off: `nanoseconds` is the fraction, rounded down. -/
theorem nanoseconds_row : nanoseconds (row ds) = Text.number ds * 10 ^ 9 / 10 ^ ds.length := by
  have htake : (row ds).take 9 = row (ds.take 9) := List.map_take.symm
  rw [nanoseconds, htake, Text.ofDigits_row, Text.length_row, List.length_take]
  rcases Nat.le_total ds.length 9 with hle | hle
  · have hpower : 10 ^ 9 = 10 ^ (9 - ds.length) * 10 ^ ds.length := by
      rw [← Nat.pow_add, Nat.sub_add_cancel hle]
    rw [List.take_of_length_le hle, min_eq_right hle, hpower, ← Nat.mul_assoc,
      Nat.mul_div_cancel _ (Nat.pow_pos (by decide))]
  · have hlength : (ds.drop 9).length = ds.length - 9 := List.length_drop
    have hpower : 10 ^ ds.length = 10 ^ (ds.drop 9).length * 10 ^ 9 := by
      rw [← Nat.pow_add, hlength, Nat.sub_add_cancel hle]
    have hparts : Text.number (ds.take 9 ++ ds.drop 9) = _ := Text.number_append
    rw [List.take_append_drop] at hparts
    rw [min_eq_left hle, Nat.sub_self, Nat.pow_zero, Nat.mul_one, hpower,
      Nat.mul_div_mul_right _ _ (by decide), hparts, Nat.mul_comm,
      Nat.mul_add_div (Nat.pow_pos (by decide)), Nat.div_eq_of_lt (Text.number_lt _), Nat.add_zero]

theorem run_fraction (hds : ds ≠ []) (hrest : ∀ c ∈ rest.head?, c.isDigit = false) :
    StateT.run fraction ('.' :: (row ds ++ rest)) = .ok (nanoseconds (row ds), rest) := by
  rw [fraction, run_bind_of (a := '.' :: (row ds ++ rest)) rfl]
  show StateT.run (do set (row ds ++ rest); return nanoseconds (← digits none)) _ = _
  rw [run_bind_of (a := ()) rfl, run_bind_of (run_digits hds hrest)]
  rfl

theorem run_fraction_none (hrest : ∀ c ∈ rest.head?, c ≠ '.') :
    StateT.run fraction rest = .ok (0, rest) := by
  rw [fraction, run_bind_of (a := rest) rfl]
  split
  next => simp at hrest
  next => rfl

end

end Reader

/-! ## Dates

A date is written in only one way, so `Date.read?` takes the text of a `Written` date exactly if
the calendar has that day. A year has four digits, and may have a minus sign in front. -/

namespace Date

/-- A written date: `year`, `month` and `day`, with hyphens between them. -/
structure Written where
  year : Figures 4
  month : Figures 2
  day : Figures 2

namespace Written

variable {w : Written} {rest : List Char}

def chars (w : Written) : List Char :=
  w.year.chars ++ '-' :: (w.month.chars ++ '-' :: w.day.chars)

def text (w : Written) : String :=
  String.ofList w.chars

/-- The calendar has the day that is written, so `Date` has a value for it. -/
def Exists (w : Written) : Prop :=
  DateExists w.year.value w.month.value w.day.value

/-- The day that is written, given that it `Exists`. -/
def date (w : Written) (h : w.Exists) : Date :=
  ⟨w.year.value, w.month.value, w.day.value, h⟩

end Written

open Reader

variable {w : Written}

theorem run_parts {rest : List Char} (h : w.Exists) :
    StateT.run (parts (pure ())) (w.chars ++ rest) =
    .ok ((↑w.year.value, w.month.value, w.day.value), rest) := by
  obtain ⟨-, -, hm, hm', hd, hd'⟩ := h
  have hmost : w.day.value ≤ 31 := hd'.trans (daysInMonth_le _ _)
  simp only [Written.chars, List.append_assoc, List.cons_append]
  rw [parts, run_bind_of (run_year _), run_bind_of (a := ()) rfl, run_bind_of run_literal,
    run_bind_of (run_number _ hm hm'), run_bind_of (a := ()) rfl, run_bind_of run_literal,
    run_bind_of (run_number _ hd hmost)]
  rfl

theorem ofParts_written (h : w.Exists) :
    ofParts w.year.value w.month.value w.day.value = .ok (w.date h) := by
  rw [ofParts, of?_eq h]
  rfl

theorem read?_text (h : w.Exists) : read? w.text = .ok (w.date h) := by
  have hparts : StateT.run (parts (pure ())) (w.chars ++ []) = _ := run_parts h
  rw [List.append_nil] at hparts
  rw [read?, Written.text, String.toList_ofList, run_of hparts]
  exact ofParts_written h

end Date

/-! ## Times

A literal may leave out the seconds, and with them the places behind their point. -/

namespace Time

/-- Written seconds, with `places` behind the point, if there are any. -/
structure Seconds where
  whole : Figures 2
  places : List (Fin 10)

namespace Seconds

def fraction (s : Seconds) : List Char :=
  if s.places = [] then [] else '.' :: row s.places

def chars (s : Seconds) : List Char :=
  ':' :: (s.whole.chars ++ s.fraction)

/-- The nanoseconds of the `places`, cut off behind the ninth. -/
def nanosecond (s : Seconds) : ℕ :=
  number s.places * 10 ^ 9 / 10 ^ s.places.length

theorem nanosecond_lt (s : Seconds) : s.nanosecond < 10 ^ 9 := by
  rw [nanosecond, Nat.div_lt_iff_lt_mul (Nat.pow_pos (by decide)), Nat.mul_comm]
  exact Nat.mul_lt_mul_of_pos_left (Text.number_lt _) (by decide)

end Seconds

/-- A written time: `hour` and `minute`, and `seconds` or none. -/
structure Written where
  hour : Figures 2
  minute : Figures 2
  seconds : Option Seconds

namespace Written

def chars (w : Written) : List Char :=
  w.hour.chars ++ ':' :: (w.minute.chars ++ (w.seconds.map Seconds.chars).getD [])

def text (w : Written) : String :=
  String.ofList w.chars

/-- A clock shows the time at some point of every day, so `second` is no leap second. -/
def InRange (w : Written) : Prop :=
  w.hour.value ≤ 23 ∧ w.minute.value ≤ 59 ∧ ∀ s ∈ w.seconds, s.whole.value ≤ 59

/-- The second that is written, zero if the `seconds` are left out. -/
def second (w : Written) : ℕ :=
  (w.seconds.map (·.whole.value)).getD 0

def nanosecond (w : Written) : ℕ :=
  (w.seconds.map Seconds.nanosecond).getD 0

theorem InRange.valid {w : Written} (h : w.InRange) :
    w.hour.value ≤ 23 ∧ w.minute.value ≤ 59 ∧ w.second ≤ 60 ∧ w.nanosecond < 10 ^ 9 := by
  obtain ⟨hhour, hminute, hsecond⟩ := h
  unfold second nanosecond
  cases hs : w.seconds with
  | none => simp [hhour, hminute]
  | some s => exact ⟨hhour, hminute, (hsecond s hs).trans (by decide), s.nanosecond_lt⟩

/-- The time that is written, given that it is `InRange`. -/
def time (w : Written) (h : w.InRange) : Time :=
  ⟨w.hour.value, w.minute.value, w.second, w.nanosecond, h.valid⟩

end Written

open Reader

variable {w : Written} {s : Seconds} {rest : List Char}

theorem run_fraction (hrest : ∀ c ∈ rest.head?, c.isDigit = false ∧ c ≠ '.') :
    StateT.run fraction (s.fraction ++ rest) = .ok (s.nanosecond, rest) := by
  unfold Seconds.fraction Seconds.nanosecond
  split
  next h =>
    rw [List.nil_append, run_fraction_none fun c hc => (hrest c hc).2, h]
    rfl
  next h => rw [List.cons_append, Reader.run_fraction h fun c hc => (hrest c hc).1, nanoseconds_row]

theorem run_hourMinute (h : w.InRange) :
    StateT.run (hourMinute (pure ())) (w.hour.chars ++ ':' :: (w.minute.chars ++ rest)) =
      .ok ((w.hour.value, w.minute.value), rest) := by
  rw [hourMinute, run_bind_of (run_number _ (Nat.zero_le _) h.1), run_bind_of (a := ()) rfl,
    run_bind_of run_literal, run_bind_of (run_number _ (Nat.zero_le _) h.2.1)]
  rfl

theorem run_secondFraction (hs : s.whole.value ≤ 59) :
    StateT.run (secondFraction (pure ())) s.chars =
    .ok ((s.whole.value, s.nanosecond), []) := by
  have hfraction : StateT.run fraction (s.fraction ++ []) = _ := run_fraction (by simp)
  rw [List.append_nil] at hfraction
  rw [Seconds.chars, secondFraction, run_bind_of (a := ()) rfl, run_bind_of run_literal,
    run_bind_of (run_number _ (Nat.zero_le _) (hs.trans (by decide))), run_bind_of hfraction]
  rfl

theorem ofParts_written (h : w.InRange) :
    ofParts w.hour.value w.minute.value w.second w.nanosecond = .ok (w.time h) := by
  rw [ofParts, of?, dif_pos h.valid]
  rfl

theorem read?_text (h : w.InRange) : read? w.text = .ok (w.time h) := by
  have htime := ofParts_written h
  rw [read?, Written.text, String.toList_ofList, Written.chars]
  cases hs : w.seconds with
  | some s =>
      simp only [Written.second, Written.nanosecond, hs, Option.map_some, Option.getD_some]
        at htime ⊢
      simp only [run, run_bind_of (run_hourMinute h), run_bind_of (run_secondFraction (h.2.2 s hs))]
      exact htime
  | none =>
      -- Without seconds the first attempt ends too early.
      have hnone : StateT.run (secondFraction (pure ())) [] = .error .premature := by
        rw [secondFraction, run_bind_of (a := ()) rfl, run_bind_error run_literal_nil]
      simp only [Written.second, Written.nanosecond, hs, Option.map_none, Option.getD_none]
        at htime ⊢
      simp only [run, run_bind_of (run_hourMinute h), run_bind_error hnone]
      simp only [run_hourMinute h]
      exact htime

end Time

/-! ## Timestamps

The readers of date and time do not matter here, for `Timestamp.read?` takes all digits itself. Up
to the minute it does not depend on what comes behind (`run_front`), and there the two cases
part. -/

/-- A written offset: `Z`, or the hours and minutes that clocks are ahead, or behind. -/
inductive Offset where
  | zero
  | hours (behind : Bool) (hour minute : Figures 2)

namespace Offset

def chars : Offset → List Char
  | zero => ['Z']
  | hours behind hour minute => (if behind then '-' else '+') :: (hour.chars ++ ':' :: minute.chars)

/-- The offset is less than a day, in hours and minutes that a clock shows. -/
def InRange : Offset → Prop
  | zero => True
  | hours _ hour minute => hour.value ≤ 23 ∧ minute.value ≤ 59

/-- The minutes that the clocks are ahead, negative if they are behind. -/
def minutes : Offset → ℤ
  | zero => 0
  | hours behind hour minute => (if behind then -1 else 1) * (hour.value * 60 + minute.value : ℕ)

variable {o : Offset}

theorem natAbs_minutes_lt (h : o.InRange) : o.minutes.natAbs < 1440 := by
  cases o with
  | zero => decide
  | hours behind hour minute =>
      obtain ⟨hhour, hminute⟩ := h
      cases behind <;> simp [minutes] <;> omega

end Offset

namespace Timestamp

open Reader

variable {o : Offset} {rest : List Char}

theorem run_offsetDigits (f : Figures 2) (rest : List Char) :
    ∃ a b, StateT.run offsetDigits (f.chars ++ rest) = .ok ((a, b), rest) ∧
      f.value = a * 10 + b := by
  obtain ⟨a, b, hchars, hvalue⟩ := f.exists_pair
  have hsize : ¬(String.ofList (f.chars ++ rest)).utf8ByteSize < 2 := by
    rw [String.utf8ByteSize_ofList, String.utf8Len_append, f.utf8Len_chars]
    omega
  refine ⟨a, b, ?_, hvalue⟩
  rw [offsetDigits, run_bind_of (a := f.chars ++ rest) rfl]
  simp only [hsize, if_false]
  simp only [hchars, List.cons_append, List.nil_append, Text.isDigit_digitChar,
    Bool.and_self, if_true, Text.toNat_digitChar]
  rfl

theorem run_offsetSign {behind : Bool} :
    StateT.run offsetSign ((if behind then '-' else '+') :: rest) =
    .ok (if behind then -1 else 1, rest) := by
  cases behind <;> rfl

theorem run_offset (h : o.InRange) :
    StateT.run (offset (literal ':')) o.chars = .ok (o.minutes, []) := by
  cases o with
  | zero => rfl
  | hours behind hour minute =>
      obtain ⟨a, b, hhour, hvalue⟩ := run_offsetDigits hour (':' :: minute.chars)
      obtain ⟨c, d, hminute, hvalue'⟩ := run_offsetDigits minute []
      have hfew : ¬6 ≤ c := by
        have := h.2
        omega
      rw [List.append_nil] at hminute
      rw [offset, run_bind_of (a := (Offset.hours behind hour minute).chars) rfl]
      unfold Offset.chars
      split
      next h => cases behind <;> simp at h
      next h => cases behind <;> simp at h
      next =>
        rw [run_bind_of run_offsetSign, run_bind_of hhour, run_bind_of run_literal,
          run_bind_of hminute]
        simp only [hfew, if_false, Offset.minutes, hvalue, hvalue']
        rw [Nat.add_assoc]
        rfl

/-- A written timestamp: `date`, `time` and `offset`. -/
structure Written where
  date : Date.Written
  time : Time.Written
  offset : Offset

namespace Written

def chars (w : Written) : List Char :=
  w.date.chars ++ 'T' :: (w.time.chars ++ w.offset.chars)

def text (w : Written) : String :=
  String.ofList w.chars

structure InRange (w : Written) : Prop where
  date : w.date.Exists
  time : w.time.InRange
  offset : w.offset.InRange

/-- The date and the time that the clocks show, whatever the `offset` is. -/
def shown (w : Written) (h : w.InRange) : Timestamp :=
  ⟨w.date.date h.date, w.time.time h.time⟩

end Written

variable {w : Written}

theorem run_lift {α : Type} {x : Except Fault α} {a : α} {s : List Char} (h : x = .ok a) :
    StateT.run (liftM x : Reader α) s = .ok (a, s) := by
  rw [h]
  rfl

/-- Up to the minute all timestamps are read alike, and `k` goes on from there. -/
theorem run_front {α : Type} (h : w.InRange) (k : Date → ℕ → ℕ → Reader α) :
    StateT.run (do
      let century ← twoDigits
      let year ← twoDigits
      literal '-'
      let m ← twoDigits
      literal '-'
      let d ← twoDigits
      let date ← liftM (Date.ofParts (century * 100 + year : ℕ) m d)
      discard (char fun c => c == 'T' || c == 't' || c == ' ')
      let hour ← twoDigits
      literal ':'
      let minute ← twoDigits
      k date hour minute)
      (w.date.chars ++ 'T' :: (w.time.hour.chars ++ ':' :: (w.time.minute.chars ++ rest))) =
    StateT.run (k (w.date.date h.date) w.time.hour.value w.time.minute.value) rest := by
  obtain ⟨a, b, hyear, hvalue⟩ := w.date.year.exists_halves
  have hdate := Date.ofParts_written h.date
  rw [hvalue] at hdate
  simp only [Date.Written.chars, hyear, List.append_assoc, List.cons_append]
  rw [run_bind_of (run_twoDigits a), run_bind_of (run_twoDigits b), run_bind_of run_literal,
    run_bind_of (run_twoDigits _), run_bind_of run_literal, run_bind_of (run_twoDigits _),
    run_bind_of (run_lift hdate), run_bind_of (run_discard (run_char rfl)),
    run_bind_of (run_twoDigits _), run_bind_of run_literal, run_bind_of (run_twoDigits _)]

theorem utf8ByteSize_text (w : Written) : w.text.utf8ByteSize =
    16 + (String.utf8Len ((w.time.seconds.map Time.Seconds.chars).getD []) +
      String.utf8Len w.offset.chars) := by
  have hmarks : '-'.utf8Size = 1 ∧ 'T'.utf8Size = 1 ∧ ':'.utf8Size = 1 := by decide
  simp only [Written.text, Written.chars, Date.Written.chars, Time.Written.chars,
    String.utf8ByteSize_ofList, String.utf8Len_append, String.utf8Len_cons,
    Figures.utf8Len_chars, hmarks]
  omega

theorem head_offset {c : Char} (h : c ∈ o.chars.head?) : c.isDigit = false ∧ c ≠ '.' ∧ c ≠ ':' := by
  cases o with
  | zero =>
      obtain rfl := Option.some.inj h
      decide
  | hours behind =>
      obtain rfl := Option.some.inj h
      cases behind <;> decide

/-- With seconds a timestamp is long enough for the check that `read?` begins with. -/
theorem not_short {s : Time.Seconds} (hs : w.time.seconds = some s) :
    ¬w.text.utf8ByteSize < 19 := by
  have hoffset : 1 ≤ String.utf8Len w.offset.chars := by
    cases w.offset <;> exact Nat.le_add_left_of_le (Char.utf8Size_pos _)
  have hmark : ':'.utf8Size = 1 := by decide
  rw [utf8ByteSize_text, hs]
  simp only [Option.map_some, Option.getD_some, Time.Seconds.chars, String.utf8Len_cons,
    String.utf8Len_append, Figures.utf8Len_chars, hmark]
  omega

/-- With seconds a timestamp is read part by part, and its parts are left to `ofParts`. -/
theorem read?_ofParts {s : Time.Seconds} (h : w.InRange) (hs : w.time.seconds = some s) :
    read? w.text = ofParts (w.date.date h.date) (w.time.time h.time) w.offset.minutes := by
  have htime := Time.ofParts_written h.time
  simp only [Time.Written.second, Time.Written.nanosecond, hs, Option.map_some, Option.getD_some]
    at htime
  rw [read?]
  simp only [not_short hs, if_false]
  simp only [run, Written.text, String.toList_ofList, Written.chars, Time.Written.chars, hs,
    List.append_assoc, List.cons_append, Option.map_some, Option.getD_some, Time.Seconds.chars]
  rw [run_front h, run_bind_of run_literal, run_bind_of (run_twoDigits _),
    run_bind_of (Time.run_fraction fun c hc => ⟨(head_offset hc).1, (head_offset hc).2.1⟩),
    run_bind_of (run_lift htime), run_bind_of (run_offset h.offset)]
  rfl

/-- **A timestamp with seconds is read as the instant that its offset tells**: the one that `shown`
is, less the minutes that the clocks are ahead. -/
theorem read?_text {s : Time.Seconds} (h : w.InRange) (hs : w.time.seconds = some s) :
    ∃ t, read? w.text = .ok t ∧
    t.time.IsOrdinary ∧ t.instant = (w.shown h).instant - w.offset.minutes * (60 * 10 ^ 9) := by
  have hyear := w.date.year.value_lt
  have hminutes := Offset.natAbs_minutes_lt h.offset
  have hfirst : firstYear < (w.date.date h.date).year := by
    show (-262143 : ℤ) < w.date.year.value
    omega
  have hlast : (w.date.date h.date).year < lastYear := by
    show (w.date.year.value : ℤ) < 262142
    omega
  obtain ⟨t, ht, hsecond, hinstant⟩ :
      ∃ t, atOffset? (w.date.date h.date) (w.time.time h.time) w.offset.minutes = some t ∧
        t.time.second = (w.time.time h.time).second ∧ t.instant = _ :=
          exists_atOffset hfirst hlast hminutes
  refine ⟨t, ?_, ?_, hinstant⟩
  · rw [read?_ofParts h hs, ofParts]
    simp only [Nat.not_le.mpr hminutes, if_false, ht]
    rfl
  · rw [Time.IsOrdinary, hsecond]
    show w.time.second ≤ 59
    rw [Time.Written.second, hs]
    exact h.time.2.2 s hs

/-- **Without seconds a timestamp is not read**: with `Z` it is too short, else its offset stands
where they are expected. -/
theorem read?_unfinished (h : w.InRange) (hs : w.time.seconds = none) :
    read? w.text = .error (match w.offset with
    | .zero => .premature
    | .hours .. => .invalid) := by
  have hsize := utf8ByteSize_text w
  rw [hs] at hsize
  cases ho : w.offset with
  | zero =>
      have hshort : w.text.utf8ByteSize < 19 := by
        rw [hsize, ho]
        decide
      rw [read?]
      simp only [hshort, if_true]
      rfl
  | hours behind hour minute =>
      have hlong : ¬w.text.utf8ByteSize < 19 := by
        rw [hsize, ho]
        simp [Offset.chars]
        omega
      rw [read?]
      simp only [hlong, if_false]
      simp only [run, Written.text, String.toList_ofList, Written.chars, Time.Written.chars, hs,
        List.append_assoc, List.cons_append, Option.map_none, Option.getD_none, List.nil_append]
      have hsign : (if behind then '-' else '+') ≠ ':' := by cases behind <;> decide
      rw [run_front h, ho, Offset.chars, run_bind_error (run_literal_error hsign)]
      rfl

end Timestamp

end FilterSql.Calendar
