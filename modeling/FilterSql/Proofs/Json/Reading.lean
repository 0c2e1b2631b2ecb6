import FilterSql.Json.Printer
import FilterSql.Json.Reader
import FilterSql.Proofs.Decimal.Numeral
import FilterSql.Proofs.Filter.Running

/-!
# Runs of the JSON reader

`Json.readValue` and the functions around it return a remainder together with a proof that it is
shorter than the text. `taken` drops that proof, and the equations of this file say what each
function then gives and leaves. A character, a string and a whole number are read as
`Json.escapeChar` and `toString` write them (`readString_escaped`, `readNumber_int`).
-/

namespace FilterSql.Json

open Grammar (taken)
open Text (Rest)

variable {s r t : List Char} {α : Type}

/-! ## Strings

`readString` reads up to the closing mark, one `readChar` after the other. -/

theorem hexDigit?_hexChar : ∀ n < 16, hexDigit? (hexChar n) = some n := by
  decide

/-- `readChar` undoes `escapeChar`. -/
theorem readChar_escapeChar (c : Char) (r : List Char) :
    taken (readChar (escapeChar c ++ r)) = some (some c, r) := by
  by_cases hshort : c ∈ ['"', '\\', '\n', '\r', '\t', '\x08', '\x0c']
  · simp only [List.mem_cons, List.not_mem_nil, or_false] at hshort
    rcases hshort with rfl | rfl | rfl | rfl | rfl | rfl | rfl <;> rfl
  simp only [List.mem_cons, List.not_mem_nil, or_false, not_or] at hshort
  obtain ⟨hquote, hslash, hnew, hreturn, htab, hback, hfeed⟩ := hshort
  rw [escapeChar, if_neg hquote, if_neg hslash, if_neg hnew, if_neg hreturn, if_neg htab,
    if_neg hback, if_neg hfeed]
  -- Control characters without an escape of their own are written as numbers.
  by_cases hcontrol : c.toNat < 0x20
  case pos =>
    have hhigh := hexDigit?_hexChar (c.toNat / 16) (by omega)
    have hlow := hexDigit?_hexChar (c.toNat % 16) (by omega)
    have hhex : hex4? '0' '0' (hexChar (c.toNat / 16)) (hexChar (c.toNat % 16)) = some c.toNat := by
      have hzero : hexDigit? '0' = some 0 := rfl
      simp only [hex4?, hzero, hhigh, hlow, bind, Option.bind, pure]
      congr 1
      omega
    have hscalar : c.toNat < 0xD800 := by omega
    rw [if_pos hcontrol]
    show taken (readChar ('\\' :: 'u' :: '0' :: '0' :: hexChar (c.toNat / 16) ::
      hexChar (c.toNat % 16) :: r)) = _
    rw [readChar]
    simp [hhex, hscalar, taken]
  case neg =>
    rw [if_neg hcontrol]
    show taken (readChar (c :: r)) = _
    rw [readChar]
    · simp [hcontrol, hslash, taken]
    · simp [hslash]
    · simp [hslash]

theorem escapeChar_head (c : Char) : ∃ first rest, escapeChar c = first :: rest ∧ first ≠ '"' := by
  unfold escapeChar
  split_ifs with hquote
  all_goals first | exact ⟨_, _, rfl, by decide⟩ | exact ⟨_, _, rfl, hquote⟩

theorem readString_end (r : List Char) : taken (readString ('"' :: r)) = some (some [], r) := by
  rw [readString]
  rfl

theorem readString_cons (hs : s.head? ≠ some '"') : taken (readString s) =
    (taken (readChar s)).bind fun (c, r) => (taken (readString r)).map fun (cs, r') =>
      (c.bind fun c => cs.map (c :: ·), r') := by
  rw [readString]
  · cases hc : readChar s with
    | none => simp [taken]
    | some v =>
        obtain ⟨c, r⟩ := v
        simp only [taken, Option.map_some, Option.bind_some]
        cases readString r.1 with
        | none => rfl
        | some v => rfl
  · rintro r rfl
    exact hs rfl

/-- `readString` undoes `escapeChar` throughout a string, up to the closing mark. -/
theorem readString_escaped (cs r : List Char) :
    taken (readString (cs.flatMap escapeChar ++ '"' :: r)) = some (some cs, r) := by
  induction cs with
  | nil => exact readString_end r
  | cons c cs ih =>
      obtain ⟨first, rest, hfirst, hquote⟩ := escapeChar_head c
      rw [List.flatMap_cons, List.append_assoc, readString_cons (by simp [hfirst, hquote]),
        readChar_escapeChar, Option.bind_some]
      dsimp only
      rw [ih]
      rfl

/-! ## Numbers

A number ends where no character follows that could go on with it, which `Stops` says of the
remainder. -/

/-- Text behind a number: it does not begin with anything that could go on with it. -/
def Stops (r : List Char) : Prop :=
  ∀ c ∈ r.head?, c.isDigit = false ∧ c ≠ '.' ∧ c ≠ 'e' ∧ c ≠ 'E'

/-- Only zero has decimal digits that begin with a zero. -/
theorem toDigits_head {n : Nat} (h : (Nat.toDigits 10 n).head? = some '0') : n = 0 := by
  induction n using Nat.strongRecOn with
  | ind n ih =>
      by_cases hn : n < 10
      · rw [Nat.toDigits_of_lt_base hn] at h
        have hzero : ∀ d : Fin 10, d.val.digitChar = '0' → d.val = 0 := by decide
        exact hzero ⟨n, hn⟩ (by simpa using h)
      · rw [Nat.toDigits_of_base_le (by decide) (by omega),
          List.head?_append_of_ne_nil _ Nat.toDigits_ne_nil] at h
        have := ih (n / 10) (by omega) h
        omega

theorem readFraction_stop (hr : Stops r) : readFraction r = some ([], r) := by
  cases r with
  | nil => rfl
  | cons c r =>
      obtain ⟨-, hpoint, -, -⟩ := hr c rfl
      simp [readFraction, hpoint]

theorem readExponent_stop (hr : Stops r) : readExponent r = some ([], r) := by
  cases r with
  | nil => rfl
  | cons c r =>
      obtain ⟨-, -, hsmall, hlarge⟩ := hr c rfl
      simp [readExponent, hsmall, hlarge]

theorem spanDigits_toDigits (n : Nat) (hr : Stops r) :
    Text.spanDigits (Nat.toDigits 10 n ++ r) = (Nat.toDigits 10 n, r) := by
  have hdigits : ∀ c ∈ Nat.toDigits 10 n, c.isDigit = true := fun c hc =>
    Nat.isDigit_of_mem_toDigits (by decide) (by decide) hc
  have hstop : ∀ c ∈ r.head?, c.isDigit = false := fun c hc => (hr c hc).1
  rw [Text.spanDigits, Text.takeWhile_stop hdigits hstop, Text.dropWhile_stop hdigits hstop]

theorem ofDigits_toDigits (n : Nat) : Text.ofDigits (Nat.toDigits 10 n) = n := by
  have h := Nat.ofDigitChars_ten_toDigits (n := n)
  rw [Nat.ofDigitChars_eq_foldl] at h
  simpa [Text.ofDigits, Nat.mul_comm] using h

/-- The digits of a natural number pass the check of `readNumber`: there are some, and a zero in
front is the only one. -/
theorem toDigits_plain (n : Nat) :
    ¬ ((Nat.toDigits 10 n).isEmpty ∨
      (1 < (Nat.toDigits 10 n).length ∧ (Nat.toDigits 10 n).head? = some '0')) := by
  rintro (hempty | ⟨hlength, hhead⟩)
  · exact Nat.toDigits_ne_nil (List.isEmpty_iff.mp hempty)
  · rw [toDigits_head hhead] at hlength
    exact absurd hlength (by decide)

/-- `readNumber` undoes `toString` on integers. -/
theorem readNumber_int (n : Int) (hr : Stops r) :
    readNumber ((toString n).toList ++ r) = some (.int n, r) := by
  cases n with
  | ofNat m =>
      have htext : (toString (Int.ofNat m)).toList = Nat.toDigits 10 m := Nat.toList_repr
      have hsign : ∀ r', Nat.toDigits 10 m ++ r = '-' :: r' → False := by
        intro r' h
        cases hdigits : Nat.toDigits 10 m with
        | nil => exact Nat.toDigits_ne_nil hdigits
        | cons c cs =>
            rw [hdigits] at h
            obtain rfl := (List.cons.inj h).1
            have hdash : '-'.isDigit = true :=
              Nat.isDigit_of_mem_toDigits (by decide) (by decide) (hdigits ▸ List.mem_cons_self)
            cases hdash
      rw [htext, readNumber.eq_2 _ hsign]
      simp only [spanDigits_toDigits m hr, if_neg (toDigits_plain m), readFraction_stop hr,
        ofDigits_toDigits, Option.bind_eq_bind, Option.bind_some, readExponent_stop hr]
      rfl
  | negSucc m =>
      have htext : (toString (Int.negSucc m)).toList = '-' :: Nat.toDigits 10 (m + 1) := by
        show ("-" ++ Nat.repr (m + 1)).toList = _
        rw [String.toList_append, Nat.toList_repr]
        rfl
      rw [htext, List.cons_append, readNumber]
      simp only [spanDigits_toDigits (m + 1) hr, if_neg (toDigits_plain (m + 1)),
        readFraction_stop hr, ofDigits_toDigits, Option.bind_eq_bind, Option.bind_some,
        readExponent_stop hr]
      rfl

/-- An integer begins with a digit or with a dash, so `readValue` takes it for a number. -/
theorem toString_head (n : Int) :
    ∃ c r, (toString n).toList = c :: r ∧ (c = '-' ∨ c.isDigit = true) := by
  cases n with
  | ofNat m =>
      have htext : (toString (Int.ofNat m)).toList = Nat.toDigits 10 m := Nat.toList_repr
      cases hdigits : Nat.toDigits 10 m with
      | nil => exact absurd hdigits Nat.toDigits_ne_nil
      | cons c cs =>
          have hc :=
            Nat.isDigit_of_mem_toDigits (by decide) (by decide) (hdigits ▸ List.mem_cons_self)
          exact ⟨c, cs, htext.trans hdigits, .inr hc⟩
  | negSucc m =>
      refine ⟨'-', (Nat.repr (m + 1)).toList, ?_, .inl rfl⟩
      show ("-" ++ Nat.repr (m + 1)).toList = _
      rw [String.toList_append]
      rfl

theorem ne_of_dashOrDigit {c c' : Char} (hc : c = '-' ∨ c.isDigit = true) (hdash : c' ≠ '-')
    (hdigit : c'.isDigit = false) : c ≠ c' := by
  rintro rfl
  rcases hc with rfl | hc
  · exact hdash rfl
  · rw [hc] at hdigit
    cases hdigit

/-! ## Values

`readValue` chooses by the first character. One equation for each choice, and for what stands
behind an item or a member. -/

theorem readValue_string (r : List Char) :
    taken (readValue ('"' :: r)) = (taken (readString r)).map fun (cs, q) => (ofChars cs, q) := by
  rw [readValue]
  cases readString r <;> rfl

theorem readValue_emptyArray (h : skipSpace r = ']' :: t) :
    taken (readValue ('[' :: r)) = some (.array [], t) := by
  rw [readValue]
  split
  next h' =>
    rw [h] at h'
    cases h'
    rfl
  next hne => exact absurd h (hne t)

theorem readValue_array (h : (skipSpace r).head? ≠ some ']') : taken (readValue ('[' :: r)) =
    (taken (readItems (skipSpace r))).map fun (items, q) => (.array items, q) := by
  rw [readValue]
  split
  next h' =>
    rw [h'] at h
    exact absurd rfl h
  next => cases readItems (skipSpace r) <;> rfl

theorem readValue_emptyObject (h : skipSpace r = '\x7d' :: t) :
    taken (readValue ('\x7b' :: r)) = some (.object [], t) := by
  rw [readValue]
  split
  next h' =>
    rw [h] at h'
    cases h'
    rfl
  next hne => exact absurd h (hne t)

theorem readValue_object (h : (skipSpace r).head? ≠ some '\x7d') : taken (readValue ('\x7b' :: r)) =
    (taken (readFields (skipSpace r))).map fun (fields, q) => (ofMembers fields, q) := by
  rw [readValue]
  split
  next h' =>
    rw [h'] at h
    exact absurd rfl h
  next => cases readFields (skipSpace r) <;> rfl

theorem readValue_word {j : Json} (hs : ∀ c ∈ s.head?, c ≠ '"' ∧ c ≠ '[' ∧ c ≠ '\x7b')
    (h : readWord s = some (j, r)) (hr : r.length < s.length) :
    taken (readValue s) = some (j, r) := by
  rw [readValue]
  · simp [h, shorter?, hr, taken]
  · rintro t rfl
    exact (hs _ rfl).1 rfl
  · rintro t rfl
    exact (hs _ rfl).2.1 rfl
  · rintro t rfl
    exact (hs _ rfl).2.2 rfl

/-- Behind an item stands a bracket that ends the array, or a comma and more items. -/
theorem readItems_run (s : List Char) :
    taken (readItems s) = (taken (readValue s)).bind fun (j, r) =>
    match skipSpace r with
    | ']' :: t => some ([j], t)
    | ',' :: t => (taken (readItems (skipSpace t))).map fun (js, q) => (j :: js, q)
    | _ => none := by
  rw [readItems]
  cases readValue s with
  | none => rfl
  | some v =>
      obtain ⟨j, r⟩ := v
      simp only [taken, Option.map_some, Option.bind_some, Option.bind_eq_bind]
      split
      next h => simp [h]
      next h =>
        simp only [h]
        cases readItems _ <;> rfl
      next => simp only [Option.map_none]

/-- Behind a member stands a bracket that ends the object, or a comma and more members. Any other
character makes `readFields` fail. -/
theorem readFields_run (r : List Char) :
    taken (readFields ('"' :: r)) = (taken (readString r)).bind fun (name, q) =>
    match skipSpace q with
    | ':' :: t => (taken (readValue (skipSpace t))).bind fun (j, u) =>
        match skipSpace u with
        | '\x7d' :: t => some ([member? name j], t)
        | ',' :: t => (taken (readFields (skipSpace t))).map fun (fs, q) =>
            (member? name j :: fs, q)
        | _ => none
    | _ => none := by
  rw [readFields]
  cases readString r with
  | none => rfl
  | some v =>
      obtain ⟨name, q⟩ := v
      simp only [taken, Option.map_some, Option.bind_some, Option.bind_eq_bind]
      split
      next t h =>
        simp only [h]
        cases readValue (skipSpace t) with
        | none => rfl
        | some v =>
            obtain ⟨j, u⟩ := v
            simp only [Option.map_some, Option.bind_some]
            split
            next h => simp [h]
            next h =>
              simp only [h]
              cases readFields _ <;> rfl
            next => simp only [Option.map_none]
      next => simp only [Option.map_none]

end FilterSql.Json
