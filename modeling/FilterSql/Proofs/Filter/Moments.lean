import FilterSql.Proofs.Calendar.Written
import FilterSql.Proofs.Filter.Numerals

/-!
# The dates and times of the grammar

What the grammar takes for dates, times of day and timestamps are `Date.Written`, `Time.Written`
and `Timestamp.Written`: the spellings of the calendar, with as many digits behind the point of the
seconds as there may be. So what is proved of those holds of the literals of a filter.
-/

namespace FilterSql

open Calendar (Date Time Timestamp Figures Offset)

namespace Token.Shaped

variable {P : List Char → Prop} {a : Pattern} {n : ℕ} {text : String}

/-- A text that the pattern matches in full has the form of its matches. -/
theorem of_whole (ha : Shaped P a) (htext : Whole a text) : P text.toList := by
  have h := ha _ _ htext
  rwa [List.take_length] at h

/-- A fixed number of digits. -/
theorem count : Shaped (fun t => ∃ f : Figures n, t = f.chars) (Token.count Char.isDigit n) := by
  induction n with
  | zero => exact nil.imp fun t ht => ⟨⟨[], rfl⟩, ht⟩
  | succ n ih =>
      refine Shaped.imp (one.seq ih) ?_
      rintro _ ⟨_, _, rfl, ⟨c, hc, rfl⟩, ⟨ds, hds⟩, rfl⟩
      obtain ⟨d, hd⟩ := Text.exists_row (s := [c]) (by simpa using hc)
      refine ⟨⟨d ++ ds, ?_⟩, ?_⟩
      · have hone := congrArg List.length hd
        rw [Text.length_row] at hone
        rw [List.length_append, hone, hds, List.length_singleton, Nat.add_comm]
      · rw [Figures.chars, Figures.chars, Text.row_append, hd]

theorem datePart : Shaped (fun t => ∃ w : Date.Written, t = w.chars) Token.datePart := by
  refine Shaped.imp (count.seq (exactly.seq (count.seq (exactly.seq (count.seq nil))))) ?_
  rintro _ ⟨_, _, rfl, ⟨year, rfl⟩, _, _, rfl, rfl, _, _, rfl, ⟨month, rfl⟩, _, _, rfl, rfl, _, _,
    rfl, ⟨day, rfl⟩, rfl⟩
  exact ⟨⟨year, month, day⟩, by simp [Date.Written.chars]⟩

theorem timePart : Shaped (fun t => ∃ w : Time.Written, t = w.chars) Token.timePart := by
  refine Shaped.imp (count.seq
    (exactly.seq (count.seq ((opt (exactly.seq (count.seq (places.seq nil)))).seq nil)))) ?_
  rintro _ ⟨_, _, rfl, ⟨hour, rfl⟩, _, _, rfl, rfl, _, _, rfl, ⟨minute, rfl⟩, _, _, rfl,
    hseconds, rfl⟩
  rcases hseconds with rfl | ⟨_, _, rfl, rfl, _, _, rfl, ⟨whole, rfl⟩, _, _, rfl, ⟨ds, rfl⟩, rfl⟩
  · exact ⟨⟨hour, minute, none⟩, by simp [Time.Written.chars]⟩
  · exact ⟨⟨hour, minute, some ⟨whole, ds⟩⟩, by
      simp [Time.Written.chars, Time.Seconds.chars, Time.Seconds.fraction]⟩

theorem sign_mark :
    Shaped (fun t => ∃ behind : Bool, t = [if behind then '-' else '+']) Token.sign :=
  alt (a := Token.exactly "+") (b := Token.exactly "-") (exactly.imp fun _ ht => ⟨false, ht⟩)
    (exactly.imp fun _ ht => ⟨true, ht⟩)

theorem offset : Shaped (fun t => ∃ o : Offset, t = o.chars)
    (Token.alt (Token.exactly "Z")
      (row [Token.sign, Token.count Char.isDigit 2, Token.exactly ":",
        Token.count Char.isDigit 2])) := by
  refine alt (exactly.imp fun t ht => ⟨.zero, ht⟩) ?_
  refine Shaped.imp (sign_mark.seq (count.seq (exactly.seq (count.seq nil)))) ?_
  rintro _ ⟨_, _, rfl, ⟨behind, rfl⟩, _, _, rfl, ⟨hour, rfl⟩, _, _, rfl, rfl, _, _, rfl,
    ⟨minute, rfl⟩, rfl⟩
  exact ⟨.hours behind hour minute, by simp [Offset.chars]⟩

theorem date : Shaped (fun t => ∃ w : Date.Written, t = w.chars) Token.date := by
  refine Shaped.imp (datePart.seq (notBefore.seq nil)) ?_
  rintro _ ⟨_, _, rfl, ⟨w, rfl⟩, _, _, rfl, rfl, rfl⟩
  exact ⟨w, List.append_nil _⟩

theorem timeOfDay : Shaped (fun t => ∃ w : Time.Written, t = w.chars) Token.timeOfDay := by
  refine Shaped.imp (timePart.seq (notBefore.seq nil)) ?_
  rintro _ ⟨_, _, rfl, ⟨w, rfl⟩, _, _, rfl, rfl, rfl⟩
  exact ⟨w, List.append_nil _⟩

theorem dateTimeOffset :
    Shaped (fun t => ∃ w : Timestamp.Written, t = w.chars) Token.dateTimeOffset := by
  refine Shaped.imp (datePart.seq (exactly.seq (timePart.seq (offset.seq nil)))) ?_
  rintro _ ⟨_, _, rfl, ⟨day, rfl⟩, _, _, rfl, rfl, _, _, rfl, ⟨time, rfl⟩, _, _, rfl, ⟨o, rfl⟩, rfl⟩
  exact ⟨⟨day, time, o⟩, by simp [Timestamp.Written.chars]⟩

end Token.Shaped

/-! ## Literals

A literal that is `Spelled` is matched in full by a pattern of its kind. -/

namespace Literal.Spelled

variable {l : Literal} (hl : l.Spelled)
include hl

/-- A literal of a kind with only one pattern is matched by that pattern. -/
theorem whole {p : Token.Pattern} (hkind : l.kind ≠ .string ∧ l.kind ≠ .null)
    (hp : ∀ q, (l.kind, q) ∈ Token.unquoted → q = p) : Token.Whole p l.text := by
  rcases hl with hstring | rfl | ⟨q, hq, hwhole⟩
  · exact absurd hstring hkind.1
  · exact absurd rfl hkind.2
  · rwa [← hp q hq]

theorem date (hkind : l.kind = .date) : ∃ w : Date.Written, w.text = l.text := by
  have hwhole : Token.Whole Token.date l.text :=
    hl.whole (by simp [hkind]) fun q hq => by simpa [Token.unquoted, hkind] using hq
  obtain ⟨w, hw⟩ := Token.Shaped.date.of_whole hwhole
  exact ⟨w, by rw [Date.Written.text, ← hw, String.ofList_toList]⟩

theorem time (hkind : l.kind = .timeOfDay) : ∃ w : Time.Written, w.text = l.text := by
  have hwhole : Token.Whole Token.timeOfDay l.text :=
    hl.whole (by simp [hkind]) fun q hq => by simpa [Token.unquoted, hkind] using hq
  obtain ⟨w, hw⟩ := Token.Shaped.timeOfDay.of_whole hwhole
  exact ⟨w, by rw [Time.Written.text, ← hw, String.ofList_toList]⟩

theorem timestamp (hkind : l.kind = .dateTimeOffset) :
    ∃ w : Timestamp.Written, w.text = l.text := by
  have hwhole : Token.Whole Token.dateTimeOffset l.text :=
    hl.whole (by simp [hkind]) fun q hq => by simpa [Token.unquoted, hkind] using hq
  obtain ⟨w, hw⟩ := Token.Shaped.dateTimeOffset.of_whole hwhole
  exact ⟨w, by rw [Timestamp.Written.text, ← hw, String.ofList_toList]⟩

end Literal.Spelled

end FilterSql
