import FilterSql.Proofs.Filter.Moments
import FilterSql.Proofs.Compile.Binding

/-!
# The dates and times of literals

What a date, a time of day or a timestamp is read as if nothing stands beside it. Where the
calendar has the day and clocks show the time, it is the day, the time or the instant that is
written (`Schema.coerce_moment`). A time of day may be written without seconds. A timestamp without
seconds is refused, although the grammar accepts it.
-/

namespace FilterSql

open Calendar (Date Time Timestamp Figures Offset)

namespace Literal

variable {l : Literal}

/-- A text that begins with digits is not `null`. -/
theorem isNull_of_figures {width : ℕ} {f : Figures width} {r : List Char} (hwidth : 0 < width)
    (htext : l.text.toList = f.chars ++ r) : l.isNull = false := by
  obtain ⟨ds, rfl⟩ := f
  obtain ⟨d, ds, rfl⟩ := List.exists_cons_of_ne_nil (List.ne_nil_of_length_pos hwidth)
  rw [Figures.chars, Text.row_cons, List.cons_append] at htext
  have hdigit : ∀ d : Fin 10, d.val.digitChar ≠ 'n' ∧ d.val.digitChar ≠ 'N' := by decide
  exact isNull_of_head htext (hdigit d)

end Literal

namespace Schema

variable {s : Schema} {l : Literal}

theorem coerce_date {w : Date.Written} (hw : w.text = l.text) (hkind : l.kind = .date)
    (h : w.Exists) :
    s.coerce l none = .ok (.date (w.date h)) := by
  have hnull : l.isNull = false := by
    apply Literal.isNull_of_figures (f := w.year) (by decide)
    rw [← hw, Date.Written.text, String.toList_ofList, Date.Written.chars]
  rw [coerce, hnull, Literal.alone, hkind, ← hw]
  simp only [Literal.readDate, Literal.readAs, Date.read?_text h]
  rfl

theorem coerce_time {w : Time.Written} (hw : w.text = l.text) (hkind : l.kind = .timeOfDay)
    (h : w.InRange) :
    s.coerce l none = .ok (.time (w.time h)) := by
  have hnull : l.isNull = false := by
    apply Literal.isNull_of_figures (f := w.hour) (by decide)
    rw [← hw, Time.Written.text, String.toList_ofList, Time.Written.chars]
  rw [coerce, hnull, Literal.alone, hkind, ← hw]
  simp only [Literal.readTime, Literal.readAs, Time.read?_text h]
  rfl

theorem coerce_timestamp {w : Timestamp.Written} (hw : w.text = l.text)
    (hkind : l.kind = .dateTimeOffset) :
    s.coerce l none = Literal.readTimestamp l.text := by
  have hnull : l.isNull = false := by
    apply Literal.isNull_of_figures (f := w.date.year) (by decide)
    rw [← hw, Timestamp.Written.text, String.toList_ofList, Timestamp.Written.chars,
      Date.Written.chars, List.append_assoc]
  rw [coerce, hnull, Literal.alone, hkind]
  rfl

/-- **Dates, times and timestamps are read as what they say.** A token of these kinds is the text of
a `Written` one. A day of the calendar and a time that clocks show are read as these, by themselves.
A timestamp is read as the only ordinary one with the instant that its offset tells, and is refused
if its `seconds` are left out. -/
theorem coerce_moment (s : Schema) {l : Literal} (hl : l.Spelled) :
    (l.kind = .date → (∃ w : Date.Written, w.text = l.text) ∧
      ∀ w : Date.Written, w.text = l.text →
        ∀ h : w.Exists, s.coerce l none = .ok (.date (w.date h))) ∧
    (l.kind = .timeOfDay → (∃ w : Time.Written, w.text = l.text) ∧
      ∀ w : Time.Written, w.text = l.text →
        ∀ h : w.InRange, s.coerce l none = .ok (.time (w.time h))) ∧
    (l.kind = .dateTimeOffset → (∃ w : Timestamp.Written, w.text = l.text) ∧
      ∀ w : Timestamp.Written, w.text = l.text →
        ∀ h : w.InRange, match w.time.seconds, w.offset with
        | some _, _ => ∃ t, s.coerce l none = .ok (.timestamp t) ∧ ∀ u : Timestamp, u = t ↔
            u.time.IsOrdinary ∧ u.instant = (w.shown h).instant - w.offset.minutes * (60 * 10 ^ 9)
        | none, .zero =>
            s.coerce l none =
              .error (.invalidValue l.text "Edm.DateTimeOffset" (.calendar .premature))
        | none, .hours .. =>
            s.coerce l none =
              .error (.invalidValue l.text "Edm.DateTimeOffset" (.calendar .invalid))) := by
  refine ⟨fun hkind => ⟨hl.date hkind, fun w hw h => coerce_date hw hkind h⟩,
    fun hkind => ⟨hl.time hkind, fun w hw h => coerce_time hw hkind h⟩,
    fun hkind => ⟨hl.timestamp hkind, fun w hw h => ?_⟩⟩
  rw [coerce_timestamp hw hkind, Literal.readTimestamp, Literal.readAs, ← hw]
  cases hs : w.time.seconds with
  | some seconds =>
      obtain ⟨t, hread, hordinary, hinstant⟩ := Timestamp.read?_text h hs
      simp only [hread]
      refine ⟨t, rfl, fun u => ⟨?_, fun hu => ?_⟩⟩
      · rintro rfl
        exact ⟨hordinary, hinstant⟩
      · exact Timestamp.instant_injective hu.1 hordinary (hu.2.trans hinstant.symm)
  | none =>
      rw [Timestamp.read?_unfinished h hs]
      cases w.offset <;> rfl

/-- A morning in January, written without seconds. -/
def morning : Timestamp.Written :=
  ⟨⟨.of 4 2016, .of 2 1, .of 2 20⟩, ⟨.of 2 9, .of 2 21, none⟩, .zero⟩

/-- The calendar has `morning`, and yet it is refused. -/
theorem coerce_without_seconds_refused : (Literal.mk "2016-01-20T09:21Z" .dateTimeOffset).Spelled ∧
    morning.text = "2016-01-20T09:21Z" ∧ morning.InRange ∧
    (default : Schema).coerce ⟨"2016-01-20T09:21Z", .dateTimeOffset⟩ none =
      .error (.invalidValue "2016-01-20T09:21Z" "Edm.DateTimeOffset" (.calendar .premature)) := by
  have hspelled : (Literal.mk "2016-01-20T09:21Z" .dateTimeOffset).Spelled :=
    .inr (.inr ⟨Token.dateTimeOffset, by simp [Token.unquoted], by decide⟩)
  have hrange : morning.InRange :=
    ⟨by unfold Date.Written.Exists; decide, ⟨by decide, by decide, by simp [morning]⟩, trivial⟩
  obtain ⟨-, -, htimestamp⟩ := coerce_moment default hspelled
  exact ⟨hspelled, rfl, hrange, (htimestamp rfl).2 morning rfl hrange⟩

/-- With seconds a timestamp is read. This one is an instant of the day before. -/
example : (default : Schema).coerce ⟨"2016-01-20T00:21:00.5+01:00", .dateTimeOffset⟩ none =
    .ok (.timestamp ⟨⟨2016, 1, 19, by decide⟩, ⟨23, 21, 0, 500000000, by decide⟩⟩) := by
  decide +kernel

end Schema

end FilterSql
