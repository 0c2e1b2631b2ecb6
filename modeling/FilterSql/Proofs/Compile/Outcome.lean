/-!
# Outcomes of checks

A chain of checks has passed exactly if each of them has, and then it ends with what the last one
gives. The equations are stated for `Except`, where a check returns a value or an error.
-/

namespace FilterSql.Checked

variable {ε α β : Type}

theorem bind_ok {x : Except ε α} {f : α → Except ε β} {b : β} :
    x >>= f = .ok b ↔ ∃ a, x = .ok a ∧ f a = .ok b := by
  cases x <;> simp [bind, Except.bind]

theorem pure_ok {a b : α} : (pure a : Except ε α) = .ok b ↔ a = b := by
  simp [pure, Except.pure]

theorem throw_ok {e : ε} {a : α} : (throw e : Except ε α) = .ok a ↔ False := by
  simp [throw, throwThe, MonadExceptOf.throw]

/-- Two chains with the same first check differ by `change` if what follows that check does. -/
theorem bind_map {γ : Type} {x : Except ε α} {f : α → Except ε β} {g : α → Except ε γ}
    {change : β → γ} (h : ∀ a, g a = (f a).map change) : x >>= g = (x >>= f).map change := by
  cases x with
  | error fault => rfl
  | ok a => exact h a

end FilterSql.Checked
