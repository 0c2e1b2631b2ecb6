/-!
# What is left of a text

A reader takes characters from the front of a text and gives back what is left. `Rest s` is a text
that is shorter than `s`; a reader that returns one has taken at least one character, which is what
the recursion of a grammar ends by. `Rest.trans` composes two readers, and `Rest.widen` puts one
behind a step that may have taken nothing, such as skipping blanks.
-/

namespace FilterSql.Text

/-- What is left of `s` after at least one character has been taken. -/
abbrev Rest (s : List Char) := { r : List Char // r.length < s.length }

namespace Rest

variable {s : List Char}

/-- A rest of a rest of `s` is a rest of `s`. -/
def trans (r : Rest s) (q : Rest r.1) : Rest s :=
  ⟨q.1, Nat.lt_trans q.2 r.2⟩

/-- A rest of `t` is one of `s`, if `t` is no longer than `s`. -/
def widen {t : List Char} (h : t.length ≤ s.length) (r : Rest t) : Rest s :=
  ⟨r.1, Nat.lt_of_lt_of_le r.2 h⟩

/-- The rest `r` without its leading characters that satisfy `p`. -/
def dropWhile (p : Char → Bool) (r : Rest s) : Rest s :=
  ⟨r.1.dropWhile p, Nat.lt_of_le_of_lt (List.dropWhile_suffix p).length_le r.2⟩

end Rest

/-- The text after `n` characters of `s`, provided that at least one has been taken. -/
def dropSome? (n : Nat) (s : List Char) : Option (Rest s) :=
  if h : 0 < n ∧ s ≠ [] then
    some ⟨s.drop n, by
      have := List.length_pos_iff.2 h.2
      rw [List.length_drop]; omega⟩
  else none

end FilterSql.Text
