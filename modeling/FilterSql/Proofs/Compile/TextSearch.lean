import FilterSql.Compile.BuiltInCall

/-!
# Looking for a text

`Sql.Like.Accepts` is what `LIKE` matches, as SQL defines it. The pattern of a text accepts what
has this text in it, and nothing else (`Sql.Like.accepts_pattern`). A pattern is read from its
front, and an escaped text takes just this text away, whatever comes behind it (`accepts_escape`):
either its special characters are escaped, or it has none of them and no escape character is in its
way. So `contains`, `startsWith` and `endsWith` find what they are asked for
(`Schema.callBuiltIn_finds`).
-/

namespace FilterSql

namespace Sql.Like

/-! ## Matching

The rules of `LIKE` as a relation: where `%` stands, any number of characters may be taken. Four
lemmas tell what a pattern accepts by its first character. -/

/-- `Accepts mark p x`: the pattern `p` matches the text `x`. The escape character `mark`, if there
is one, takes the meaning from the character behind it; `%` stands for any text and `_` for any
character. -/
inductive Accepts (mark : Option Char) : List Char → List Char → Prop
  | nil : Accepts mark [] []
  | marked {e c : Char} {p x : List Char} (hmark : mark = some e) (h : Accepts mark p x) :
      Accepts mark (e :: c :: p) (c :: x)
  | any {p x : List Char} (hmark : mark ≠ some '%') (front : List Char) (h : Accepts mark p x) :
      Accepts mark ('%' :: p) (front ++ x)
  | one {c : Char} {p x : List Char} (hmark : mark ≠ some '_') (h : Accepts mark p x) :
      Accepts mark ('_' :: p) (c :: x)
  | plain {c : Char} {p x : List Char} (hmark : mark ≠ some c) (hany : c ≠ '%') (hone : c ≠ '_')
      (h : Accepts mark p x) : Accepts mark (c :: p) (c :: x)

variable {mark : Option Char} {c : Char} {p text x : List Char} {m : Margins}

theorem accepts_nil : Accepts mark [] x ↔ x = [] := by
  constructor
  · rintro ⟨⟩
    rfl
  · rintro rfl
    exact .nil

theorem accepts_any (hmark : mark ≠ some '%') :
    Accepts mark ('%' :: p) x ↔ ∃ front y, x = front ++ y ∧ Accepts mark p y := by
  constructor
  · intro h
    cases h with
    | marked h => exact absurd h hmark
    | any _ front h => exact ⟨front, _, rfl, h⟩
    | plain _ hany => exact absurd rfl hany
  · rintro ⟨front, y, rfl, h⟩
    exact .any hmark front h

/-- Behind `escapeMark` any character stands for itself. -/
theorem accepts_marked (hmark : mark = some escapeMark) :
    Accepts mark (escapeMark :: c :: p) x ↔ ∃ y, x = c :: y ∧ Accepts mark p y := by
  constructor
  · intro h
    cases h with
    | marked _ h => exact ⟨_, rfl, h⟩
    | plain h => exact absurd hmark h
  · rintro ⟨y, rfl, h⟩
    exact .marked hmark h

/-- A character that is not special stands for itself, whether there is an escape character or
not. -/
theorem accepts_plain (hmark : mark ≠ some c) (hc : isSpecial c = false) :
    Accepts mark (c :: p) x ↔ ∃ y, x = c :: y ∧ Accepts mark p y := by
  constructor
  · intro h
    cases h with
    | marked h => exact absurd h hmark
    | any => cases hc
    | one => cases hc
    | plain _ _ _ h => exact ⟨_, rfl, h⟩
  · rintro ⟨y, rfl, h⟩
    refine .plain hmark ?_ ?_ h <;>
    · rintro rfl
      cases hc

/-! ## Patterns of texts

`escape` puts `escapeMark` before the special characters of a text, and `pattern` adds `%` at the
margins where something may stand beside the text. -/

/-- Either `escapeMark` is the escape character, or there is none and the text has no special
character. -/
def Escapes (mark : Option Char) (text : List Char) : Prop :=
  mark = some escapeMark ∨ mark = none ∧ text.any isSpecial = false

theorem Escapes.tail (h : Escapes mark (c :: text)) : Escapes mark text := by
  rcases h with h | ⟨h, hplain⟩
  · exact .inl h
  · rw [List.any_cons, Bool.or_eq_false_iff] at hplain
    exact .inr ⟨h, hplain.2⟩

/-- An escaped text at the front of a pattern takes this text away, and nothing else. -/
theorem accepts_escape (h : Escapes mark text) :
    Accepts mark (escape text ++ p) x ↔ ∃ y, x = text ++ y ∧ Accepts mark p y := by
  induction text generalizing x with
  | nil => simp [escape]
  | cons c text ih =>
      have hrest (y : List Char) : Accepts mark (escape text ++ p) y ↔
        ∃ z, y = text ++ z ∧ Accepts mark p z := ih h.tail
      have hfirst : Accepts mark (escape (c :: text) ++ p) x ↔
          ∃ y, x = c :: y ∧ Accepts mark (escape text ++ p) y := by
        cases hc : isSpecial c with
        | true =>
            -- An escape character has been put in front, so there must be one.
            have hmark : mark = some escapeMark :=
              h.resolve_right fun ⟨_, hplain⟩ => by simp [hc] at hplain
            simpa [escape, hc] using accepts_marked hmark
        | false =>
            have hmark : mark ≠ some c := by
              rintro rfl
              rcases h with h | ⟨h, -⟩
              · rw [Option.some.inj h] at hc
                exact absurd hc (by decide)
              · cases h
            simpa [escape, hc] using accepts_plain hmark hc
      simp only [hfirst, hrest, List.cons_append]
      constructor
      · rintro ⟨_, rfl, y, rfl, hy⟩
        exact ⟨y, rfl, hy⟩
      · rintro ⟨y, rfl, hy⟩
        exact ⟨_, rfl, y, rfl, hy⟩

/-- **The pattern of a text** accepts what has the text in it, with something before or behind it
only where the margins `m` allow this. -/
theorem accepts_pattern {text : String} (h : Escapes mark text.toList) :
    Accepts mark (pattern m text).toList x ↔
      ∃ front back, x = front ++ (text.toList ++ back) ∧ (m.before = false → front = []) ∧
        (m.after = false → back = []) := by
  have hmark : mark ≠ some '%' := by
    rcases h with rfl | ⟨rfl, -⟩ <;> decide
  -- The pattern is taken apart into a margin, the text and a margin, each with what it accepts.
  have hback (y : List Char) :
    Accepts mark (if m.after then ['%'] else []) y ↔ (m.after = false → y = []) := by
    cases m.after with
    | false => simp [accepts_nil]
    | true => simp [accepts_any hmark, accepts_nil]
  have hfront (p : List Char) : Accepts mark ((if m.before then ['%'] else []) ++ p) x ↔
      ∃ front y, x = front ++ y ∧ (m.before = false → front = []) ∧ Accepts mark p y := by
    cases m.before with
    | false =>
        constructor
        · intro hx
          exact ⟨[], x, rfl, fun _ => rfl, hx⟩
        · rintro ⟨front, y, rfl, hnone, hy⟩
          rwa [hnone rfl]
    | true => simp [accepts_any hmark]
  rw [pattern, String.toList_ofList, Margins.around, List.append_assoc, hfront]
  simp only [accepts_escape h, hback]
  constructor
  · rintro ⟨front, _, rfl, hbefore, back, rfl, hafter⟩
    exact ⟨front, back, rfl, hbefore, hafter⟩
  · rintro ⟨front, back, rfl, hbefore, hafter⟩
    exact ⟨front, _, rfl, hbefore, back, rfl, hafter⟩

/-- `escapeOf` declares no escape character only for a text that has no need of one. -/
theorem escapes_escapeOf {text : String}
    (hmark : mark = escapeOf text ∨ escapeOf text = none ∧ mark = some escapeMark) :
    Escapes mark text.toList := by
  unfold escapeOf at hmark
  cases hspecial : text.toList.any isSpecial with
  | true =>
      rw [if_pos hspecial] at hmark
      exact .inl (hmark.resolve_right fun h => nomatch h.1)
  | false =>
      rw [if_neg (by simp [hspecial])] at hmark
      rcases hmark with rfl | ⟨-, rfl⟩
      · exact .inr ⟨rfl, hspecial⟩
      · exact .inl rfl

/-! What `accepts_pattern` comes to for the three margins there are. -/

section

variable {text x : String}

theorem accepts_inside (h : Escapes mark text.toList) :
    Accepts mark (pattern ⟨true, true⟩ text).toList x.toList ↔ text.toList <:+: x.toList := by
  rw [accepts_pattern h]
  constructor
  · rintro ⟨front, back, hx, -, -⟩
    exact ⟨front, back, by rw [hx, List.append_assoc]⟩
  · rintro ⟨front, back, hx⟩
    exact ⟨front, back, by rw [← hx, List.append_assoc], nofun, nofun⟩

theorem accepts_front (h : Escapes mark text.toList) :
    Accepts mark (pattern ⟨false, true⟩ text).toList x.toList ↔ text.toList <+: x.toList := by
  rw [accepts_pattern h]
  constructor
  · rintro ⟨front, back, hx, hfront, -⟩
    exact ⟨back, by rw [hx, hfront rfl, List.nil_append]⟩
  · rintro ⟨back, hx⟩
    exact ⟨[], back, hx.symm, fun _ => rfl, nofun⟩

theorem accepts_back (h : Escapes mark text.toList) :
    Accepts mark (pattern ⟨true, false⟩ text).toList x.toList ↔ text.toList <:+ x.toList := by
  rw [accepts_pattern h]
  constructor
  · rintro ⟨front, back, hx, -, hback⟩
    exact ⟨front, by rw [hx, hback rfl, List.append_nil]⟩
  · rintro ⟨front, hx⟩
    exact ⟨front, [], by rw [← hx, List.append_nil], nofun, fun _ => rfl⟩

end

end Sql.Like

/-! ## Functions that look for a text

A literal is escaped before it is bound, so the three functions search for it character by
character. -/

/-- How `f` finds the `text` in `x`: somewhere, at the front or at the back. -/
def BuiltIn.Finds (f : BuiltIn) (text x : String) : Prop :=
  match f with
  | contains => text.toList <:+: x.toList
  | startsWith => text.toList <+: x.toList
  | endsWith => text.toList <:+ x.toList
  | _ => False

namespace Schema

open Sql (Expr)

variable {s : Schema} {f : BuiltIn} {subject : Compiled} {e : Expr}

theorem matching_written {m : Sql.Like.Margins} (hsubject : s.textArgument f subject = .ok e)
    (text : String) :
    s.matching f m [subject, .literal ⟨text, .string⟩] =
      .ok (.predicate (.like e (.parameter (.string (Sql.Like.pattern m text)))
        (Sql.Like.escapeOf text))) := by
  rw [matching_pair, hsubject, likePattern, if_pos rfl]
  rfl

/-- **A text is looked for as it is written.** Whatever characters it has, `contains`, `startsWith`
and `endsWith` turn it into a pattern that `Sql.Like.Accepts` a text `x` exactly if this contains
it, starts with it or ends with it (`BuiltIn.Finds`). If no escape character is declared, this holds
with the backslash that a database may take by default as well as with none. -/
theorem callBuiltIn_finds (hf : f ∈ [BuiltIn.contains, .startsWith, .endsWith])
    (hsubject : s.textArgument f subject = .ok e) (text : String) :
    ∃ pattern escape, s.callBuiltIn f [subject, .literal ⟨text, .string⟩] =
        .ok (.predicate (.like e (.parameter (.string pattern)) escape)) ∧
      ∀ mark, (mark = escape ∨ escape = none ∧ mark = some '\\') → ∀ x : String,
        (Sql.Like.Accepts mark pattern.toList x.toList ↔ f.Finds text x) := by
  have hescapes {mark : Option Char}
      (hmark : mark = Sql.Like.escapeOf text ∨ Sql.Like.escapeOf text = none ∧ mark = some '\\') :
      Sql.Like.Escapes mark text.toList := Sql.Like.escapes_escapeOf hmark
  simp only [List.mem_cons, List.not_mem_nil, or_false] at hf
  rcases hf with rfl | rfl | rfl
  · exact ⟨_, _, matching_written hsubject text, fun _ hmark _ =>
      Sql.Like.accepts_inside (hescapes hmark)⟩
  · exact ⟨_, _, matching_written hsubject text, fun _ hmark _ =>
      Sql.Like.accepts_front (hescapes hmark)⟩
  · exact ⟨_, _, matching_written hsubject text, fun _ hmark _ =>
      Sql.Like.accepts_back (hescapes hmark)⟩

/-- A text with every special character in it. -/
def discount : String := "50%_\\'"

theorem startsWith_finds_specials :
    BuiltIn.startsWith ∈ [BuiltIn.contains, .startsWith, .endsWith] ∧
    (default : Schema).textArgument .startsWith (.value (.qualified "t0" "note") (.of .string)) =
      .ok (.qualified "t0" "note") ∧
    ∃ pattern escape, (default : Schema).callBuiltIn .startsWith
          [.value (.qualified "t0" "note") (.of .string), .literal ⟨discount, .string⟩] =
        .ok (.predicate (.like (.qualified "t0" "note") (.parameter (.string pattern)) escape)) ∧
      ∀ mark, (mark = escape ∨ escape = none ∧ mark = some '\\') → ∀ x : String,
        (Sql.Like.Accepts mark pattern.toList x.toList ↔ BuiltIn.startsWith.Finds discount x) :=
  ⟨by decide, rfl, callBuiltIn_finds (by decide) rfl discount⟩

/-- The pattern of `discount`, with the escape character that is declared for it. -/
example : (default : Schema).callBuiltIn .startsWith
    [.value (.qualified "t0" "note") (.of .string), .literal ⟨discount, .string⟩] =
      .ok (.predicate (.like (.qualified "t0" "note") (.parameter (.string "50\\%\\_\\\\'%"))
        (some '\\'))) :=
  rfl

end Schema

end FilterSql
