import FilterSql.Proofs.Sql.Tokens
import Mathlib.Data.List.Induction

/-!
# How databases read strings

A string of SQL goes on to the first apostrophe that is not written twice. In MySQL a backslash
takes the character behind it along, even an apostrophe. `Dialect.string?` reads strings in this
way, apart from how `Value.sqlLiteral` writes them. The literal of a string value is read as that
value by both databases, and nothing of it is left over. The name of an enum member is written
without doubled backslashes for MySQL too, so there it is read as that name exactly if none of its
backslashes escapes anything (`Value.literal_read`).
-/

namespace FilterSql

namespace Dialect

/-! ## Reading

`Dialect.stringBody?` follows the manuals of the databases, with MySQL in its default mode. -/

/-- What MySQL reads for a backslash with `c` behind it. -/
def unescaped (c : Char) : List Char :=
  match c with
  | '0' => ['\x00']
  | 'b' => ['\x08']
  | 'n' => ['\n']
  | 'r' => ['\r']
  | 't' => ['\t']
  | 'Z' => ['\x1a']
  -- These two are left to patterns, which have escapes of their own.
  | '%' => ['\\', '%']
  | '_' => ['\\', '_']
  | c => [c]

/-- Puts `front` before the content that has been read. -/
def prepend (front : List Char) (read : Option (List Char × List Char)) :
    Option (List Char × List Char) :=
  read.map fun (content, behind) => (front ++ content, behind)

/-- The content of a string whose opening mark has been read, and the text behind its closing mark.
`none` if the text ends first. -/
def stringBody? (d : Dialect) : List Char → Option (List Char × List Char)
  | [] => none
  | [c] => if c = '\'' then some ([], []) else none
  | c :: next :: text =>
      if c = '\'' then
        if next = '\'' then prepend ['\''] (d.stringBody? text) else some ([], next :: text)
      else if d = .mysql ∧ c = '\\' then prepend (unescaped next) (d.stringBody? text)
      else prepend [c] (d.stringBody? (next :: text))

/-- The content of the string that a text begins with, and the text behind it. -/
def string? (d : Dialect) : List Char → Option (List Char × List Char)
  | [] => none
  | c :: text => if c = '\'' then d.stringBody? text else none

variable {d : Dialect} {c : Char} {s text rest : List Char}

theorem stringBody?_end (h : rest.head? ≠ some '\'') :
    d.stringBody? ('\'' :: rest) = some ([], rest) := by
  cases rest with
  | nil => rfl
  | cons next rest =>
      have hnext : next ≠ '\'' := by simpa using h
      simp [stringBody?, hnext]

theorem stringBody?_pair :
    d.stringBody? ('\'' :: '\'' :: text) = prepend ['\''] (d.stringBody? text) := by
  simp [stringBody?]

theorem stringBody?_escape :
    stringBody? .mysql ('\\' :: c :: text) = prepend (unescaped c) (stringBody? .mysql text) := by
  simp [stringBody?]

theorem stringBody?_plain (hmark : c ≠ '\'') (hescape : ¬(d = .mysql ∧ c = '\\')) :
    d.stringBody? (c :: text) = prepend [c] (d.stringBody? text) := by
  cases text with
  | nil => simp [stringBody?, hmark, prepend]
  | cons next text => rw [stringBody?, if_neg hmark, if_neg hescape]

@[simp] theorem prepend_some {front content : List Char} :
    prepend front (some (content, rest)) = some (front ++ content, rest) := rfl

theorem prepend_eq_some {front content : List Char} {read : Option (List Char × List Char)} :
    prepend front read = some (content, rest) ↔
    ∃ back, read = some (back, rest) ∧ front ++ back = content := by
  rcases read with _ | ⟨back, behind⟩ <;> simp [prepend, and_comm]

/-- A character that escapes nothing is read as it is. If it is an apostrophe, its double is read
along with it. -/
theorem stringBody?_double (hescape : ¬(d = .mysql ∧ c = '\\')) :
    d.stringBody? (Text.double '\'' (c :: s) ++ text) =
      prepend [c] (d.stringBody? (Text.double '\'' s ++ text)) := by
  by_cases hmark : c = '\''
  · subst hmark
    exact stringBody?_pair
  · rw [Text.double_cons, if_neg hmark]
    exact stringBody?_plain hmark hescape

/-! ## Strings

`Sql.Token.escaped` doubles what MySQL would take for an escape. -/

theorem escaped_cons (d : Dialect) (c : Char) (s : List Char) :
    Sql.Token.escaped d (c :: s) =
      (if d = .mysql ∧ c = '\\' then ['\\', '\\'] else [c]) ++ Sql.Token.escaped d s := by
  cases d with
  | postgres => rfl
  | mysql => by_cases hc : c = '\\' <;> simp [Sql.Token.escaped, hc]

/-- What `Sql.Token.escaped` and the doubled marks make of `s` is read as `s`, up to the closing
mark. -/
theorem stringBody?_escaped (h : rest.head? ≠ some '\'') :
    d.stringBody? (Text.double '\'' (Sql.Token.escaped d s) ++ '\'' :: rest) = some (s, rest) := by
  induction s with
  | nil => cases d <;> exact stringBody?_end h
  | cons c s ih =>
      rw [escaped_cons]
      by_cases hescape : d = .mysql ∧ c = '\\'
      · obtain ⟨rfl, rfl⟩ := hescape
        simpa [stringBody?_escape, unescaped] using congrArg (prepend ['\\']) ih
      · rw [if_neg hescape, List.singleton_append, stringBody?_double hescape, ih]
        rfl

/-! ## Members of enum types

Their names are put between marks without `Sql.Token.escaped`, which both databases read alike
until a backslash comes up. -/

/-- What MySQL reads of `s` if it stands between marks with its backslashes as they are. -/
def member? (s : List Char) : Option (List Char × List Char) :=
  stringBody? .mysql (Text.double '\'' s ++ ['\''])

/-- Each backslash of the text stands in front of a percent sign or an underscore, before which
MySQL keeps it. -/
def KeepsBackslashes : List Char → Prop
  | [] => True
  | c :: s => (c = '\\' → s.head? = some '%' ∨ s.head? = some '_') ∧ KeepsBackslashes s

theorem member?_plain (hc : c ≠ '\\') : member? (c :: s) = prepend [c] (member? s) :=
  stringBody?_double (by simp [hc])

theorem member?_escape {next : Char} (hnext : next ≠ '\'') :
    member? ('\\' :: next :: s) = prepend (unescaped next) (member? s) := by
  have hwritten : Text.double '\'' ('\\' :: next :: s) = '\\' :: next :: Text.double '\'' s := by
    simp [hnext]
  rw [member?, hwritten]
  exact stringBody?_escape

/-- A doubled mark of which a backslash has taken the first half along does not end with the text:
the second half ends the string too early. -/
theorem stringBody?_torn {content : List Char} :
    d.stringBody? ('\'' :: (Text.double '\'' s ++ ['\''])) ≠ some (content, []) := by
  induction s generalizing content with
  | nil => simp [stringBody?, prepend]
  | cons c s ih =>
      by_cases hmark : c = '\''
      · subst hmark
        show d.stringBody? ('\'' :: '\'' :: '\'' :: (Text.double '\'' s ++ ['\''])) ≠ _
        rw [stringBody?_pair, Ne, prepend_eq_some]
        rintro ⟨back, hback, -⟩
        exact ih hback
      · rw [Text.double_cons, if_neg hmark]
        have hstop : d.stringBody? ('\'' :: c :: (Text.double '\'' s ++ ['\''])) =
            some ([], c :: (Text.double '\'' s ++ ['\''])) := stringBody?_end (by simpa using hmark)
        simp [hstop]

theorem member?_torn {content : List Char} : member? ('\\' :: '\'' :: s) ≠ some (content, []) := by
  show stringBody? .mysql ('\\' :: '\'' :: '\'' :: (Text.double '\'' s ++ ['\''])) ≠ _
  rw [stringBody?_escape, Ne, prepend_eq_some]
  rintro ⟨back, hback, -⟩
  exact stringBody?_torn hback

theorem unescaped_wild (h : c = '%' ∨ c = '_') : unescaped c = ['\\', c] := by
  rcases h with rfl | rfl <;> rfl

theorem unescaped_single (h : ¬(c = '%' ∨ c = '_')) : ∃ single, unescaped c = [single] := by
  unfold unescaped
  split <;> simp_all

theorem length_unescaped_le (c : Char) : (unescaped c).length ≤ 2 := by
  unfold unescaped
  split <;> simp

@[simp] theorem member?_nil : member? [] = some ([], []) := by
  simp [member?, stringBody?]

@[simp] theorem member?_dangling : member? ['\\'] = none := by
  simp [member?, stringBody?, prepend]

/-- **Induction on a text as MySQL reads it**: in single characters, and in pairs of a backslash
with the character behind it. -/
@[elab_as_elim]
theorem induction_pairs {motive : List Char → Prop} (nil : motive []) (dangling : motive ['\\'])
    (plain : ∀ c s, c ≠ '\\' → motive s → motive (c :: s))
    (pair : ∀ next s, motive s → motive ('\\' :: next :: s)) (s : List Char) : motive s := by
  induction s using List.twoStepInduction with
  | nil => exact nil
  | singleton c =>
      by_cases hc : c = '\\'
      · exact hc ▸ dangling
      · exact plain c [] hc nil
  | cons_cons c next s ih ih' =>
      by_cases hc : c = '\\'
      · exact hc ▸ pair next s ih
      · exact plain c _ hc (ih' next)

/-- A string is never read as more than was written. -/
theorem length_member?_le {content : List Char} (h : member? s = some (content, [])) :
    content.length ≤ s.length := by
  induction s using induction_pairs generalizing content with
  | nil =>
      obtain rfl : [] = content := by simpa using h
      exact Nat.le_refl 0
  | dangling => simp at h
  | plain c s hc ih =>
      rw [member?_plain hc, prepend_eq_some] at h
      obtain ⟨back, hback, rfl⟩ := h
      simpa using ih hback
  | pair next s ih =>
      by_cases hmark : next = '\''
      · exact absurd (hmark ▸ h) member?_torn
      · rw [member?_escape hmark, prepend_eq_some] at h
        obtain ⟨back, hback, rfl⟩ := h
        have hescaped := length_unescaped_le next
        have hlength := ih hback
        simp only [List.length_append, List.length_cons]
        omega

/-- MySQL reads the name that was written exactly if none of its backslashes escapes anything. -/
theorem member?_iff : member? s = some (s, []) ↔ KeepsBackslashes s := by
  induction s using induction_pairs with
  | nil => simp [KeepsBackslashes]
  | dangling => simp [KeepsBackslashes]
  | plain c s hc ih =>
      rw [member?_plain hc, prepend_eq_some]
      simp [KeepsBackslashes, hc, ih]
  | pair next s ih =>
      by_cases hmark : next = '\''
      · subst hmark
        -- The mark of the name is torn: half of it is escaped, and the other half pairs up with
        -- what is behind.
        simp [member?_torn, KeepsBackslashes]
      · rw [member?_escape hmark, prepend_eq_some]
        by_cases hwild : next = '%' ∨ next = '_'
        · have hnext : next ≠ '\\' := by rcases hwild with rfl | rfl <;> decide
          simp [unescaped_wild hwild, KeepsBackslashes, hwild, hnext, ih]
        · obtain ⟨single, hsingle⟩ := unescaped_single hwild
          constructor
          · rintro ⟨back, hback, heq⟩
            -- One character stands for two, and what is behind them is no longer than it is
            -- written.
            have hlength := length_member?_le hback
            rw [hsingle] at heq
            have hback' : back = next :: s := (List.cons.inj heq).2
            rw [hback', List.length_cons] at hlength
            omega
          · intro hkeeps
            exact absurd (by simpa using hkeeps.1 rfl) hwild

end Dialect

namespace Value

theorem toList_quoted (s : String) :
    (quoted s).toList = '\'' :: (Text.double '\'' s.toList ++ ['\'']) := by
  rw [quoted, Text.quote, String.toList_ofList, List.cons_append]

/-- **The literal of a string is read as that string by both databases, and as one token**
(`Dialect.string?`). So is the member of an enum type by `postgres`, and by `mysql` exactly if
`KeepsBackslashes` holds of its name. -/
theorem literal_read (s type : String) :
    (∀ d : Dialect, d.string? ((string s).sqlLiteral d).toList = some (s.toList, [])) ∧
    Dialect.string? .postgres ((enum type s).sqlLiteral .postgres).toList = some (s.toList, []) ∧
    (Dialect.string? .mysql ((enum type s).sqlLiteral .mysql).toList = some (s.toList, []) ↔
      Dialect.KeepsBackslashes s.toList) := by
  have hstring (d : Dialect) : d.string? ((string s).sqlLiteral d).toList =
    some (s.toList, []) := by
    have hread : d.stringBody? (Text.double '\'' (Sql.Token.escaped d s.toList) ++ ['\'']) =
      some (s.toList, []) :=
      Dialect.stringBody?_escaped (by simp)
    cases d with
    | postgres =>
        show Dialect.string? .postgres (quoted s).toList = _
        rw [toList_quoted]
        exact hread
    | mysql =>
        show Dialect.string? .mysql (quoted (String.ofList (Text.double '\\' s.toList))).toList = _
        rw [toList_quoted, String.toList_ofList]
        exact hread
  refine ⟨hstring, hstring .postgres, ?_⟩
  show Dialect.string? .mysql (quoted s).toList = _ ↔ _
  rw [toList_quoted]
  exact Dialect.member?_iff

/-- A backslash at the end of a name takes the closing mark along, and the string has no end. -/
example : Dialect.string? .mysql ((enum "Drive" "C:\\").sqlLiteral .mysql).toList = none := by
  decide

end Value

end FilterSql
