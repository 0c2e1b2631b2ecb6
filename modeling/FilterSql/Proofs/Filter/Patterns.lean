import FilterSql.Filter.Token

/-!
# What patterns match

A token that was matched in one text has to be matched again in another, where something else
follows it. So these are laws on how a `Token.Pattern` depends on the text around its match:
whether it sees what follows (`Closed`, `Rigid`, `Lasting`), whether the match can stand alone
(`Cuts`), where it ends (`Halts`), and which characters it takes (`Over`, `Demands`). Each law
passes from the parts of a pattern to the whole.
-/

namespace FilterSql.Token

variable {p q : Char → Bool} {a b : Pattern} {s t r : List Char} {c d : Char} {n m k : Nat}
    {w : String}

/-- The pattern matches all of `text`. -/
def Whole (a : Pattern) (text : String) : Prop :=
  a text.toList = some text.toList.length

instance (a : Pattern) (text : String) : Decidable (Whole a text) :=
  inferInstanceAs (Decidable (_ = _))

/-! ## Matching part by part

What the combinators match, in terms of what their parts do. -/

theorem row_cons (a : Pattern) (rest : List Pattern) : row (a :: rest) = seq a (row rest) := rfl

theorem seq_eq_some : seq a b s = some n ↔
    ∃ k, a s = some k ∧ ∃ m, b (s.drop k) = some m ∧ k + m = n := by
  rw [seq]
  cases a s with
  | none => simp
  | some k => simp only [Option.map_eq_some_iff, Option.some.injEq, exists_eq_left']

theorem row_single (a : Pattern) : row [a] = a := by
  funext s
  rw [row_cons, seq]
  cases a s <;> rfl

theorem seq_eq_none (h : a s = none) : seq a b s = none := by
  rw [seq, h]

theorem alt_eq_some : alt a b s = some n ↔ a s = some n ∨ a s = none ∧ b s = some n := by
  rw [alt]
  cases a s <;> simp

theorem opt_eq_some : opt a s = some n ↔ a s = some n ∨ a s = none ∧ 0 = n := by
  rw [opt]
  cases a s <;> simp

theorem one_eq_some : one p s = some n ↔ ∃ c r, s = c :: r ∧ p c ∧ 1 = n := by
  cases s with
  | nil => simp [one]
  | cons c r =>
      rw [one]
      split <;> simp_all

theorem exactly_eq_some : exactly w s = some n ↔ w.toList <+: s ∧ w.toList.length = n := by
  rw [exactly]
  split
  next h => simp [List.isPrefixOf_iff_prefix.mp h, String.length_toList]
  next h => simp [show ¬ w.toList <+: s from fun hp => h (List.isPrefixOf_iff_prefix.mpr hp)]

theorem notBefore_eq_some : notBefore p s = some n ↔ (∀ c ∈ s.head?, p c = false) ∧ 0 = n := by
  cases s with
  | nil => simp [notBefore]
  | cons c r =>
      rw [notBefore]
      split <;> simp_all

theorem star_of_some (h : a s = some (k + 1)) (hk : k < s.length) :
    star a s = k + 1 + star a (s.drop (k + 1)) := by
  cases s with
  | nil => simp at hk
  | cons c r => rw [star.eq_def, h, List.drop_succ_cons]

theorem star_of_none (h : a s = none) : star a s = 0 := by
  rw [star.eq_def, h]

/-- Induction along the matches of a repeated pattern, one behind the other. -/
theorem star_induction {P : List Char → Prop} (hbound : ∀ {s n}, a s = some n → n ≤ s.length)
    (hpos : ∀ s, a s ≠ some 0) (stop : ∀ s, a s = none → P s)
    (step : ∀ s k, a s = some (k + 1) → k < s.length → P (s.drop (k + 1)) → P s)
    (s : List Char) : P s :=
  match h : a s with
  | none => stop s h
  | some 0 => absurd h (hpos s)
  | some (k + 1) => step s k h (hbound h) (star_induction hbound hpos stop step (s.drop (k + 1)))
termination_by s.length
decreasing_by
  have := hbound h
  rw [List.length_drop]
  omega

/-! ## Characters of a match

What the characters that a pattern takes are like: all of them are in some class (`Over`), or the
text has one of a few in it (`Demands`). A pattern excludes another one if it demands what this has
no room for. -/

/-- All characters that the pattern takes are of the class `p`. -/
def Over (p : Char → Bool) (a : Pattern) : Prop :=
  ∀ s n, a s = some n → ∀ c ∈ s.take n, p c

namespace Over

theorem one (h : ∀ c, q c → p c) : Over p (one q) := by
  intro s n hs
  obtain ⟨c, r, rfl, hc, rfl⟩ := one_eq_some.mp hs
  simpa using h c hc

theorem exactly (h : w.toList.all p) : Over p (exactly w) := by
  intro s n hs
  obtain ⟨⟨r, rfl⟩, rfl⟩ := exactly_eq_some.mp hs
  simpa using h

theorem seq (ha : Over p a) (hb : Over p b) : Over p (seq a b) := by
  intro s n hs c hc
  obtain ⟨k, hk, m, hm, rfl⟩ := seq_eq_some.mp hs
  rw [List.take_add, List.mem_append] at hc
  exact hc.elim (ha s k hk c) (hb _ m hm c)

theorem alt (ha : Over p a) (hb : Over p b) : Over p (alt a b) := by
  intro s n hs
  rcases alt_eq_some.mp hs with h | ⟨-, h⟩
  · exact ha s n h
  · exact hb s n h

theorem never : Over p fun _ => none :=
  fun _ _ h => nomatch h

theorem opt (ha : Over p a) : Over p (opt a) := by
  intro s n hs
  rcases opt_eq_some.mp hs with h | ⟨-, rfl⟩
  · exact ha s n h
  · simp

theorem many (h : ∀ c, q c → p c) : Over p (many q) := by
  intro s n hs c hc
  cases hs
  rw [← List.prefix_iff_eq_take.mp (List.takeWhile_prefix q)] at hc
  exact h c (List.all_eq_true.mp List.all_takeWhile c hc)

theorem nil : Over p (row []) := by
  intro s n hs
  cases hs
  simp

theorem many1 (h : ∀ c, q c → p c) : Over p (many1 q) :=
  (one h).seq (many h)

theorem count (h : ∀ c, q c → p c) : (n : Nat) → Over p (count q n)
  | 0 => nil
  | n + 1 => (one h).seq (count h n)

theorem notBefore : Over p (notBefore q) := by
  intro s n hs
  obtain ⟨-, rfl⟩ := notBefore_eq_some.mp hs
  simp

theorem star (ha : Over p a) (hbound : ∀ {s n}, a s = some n → n ≤ s.length)
    (hpos : ∀ s, a s ≠ some 0) :
    Over p fun s => some (star a s) := by
  have hover (s : List Char) : ∀ c ∈ s.take (Token.star a s), p c := by
    induction s using star_induction hbound hpos with
    | stop s has => simp [star_of_none has]
    | step s k has hk ih =>
        intro c hc
        rw [star_of_some has hk, List.take_add, List.mem_append] at hc
        exact hc.elim (ha s _ has c) (ih c)
  intro s n hs
  cases hs
  exact hover s

theorem whole (h : Over p a) (hs : a s = some s.length) : ∀ c ∈ s, p c := by
  have := h s _ hs
  rwa [List.take_length] at this

end Over

/-- The pattern matches only texts that contain one of the characters `cs`. -/
def Demands (cs : List Char) (a : Pattern) : Prop :=
  ∀ s n, a s = some n → ∃ c ∈ s, c ∈ cs

namespace Demands

variable {cs : List Char}

theorem one (h : ∀ c, p c → c ∈ cs) : Demands cs (one p) := by
  intro s n hs
  obtain ⟨c, r, rfl, hc, -⟩ := one_eq_some.mp hs
  exact ⟨c, List.mem_cons_self, h c hc⟩

theorem exactly (h : c ∈ w.toList) (hc : c ∈ cs) : Demands cs (exactly w) := by
  intro s n hs
  exact ⟨c, (exactly_eq_some.mp hs).1.subset h, hc⟩

theorem left (ha : Demands cs a) : Demands cs (seq a b) := by
  intro s n hs
  obtain ⟨k, hk, -⟩ := seq_eq_some.mp hs
  exact ha s k hk

theorem right (hb : Demands cs b) : Demands cs (seq a b) := by
  intro s n hs
  obtain ⟨k, -, m, hm, -⟩ := seq_eq_some.mp hs
  obtain ⟨c, hc, h⟩ := hb _ m hm
  exact ⟨c, List.mem_of_mem_drop hc, h⟩

theorem alt (ha : Demands cs a) (hb : Demands cs b) : Demands cs (alt a b) := by
  intro s n hs
  rcases alt_eq_some.mp hs with h | ⟨-, h⟩
  · exact ha s n h
  · exact hb s n h

theorem never : Demands cs fun _ => none :=
  fun _ _ h => nomatch h

/-- A pattern that demands one of `cs` matches nothing at the front of a text that another pattern,
of other characters, matches in full. -/
theorem excludes (ha : Demands cs a) (hb : Over p b) (hcs : cs.all (fun c => !p c) := by decide)
    (s : List Char) (hs : b s = some s.length) : a s = none := by
  cases h : a s with
  | none => rfl
  | some n =>
      obtain ⟨c, hc, hmem⟩ := ha s n h
      have hp := List.all_eq_true.mp hcs c hmem
      rw [hb.whole hs c hc] at hp
      cases hp

end Demands

/-! ## What follows a match

Patterns look ahead and prefer the first of their alternatives, so a match may change when text is
appended. The laws say which patterns do not change, and in front of what. -/

theorem prefix_append_cases {u : List Char} (h : u <+: t ++ r) :
    u <+: t ∨ ∃ v, v <+: r ∧ u = t ++ v := by
  rcases List.prefix_or_prefix_of_prefix h (List.prefix_append t r) with h' | ⟨v, rfl⟩
  · exact .inl h'
  · exact .inr ⟨v, (List.prefix_append_right_inj t).mp h, rfl⟩

/-- In front of the character `d`, the pattern matches as if the text ended there. -/
structure Closed (d : Char) (a : Pattern) : Prop where
  same : ∀ t r, a (t ++ d :: r) = a t
  bounded : ∀ {t n}, a t = some n → n ≤ t.length

namespace Closed

theorem one (hd : p d = false) : Closed d (one p) where
  same
    | [], r => by simp [Token.one, hd]
    | _ :: _, _ => rfl
  bounded h := by
    obtain ⟨c, r, rfl, -, rfl⟩ := one_eq_some.mp h
    simp

theorem exactly (hd : d ∉ w.toList) : Closed d (exactly w) where
  same t r := by
    have hiff : w.toList <+: t ++ d :: r ↔ w.toList <+: t := by
      refine ⟨fun h => ?_, fun h => h.trans (List.prefix_append t _)⟩
      rcases prefix_append_cases h with h' | ⟨v, hv, heq⟩
      · exact h'
      · cases v with
        | nil => simp [heq]
        | cons c v => rw [heq, (List.cons_prefix_cons.mp hv).1] at hd; simp at hd
    rw [Token.exactly, Token.exactly]
    simp only [List.isPrefixOf_iff_prefix, hiff]
  bounded h := by
    obtain ⟨hp, rfl⟩ := exactly_eq_some.mp h
    exact hp.length_le

theorem seq (ha : Closed d a) (hb : Closed d b) : Closed d (seq a b) where
  same t r := by
    rw [Token.seq, Token.seq, ha.same]
    cases h : a t with
    | none => rfl
    | some k => simp only [List.drop_append_of_le_length (ha.bounded h), hb.same]
  bounded h := by
    obtain ⟨k, hk, m, hm, rfl⟩ := seq_eq_some.mp h
    have hkt := ha.bounded hk
    have hmt := hb.bounded hm
    rw [List.length_drop] at hmt
    omega

theorem alt (ha : Closed d a) (hb : Closed d b) : Closed d (alt a b) where
  same t r := by rw [Token.alt, Token.alt, ha.same, hb.same]
  bounded h := by
    rcases alt_eq_some.mp h with h | ⟨-, h⟩
    · exact ha.bounded h
    · exact hb.bounded h

theorem never : Closed d fun _ => none where
  same _ _ := rfl
  bounded h := nomatch h

theorem opt (ha : Closed d a) : Closed d (opt a) where
  same t r := by rw [Token.opt, Token.opt, ha.same]
  bounded h := by
    rcases opt_eq_some.mp h with h | ⟨-, rfl⟩
    · exact ha.bounded h
    · exact Nat.zero_le _

theorem many (hd : p d = false) : Closed d (many p) where
  same t r := by
    rw [Token.many, Token.many, List.takeWhile_append,
      List.takeWhile_cons_of_neg (by rw [hd]; decide), List.append_nil]
    split
    next h => rw [h]
    next => rfl
  bounded h := by
    cases h
    exact (List.takeWhile_prefix p).length_le

theorem nil : Closed d (row []) where
  same _ _ := rfl
  bounded h := by
    cases h
    exact Nat.zero_le _

theorem many1 (hd : p d = false) : Closed d (many1 p) :=
  (one hd).seq (many hd)

theorem count (hd : p d = false) : (n : Nat) → Closed d (count p n)
  | 0 => nil
  | n + 1 => (one hd).seq (count hd n)

theorem notBefore (hd : p d = false) : Closed d (notBefore p) where
  same
    | [], r => by simp [Token.notBefore, hd]
    | _ :: _, _ => rfl
  bounded h := by
    obtain ⟨-, rfl⟩ := notBefore_eq_some.mp h
    exact Nat.zero_le _

theorem star (ha : Closed d a) (hpos : ∀ s, a s ≠ some 0) : Closed d fun s => some (star a s) := by
  have both (t : List Char) :
      (∀ r, Token.star a (t ++ d :: r) = Token.star a t) ∧ Token.star a t ≤ t.length := by
    induction t using star_induction ha.bounded hpos with
    | stop t hat =>
        refine ⟨fun r => ?_, by rw [star_of_none hat]; exact Nat.zero_le _⟩
        rw [star_of_none hat, star_of_none (by rw [ha.same, hat])]
    | step t k hat hk ih =>
        obtain ⟨hsame, hle⟩ := ih
        refine ⟨fun r => ?_, ?_⟩
        · rw [star_of_some hat hk,
            star_of_some (by rw [ha.same, hat]) (by rw [List.length_append]; omega),
            List.drop_append_of_le_length hk, hsame]
        · rw [star_of_some hat hk]
          rw [List.length_drop] at hle
          omega
  exact ⟨fun t r => congrArg some ((both t).1 r), fun h => by cases h; exact (both _).2⟩

theorem append (h : ∀ d ∈ r.head?, Closed d a) (t : List Char) : a (t ++ r) = a t := by
  cases r with
  | nil => rw [List.append_nil]
  | cons d r => exact (h d rfl).same t r

end Closed

/-- What the pattern matches, it matches whatever follows. -/
structure Rigid (a : Pattern) : Prop where
  same : ∀ {t n} r, a t = some n → a (t ++ r) = some n
  bounded : ∀ {t n}, a t = some n → n ≤ t.length

namespace Rigid

theorem one : Rigid (one p) where
  same r h := by
    obtain ⟨c, s, rfl, hc, rfl⟩ := one_eq_some.mp h
    exact one_eq_some.mpr ⟨c, s ++ r, rfl, hc, rfl⟩
  bounded h := by
    obtain ⟨c, r, rfl, -, rfl⟩ := one_eq_some.mp h
    simp

theorem exactly : Rigid (exactly w) where
  same r h := by
    obtain ⟨hp, rfl⟩ := exactly_eq_some.mp h
    exact exactly_eq_some.mpr ⟨hp.trans (List.prefix_append _ r), rfl⟩
  bounded h := by
    obtain ⟨hp, rfl⟩ := exactly_eq_some.mp h
    exact hp.length_le

theorem seq (ha : Rigid a) (hb : Rigid b) : Rigid (seq a b) where
  same r h := by
    obtain ⟨k, hk, m, hm, rfl⟩ := seq_eq_some.mp h
    refine seq_eq_some.mpr ⟨k, ha.same r hk, m, ?_, rfl⟩
    rw [List.drop_append_of_le_length (ha.bounded hk)]
    exact hb.same r hm
  bounded h := by
    obtain ⟨k, hk, m, hm, rfl⟩ := seq_eq_some.mp h
    have hkt := ha.bounded hk
    have hmt := hb.bounded hm
    rw [List.length_drop] at hmt
    omega

theorem nil : Rigid (row []) where
  same _ h := h
  bounded h := by
    cases h
    exact Nat.zero_le _

theorem count : (n : Nat) → Rigid (count p n)
  | 0 => nil
  | n + 1 => one.seq (count n)

end Rigid

/-- If the pattern matches a text, it still matches something however the text goes on. -/
def Lasting (a : Pattern) : Prop :=
  ∀ t r, a (t ++ r) = none → a t = none

namespace Lasting

theorem of_rigid (ha : Rigid a) : Lasting a := by
  intro t r h
  cases hat : a t with
  | none => rfl
  | some n => rw [ha.same r hat] at h; cases h

theorem seq (ha : Rigid a) (hb : Lasting b) : Lasting (seq a b) := by
  intro t r h
  cases hat : a t with
  | none => exact seq_eq_none hat
  | some k =>
      simp only [Token.seq, ha.same r hat, hat, Option.map_eq_none_iff,
        List.drop_append_of_le_length (ha.bounded hat)] at h ⊢
      exact hb _ r h

theorem alt (ha : Lasting a) (hb : Lasting b) : Lasting (alt a b) := by
  intro t r h
  rw [Token.alt] at h ⊢
  cases har : a (t ++ r) with
  | none => rw [har] at h; rw [ha t r har]; exact hb t r h
  | some n => rw [har] at h; cases h

theorem always (h : ∀ s, a s ≠ none) : Lasting a :=
  fun _ _ hr => absurd hr (h _)

theorem many1 : Lasting (many1 p) :=
  seq .one (always fun _ => nofun)

end Lasting

/-- What the pattern matches within the front of a text, it matches in that front alone. -/
def Cuts (a : Pattern) : Prop :=
  ∀ t r n, a (t ++ r) = some n → n ≤ t.length → a t = some n

namespace Cuts

theorem one : Cuts (one p) := by
  intro t r n h hn
  cases t with
  | nil =>
      obtain ⟨c, s, -, -, rfl⟩ := one_eq_some.mp h
      cases hn
  | cons c t => exact h

theorem exactly : Cuts (exactly w) := by
  intro t r n h hn
  obtain ⟨hp, rfl⟩ := exactly_eq_some.mp h
  exact exactly_eq_some.mpr ⟨List.prefix_of_prefix_length_le hp (List.prefix_append t r) hn, rfl⟩

theorem seq (ha : Cuts a) (hb : Cuts b) : Cuts (seq a b) := by
  intro t r n h hn
  obtain ⟨k, hk, m, hm, rfl⟩ := seq_eq_some.mp h
  have hkt : k ≤ t.length := by omega
  rw [List.drop_append_of_le_length hkt] at hm
  exact seq_eq_some.mpr ⟨k, ha t r k hk hkt, m, hb _ r m hm (by rw [List.length_drop]; omega), rfl⟩

theorem alt (ha : Cuts a) (hlast : Lasting a) (hb : Cuts b) : Cuts (alt a b) := by
  intro t r n h hn
  refine alt_eq_some.mpr ?_
  rcases alt_eq_some.mp h with h | ⟨hnone, h⟩
  · exact .inl (ha t r n h hn)
  · exact .inr ⟨hlast t r hnone, hb t r n h hn⟩

theorem never : Cuts fun _ => none :=
  fun _ _ _ h => nomatch h

theorem opt (ha : Cuts a) (hlast : Lasting a) : Cuts (opt a) := by
  intro t r n h hn
  refine opt_eq_some.mpr ?_
  rcases opt_eq_some.mp h with h | ⟨hnone, rfl⟩
  · exact .inl (ha t r n h hn)
  · exact .inr ⟨hlast t r hnone, rfl⟩

theorem many : Cuts (many p) := by
  intro t r n h hn
  cases h
  rw [List.takeWhile_append] at hn ⊢
  split
  next hall =>
      rw [if_pos hall, List.length_append] at hn
      rw [Token.many, hall, List.length_append]
      exact congrArg some (by omega)
  next => rfl

theorem nil : Cuts (row []) :=
  fun _ _ _ h _ => h

theorem many1 : Cuts (many1 p) :=
  one.seq many

theorem count : (n : Nat) → Cuts (count p n)
  | 0 => nil
  | n + 1 => one.seq (count n)

theorem notBefore : Cuts (notBefore p) := by
  intro t r n h _
  obtain ⟨hr, rfl⟩ := notBefore_eq_some.mp h
  cases t with
  | nil => rfl
  | cons c t => exact h

theorem star (ha : Cuts a) (hlast : Lasting a) (hbound : ∀ {s n}, a s = some n → n ≤ s.length)
    (hpos : ∀ s, a s ≠ some 0) : Cuts fun s => some (star a s) := by
  -- The induction is on the longer text: where a match ends within the shorter one, both go on
  -- alike.
  have cut (s : List Char) : ∀ t r, s = t ++ r → Token.star a s ≤ t.length →
    Token.star a t = Token.star a s := by
    induction s using star_induction hbound hpos with
    | stop s has =>
        rintro t r rfl -
        rw [star_of_none has, star_of_none (hlast t r has)]
    | step s k has hsk ih =>
        rintro t r rfl hle
        rw [star_of_some has hsk] at hle ⊢
        have hk : k + 1 ≤ t.length := by omega
        have hdrop : (t ++ r).drop (k + 1) = t.drop (k + 1) ++ r := List.drop_append_of_le_length hk
        rw [star_of_some (ha t r _ has hk) hk, ih _ _ hdrop (by rw [List.length_drop]; omega)]
  intro t r n h hn
  cases h
  exact congrArg some (cut _ t r rfl hn)

end Cuts

/-- Where the match ends, no character of the class `p` follows. -/
def Halts (p : Char → Bool) (a : Pattern) : Prop :=
  ∀ s n, a s = some n → ∀ c ∈ (s.drop n).head?, p c = false

namespace Halts

theorem many : Halts p (many p) := by
  intro s n h c hc
  cases h
  have hdrop : s.drop (s.takeWhile p).length = s.dropWhile p := by
    conv => lhs; arg 2; rw [← List.takeWhile_append_dropWhile (p := p) (l := s)]
    rw [List.drop_left]
  rw [hdrop] at hc
  have hnot := List.head?_dropWhile_not p s
  rw [hc] at hnot
  exact hnot

theorem seq (hb : Halts p b) : Halts p (seq a b) := by
  intro s n h c hc
  obtain ⟨k, -, m, hm, rfl⟩ := seq_eq_some.mp h
  rw [← List.drop_drop] at hc
  exact hb _ m hm c hc

/-- If `a` halts, so does `a` with any number of `b` behind it, provided that `b` halts too. -/
theorem star (ha : Halts p a) (hb : Halts p b) (hbound : ∀ {s n}, b s = some n → n ≤ s.length)
    (hpos : ∀ s, b s ≠ some 0) : Halts p (Token.seq a fun s => some (star b s)) := by
  have halt (s : List Char) : (∀ c ∈ s.head?, p c = false) →
    ∀ c ∈ (s.drop (Token.star b s)).head?, p c = false := by
    induction s using star_induction hbound hpos with
    | stop s hbs =>
        rw [star_of_none hbs]
        exact id
    | step s k hbs hk ih =>
        intro _
        rw [star_of_some hbs hk, ← List.drop_drop]
        exact ih (hb s _ hbs)
  intro s n h c hc
  obtain ⟨k, hk, m, hm, rfl⟩ := seq_eq_some.mp h
  cases hm
  rw [← List.drop_drop] at hc
  exact halt _ (ha s k hk) c hc

end Halts

end FilterSql.Token
