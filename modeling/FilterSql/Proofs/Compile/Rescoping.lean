import FilterSql.Proofs.Compile.Denoting
import FilterSql.Proofs.Compile.Run

/-!
# Compiling behind a member that navigates

An expression with a member that navigates is compiled again on the level that the member leads to.
There the member goes on from the end of its hops, to a column or to a number of rows
(`Schema.denote_behind`), and no other member notices the levels that were opened
(`Schema.denote_away`). So the expression has no member left that navigates
(`Filter.navigating_behind`), and is compiled behind a member only once.
-/

namespace FilterSql

/-! ## Levels that were opened for a member

A context may have further levels, opened for hops of the member at `a`. `Context.AgreesAway` says
that they hide nothing: the root, the variables and the pins of other members are found as
before. -/

namespace Context

/-- All members start in `c'` where they start in `c`, except for the one at the address `a`. -/
structure AgreesAway (a : Address) (c c' : Context) : Prop where
  outermost : c'.outermost = c.outermost
  element : ∀ name, c'.element? name = c.element? name
  member : c'.memberLevel = c.memberLevel
  pinned : ∀ a' ≠ a, c'.pinned? a' = c.pinned? a'

variable {a : Address} {c c' : Context} {l : Level}

theorem AgreesAway.refl (a : Address) (c : Context) : AgreesAway a c c :=
  ⟨rfl, fun _ => rfl, rfl, fun _ _ => rfl⟩

/-- A level that is opened for hops of the member at `a` keeps `AgreesAway`. -/
theorem AgreesAway.inside (h : AgreesAway a c c')
    (hl : l.binding = .navigation none ∨ ∃ offset, l.binding = .navigation (some ⟨a, offset⟩)) :
    AgreesAway a c (.inside l c') := by
  refine ⟨h.outermost, ?_, ?_, ?_⟩
  · intro name
    rw [← h.element name, element?, element?, levels, List.find?_cons_of_neg]
    rcases hl with hl | ⟨offset, hl⟩ <;> simp [hl]
  · rw [← h.member]
    rcases hl with hl | ⟨offset, hl⟩ <;> simp [memberLevel, hl]
  · -- Only the member at its own address starts at the level.
    intro a' ha'
    rw [← h.pinned a' ha', pinned?, pinned?, levels, List.findSome?_cons_of_isNone]
    rcases hl with hl | ⟨offset, hl⟩
    · simp [hl]
    · simp [hl, Ne.symm ha']

/-- `pinned?` finds the innermost level that was opened for the address. -/
theorem pinned?_inside {offset : Nat} (hl : l.binding = .navigation (some ⟨a, offset⟩)) :
    (inside l c).pinned? a = some (l, offset) := by
  simp [pinned?, levels, hl]

theorem AgreesAway.anchor {a' : Address} (h : AgreesAway a c c') (ha : a' ≠ a) (path : Path) :
    c'.anchor a' path = c.anchor a' path := by
  unfold Context.anchor
  rw [h.pinned a' ha, h.outermost, h.member]
  simp only [h.element]

end Context

/-! ## Other members

Their anchors are the same in both contexts, and so is the rest, as `denote` does not look at the
context for anything else. -/

namespace Schema

variable {s : Schema} {c c' : Context} {a a' : Address} {path : Path}

/-- A member at another address than `a` denotes what it denoted. -/
theorem denote_away (h : c.AgreesAway a c') (ha : a' ≠ a) :
    s.denote c' a' path = s.denote c a' path := by
  rw [denote, denote, h.anchor ha]

/-! ## The member itself

A member is resolved as a whole before its hops are known. Behind them only the names that are left
are resolved, from the target of the last hop, and these have no hops but the one of a count
(`Leads`). -/

/-- What is left of a member behind its hops: an `attribute`, or the `count` of the rows behind one
more hop. -/
inductive Leads (s : Schema) (scope : Scope) (hops : List Hop) :
    List String → Path → Target → Prop where
  | leaf {names : List String} {leaf : AttributePath}
      (hr : s.resolve scope names = .ok ⟨hops, some leaf⟩) :
      Leads s scope hops names [] (.attribute leaf)
  | count {names : List String} {last last' : Hop}
      (hr : s.resolve scope names = .ok ⟨hops ++ [last], none⟩) (hlast : last.isCollection)
      (hsame : last'.unnumbered = last.unnumbered) :
      Leads s scope hops names [.count] (.count [last'])

/-- The names that are left behind a hop, and what `resolve` makes of them. -/
theorem resolve_behind {scope : Scope} {names : List String} {front : List Hop}
    (back : List Hop) {h : Hop} {leaf? : Option AttributePath}
    (hr : s.resolve scope names = .ok ⟨front ++ h :: back, leaf?⟩)
    (hleft : back ≠ [] ∨ leaf?.isSome) :
    h.stop ≤ names.length ∧ ∃ back', s.resolve h.target (names.drop h.stop) = .ok ⟨back', leaf?⟩ ∧
      back'.map Hop.unnumbered = back.map Hop.unnumbered := by
  obtain ⟨-, hresolves⟩ := resolve_ok.mp hr
  obtain ⟨-, hle, hback⟩ := hresolves.resume rfl
  obtain ⟨⟨back', leaf'⟩, hback', hleaf, hhops⟩ := hback.renumber 0
  obtain rfl : leaf' = leaf? := hleaf
  refine ⟨by simpa using hle, back', resolve_ok.mpr ⟨?_, hback'⟩, hhops⟩
  rcases hleft with hleft | hleft
  · apply hback'.ne_nil_of_hops
    rintro rfl
    exact hleft (by simpa using hhops.symm)
  · obtain ⟨leaf, hleaf⟩ := Option.isSome_iff_exists.mp hleft
    exact hback'.ne_nil_of_leaf hleaf

/-- **Behind its hops a member denotes a column or a number of rows**, on the level that is pinned
for it. -/
theorem denote_behind {anchor : Level} {hops : List Hop} {offset : Nat}
    (h : s.denote c a path = .ok (anchor, .navigation hops offset)) :
    ∃ start names tail target front last, c.anchor a path = (anchor, start) ∧
      path.drop start = names.map Segment.property ++ tail ∧
      s.Leads anchor.scope hops names tail target ∧
      hops = front ++ [last] ∧ ∀ c' l, c'.pinned? a = some (l, offset) → l.scope = last.target →
        s.denote c' a path = .ok (l, target) := by
  obtain ⟨start, names, tail, hanchor, hsplit, hdenotes⟩ := denote_ok.mp h
  -- The path goes on behind the hops.
  have hbehind {c' : Context} {l : Level} {last : Hop} {t : Target} (hle : last.stop ≤ names.length)
      (hpinned : c'.pinned? a = some (l, start + last.stop))
      (hdenotes : s.Denotes l.scope (start + last.stop) (names.drop last.stop) tail t) :
      s.denote c' a path = .ok (l, t) := by
    refine denote_ok.mpr ⟨start + last.stop, names.drop last.stop, tail, ?_, ?_, hdenotes⟩
    · exact Context.anchor_of_pinned hpinned path
    · rw [← List.drop_drop, hsplit, List.drop_append_of_le_length (by simpa using hle),
        List.map_drop]
  cases hdenotes with
  | @navigation _ front last leaf hr =>
      obtain ⟨hle, back', hback, hhops⟩ := resolve_behind [] hr (.inr rfl)
      obtain rfl : back' = [] := by simpa using hhops
      refine ⟨start, names, [], .attribute leaf, front, last, hanchor, hsplit, .leaf hr, rfl, ?_⟩
      intro c' l hpinned hscope
      exact hbehind hle hpinned (hscope ▸ .leaf hback)
  | @countBehind _ front before last hr hlast =>
      obtain ⟨hle, back', hback, hhops⟩ := resolve_behind [last] hr (.inl (by simp))
      obtain ⟨last', rfl, hsame⟩ : ∃ last', back' = [last'] ∧
        last'.unnumbered = last.unnumbered := by
        rcases back' with _ | ⟨last', _ | ⟨_, _⟩⟩ <;> simp_all
      have hcollection : last'.isCollection := by
        obtain ⟨-, hkind, -⟩ := Hop.eq_of_unnumbered hsame
        simpa [Hop.isCollection, hkind] using hlast
      refine ⟨start, names, [.count], .count [last'], front, before, hanchor, hsplit, ?_, rfl, ?_⟩
      · exact .count (by simpa using hr) hlast hsame
      · intro c' l hpinned hscope
        exact hbehind hle hpinned (hscope ▸ .count hback hcollection)

/-- Behind its hops a member does not denote a `navigation` again. -/
theorem denote_once {anchor : Level} {hops : List Hop} {offset : Nat}
    (h : s.denote c a path = .ok (anchor, .navigation hops offset)) :
    ∃ front last, hops = front ++ [last] ∧ ∀ c' l, c'.pinned? a = some (l, offset) →
      l.scope = last.target →
      ∃ target, s.denote c' a path = .ok (l, target) ∧
        (∀ hops offset, target ≠ .navigation hops offset) ∧
        ∀ name, target ≠ .function name := by
  obtain ⟨start, names, tail, target, front, last, -, -, hleads, hhops, hbehind⟩ :=
    s.denote_behind h
  refine ⟨front, last, hhops, ?_⟩
  intro c' l hpinned hscope
  refine ⟨target, hbehind c' l hpinned hscope, ?_⟩
  cases hleads <;> simp

end Schema

/-! ## Expressions behind a member

The search is repeated in the new context. It finds what it found before, except at the address of
the member that was compiled behind. -/

/-- An address lies below one of several places side by side only. -/
theorem place_unique {i j : Nat} {a x : Address} (hi : i :: a <:+ x) (hj : j :: a <:+ x) :
    i = j := by
  obtain ⟨front, rfl⟩ := hi
  obtain ⟨front', heq⟩ := hj
  obtain ⟨-, hcons⟩ := List.append_inj' heq rfl
  exact (List.cons.inj hcons).1.symm

section

variable {s : Schema} {c c' : Context} {a : Address} {nav : Navigating}

/-- What `navigating` finds lies below the address that is searched. -/
theorem Filter.navigating_suffix {f : Filter} {ns : List Navigating}
    (h : f.navigating s c a = .ok ns) (hnav : nav ∈ ns) : a <:+ nav.address := by
  induction f using Filter.induction generalizing a ns with
  | step f ih =>
      rcases navigating_ok.mp h with ⟨path, anchor, hops, offset, rfl, hfound, rfl⟩ | ⟨fs,
        hsearched, h⟩
      · obtain rfl := List.mem_singleton.mp hnav
        exact List.suffix_refl a
      · obtain ⟨g, hg, i, ms, -, hms, hnav⟩ := navigatingAll_mem h hnav
        exact (List.suffix_cons i a).trans (ih g (hsearched.parts hg) hms hnav)

/-- What `navigatingAll` finds lies below the place of one of the operands. -/
theorem navigatingAll_suffix {fs : List Filter} {i : Nat} {ns : List Navigating}
    (h : navigatingAll s c a i fs = .ok ns) (hnav : nav ∈ ns) :
    ∃ j, i ≤ j ∧ (j :: a) <:+ nav.address := by
  obtain ⟨g, -, j, ms, hij, hms, hnav⟩ := navigatingAll_mem h hnav
  exact ⟨j, hij, Filter.navigating_suffix hms hnav⟩

/-- What `navigatingAll` finds is not at the address of the operands together. -/
theorem navigatingAll_ne {fs : List Filter} {i : Nat} {ns : List Navigating}
    (h : navigatingAll s c a i fs = .ok ns) (hnav : nav ∈ ns) : nav.address ≠ a := by
  obtain ⟨j, -, hbelow⟩ := navigatingAll_suffix h hnav
  rintro rfl
  have hlength := hbelow.length_le
  simp only [List.length_cons] at hlength
  omega

/-- In contexts that agree away from `x`, the same operands are `Searched` in a filter that is not
at `x`. -/
theorem Filter.Searched.away {f : Filter} {fs : List Filter} {x : Address}
    (hagrees : c.AgreesAway x c') (ha : a ≠ x) (h : f.Searched s c a fs) :
    f.Searched s c' a fs := by
  cases h with
  | arithmetic hop => exact .arithmetic hop
  | condition hop => exact .condition hop
  | minus operand => exact .minus operand
  | not operand => exact .not operand
  | call => exact .call _ _
  | function hfound => exact .function ((s.denote_away hagrees ha).trans hfound)
  | member hfound hnavigation hfunction =>
      exact .member ((s.denote_away hagrees ha).trans hfound) hnavigation hfunction
  | literal l => exact .literal l
  | enumMember type member => exact .enumMember type member
  | typeName name => exact .typeName name
  | parameterAlias name => exact .parameterAlias name

/-- If `navigating` finds the same in each operand, then `navigatingAll` does in all of them. -/
theorem navigatingAll_away {fs : List Filter} {i : Nat} {ns : List Navigating}
    (hfs : ∀ f ∈ fs, ∀ j ms, i ≤ j → f.navigating s c (j :: a) = .ok ms →
      f.navigating s c' (j :: a) = .ok ms)
    (h : navigatingAll s c a i fs = .ok ns) : navigatingAll s c' a i fs = .ok ns := by
  induction fs generalizing i ns with
  | nil => exact h
  | cons f fs ih =>
      obtain ⟨ms, hms, h⟩ := Checked.bind_ok.mp h
      obtain ⟨rest, hrest, h⟩ := Checked.bind_ok.mp h
      have hrest' :=
        ih (fun g hg j ms hj => hfs g (List.mem_cons_of_mem f hg) j ms (Nat.le_of_succ_le hj)) hrest
      rw [navigatingAll, hfs f List.mem_cons_self i ms (Nat.le_refl i) hms, hrest']
      exact h

/-- `navigating` finds the same in a filter that `x` does not lie below. -/
theorem Filter.navigating_away {f : Filter} {x : Address} {ns : List Navigating}
    (hagrees : c.AgreesAway x c') (ha : ¬ a <:+ x) (h : f.navigating s c a = .ok ns) :
    f.navigating s c' a = .ok ns := by
  induction f using Filter.induction generalizing a ns with
  | step f ih =>
      have hsame : a ≠ x := fun heq => ha (heq ▸ List.suffix_refl a)
      rcases navigating_ok.mp h with ⟨path, anchor, hops, offset, rfl, hfound, rfl⟩ | ⟨fs,
        hsearched, h⟩
      · exact navigating_ok.mpr
          (.inl ⟨path, anchor, hops, offset, rfl, (s.denote_away hagrees hsame).trans hfound, rfl⟩)
      · apply navigating_ok.mpr
        right
        refine ⟨fs, hsearched.away hagrees hsame, navigatingAll_away ?_ h⟩
        intro g hg i ms _ hms
        have haway : ¬ (i :: a) <:+ x := fun hbelow => ha ((List.suffix_cons i a).trans hbelow)
        exact ih g (hsearched.parts hg) haway hms

/-- If one operand holds the only member that navigates, then none does behind it. -/
theorem navigatingAll_behind {fs : List Filter} {i : Nat} (hagrees : c.AgreesAway nav.address c')
    (hfs : ∀ f ∈ fs, ∀ i, f.navigating s c (i :: a) = .ok [nav] →
      f.navigating s c' (i :: a) = .ok [])
    (h : navigatingAll s c a i fs = .ok [nav]) : navigatingAll s c' a i fs = .ok [] := by
  induction fs generalizing i with
  | nil => cases h
  | cons f fs ih =>
      obtain ⟨ms, hms, h⟩ := Checked.bind_ok.mp h
      obtain ⟨rest, hrest, h⟩ := Checked.bind_ok.mp h
      -- The member is in this operand or in those behind it, and the others keep what they have.
      rcases List.append_eq_singleton_iff.mp (Checked.pure_ok.mp h) with ⟨rfl, rfl⟩ | ⟨rfl, rfl⟩
      · have haway : ¬ (i :: a) <:+ nav.address := by
          intro hbelow
          obtain ⟨j, hij, hother⟩ := navigatingAll_suffix hrest (List.mem_singleton_self nav)
          have hplace := place_unique hbelow hother
          omega
        rw [navigatingAll, Filter.navigating_away hagrees haway hms,
          ih (fun g hg => hfs g (List.mem_cons_of_mem f hg)) hrest]
        rfl
      · have hbelow : (i :: a) <:+ nav.address :=
          Filter.navigating_suffix hms (List.mem_singleton_self nav)
        have haway (j : Nat) (hj : i + 1 ≤ j) : ¬ (j :: a) <:+ nav.address := by
          intro hother
          have hplace := place_unique hbelow hother
          omega
        have hrest' : navigatingAll s c' a (i + 1) fs = .ok [] :=
          navigatingAll_away (fun g _ j ms hj => Filter.navigating_away hagrees (haway j hj)) hrest
        rw [navigatingAll, hfs f List.mem_cons_self i hms, hrest']
        rfl

/-- **Behind the member that navigates, no other one is left that does**: `navigating` finds
nothing. -/
theorem Filter.navigating_behind {f : Filter} {l : Level} {target : Target}
    (hagrees : c.AgreesAway nav.address c')
    (hfound : s.denote c' nav.address nav.path = .ok (l, target))
    (hnavigation : ∀ hops offset, target ≠ .navigation hops offset)
    (hfunction : ∀ name, target ≠ .function name) (h : f.navigating s c a = .ok [nav]) :
    f.navigating s c' a = .ok [] := by
  induction f using Filter.induction generalizing a with
  | step f ih =>
      have hbelow := navigating_suffix h (List.mem_singleton_self nav)
      rcases navigating_ok.mp h with ⟨path, anchor, hops, offset, rfl, -, hnav⟩ | ⟨fs, hsearched, h⟩
      · obtain rfl := List.singleton_inj.mp hnav
        exact navigating_ok.mpr (.inr ⟨[], .member hfound hnavigation hfunction, rfl⟩)
      · have hne := (navigatingAll_ne h (List.mem_singleton_self nav)).symm
        have hnone := navigatingAll_behind hagrees (fun g hg i => ih g (hsearched.parts hg)) h
        exact navigating_ok.mpr (.inr ⟨fs, hsearched.away hagrees hne, hnone⟩)

end

end FilterSql
