import FilterSql.Proofs.Compile.Surrounding

/-!
# What operands evaluate to

A filter in which no member navigates has one meaning and is compiled where it stands. If one
member navigates, the filter has a meaning for each row behind the hops of that member, and is
compiled on the level of these rows. `Comes` says both at once. It passes from operands to what is
made of them (`Comes.of_operands`), since no other member notices that the level was opened.
`Filter.Correct` is what operands have to satisfy for this.
-/

namespace FilterSql

open Sql (Expr Row Rows Database Truth)

/-! ## Runs and readings

`Comes` relates a run of the compiler to a reading: behind the hops of the member that navigates,
what is compiled means what is read for the row there. Without such a member there is one row
only. -/

/-- The context `c'` with the rows `env'` lies behind the hops of `nav`, and `l` is the level
there. -/
structure Navigating.Opens (nav : Navigating) (c : Context) (env : Rows) (c' : Context)
    (env' : Rows) (l : Level) : Prop where
  behind : c.Behind nav.address env c' env'
  pinned : c'.pinned? nav.address = some (l, nav.offset)
  scope : ∀ front last, nav.hops = front ++ [last] → l.scope = last.target

/-- The results of `compile` mean what is read: where it stands if no member navigates, and
otherwise for each row behind the hops of the only member that does. -/
structure Comes {α β : Type} (s : Schema) (db : Database) (c : Context) (env : Rows)
    (Means : Rows → α → β → Prop) (ns : List Navigating) (compile : Context → Numbered α)
    (reading : Reading β) : Prop where
  here : ns = [] → ∃ b, reading = .one b ∧
    ∀ {n x m}, c.Ready s n → (compile c).run n = .ok (x, m) → Means env x b
  behind : ∀ nav, ns = [nav] → ∃ read : Row → β,
    reading = .each ((Hop.reach db nav.hops (env (some nav.anchor.label))).map read) ∧
    ∀ {c' env' l n x m}, nav.Opens c env c' env' l → c'.Ready s n →
      (compile c').run n = .ok (x, m) →
      Means env' x (read (env' (some l.label)))

section

variable {s : Schema} {db : Database} {c c' : Context} {env env' : Rows} {around : Surroundings}
    {a : Address} {l : Level} {nav : Navigating} {ns : List Navigating} {x : Compiled} {e : Expr}
    {n m : Nat}

/-- `compile` takes numbers and gives none back. -/
theorem Filter.compile_le {f : Filter} (hready : c.Ready s n)
    (h : (f.compile s c a).run n = .ok (x, m)) : n ≤ m := by
  obtain ⟨-, ps, htaken, -⟩ := f.compile_emitted f false rfl c a hready.has h h
  exact htaken.1

/-- Behind the hops that `nav` opens, its member does not denote a `navigation`. -/
theorem Navigating.Opens.denote (h : nav.Opens c env c' env' l)
    (hfound : s.denote c nav.address nav.path = .ok (nav.anchor, .navigation nav.hops nav.offset)) :
    ∃ target, s.denote c' nav.address nav.path = .ok (l, target) ∧
      (∀ hops offset, target ≠ .navigation hops offset) ∧ ∀ name, target ≠ .function name := by
  obtain ⟨front, last, hhops, hbehind⟩ := s.denote_once hfound
  exact hbehind c' l h.pinned (h.scope front last hhops)

/-- The level behind the last hop, which `nav.Opens` tells of. -/
theorem Navigating.opens {env'' : Rows} {front : List Hop} {last : Hop}
    (hhops : nav.hops = front ++ [last]) (hbehind : c.Behind nav.address env c' env')
    (hsame : c'.SameRows env' env'') :
    nav.Opens c env (c'.inside ⟨last.target, n, .navigation (some nav.pin)⟩) env''
      ⟨last.target, n, .navigation (some nav.pin)⟩ := by
  refine ⟨?_, ?_, ?_⟩
  · exact hbehind.inside (.inr ⟨nav.offset, rfl⟩) hsame
  · exact Context.pinned?_inside rfl
  · intro front' last' hhops'
    have hends : front ++ [last] = front' ++ [last'] := hhops.symm.trans hhops'
    have hlast : [last] = [last'] := (List.append_inj' hends rfl).2
    rw [List.singleton_inj.mp hlast]

/-- **A condition behind the hops of a member** is true if it is true for one of the rows there:
`ask` evaluates to this. -/
theorem Comes.ask_evaluates {compile : Context → Numbered Compiled} {reading : Reading Meaning}
    (hcomes : Comes s db c env (Compiled.Means db) [nav] compile reading) (hready : c.Ready s n)
    (hfound : s.denote c nav.address nav.path = .ok (nav.anchor, .navigation nav.hops nav.offset))
    (hask : (Hop.ask (nav.question compile) c nav.anchor.label nav.hops).run n = .ok (e, m)) :
    e.eval db env = reading.truth.value := by
  obtain ⟨read, rfl, hread⟩ := hcomes.behind nav rfl
  obtain ⟨front, last, hhops, -⟩ := s.denote_once hfound
  have hl : nav.anchor ∈ c.levels := by
    obtain ⟨start, -, -, hanchor, -⟩ := s.denote_ok.mp hfound
    exact Context.mem_of_anchor hanchor
  have hhas : ∀ h ∈ front ++ [last], s.HasHop h := by
    have htarget := (s.denote_has hready.has hfound).2
    rw [← hhops]
    exact htarget.hops
  rw [hhops] at hask ⊢
  rw [Hop.ask_evaluates (P := fun row =>
    (read row).truth.holds) (.refl nav.address c env) hready hl hhas ?_ hask]
  · simp [Reading.truth, Truth.value, Function.comp_def]
  -- Behind the last hop the condition is compiled on the level of the rows there.
  · intro c' env' l n e m hbehind hready hl hrun
    apply Hop.narrowedRow_evaluates hready hl (hhas last (by simp)) hrun
    intro env'' x k m hsame hready hx
    obtain ⟨y, hy, he⟩ := conditionOf_ok.mp hx
    have hmeans := hread (nav.opens hhops hbehind hsame) hready hy
    rw [Expr.holds, hmeans.truth_eq he]
    rfl

theorem Comes.of_run {α β : Type} {Means : Rows → α → β → Prop}
    {compile compile' : Context → Numbered α} {reading : Reading β}
    (hcomes : Comes s db c env Means ns compile reading)
    (h : ∀ {c n x m}, (compile' c).run n = .ok (x, m) → (compile c).run n = .ok (x, m)) :
    Comes s db c env Means ns compile' reading := by
  constructor
  · intro hns
    obtain ⟨b, hb, hhere⟩ := hcomes.here hns
    exact ⟨b, hb, fun hready hx => hhere hready (h hx)⟩
  · intro nav hnav
    obtain ⟨read, hread, hbehind⟩ := hcomes.behind nav hnav
    exact ⟨read, hread, fun hopens hready hx => hbehind hopens hready (h hx)⟩

/-- What `within` compiles behind the member that navigates, or where it stands if there is none. -/
theorem Comes.within {compile : Context → Numbered Compiled} {reading : Reading Meaning}
    {n? : Option Navigating} (hcomes : Comes s db c env (Compiled.Means db) ns compile reading)
    (hready : c.Ready s n)
    (hfound : ∀ nav ∈ ns, s.denote c nav.address nav.path =
      .ok (nav.anchor, .navigation nav.hops nav.offset))
    (hn : Navigating.only? ns = .ok n?) (hx : (c.within n? compile).run n = .ok (x, m)) :
    (∃ b, reading = .one b ∧ x.Means db env b) ∨ x.Means db env (.condition reading.truth) := by
  cases n? with
  | none =>
      left
      have hns : ns = [] := Navigating.only?_none hn
      obtain ⟨b, hb, hmeans⟩ := hcomes.here hns
      exact ⟨b, hb, hmeans hready hx⟩
  | some nav =>
      right
      obtain rfl : ns = [nav] := Navigating.only?_some hn
      obtain ⟨e, rfl, hask⟩ := within_some_ok.mp hx
      have heval := hcomes.ask_evaluates hready (hfound nav (List.mem_singleton_self nav)) hask
      exact .subquery heval

/-- What `within` gives has, as a condition, the truth value of the reading. -/
theorem Comes.within_truth {compile : Context → Numbered Compiled} {reading : Reading Meaning}
    {n? : Option Navigating} (hcomes : Comes s db c env (Compiled.Means db) ns compile reading)
    (hready : c.Ready s n)
    (hfound : ∀ nav ∈ ns, s.denote c nav.address nav.path =
      .ok (nav.anchor, .navigation nav.hops nav.offset))
    (hn : Navigating.only? ns = .ok n?) (hx : (c.within n? compile).run n = .ok (x, m))
    (he : x.predicate? = some e) : (e.eval db env).truth = reading.truth := by
  rcases hcomes.within hready hfound hn hx with ⟨b, rfl, hmeans⟩ | hmeans
  · exact hmeans.truth_eq he
  · exact hmeans.truth_eq he

/-! ## Operands

`Filter.Correct` is the property that the induction on filters shows. If one operand holds the
member that navigates, the others mean behind its hops what they mean in front of them
(`Filter.Correct.away`). -/

/-- What is shown of every filter: it is compiled to what its `reading` says, and as a condition it
has the truth value of this. -/
structure Filter.Correct (s : Schema) (db : Database) (f : Filter) : Prop where
  comes : ∀ {c env around a ns}, c.Shows env around → c.Unpinned a → f.navigating s c a = .ok ns →
    Comes s db c env (Compiled.Means db) ns (fun c => f.compile s c a) (f.reading s db around)
  truth : ∀ {c env around a n x m e}, c.Shows env around → c.Unpinned a → c.Ready s n →
    (f.compile s c a).run n = .ok (x, m) → x.predicate? = some e →
    (e.eval db env).truth = (f.reading s db around).truth

/-- Behind the hops of a member elsewhere, a `Correct` operand means what it means before them. -/
theorem Filter.Correct.away {f : Filter} {b : Meaning} (hf : f.Correct s db)
    (hshows : c.Shows env around) (hunpinned : c.Unpinned a) (hopens : nav.Opens c env c' env' l)
    (haway : ¬ a <:+ nav.address) (hns : f.navigating s c a = .ok [])
    (hb : f.reading s db around = .one b) (hready : c'.Ready s n)
    (hx : (f.compile s c' a).run n = .ok (x, m)) : x.Means db env' b := by
  have hshows' := hshows.behind hopens.behind
  have hunpinned' := hunpinned.behind hopens.behind haway
  have hns' := Filter.navigating_away hopens.behind.agrees haway hns
  obtain ⟨b', hb', hhere⟩ := (hf.comes hshows' hunpinned' hns').here rfl
  obtain rfl : b = b' := Reading.one.inj (hb.symm.trans hb')
  exact hhere hready hx

/-- Operands in which no member navigates. -/
theorem readings_here {fs : List Filter} {i : Nat} (hfs : ∀ f ∈ fs, f.Correct s db)
    (hshows : c.Shows env around) (hunpinned : ∀ j, i ≤ j → c.Unpinned (j :: a))
    (h : navigatingAll s c a i fs = .ok []) :
    ∃ bs, readings s db around fs = .one bs ∧ ∀ {n xs m}, c.Ready s n →
      (compileAll s c a i fs).run n = .ok (xs, m) → Compiled.MeanAll db env xs bs := by
  induction fs generalizing i with
  | nil =>
      refine ⟨[], rfl, ?_⟩
      intro n xs m _ hrun
      obtain ⟨rfl, rfl⟩ := Filter.compileAll_nil_ok.mp hrun
      exact .nil
  | cons f fs ih =>
      obtain ⟨ms, hms, h⟩ := Checked.bind_ok.mp h
      obtain ⟨rest, hrest, h⟩ := Checked.bind_ok.mp h
      obtain ⟨rfl, rfl⟩ := List.append_eq_nil_iff.mp (Checked.pure_ok.mp h)
      have hf := hfs f List.mem_cons_self
      have htail : ∀ g ∈ fs, g.Correct s db := fun g hg => hfs g (List.mem_cons_of_mem f hg)
      obtain ⟨b, hb, hhere⟩ := (hf.comes hshows (hunpinned i (Nat.le_refl i)) hms).here rfl
      obtain ⟨bs, hbs, hheres⟩ := ih htail (fun j hj => hunpinned j (Nat.le_of_succ_le hj)) hrest
      refine ⟨b :: bs, ?_, ?_⟩
      · rw [readings, hb, hbs]
        rfl
      · intro n xs m hready hrun
        obtain ⟨y, k, ys, hy, hys, rfl⟩ := Filter.compileAll_cons_ok.mp hrun
        have hready' := hready.mono (Filter.compile_le hready hy)
        exact .cons (hhere hready hy) (hheres hready' hys)

/-- Operands are compiled to what is read of them. -/
theorem compileAll_comes {fs : List Filter} {i : Nat} (hfs : ∀ f ∈ fs, f.Correct s db)
    (hshows : c.Shows env around) (hunpinned : ∀ j, i ≤ j → c.Unpinned (j :: a))
    (h : navigatingAll s c a i fs = .ok ns) :
    Comes s db c env (Compiled.MeanAll db) ns (fun c =>
      compileAll s c a i fs) (readings s db around fs) := by
  induction fs generalizing i ns with
  | nil =>
      obtain rfl : [] = ns := Except.ok.inj h
      refine ⟨fun _ => readings_here hfs hshows hunpinned h, ?_⟩
      intro nav hnav
      cases hnav
  | cons f fs ih =>
      refine ⟨?_, ?_⟩
      · rintro rfl
        exact readings_here hfs hshows hunpinned h
      intro nav hone
      obtain ⟨ms, hms, h⟩ := Checked.bind_ok.mp h
      obtain ⟨rest, hrest, h⟩ := Checked.bind_ok.mp h
      have hsplit : ms ++ rest = [nav] := (Checked.pure_ok.mp h).trans hone
      have hf := hfs f List.mem_cons_self
      have htail : ∀ g ∈ fs, g.Correct s db := fun g hg => hfs g (List.mem_cons_of_mem f hg)
      have hunpinned' : ∀ j, i + 1 ≤ j → c.Unpinned (j :: a) :=
        fun j hj => hunpinned j (Nat.le_of_succ_le hj)
      have hfirst := hf.comes hshows (hunpinned i (Nat.le_refl i)) hms
      have hothers := ih htail hunpinned' hrest
      -- The member is in this operand or in those behind it, and the others come to the same behind
      -- its hops.
      rcases List.append_eq_singleton_iff.mp hsplit with ⟨rfl, rfl⟩ | ⟨rfl, rfl⟩
      · obtain ⟨b, hb, -⟩ := hfirst.here rfl
        obtain ⟨read, hread, hbehind⟩ := hothers.behind nav rfl
        have haway : ¬ (i :: a) <:+ nav.address := by
          intro hbelow
          obtain ⟨j, hij, hother⟩ := navigatingAll_suffix hrest (List.mem_singleton_self nav)
          have hplace := place_unique hbelow hother
          omega
        refine ⟨fun row => b :: read row, by simp [readings, hb, hread], ?_⟩
        intro c' env' l n xs m hopens hready hrun
        obtain ⟨y, k, ys, hy, hys, rfl⟩ := Filter.compileAll_cons_ok.mp hrun
        have hmeans := hf.away hshows (hunpinned i (Nat.le_refl i)) hopens haway hms hb hready hy
        have hready' := hready.mono (Filter.compile_le hready hy)
        exact .cons hmeans (hbehind hopens hready' hys)
      · obtain ⟨read, hread, hbehind⟩ := hfirst.behind nav rfl
        obtain ⟨bs, hbs, -⟩ := hothers.here rfl
        have haway (j : Nat) (hj : i + 1 ≤ j) : ¬ (j :: a) <:+ nav.address := by
          intro hother
          have hbelow := Filter.navigating_suffix hms (List.mem_singleton_self nav)
          have hplace := place_unique hbelow hother
          omega
        refine ⟨fun row => read row :: bs, by simp [readings, hread, hbs], ?_⟩
        intro c' env' l n xs m hopens hready hrun
        obtain ⟨y, k, ys, hy, hys, rfl⟩ := Filter.compileAll_cons_ok.mp hrun
        have hrest' : navigatingAll s c' a (i + 1) fs = .ok [] :=
          navigatingAll_away (fun g _ j ms hj =>
            Filter.navigating_away hopens.behind.agrees (haway j hj)) hrest
        have hunpinned'' : ∀ j, i + 1 ≤ j → c'.Unpinned (j :: a) :=
          fun j hj => (hunpinned' j hj).behind hopens.behind (haway j hj)
        obtain ⟨bs', hbs', hheres⟩ :=
          readings_here htail (hshows.behind hopens.behind) hunpinned'' hrest'
        obtain rfl : bs = bs' := Reading.one.inj (hbs.symm.trans hbs')
        have hready' := hready.mono (Filter.compile_le hready hy)
        exact .cons (hbehind hopens hready hy) (hheres hready' hys)

theorem navigatingAll_found {fs : List Filter} {i : Nat} (h : navigatingAll s c a i fs = .ok ns)
    (hnav : nav ∈ ns) :
    s.denote c nav.address nav.path = .ok (nav.anchor, .navigation nav.hops nav.offset) := by
  obtain ⟨g, -, j, ms, -, hms, hnav⟩ := navigatingAll_mem h hnav
  exact Filter.navigating_mem hms hnav

/-- **What is made of operands means what is made of their meanings.** It is compiled where none of
them has a member left that navigates. -/
theorem Comes.of_operands {fs : List Filter} {compile : Context → Numbered Compiled}
    {make : List Meaning → Meaning} (hfs : ∀ f ∈ fs, f.Correct s db) (hshows : c.Shows env around)
    (hunpinned : c.Unpinned a) (hns : navigatingAll s c a 0 fs = .ok ns)
    (hrun : ∀ {c' x}, x ≠ a → c.AgreesAway x c' → navigatingAll s c' a 0 fs = .ok [] → ∀ {n y m},
      (compile c').run n = .ok (y, m) → ∃ ys, (compileAll s c' a 0 fs).run n = .ok (ys, m) ∧
        ∀ {env ms}, Compiled.MeanAll db env ys ms → y.Means db env (make ms)) :
    Comes s db c env (Compiled.Means db) ns compile
      (do return make (← readings s db around fs)) := by
  have hcomes := compileAll_comes hfs hshows (fun j _ => hunpinned.part j) hns
  constructor
  · rintro rfl
    obtain ⟨ms, hms, hhere⟩ := hcomes.here rfl
    refine ⟨make ms, ?_, ?_⟩
    · rw [hms]
      rfl
    · intro n y m hready hy
      obtain ⟨ys, hys, hmeans⟩ := hrun (x := 0 :: a) (List.cons_ne_self 0 a) (.refl _ c) hns hy
      exact hmeans (hhere hready hys)
  · rintro nav rfl
    obtain ⟨read, hread, hbehind⟩ := hcomes.behind nav rfl
    refine ⟨fun row => make (read row), by simp [hread], ?_⟩
    intro c' env' l n y m hopens hready hy
    have hnav := List.mem_singleton_self nav
    have hagrees := hopens.behind.agrees
    obtain ⟨target, hfound, hnavigation, hfunction⟩ := hopens.denote (navigatingAll_found hns hnav)
    -- Behind its hops the only member that has navigated does so no more.
    have hnone : navigatingAll s c' a 0 fs = .ok [] :=
      navigatingAll_behind hagrees (fun g _ i =>
        g.navigating_behind hagrees hfound hnavigation hfunction) hns
    obtain ⟨ys, hys, hmeans⟩ := hrun (navigatingAll_ne hns hnav) hagrees hnone hy
    exact hmeans (hbehind hopens hready hys)

end

end FilterSql
