import FilterSql.Proofs.Compile.Resolving

/-!
# What members denote

The names of a member come first, and behind them at most one segment that asks something of the
rows they lead to. `Schema.Denotes` has one rule for each such segment, and says what the member
denotes by how its names resolve. `Schema.target_ok` and `Schema.denote_ok` show that the compiler
agrees, so later proofs distinguish cases by these rules.
-/

namespace FilterSql

/-! ## Levels

The level that a member starts at is one of its context. -/

namespace Context

variable {c : Context}

theorem outermost_mem (c : Context) : c.outermost ∈ c.levels := by
  induction c with
  | root l => exact List.mem_singleton_self l
  | inside l c ih => exact List.mem_cons_of_mem l ih

theorem memberLevel_mem (c : Context) : c.memberLevel ∈ c.levels := by
  induction c with
  | root l => exact List.mem_singleton_self l
  | inside l c ih =>
      rw [memberLevel, levels]
      split
      · exact List.mem_cons_of_mem l ih
      · exact List.mem_cons_self

theorem element?_mem {name : String} {l : Level} (h : c.element? name = some l) : l ∈ c.levels :=
  List.mem_of_find?_eq_some h

theorem pinned?_mem {a : Address} {l : Level} {offset : Nat} (h : c.pinned? a = some (l, offset)) :
    l ∈ c.levels := by
  obtain ⟨l', hmem, hpin⟩ := List.exists_of_findSome?_eq_some h
  split at hpin
  · split at hpin
    · cases hpin
      exact hmem
    · cases hpin
  · cases hpin

/-- If a level was opened for a member, the member starts there. -/
theorem anchor_of_pinned {a : Address} {found : Level × Nat} (h : c.pinned? a = some found)
    (path : Path) :
    c.anchor a path = found := by
  unfold anchor
  rw [h]

/-- The level that a member starts at if none was opened for it. -/
theorem anchor_of_not_pinned {a : Address} (h : c.pinned? a = none) (path : Path) :
    c.anchor a path =
    match path with
    | .property first :: _ =>
        if first = rootName then (c.outermost, 1)
        else match c.element? first with
          | some l => (l, 1)
          | none => (c.memberLevel, 0)
    | _ => (c.memberLevel, 0) := by
  unfold anchor
  exact h ▸ rfl

/-- A member starts at a level of the context. -/
theorem anchor_mem (c : Context) (a : Address) (path : Path) : (c.anchor a path).1 ∈ c.levels := by
  cases hpinned : c.pinned? a with
  | some found =>
      rw [anchor_of_pinned hpinned]
      exact pinned?_mem hpinned
  | none =>
      rw [anchor_of_not_pinned hpinned]
      split
      · split
        · exact c.outermost_mem
        · split
          · exact element?_mem ‹_›
          · exact c.memberLevel_mem
      · exact c.memberLevel_mem

theorem mem_of_anchor {a : Address} {path : Path} {l : Level} {start : Nat}
    (h : c.anchor a path = (l, start)) :
    l ∈ c.levels := by
  have hmem := c.anchor_mem a path
  rw [h] at hmem
  exact hmem

end Context

/-! ## Targets

`Denotes` has a rule for each `Target`: the names in front resolve, and the segment behind them
asks for what the rule says. `denote_ok` is the only place where the definition of `denote` is
opened. -/

namespace Schema

variable {s : Schema}

/-- What `names` denote with the segments behind them, from rows that `start` segments have led
to. -/
inductive Denotes (s : Schema) (scope : Scope) (start : Nat) :
    List String → Path → Target → Prop where
  | element : Denotes s scope start [] [] .element
  | leaf {names : List String} {leaf : AttributePath}
      (hr : s.resolve scope names = .ok ⟨[], some leaf⟩) :
      Denotes s scope start names [] (.attribute leaf)
  | navigation {names : List String} {front : List Hop} {last : Hop} {leaf : AttributePath}
      (hr : s.resolve scope names = .ok ⟨front ++ [last], some leaf⟩) :
      Denotes s scope start names [] (.navigation (front ++ [last]) (start + last.stop))
  | count {names : List String} {last : Hop} (hr : s.resolve scope names = .ok ⟨[last], none⟩)
      (hlast : last.isCollection) : Denotes s scope start names [.count] (.count [last])
  | countBehind {names : List String} {front : List Hop} {before last : Hop}
      (hr : s.resolve scope names = .ok ⟨front ++ [before, last], none⟩)
      (hlast : last.isCollection) :
      Denotes s scope start names [.count] (.navigation (front ++ [before]) (start + before.stop))
  | nonempty {names : List String} {front : List Hop} {last : Hop}
      (hr : s.resolve scope names = .ok ⟨front ++ [last], none⟩) (hlast : last.isCollection) :
      Denotes s scope start names [.nonempty] (.nonempty (front ++ [last]))
  | any {names : List String} {front : List Hop} {last : Hop} {name : String} {body : Filter}
      (hr : s.resolve scope names = .ok ⟨front ++ [last], none⟩) (hlast : last.isCollection) :
      Denotes s scope start names [.any name body] (.any (front ++ [last]) name)
  | all {names : List String} {front : List Hop} {last : Hop} {name : String} {body : Filter}
      (hr : s.resolve scope names = .ok ⟨front ++ [last], none⟩) (hlast : last.isCollection) :
      Denotes s scope start names [.all name body] (.all (front ++ [last]) name)
  | function {name : String} {args : List Argument} (hstart : start = 0) :
      Denotes s scope start [] [.function name args] (.function name)

theorem collectionHops_ok {scope : Scope} {path : Path} {names : List String} {hops : List Hop} :
    s.collectionHops scope path names = .ok hops ↔
      ∃ front last, s.resolve scope names = .ok ⟨hops, none⟩ ∧ hops = front ++ [last] ∧
        last.isCollection := by
  rw [collectionHops]
  cases names with
  | nil => simp [resolve]
  | cons name names =>
      simp only [List.isEmpty_cons, Bool.false_eq_true, if_false, Checked.bind_ok]
      constructor
      · rintro ⟨⟨hops', leaf?⟩, hr, h⟩
        cases leaf? with
        | some leaf => simp at h
        | none =>
            cases hlast : hops'.getLast? with
            | none => simp [hlast] at h
            | some last =>
                by_cases hcollection : last.isCollection
                · simp only [hlast, hcollection, if_true] at h
                  obtain rfl := Checked.pure_ok.mp h
                  obtain ⟨front, rfl⟩ := List.getLast?_eq_some_iff.mp hlast
                  exact ⟨front, last, hr, rfl, hcollection⟩
                · simp [hlast, hcollection] at h
      · rintro ⟨front, last, hr, rfl, hcollection⟩
        exact ⟨_, hr, by simp [hcollection, Checked.pure_ok]⟩

theorem attributeTarget_ok {scope : Scope} {path : Path} {start : Nat} {names : List String}
    {t : Target} :
    s.attributeTarget scope path start names = .ok t ↔ s.Denotes scope start names [] t := by
  constructor
  · intro h
    cases names with
    | nil =>
        obtain rfl := Except.ok.inj h
        exact .element
    | cons name names =>
        obtain ⟨⟨hops, leaf?⟩, hr, h⟩ := Checked.bind_ok.mp h
        cases leaf? with
        | none => simp [Checked.throw_ok] at h
        | some leaf =>
            -- Behind hops the member navigates, and without any it is a column of the rows at hand.
            cases hlast : hops.getLast? with
            | none =>
                obtain rfl := List.getLast?_eq_none_iff.mp hlast
                obtain rfl := Checked.pure_ok.mp h
                exact .leaf hr
            | some last =>
                simp only [hlast] at h
                obtain rfl := Checked.pure_ok.mp h
                obtain ⟨front, rfl⟩ := List.getLast?_eq_some_iff.mp hlast
                exact .navigation hr
  · intro h
    cases h with
    | element => rfl
    | leaf hr | navigation hr =>
        have hnames : names ≠ [] := (resolve_ok.mp hr).1
        simp [attributeTarget, hnames, hr, bind, Except.bind, pure, Except.pure]

theorem countTarget_ok {scope : Scope} {path : Path} {start : Nat} {names : List String}
    {t : Target} :
    s.countTarget scope path start names = .ok t ↔ s.Denotes scope start names [.count] t := by
  rw [countTarget, Checked.bind_ok]
  constructor
  · rintro ⟨hops, hhops, h⟩
    obtain ⟨front, last, hr, rfl, hcollection⟩ := collectionHops_ok.mp hhops
    rw [List.dropLast_concat] at h
    cases hbefore : front.getLast? with
    | none =>
        obtain rfl := List.getLast?_eq_none_iff.mp hbefore
        obtain rfl := Checked.pure_ok.mp h
        exact .count hr hcollection
    | some before =>
        simp only [hbefore] at h
        obtain rfl := Checked.pure_ok.mp h
        obtain ⟨front, rfl⟩ := List.getLast?_eq_some_iff.mp hbefore
        exact .countBehind (by simpa using hr) hcollection
  · intro h
    cases h with
    | count hr hlast => exact ⟨_, collectionHops_ok.mpr ⟨[], _, hr, rfl, hlast⟩, rfl⟩
    | @countBehind _ front before last hr hlast =>
        refine ⟨_, collectionHops_ok.mpr ⟨front ++ [before], last, hr, by simp, hlast⟩, ?_⟩
        have hdrop : (front ++ [before, last]).dropLast = front ++ [before] := by
          rw [List.append_cons, List.dropLast_concat]
        simp [hdrop, Checked.pure_ok]

/-- What a quantifier denotes, in terms of the hops to its collection. -/
theorem quantifierTarget_ok {scope : Scope} {path : Path} {names : List String}
    (make : List Hop → Target) {t : Target} :
    (do return make (← s.collectionHops scope path names)) = Except.ok t ↔
      ∃ front last, s.resolve scope names = .ok ⟨front ++ [last], none⟩ ∧ last.isCollection ∧
        make (front ++ [last]) = t := by
  simp only [Checked.bind_ok, Checked.pure_ok, collectionHops_ok]
  constructor
  · rintro ⟨_, ⟨front, last, hr, rfl, hcollection⟩, rfl⟩
    exact ⟨front, last, hr, hcollection, rfl⟩
  · rintro ⟨front, last, hr, hcollection, rfl⟩
    exact ⟨_, ⟨front, last, hr, rfl, hcollection⟩, rfl⟩

theorem nonemptyTarget_ok {scope : Scope} {path : Path} {start : Nat} {names : List String}
    {t : Target} : (do return .nonempty (← s.collectionHops scope path names)) = Except.ok t ↔
      s.Denotes scope start names [.nonempty] t := by
  refine (quantifierTarget_ok .nonempty).trans ⟨?_, ?_⟩
  · rintro ⟨front, last, hr, hcollection, rfl⟩
    exact .nonempty hr hcollection
  · intro h
    cases h with
    | nonempty hr hcollection => exact ⟨_, _, hr, hcollection, rfl⟩

theorem anyTarget_ok {scope : Scope} {path : Path} {start : Nat} {names : List String}
    {name : String} {body : Filter} {t : Target} :
    (do return .any (← s.collectionHops scope path names) name) = Except.ok t ↔
      s.Denotes scope start names [.any name body] t := by
  refine (quantifierTarget_ok fun hops => .any hops name).trans ⟨?_, ?_⟩
  · rintro ⟨front, last, hr, hcollection, rfl⟩
    exact .any hr hcollection
  · intro h
    cases h with
    | any hr hcollection => exact ⟨_, _, hr, hcollection, rfl⟩

theorem allTarget_ok {scope : Scope} {path : Path} {start : Nat} {names : List String}
    {name : String} {body : Filter} {t : Target} :
    (do return .all (← s.collectionHops scope path names) name) = Except.ok t ↔
      s.Denotes scope start names [.all name body] t := by
  refine (quantifierTarget_ok fun hops => .all hops name).trans ⟨?_, ?_⟩
  · rintro ⟨front, last, hr, hcollection, rfl⟩
    exact .all hr hcollection
  · intro h
    cases h with
    | all hr hcollection => exact ⟨_, _, hr, hcollection, rfl⟩

/-- A function of the schema is called at the start of a path and nowhere else. -/
theorem functionTarget_ok {scope : Scope} {start : Nat} {names : List String} {name : String}
    {args : List Argument} {t : Target} :
    (if start = 0 ∧ names = [] then Except.ok (.function name)
      else .error (FilterError.notSupported (.boundFunction name))) = .ok t ↔
      s.Denotes scope start names [.function name args] t := by
  by_cases hstart : start = 0 ∧ names = []
  · obtain ⟨rfl, rfl⟩ := hstart
    simp only [and_self, if_true, Except.ok.injEq]
    constructor
    · rintro rfl
      exact .function rfl
    · rintro ⟨⟩
      rfl
  · simp only [hstart, if_false, reduceCtorEq, false_iff]
    intro h
    cases h with
    | function hzero => exact hstart ⟨hzero, rfl⟩

/-- No name is left in the segments behind the names. -/
theorem Denotes.tail {scope : Scope} {start : Nat} {names : List String} {tail : Path} {t : Target}
    (h : s.Denotes scope start names tail t) :
    tail = [] ∨ ∃ last, tail = [last] ∧ ∀ name, last ≠ .property name := by
  cases h with
  | element | leaf | navigation => exact .inl rfl
  | count | countBehind | nonempty | any | all | function => exact .inr ⟨_, rfl, by rintro _ ⟨⟩⟩

/-- **What segments denote**: their names come first, and one rule fits the rest. -/
theorem target_ok {scope : Scope} {path segments : Path} {start : Nat} {t : Target} :
    s.target scope path start segments = .ok t ↔
      ∃ names tail, segments = names.map Segment.property ++ tail ∧
        s.Denotes scope start names tail t := by
  have hrules : s.target scope path start segments = .ok t ↔
      s.Denotes scope start segments.names segments.behindNames t := by
    rw [target]
    have hname := segments.behindNames_ne_property
    -- The cases are those of the definition: each of them that does not fail is a rule.
    generalize segments.behindNames = tail at hname
    rcases tail with _ | ⟨first, _ | ⟨second, rest⟩⟩
    · exact attributeTarget_ok
    · cases first with
      | property name => exact absurd rfl (hname name [])
      | count => exact countTarget_ok
      | nonempty => exact nonemptyTarget_ok
      | any name body => exact anyTarget_ok
      | all name body => exact allTarget_ok
      | function name args => exact functionTarget_ok
    · constructor
      · rintro ⟨⟩
      · intro h
        rcases h.tail with h | ⟨last, h, -⟩ <;> simp at h
  rw [hrules]
  constructor
  · intro h
    exact ⟨_, _, segments.names_append_behindNames.symm, h⟩
  · rintro ⟨names, tail, rfl, h⟩
    have htail : ∀ name rest, tail ≠ .property name :: rest := by
      rintro name rest rfl
      rcases h.tail with h | ⟨last, h, hlast⟩
      · cases h
      · exact hlast name (List.cons.inj h).1.symm
    obtain ⟨hnames, hbehind⟩ := Path.names_eq_of_append htail
    rwa [hnames, hbehind]

/-- **What a member denotes**, by the level that it starts at and how its segments are read
there. -/
theorem denote_ok {c : Context} {a : Address} {path : Path} {l : Level} {t : Target} :
    s.denote c a path = .ok (l, t) ↔
      ∃ start names tail, c.anchor a path = (l, start) ∧
        path.drop start = names.map Segment.property ++ tail ∧
        s.Denotes l.scope start names tail t := by
  cases hanchor : c.anchor a path with
  | mk anchor start =>
      simp only [denote, hanchor, Checked.bind_ok, Checked.pure_ok, target_ok, Prod.mk.injEq]
      constructor
      · rintro ⟨_, ⟨names, tail, hsplit, hdenotes⟩, rfl, rfl⟩
        exact ⟨start, names, tail, ⟨rfl, rfl⟩, hsplit, hdenotes⟩
      · rintro ⟨_, names, tail, ⟨rfl, rfl⟩, hsplit, hdenotes⟩
        exact ⟨t, ⟨names, tail, hsplit, hdenotes⟩, rfl, rfl⟩

/-- Rows are counted behind one hop only. -/
theorem denote_count {c : Context} {a : Address} {path : Path} {anchor : Level} {hops : List Hop}
    (h : s.denote c a path = .ok (anchor, .count hops)) : ∃ last, hops = [last] := by
  obtain ⟨start, names, tail, -, -, hdenotes⟩ := denote_ok.mp h
  cases hdenotes
  exact ⟨_, rfl⟩

end Schema

end FilterSql
