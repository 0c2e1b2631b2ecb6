import FilterSql.Proofs.Compile.Correspondence
import FilterSql.Proofs.Schema.Names

/-!
# The names of variables

Filters that correspond compile to the same expression (`Filter.compile_renamed`). So of two whole
filters with one nameless form, both compile to the same expression or neither compiles. Hence
variables may be renamed (`Schema.compile_rebound`), and a member without a prefix is about the
innermost element or the root (`Schema.compile_prefixed`).
-/

namespace FilterSql

open Sql (Expr)

/-! ## Which members navigate

The search goes through both filters at once. It finds members at the same addresses, which lead
along the same hops and go on with the same names (`Navigating.Alike`). -/

/-- Two members that go along the same hops from levels that are `Alike`, and on with the same
names behind them. -/
structure Navigating.Alike (F G : Filter) (nav nav' : Navigating) : Prop where
  address : nav'.address = nav.address
  anchor : nav.anchor.Alike nav'.anchor
  hops : nav'.hops = nav.hops
  resume : F.Resume G nav.address nav.offset nav'.offset

variable {s : Schema} {F G : Filter} {bound bound' : List String} {a : Address}

theorem Navigating.Alike.repeats {nav nav' : Navigating} (h : nav.Alike F G nav') :
    nav.Repeats (Context.Renamed F G bound bound') nav' := by
  refine ⟨h.anchor.label, h.hops, ?_⟩
  intro c c' scope n hc
  rw [Navigating.pin, Navigating.pin, h.address]
  exact .pinned scope n h.resume hc

/-- Members that correspond and denote the same `navigation` are `Navigating.Alike`. -/
theorem Filter.Corresponds.alike {path path' : Path} {l l' : Level} {hops : List Hop}
    {offset offset' : Nat} (h : F.Corresponds G bound bound' a (.member path) (.member path'))
    (hl : l.Alike l') (hsame : path.drop offset = path'.drop offset')
    (hplain : Path.IsPlain (path.drop offset)) :
    Navigating.Alike F G ⟨a, path, l, hops, offset⟩ ⟨a, path', l', hops, offset'⟩ := by
  refine ⟨rfl, hl, rfl, ?_⟩
  intro path₁ path₁' hleft hright
  obtain rfl : path = path₁ := Filter.member.inj (Option.some.inj (h.left.symm.trans hleft))
  obtain rfl : path' = path₁' := Filter.member.inj (Option.some.inj (h.right.symm.trans hright))
  exact ⟨hsame, hplain⟩

section

variable {c c' : Context}

/-- In filters that correspond, the operands that are `Searched` correspond. -/
theorem Filter.Searched.renamed {f g : Filter} {fs : List Filter}
    (hc : c.Renamed F G bound bound' c') (h : F.Corresponds G bound bound' a f g)
    (hsearched : f.Searched s c a fs) :
    ∃ gs, g.Searched s c' a gs ∧ F.CorrespondAll G bound bound' a 0 fs gs := by
  cases hsearched with
  | arithmetic hop =>
      obtain ⟨l', r', rfl, hl, hr⟩ := h.of_binary
      exact ⟨_, .arithmetic hop, .cons hl (.cons hr (.nil 2))⟩
  | condition hop =>
      obtain ⟨l', r', rfl, -, -⟩ := h.of_binary
      exact ⟨_, .condition hop, .nil 0⟩
  | minus operand =>
      obtain ⟨operand', rfl, hoperand⟩ := h.of_unary
      exact ⟨_, .minus operand', .cons hoperand (.nil 1)⟩
  | not operand =>
      obtain ⟨operand', rfl, -⟩ := h.of_unary
      exact ⟨_, .not operand', .nil 0⟩
  | call f args =>
      obtain ⟨args', rfl, hargs⟩ := h.of_call
      exact ⟨_, .call f args', hargs⟩
  | function hfound =>
      obtain ⟨path', rfl⟩ := h.of_member
      -- What the member denotes decides what is searched, and the other member denotes what
      -- corresponds to it.
      obtain ⟨l', t', hfound', -, htarget⟩ := s.denote_renamed hc h hfound
      cases htarget with
      | function name args args' hpath hpath' hsame =>
          obtain ⟨-, hargs⟩ := h.arguments hpath hpath' hsame
          exact ⟨_, .function hfound', hargs⟩
  | member hfound hnavigation hfunction =>
      obtain ⟨path', rfl⟩ := h.of_member
      obtain ⟨l', t', hfound', -, htarget⟩ := s.denote_renamed hc h hfound
      refine ⟨[], .member hfound' ?_ ?_, .nil 0⟩
      · rintro hops offset rfl
        cases htarget
        exact hnavigation _ _ rfl
      · rintro name rfl
        cases htarget
        exact hfunction _ rfl
  | literal l =>
      obtain rfl := h.eq_of_leaf rfl
      exact ⟨[], .literal l, .nil 0⟩
  | enumMember type member =>
      obtain rfl := h.eq_of_leaf rfl
      exact ⟨[], .enumMember type member, .nil 0⟩
  | typeName name =>
      obtain rfl := h.eq_of_leaf rfl
      exact ⟨[], .typeName name, .nil 0⟩
  | parameterAlias name =>
      obtain rfl := h.eq_of_leaf rfl
      exact ⟨[], .parameterAlias name, .nil 0⟩

theorem navigatingAll_renamed {i : Nat} {fs gs : List Filter} {ns : List Navigating}
    (hall : F.CorrespondAll G bound bound' a i fs gs)
    (hfs : ∀ f ∈ fs, ∀ g a ns, F.Corresponds G bound bound' a f g → f.navigating s c a = .ok ns →
      ∃ ns', g.navigating s c' a = .ok ns' ∧ List.Forall₂ (Navigating.Alike F G) ns ns')
    (h : navigatingAll s c a i fs = .ok ns) :
    ∃ ns', navigatingAll s c' a i gs = .ok ns' ∧ List.Forall₂ (Navigating.Alike F G) ns ns' := by
  induction hall generalizing ns with
  | nil i =>
      obtain rfl := Except.ok.inj h
      exact ⟨[], rfl, .nil⟩
  | @cons i f g fs gs hfirst hrest ih =>
      obtain ⟨ms, hms, h⟩ := Checked.bind_ok.mp h
      obtain ⟨rest, hothers, h⟩ := Checked.bind_ok.mp h
      obtain rfl := Checked.pure_ok.mp h
      obtain ⟨ms', hms', halike⟩ := hfs f List.mem_cons_self g (i :: a) ms hfirst hms
      obtain ⟨rest', hothers', halikes⟩ :=
        ih (fun f hf => hfs f (List.mem_cons_of_mem _ hf)) hothers
      refine ⟨ms' ++ rest', ?_, List.rel_append halike halikes⟩
      rw [navigatingAll, hms', hothers']
      rfl

/-- **Corresponding members navigate** in filters that correspond: `navigating` finds one for the
other. -/
theorem Filter.navigating_renamed (hc : c.Renamed F G bound bound' c') {f g : Filter}
    {ns : List Navigating} (h : F.Corresponds G bound bound' a f g)
    (hns : f.navigating s c a = .ok ns) :
    ∃ ns', g.navigating s c' a = .ok ns' ∧ List.Forall₂ (Navigating.Alike F G) ns ns' := by
  induction f using Filter.induction generalizing g a ns with
  | step f ih =>
      rcases navigating_ok.mp hns with ⟨path, anchor, hops, offset, rfl, hfound, rfl⟩ |
        ⟨fs, hsearched, hns⟩
      · obtain ⟨path', rfl⟩ := h.of_member
        obtain ⟨anchor', t', hfound', hanchor, htarget⟩ := s.denote_renamed hc h hfound
        cases htarget with
        | @navigation _ _ offset' hsame hplain =>
            refine ⟨_, navigating_ok.mpr (.inl ⟨path', anchor', hops, offset', rfl, hfound', rfl⟩),
              ?_⟩
            exact .cons (h.alike hanchor hsame hplain) .nil
      · obtain ⟨gs, hsearched', hall⟩ := hsearched.renamed hc h
        obtain ⟨ns', hns', halike⟩ := navigatingAll_renamed hall
          (fun f hf g a ns h => ih f (hsearched.parts hf) h) hns
        exact ⟨ns', navigating_ok.mpr (.inr ⟨gs, hsearched', hns'⟩), halike⟩

end

/-! ## Compiling

By induction on the parts of `f`, for any filter that corresponds to it and in any two contexts
that are `Renamed`. The levels that hops open are paired again, and so the induction goes on. -/

/-- `f` compiles to the same as each filter that `Corresponds` to it. -/
def Filter.CompilesRenamed (s : Schema) (f F G : Filter) : Prop :=
  ∀ {g bound bound' c c' a}, Context.Renamed F G bound bound' c c' →
    F.Corresponds G bound bound' a f g →
    (f.compile s c a).Repeats (g.compile s c' a)

section

variable {c c' : Context} {path path' : Path}

theorem Context.within_renamed {n? n?' : Option Navigating}
    {compile compile' : Context → Numbered Compiled}
    (hnav : Option.Rel (Navigating.Alike F G) n? n?') (hc : c.Renamed F G bound bound' c')
    (h : ∀ c c', c.Renamed F G bound bound' c' → (compile c).Repeats (compile' c')) :
    (c.within n? compile).Repeats (c'.within n?' compile') := by
  have hrepeats : Option.Rel (Navigating.Repeats (Renamed F G bound bound')) n? n?' := by
    cases hnav with
    | none => exact .none
    | some hnav => exact .some hnav.repeats
  exact within_repeats Renamed.opens_navigation hrepeats hc h

theorem compileAll_renamed {i : Nat} {fs gs : List Filter} (hc : c.Renamed F G bound bound' c')
    (hall : F.CorrespondAll G bound bound' a i fs gs) (hfs : ∀ f ∈ fs, f.CompilesRenamed s F G) :
    (compileAll s c a i fs).Repeats (compileAll s c' a i gs) := by
  induction hall with
  | nil i => exact .refl _
  | @cons i f g fs gs hfirst hrest ih =>
      apply compileAll_cons_repeats
      · exact hfs f List.mem_cons_self hc hfirst
      · exact ih fun f hf => hfs f (List.mem_cons_of_mem _ hf)

/-- The form of `within` for operands that correspond: the same member navigates in both. -/
theorem Context.within_operands_renamed {i : Nat} {fs gs : List Filter} {ns : List Navigating}
    {n? : Option Navigating} {compile compile' : Context → Numbered Compiled} {x : Compiled}
    {n m : Nat} (hc : c.Renamed F G bound bound' c')
    (hall : F.CorrespondAll G bound bound' a i fs gs) (hns : navigatingAll s c a i fs = .ok ns)
    (hn : Navigating.only? ns = .ok n?)
    (h : ∀ c c', c.Renamed F G bound bound' c' → (compile c).Repeats (compile' c'))
    (hx : (c.within n? compile).run n = .ok (x, m)) :
    ∃ ns' n?', navigatingAll s c' a i gs = .ok ns' ∧ Navigating.only? ns' = .ok n?' ∧
      (c'.within n?' compile').run n = .ok (x, m) := by
  obtain ⟨ns', hns', halike⟩ :=
    navigatingAll_renamed hall (fun f _ g a ns => Filter.navigating_renamed hc) hns
  obtain ⟨n?', hn', hnav⟩ := Navigating.only?_related halike hn
  exact ⟨ns', n?', hns', hn', within_renamed hnav hc h hx⟩

theorem bodyCondition_renamed {name name' : String} {body body' : Filter}
    (hc : c.Renamed F G (name :: bound) (name' :: bound') c')
    (h : F.Corresponds G bound bound' a (.member path) (.member path'))
    (hparts : ∀ f ∈ path.flatMap Segment.parts, f.CompilesRenamed s F G)
    (hbody : path.body? = some body) (hbody' : path'.body? = some body')
    (hsame : body.nameless (name :: bound) = body'.nameless (name' :: bound')) :
    (path.bodyCondition s a c).Repeats (path'.bodyCondition s a c') := by
  apply conditionOf_repeats
  rw [compileBody_eq, compileBody_eq, hbody, hbody']
  exact hparts body (Path.body?_mem hbody) hc (h.body hbody hbody' hsame)

theorem matching_renamed {name name' : String} {body body' : Filter}
    (h : F.Corresponds G bound bound' a (.member path) (.member path'))
    (hparts : ∀ f ∈ path.flatMap Segment.parts, f.CompilesRenamed s F G)
    (hbody : path.body? = some body) (hbody' : path'.body? = some body')
    (hsame : body.nameless (name :: bound) = body'.nameless (name' :: bound')) :
    Hop.Question.Repeats (Context.Renamed F G bound bound') (path.matching s a name)
      (path'.matching s a name') := by
  apply Hop.narrowedRow_repeats (Context.Renamed.opens_element name name')
  intro c c' hc
  exact bodyCondition_renamed hc h hparts hbody hbody' hsame

/-- Members whose targets are `Alike` are compiled to the same. -/
theorem compileAs_renamed {l l' : Level} {t t' : Target} (hc : c.Renamed F G bound bound' c')
    (h : F.Corresponds G bound bound' a (.member path) (.member path'))
    (hparts : ∀ f ∈ path.flatMap Segment.parts, f.CompilesRenamed s F G) (hl : l.Alike l')
    (ht : t.Alike bound bound' path path' t') :
    (path.compileAs s a c (l, t)).Repeats (path'.compileAs s a c' (l', t')) := by
  have hask {question question' : Hop.Question} (hops : List Hop)
      (hquestion : Hop.Question.Repeats (Context.Renamed F G bound bound') question question') :
      (Hop.ask question c l.label hops).Repeats (Hop.ask question' c' l'.label hops) := by
    rw [hl.label]
    exact Hop.ask_repeats Context.Renamed.opens_navigation hquestion hc _ _
  cases ht with
  | element => exact Path.element_repeats hl.label.symm hl.scope.symm
  | leaf leaf => exact Path.leaf_repeats leaf hl.label.symm
  | navigation =>
      intro n m x hrun
      exact absurd hrun Path.compileAs_navigation_ok
  | count hops => exact Path.count_repeats (hask hops Hop.countRows_repeats)
  | nonempty hops => exact Path.nonempty_repeats (hask hops Hop.anyRow_repeats)
  | any hops hbody hbody' hsame =>
      exact Path.any_repeats (hask hops (matching_renamed h hparts hbody hbody' hsame))
  | all hops hbody hbody' hsame =>
      have hviolating := Hop.narrowedRow_repeats (Context.Renamed.opens_element _ _)
        fun c c' hc =>
          Path.bodyViolation_repeats (bodyCondition_renamed hc h hparts hbody hbody' hsame)
      exact Path.all_repeats (hask hops (matching_renamed h hparts hbody hbody' hsame))
        (hask hops hviolating)
  | function name args args' hpath hpath' hsame =>
      intro n m x hrun
      obtain ⟨ns, n?, hns, hn, hx⟩ := Path.compileAs_function_ok.mp hrun
      obtain ⟨hnames, hargs⟩ := h.arguments hpath hpath' hsame
      have hvalues : ∀ f ∈ path.arguments.map Argument.value, f.CompilesRenamed s F G := by
        intro f hf
        obtain ⟨arg, harg, rfl⟩ := List.mem_map.mp hf
        exact hparts _ (Path.arguments_mem harg)
      apply Path.compileAs_function_ok.mpr
      apply Context.within_operands_renamed hc hargs hns hn _ hx
      intro c c' hc
      exact Path.called_repeats name hnames (compileAll_renamed hc hargs hvalues)

theorem member_renamed (hparts : ∀ f ∈ path.flatMap Segment.parts, f.CompilesRenamed s F G) :
    (Filter.member path).CompilesRenamed s F G := by
  intro g bound bound' c c' a hc h n m x hrun
  obtain ⟨path', rfl⟩ := h.of_member
  obtain ⟨l, t, hfound, hx⟩ := Filter.compile_member_ok.mp hrun
  obtain ⟨l', t', hfound', hl, ht⟩ := s.denote_renamed hc h hfound
  have hhere := compileAs_renamed hc h hparts hl ht
  refine Filter.compile_member_ok.mpr ⟨l', t', hfound', ?_⟩
  cases ht with
  | navigation hops hsame hplain =>
      -- Behind the hops both members are found to denote the same once more.
      apply Context.within_renamed (.some (h.alike hl hsame hplain)) hc _ hx
      intro c c' hc n m x hrun
      obtain ⟨⟨l, t⟩, hfound, hx⟩ := Path.compileBehind_ok.mp hrun
      obtain ⟨l', t', hfound', hl, ht⟩ := s.denote_renamed hc h hfound
      exact Path.compileBehind_ok.mpr ⟨_, hfound', compileAs_renamed hc h hparts hl ht hx⟩
  | _ => exact hhere hx

theorem binary_renamed {l r : Filter} (op : BinaryOperator) (hl : l.CompilesRenamed s F G)
    (hr : r.CompilesRenamed s F G) : (Filter.binary l op r).CompilesRenamed s F G := by
  intro g bound bound' c c' a hc h n m x hrun
  obtain ⟨l', r', rfl, hleft, hright⟩ := h.of_binary
  obtain ⟨hhas, n?, hn, hx⟩ := Filter.compile_binary_ok.mp hrun
  have hcomposed (c c' : Context) (hc : c.Renamed F G bound bound' c') :
      (Filter.composed s a l op r c).Repeats (Filter.composed s a l' op r' c') :=
    Filter.composed_repeats op (hl hc hleft) (hr hc hright)
  apply Filter.compile_binary_ok.mpr
  rcases Filter.binaryNavigating_ok.mp hn with ⟨hcompare, ns, hns, hn⟩ | ⟨hcompare, rfl⟩
  · have hall : F.CorrespondAll G bound bound' a 0 [l, r] [l', r'] :=
      .cons hleft (.cons hright (.nil 2))
    obtain ⟨ns', n?', hns', hn', hx'⟩ := Context.within_operands_renamed hc hall hns hn hcomposed hx
    exact ⟨hhas, n?', Filter.binaryNavigating_ok.mpr (.inl ⟨hcompare, ns', hns', hn'⟩), hx'⟩
  · exact ⟨hhas, none, Filter.binaryNavigating_ok.mpr (.inr ⟨hcompare, rfl⟩), hcomposed c c' hc hx⟩

theorem call_renamed {args : List Filter} (g : BuiltIn)
    (hargs : ∀ f ∈ args, f.CompilesRenamed s F G) :
    (Filter.call g args).CompilesRenamed s F G := by
  intro f bound bound' c c' a hc h n m x hrun
  obtain ⟨args', rfl, hall⟩ := h.of_call
  obtain ⟨ns, n?, hns, hn, hx⟩ := Filter.compile_call_ok.mp hrun
  apply Filter.compile_call_ok.mpr
  apply Context.within_operands_renamed hc hall hns hn _ hx
  intro c c' hc
  exact Filter.called_repeats g (compileAll_renamed hc hall hargs)

end

/-- **Filters that correspond compile to the same** (`CompilesRenamed`), by induction on the parts
of one. -/
theorem Filter.compile_renamed (f : Filter) : f.CompilesRenamed s F G := by
  induction f using Filter.induction with
  | step f ih =>
      cases f with
      | binary l op r =>
          exact binary_renamed op (ih l (by simp [Filter.parts])) (ih r (by simp [Filter.parts]))
      | unary op operand =>
          intro g bound bound' c c' a hc h
          obtain ⟨operand', rfl, hbelow⟩ := h.of_unary
          exact unary_repeats op (ih operand (by simp [Filter.parts]) hc hbelow)
      | member path => exact member_renamed ih
      | call g args => exact call_renamed g ih
      | literal | enumMember | typeName | parameterAlias =>
          intro g bound bound' c c' a hc h
          obtain rfl := h.eq_of_leaf rfl
          exact .refl _

/-! ## Whole filters

Equal `nameless` forms make two filters correspond, with no variable bound around them. The two
changes that are allowed to a filter are special cases, as both of them keep the nameless form. -/

/-- A filter on users. Below the variable `x` of its quantifier stand a member that navigates, the
member `name`, and another quantifier. -/
def Filter.namesake (x : String) (name : Path) : Filter :=
  .member [.property "Roles", .any x (.binary
    (.call .contains [.member [.property rootName, .property "Roles", .property "Name"],
      .member name]) .and
    (.member [.property rootName, .property "Roles", .all "other" (.binary
      (.member [.property "other", .property "Name"]) (.compare .le)
        (.member [.property x, .property "Name"]))]))]

namespace Schema

variable {entity : String} {f g : Filter} {e : Expr}

/-- **Filters with one `nameless` form compile to the same expression**, or neither of them
compiles. -/
theorem compile_nameless (hsame : f.nameless [] = g.nameless []) :
    s.compile entity f = .ok e ↔ s.compile entity g = .ok e := by
  have hcompile {f g : Filter} (hsame : f.nameless [] = g.nameless [])
      (h : s.compile entity f = .ok e) : s.compile entity g = .ok e := by
    obtain ⟨type, htype, hon⟩ := compile_ok.mp h
    obtain ⟨x, m, hx, he⟩ := compileOn_ok.mp hon
    have hwhole : f.Corresponds g [] [] [] f g := ⟨rfl, rfl, hsame⟩
    have hx' := Filter.compile_renamed f (Context.Renamed.root type) hwhole hx
    exact compile_ok.mpr ⟨type, htype, compileOn_ok.mpr ⟨x, m, hx', he⟩⟩
  exact ⟨hcompile hsame, hcompile hsame.symm⟩

/-- **Variables are bound names.** If a quantifier anywhere in `f` gets another variable that is
not in use in its body (`Path.Rebinds`), the filter compiles to the same expression, or neither
filter compiles. -/
theorem compile_rebound {x y : String} (hx : x ≠ rootName) (hy : y ≠ rootName)
    (h : f.Changed (Path.Rebinds x y) [] g) :
    s.compile entity f = .ok e ↔ s.compile entity g = .ok e :=
  compile_nameless (h.nameless (Path.Rebinds.nameless hx hy))

theorem rebound_namesake :
    (Filter.namesake "r" [.property "r", .property "Name"]).Changed (Path.Rebinds "r" "role") []
        (.namesake "role" [.property "role", .property "Name"]) ∧
      ∃ e, sample.compile "User" (.namesake "r" [.property "r", .property "Name"]) = .ok e ∧
        sample.compile "User" (.namesake "role" [.property "role", .property "Name"]) = .ok e := by
  have hchanged : (Filter.namesake "r" [.property "r", .property "Name"]).Changed
      (Path.Rebinds "r" "role") [] (.namesake "role" [.property "role", .property "Name"]) :=
    .member (.any [.property "Roles"] [] (by decide))
  exact ⟨hchanged, _, rfl, (compile_rebound (by decide) (by decide) hchanged).mp rfl⟩

/-- **A member without a prefix is about the innermost element or the root.** If such a member
anywhere in `f` gets the prefix that says so (`Path.Prefixed`), the filter compiles to the same
expression, or neither filter compiles. -/
theorem compile_prefixed (h : f.Changed Path.Prefixed [] g) :
    s.compile entity f = .ok e ↔ s.compile entity g = .ok e :=
  compile_nameless (h.nameless Path.Prefixed.nameless)

theorem prefixed_namesake :
    (Filter.namesake "r" [.property "Name"]).Changed Path.Prefixed []
        (.namesake "r" [.property "r", .property "Name"]) ∧
      ∃ e, sample.compile "User" (.namesake "r" [.property "Name"]) = .ok e ∧
        sample.compile "User" (.namesake "r" [.property "r", .property "Name"]) = .ok e := by
  have hchanged : (Filter.namesake "r" [.property "Name"]).Changed Path.Prefixed []
      (.namesake "r" [.property "r", .property "Name"]) :=
    .any "r" [.property "Roles"] [] (.left .and (.argument .contains [_] []
      (.member (.element [] (by decide) (by decide) (by decide)))))
  exact ⟨hchanged, _, rfl, (compile_prefixed hchanged).mp rfl⟩

end Schema

end FilterSql
