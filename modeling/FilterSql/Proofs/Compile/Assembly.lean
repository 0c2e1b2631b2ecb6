import FilterSql.Proofs.Compile.BooleanComparison
import FilterSql.Proofs.Compile.Reaching

/-!
# What a filter is put together of

A filter that is compiled where it stands is put together of what its parts are compiled to.
`Filter.Assembled` has one rule for each way to do so. A filter that is compiled behind a member
stands in queries around that (`Hop.Encloses`). So a property holds of every compiled filter if it
passes from parts to what is put together of them, and into such queries
(`Filter.Reaches.induction`).
-/

namespace FilterSql

open Sql (Expr Select)

/-! ## Queries around a condition

`Hop.Encloses` is all that is said of the queries that hops come to, where only their nesting
matters: it forgets the aliases and the columns. What a query holds beside the condition is left
open in it. -/

namespace Hop

/-- `Encloses hops narrowed e`: `e` has the queries of the hops inside one another, the innermost
of which may be narrowed by a condition. -/
inductive Encloses : List Hop → Option Expr → Expr → Prop where
  | last {h : Hop} {source own : String} {n k : Nat} {joins : List Sql.Join} {on : Expr}
      (narrowed : Option Expr) (hselects : h.Selects source own n joins on k) :
      Encloses [h] narrowed (.hasRows (h.selection [.constant (.int 1)] own joins on narrowed))
  | step {h : Hop} {hops : List Hop} {source own : String} {n k : Nat} {joins : List Sql.Join}
      {on x : Expr} {narrowed : Option Expr} (hselects : h.Selects source own n joins on k)
      (hx : Encloses hops narrowed x) :
      Encloses (h :: hops) narrowed
        (.hasRows (h.selection [.constant (.int 1)] own joins on (some x)))

variable {c : Context} {source : String} {binding : Binding} {hops : List Hop} {n m : Nat}
    {e : Expr}

/-- **A question behind hops** has its condition compiled in a context that the hops open, and
their queries around it (`Encloses`). -/
theorem ask_encloses {condition : Context → Numbered (Option Expr)}
    (h : (ask (someRow binding condition) c source hops).run n = .ok (e, m)) :
    ∃ inner k narrowed, c.Opened binding hops inner ∧ (condition inner).run k = .ok (narrowed, m) ∧
      Encloses hops narrowed e := by
  induction hops generalizing c source n m e with
  | nil => exact (Numbered.throw_ok.mp h).elim
  | cons first rest ih =>
      cases rest with
      | nil =>
          obtain ⟨joins, on, k, narrowed, hselects, hnarrowed, rfl⟩ := someRow_ok.mp h
          exact ⟨_, k, narrowed, .last c first n, hnarrowed, .last narrowed hselects⟩
      | cons next rest =>
          obtain ⟨joins, on, k, x, hselects, hx, rfl⟩ := ask_step_ok.mp h
          obtain ⟨inner, k', narrowed, hinner, hnarrowed, hencloses⟩ := ih hx
          exact ⟨inner, k', narrowed, .step n hinner, hnarrowed, .step hselects hencloses⟩

theorem askNarrowed_encloses {condition : Context → Numbered Expr}
    (h : (ask (someRow binding fun inner => do return some (← condition inner))
      c source hops).run n = .ok (e, m)) :
    ∃ inner k x, c.Opened binding hops inner ∧ (condition inner).run k = .ok (x, m) ∧
      Encloses hops (some x) e := by
  obtain ⟨inner, k, narrowed, hinner, hnarrowed, hencloses⟩ := ask_encloses h
  obtain ⟨x, k', hx, hpure⟩ := Numbered.bind_ok.mp hnarrowed
  obtain ⟨rfl, rfl⟩ := Numbered.pure_ok.mp hpure
  exact ⟨inner, k, x, hinner, hx, hencloses⟩

end Hop

/-- `within` compiles a condition behind the member, and puts the queries of its hops around it. -/
theorem Context.within_encloses {c : Context} {nav : Navigating}
    {compile : Context → Numbered Compiled} {x : Compiled} {n m : Nat}
    (h : (c.within (some nav) compile).run n = .ok (x, m)) :
    ∃ inner k y e e', nav.Enters c inner ∧ (compile inner).run k = .ok (y, m) ∧
      y.predicate? = some e ∧
      Hop.Encloses nav.hops (some e) e' ∧ x = .subquery e' := by
  obtain ⟨e', rfl, hask⟩ := within_some_ok.mp h
  obtain ⟨inner, k, e, hinner, he, hencloses⟩ := Hop.askNarrowed_encloses hask
  obtain ⟨y, hy, he⟩ := conditionOf_ok.mp he
  exact ⟨inner, k, y, e, e', hinner, hy, he, hencloses, rfl⟩

/-! ## Parts put together

`Filter.Assembled` has a rule for each form of a filter. A rule tells what the filter is compiled
to, where nothing is leading, from what its parts are compiled to; what is known of the parts is a
parameter `P`. -/

/-- What a filter becomes that is compiled where it stands. `P` is what is known of its parts. -/
inductive Filter.Assembled (s : Schema) (P : Filter → Compiled → Prop) (c : Context) (a : Address) :
    Filter → Compiled → Prop where
  /-- The operands of a comparison are conditions exactly if their forms are
  (`Filter.isCondition`). -/
  | binary {l r : Filter} {op : BinaryOperator} {x y z : Compiled} (hop : op ≠ .has) (hx : P l x)
      (hy : P r y) (hform : op.isComparison = true → x.isCondition = l.isCondition ∧
        y.isCondition = r.isCondition)
      (hz : s.compose op x y = .ok z) : Assembled s P c a (.binary l op r) z
  | unary {operand : Filter} {op : UnaryOperator} {x z : Compiled} (hx : P operand x)
      (hz : x.composeUnary op = .ok z) : Assembled s P c a (.unary op operand) z
  | element {path : Path} {anchor : Level} {p : AttributePath} (hpath : path.IsDirect)
      (hfound : s.denote c a path = .ok (anchor, .element))
      (hp : anchor.scope.elementPath? = some p) :
      Assembled s P c a (.member path) (.ofPath anchor.label p)
  | leaf {path : Path} {anchor : Level} {p : AttributePath} (hpath : path.IsDirect)
      (hfound : s.denote c a path = .ok (anchor, .attribute p)) :
      Assembled s P c a (.member path) (.ofPath anchor.label p)
  | count {path : Path} {anchor : Level} {h : Hop} {own : String} {n k : Nat}
      {joins : List Sql.Join} {on : Expr} (hpath : path.IsDirect)
      (hfound : s.denote c a path = .ok (anchor, .count [h]))
      (hselects : h.Selects anchor.label own n joins on k) :
      Assembled s P c a (.member path)
        (.value (.scalar (h.selection [.countAll] own joins on none))
          { dataType := .long, nullable := false })
  | nonempty {names : List String} {anchor : Level} {hops : List Hop} {e : Expr}
      (hfound : s.denote c a (names.map Segment.property ++ [.nonempty]) =
        .ok (anchor, .nonempty hops))
      (he : Hop.Encloses hops none e) :
      Assembled s P c a (.member (names.map Segment.property ++ [.nonempty])) (.subquery e)
  | any {names : List String} {name : String} {body : Filter} {anchor : Level} {hops : List Hop}
      {x : Compiled} {e e' : Expr}
      (hfound : s.denote c a (names.map Segment.property ++ [.any name body]) =
        .ok (anchor, .any hops name)) (hx : P body x) (he : x.predicate? = some e)
        (he' : Hop.Encloses hops (some e) e') :
      Assembled s P c a (.member (names.map Segment.property ++ [.any name body])) (.subquery e')
  /-- The body is compiled twice, and denied the second time. -/
  | all {names : List String} {name : String} {body : Filter} {anchor : Level} {hops : List Hop}
      {x y : Compiled} {e e' some other : Expr}
      (hfound : s.denote c a (names.map Segment.property ++ [.all name body]) =
        .ok (anchor, .all hops name))
      (hx : P body x) (he : x.predicate? = .some e) (hsome : Hop.Encloses hops (.some e) some)
      (hy : P body y) (he' : y.predicate? = .some e')
      (hother : Hop.Encloses hops (.some (.not e')) other) :
      Assembled s P c a (.member (names.map Segment.property ++ [.all name body]))
        (.subquery (some.and (.not other)))
  | function {name : String} {args : List Argument} {xs : List Compiled} {z : Compiled}
      (hxs : List.Forall₂ P (args.map Argument.value) xs)
      (hz : s.callCustom name ((args.map Argument.name).zip xs) = .ok z) :
      Assembled s P c a (.member [.function name args]) z
  | call {g : BuiltIn} {args : List Filter} {xs : List Compiled} {z : Compiled}
      (hxs : List.Forall₂ P args xs) (hz : s.callBuiltIn g xs = .ok z) :
      Assembled s P c a (.call g args) z
  | literal (l : Literal) : Assembled s P c a (.literal l) (.literal l)
  | enumMember {type member : String} {v : Value} {t : ValueType}
      (hv : s.coerceMember type member none = .ok (v, t)) :
      Assembled s P c a (.enumMember type member) (.value (.parameter v) t)
  | typeName {name : String} {t : DataType} (ht : DataType.ofName? name = some t) :
      Assembled s P c a (.typeName name) (.typeName t)

namespace Filter

variable {s : Schema} {type : EntityType} {F f : Filter} {c : Context} {a : Address} {x : Compiled}
    {n m : Nat} {P : Filter → Compiled → Prop}

/-- What is `Assembled` is a condition exactly if the form of the filter is. -/
theorem Assembled.isCondition (h : f.Assembled s P c a x) : x.isCondition = f.isCondition := by
  have hdirect {path : Path} (hpath : path.IsDirect) : path.isQuantifier = false := by
    obtain ⟨names, tail, rfl, rfl | rfl⟩ := hpath
    · rw [List.append_nil, Path.isQuantifier, List.getLast?_map]
      cases names.getLast? <;> rfl
    · rw [Path.isQuantifier, List.getLast?_concat]
  have hquantifier (names : List String) (last : Segment) :
      (member (names.map Segment.property ++ [last])).isCondition = Path.isQuantifier [last] := by
    rw [Filter.isCondition, Path.isQuantifier, List.getLast?_concat]
    rfl
  cases h with
  | @binary l r op _ _ _ hop _ _ _ hz =>
      cases op with
      | compare op => exact s.compare_isCondition hz
      | arith op =>
          obtain ⟨_, _, _, _, _, _, _, _, rfl⟩ := Schema.calculate_ok hz
          rfl
      | and | or =>
          obtain ⟨_, _, _, _, rfl⟩ := Compiled.combine_ok.mp hz
          rfl
      | has => exact absurd rfl hop
  | @unary operand op _ _ _ hz =>
      cases op with
      | not =>
          obtain ⟨_, _, rfl⟩ := Compiled.negateCondition_ok.mp hz
          rfl
      | minus =>
          obtain ⟨_, _, _, rfl, _⟩ := Compiled.negate_ok hz
          rfl
  | element hpath | leaf hpath | count hpath => exact (hdirect hpath).symm
  | nonempty | any | all =>
      rw [hquantifier]
      rfl
  | function _ hz =>
      obtain ⟨_, _, _, _, _, _, _, _, rfl⟩ := s.callCustom_ok hz
      rfl
  | @call g _ _ _ _ hz =>
      -- Whether a call is a condition depends on the family of the function and on nothing else.
      have hcalls := s.callBuiltIn_ok hz
      rw [Filter.isCondition]
      generalize g.family = family at hcalls ⊢
      cases hcalls <;> rfl
  | literal | enumMember | typeName => rfl

/-- A `literal` is assembled only of a literal, which may have a `minus` in front. -/
theorem Assembled.of_literal {l : Literal} (h : f.Assembled s P c a (.literal l)) :
    f = .literal l ∨ ∃ operand l', f = .unary .minus operand ∧ P operand (.literal l') ∧
      (Compiled.literal l').negate = .ok (.literal l) := by
  cases h with
  | @binary _ _ op _ _ _ _ _ _ _ hz =>
      cases op with
      | compare op => cases s.compare_isCondition hz
      | arith op =>
          obtain ⟨_, _, _, -, -, -, -, -, hz⟩ := Schema.calculate_ok hz
          cases hz
      | and | or =>
          obtain ⟨_, _, -, -, hz⟩ := Compiled.combine_ok.mp hz
          cases hz
      | has => cases hz
  | @unary operand op y _ hy hz =>
      cases op with
      | not =>
          obtain ⟨_, -, hz⟩ := Compiled.negateCondition_ok.mp hz
          cases hz
      | minus =>
          obtain ⟨l', _, rfl, -⟩ := Compiled.negate_ok hz
          exact .inr ⟨operand, l', rfl, hy, hz⟩
  | function _ hz =>
      obtain ⟨_, _, _, -, -, -, -, -, hz⟩ := s.callCustom_ok hz
      cases hz
  | @call g _ _ _ _ hz =>
      have hcalls := s.callBuiltIn_ok hz
      generalize g.family = family at hcalls
      cases hcalls
  | literal => exact .inl rfl

/-! ## Operands

Operands are compiled at their own addresses, one after the other. Whether one of them is a
condition can be seen in its form, as long as no member navigates in it
(`isCondition_of_assembled`). -/

/-- What `compileAll` gives, operand by operand. -/
theorem compileAll_forall₂ {fs : List Filter} {i : Nat} {xs : List Compiled}
    (h : (compileAll s c a i fs).run n = .ok (xs, m))
    (hfs : ∀ j f, fs[j]? = some f →
      ∀ n x m, (f.compile s c ((i + j) :: a)).run n = .ok (x, m) → P f x) :
    List.Forall₂ P fs xs := by
  induction fs generalizing i n xs with
  | nil =>
      obtain ⟨rfl, rfl⟩ := compileAll_nil_ok.mp h
      exact .nil
  | cons f fs ih =>
      obtain ⟨y, k, ys, hy, hys, rfl⟩ := compileAll_cons_ok.mp h
      refine .cons (hfs 0 f rfl n y k hy) (ih hys ?_)
      intro j g hg n x m hx
      apply hfs (j + 1) g hg n x m
      rwa [show i + (j + 1) = i + 1 + j by omega]

/-- If nothing in a filter navigates, nothing is `leading`. A comparison is excepted, since
`navigating` does not look into it. -/
theorem leading_of_navigating (h : f.navigating s c a = .ok [])
    (hf : ∀ l op r, f ≠ .binary l (.compare op) r) :
    f.leading s c a = .ok none := by
  cases f with
  | binary l op r =>
      cases op with
      | compare op => exact absurd rfl (hf l op r)
      | arith | and | or | has => rfl
  | call g args =>
      have hargs : navigatingAll s c a 0 args = .ok [] := h
      rw [leading, hargs]
      rfl
  | member path =>
      rw [navigating] at h
      obtain ⟨⟨anchor, target⟩, hfound, h⟩ := Checked.bind_ok.mp h
      rw [leading, hfound]
      cases target with
      | navigation hops offset => cases h
      | function name =>
          have hargs : navigatingAll s c a 0 ((Path.arguments path).map Argument.value) = .ok [] :=
            navigatingPath_eq.symm.trans h
          show (do
            Navigating.only?
              (← navigatingAll s c a 0 ((Path.arguments path).map Argument.value))) = _
          rw [hargs]
          rfl
      | _ => rfl
  | unary | literal | enumMember | typeName | parameterAlias => rfl

/-- A comparison is compiled to a condition, whether a member is `leading` or not. -/
theorem compile_compare_isCondition {l r : Filter} {op : Comparison}
    (h : ((binary l (.compare op) r).compile s c a).run n = .ok (x, m)) : x.isCondition = true := by
  obtain ⟨-, n?, -, hx⟩ := compile_binary_ok.mp h
  apply within_isCondition _ hx
  intro y n m hy
  obtain ⟨_, _, _, -, -, hz⟩ := composed_ok.mp hy
  exact s.compare_isCondition hz

/-- An operand in which nothing navigates is a condition exactly if its form is, given that it is
`Assembled` where nothing is `leading`. -/
theorem isCondition_of_assembled (hnone : f.navigating s c a = .ok [])
    (hx : (f.compile s c a).run n = .ok (x, m))
    (hassembled : f.leading s c a = .ok none → f.Assembled s P c a x) :
    x.isCondition = f.isCondition := by
  by_cases hcompared : ∃ l op r, f = .binary l (.compare op) r
  · -- A comparison looks into its operands for itself, and may be compiled behind a member of
    -- theirs.
    obtain ⟨l, op, r, rfl⟩ := hcompared
    exact compile_compare_isCondition hx
  · have hleading := leading_of_navigating hnone fun l op r heq => hcompared ⟨l, op, r, heq⟩
    exact (hassembled hleading).isCondition

/-- If nothing is `leading` in a comparison, nothing navigates in its operands. -/
theorem navigating_of_leading_compare {l r : Filter} {op : BinaryOperator}
    (hop : op.isComparison = true) (h : (binary l op r).leading s c a = .ok none) :
    l.navigating s c (0 :: a) = .ok [] ∧ r.navigating s c (1 :: a) = .ok [] := by
  obtain ⟨-, ns, hns, hn⟩ | ⟨hnot, -⟩ := binaryNavigating_ok.mp h
  · obtain rfl := Navigating.only?_none hn
    obtain ⟨ls, rs, hls, hrs, hnil⟩ := navigatingAll_pair_ok.mp hns
    obtain ⟨rfl, rfl⟩ := List.append_eq_nil_iff.mp hnil
    exact ⟨hls, hrs⟩
  · rw [hop] at hnot
    cases hnot

/-! ## Compiled filters

Two principles of induction, with and without the run. In the case `here` a filter is assembled
where it stands, and in the case `behind` it has been compiled again behind its `leading` member. -/

namespace Reaches

/-- The `bodyCondition` of a quantifier is what its body is compiled to, where the compiler
`Reaches` it. -/
theorem bodyCondition_body {path : Path} {anchor : Level} {target : Target} {name : String}
    {body : Filter} {inner : Context} {e : Expr} (h : F.Reaches s type c a (.member path))
    (hfound : s.denote c a path = .ok (anchor, target))
    (ht : target = .any target.hops name ∨ target = .all target.hops name)
    (hbody : Path.body? path = some body) (hinner : c.Opened (.element name) target.hops inner)
    (he : (Path.bodyCondition s a path inner).run n = .ok (e, m))
    (hparts : ∀ g ∈ (member path).parts, ∀ c a n x m, F.Reaches s type c a g →
      (g.compile s c a).run n = .ok (x, m) → P g x) :
    ∃ y, P body y ∧ y.predicate? = some e := by
  obtain ⟨y, hy, he⟩ := conditionOf_ok.mp he
  rw [compileBody_eq, hbody] at hy
  exact ⟨y, hparts body (Path.body?_mem hbody) _ _ _ _ _ (h.body hfound ht hinner hbody) hy, he⟩

/-- The form of `assembled` for a member that has no hops to be compiled behind. -/
theorem assembled_member {path : Path} (h : F.Reaches s type c a (.member path))
    (hleading : (member path).leading s c a = .ok none)
    (hx : ((member path).compile s c a).run n = .ok (x, m))
    (hparts : ∀ g ∈ (member path).parts, ∀ c a n x m, F.Reaches s type c a g →
      (g.compile s c a).run n = .ok (x, m) → P g x) :
    (member path).Assembled s P c a x := by
  obtain ⟨anchor, target, hfound, hx⟩ := compile_member_ok.mp hx
  have hends := h.ends hfound
  cases hends with
  | element hpath =>
      obtain ⟨p, hp, rfl, -⟩ := Path.compileAs_element_ok.mp hx
      exact .element hpath hfound hp
  | leaf p hpath =>
      obtain ⟨rfl, -⟩ := Path.compileAs_leaf_ok.mp hx
      exact .leaf hpath hfound
  | navigation hops offset hpath =>
      rw [leading, hfound] at hleading
      cases hleading
  | count hops hpath =>
      obtain ⟨last, rfl⟩ := Schema.denote_count hfound
      obtain ⟨e, he, rfl⟩ := Path.compileAs_count_ok.mp hx
      obtain ⟨joins, on, hselects, rfl⟩ := Hop.countRows_ok.mp he
      exact .count hpath hfound hselects
  | nonempty names hops =>
      obtain ⟨e, he, rfl⟩ := Path.compileAs_nonempty_ok.mp hx
      obtain ⟨inner, k, narrowed, -, hnarrowed, hencloses⟩ := Hop.ask_encloses he
      obtain ⟨rfl, -⟩ := Numbered.pure_ok.mp hnarrowed
      exact .nonempty hfound hencloses
  | any names name body hops =>
      have hlast : Path.body? (names.map Segment.property ++ [.any name body]) = some body :=
        Path.body?_names _ _
      obtain ⟨e', he', rfl⟩ := Path.compileAs_any_ok.mp hx
      obtain ⟨inner, k, e, hinner, he, hencloses⟩ := Hop.askNarrowed_encloses he'
      obtain ⟨y, hy, he⟩ := h.bodyCondition_body hfound (.inl rfl) hlast hinner he hparts
      exact .any hfound hy he hencloses
  | all names name body hops =>
      have hlast : Path.body? (names.map Segment.property ++ [.all name body]) = some body :=
        Path.body?_names _ _
      -- Rows that match and rows that do not are asked for apart, and the body is compiled for each
      -- question.
      obtain ⟨some, k, other, hsome, hother, rfl⟩ := Path.compileAs_all_ok.mp hx
      obtain ⟨inner, k₁, e, hinner, he, hencloses⟩ := Hop.askNarrowed_encloses hsome
      obtain ⟨inner', k₂, denied, hinner', hdenied, hencloses'⟩ := Hop.askNarrowed_encloses hother
      obtain ⟨e', k₃, he', hpure⟩ := Numbered.bind_ok.mp hdenied
      obtain ⟨rfl, -⟩ := Numbered.pure_ok.mp hpure
      obtain ⟨y, hy, he⟩ := h.bodyCondition_body hfound (.inr rfl) hlast hinner he hparts
      obtain ⟨z, hz, he'⟩ := h.bodyCondition_body hfound (.inr rfl) hlast hinner' he' hparts
      exact .all hfound hy he hencloses hz he' hencloses'
  | function name args =>
      obtain ⟨ns, n?, hns, hn, hx⟩ := Path.compileAs_function_ok.mp hx
      have hnone : Navigating.only? ns = .ok none := by
        rw [leading, hfound] at hleading
        obtain ⟨ns', hns', hn'⟩ :=
          Checked.bind_ok.mp (show (navigatingAll s c a 0 _ >>= _) = _ from hleading)
        obtain rfl : ns = ns' := Except.ok.inj (hns.symm.trans hns')
        exact hn'
      obtain rfl : n? = none := Except.ok.inj (hn.symm.trans hnone)
      obtain ⟨ys, hys, hx⟩ := Path.called_ok.mp hx
      refine .function (compileAll_forall₂ hys ?_) hx
      intro j f hf n x m hrun
      rw [Nat.zero_add] at hrun
      have hoperand : (member [.function name args]).operands[j]? = some f := hf
      have hreaches := h.operand hleading hoperand (by rintro _ ⟨⟩; rfl)
      obtain ⟨arg, harg, rfl⟩ := List.mem_map.mp (List.mem_of_getElem? hf)
      exact hparts _ (Path.arguments_mem harg) _ _ _ _ _ hreaches hrun

/-- **What a filter is put together of** where nothing is leading: it is `Assembled` of what its
parts are compiled to. -/
theorem assembled (h : F.Reaches s type c a f) (hleading : f.leading s c a = .ok none)
    (hx : (f.compile s c a).run n = .ok (x, m))
    (hparts : ∀ g ∈ f.parts, ∀ c a n x m, F.Reaches s type c a g →
      (g.compile s c a).run n = .ok (x, m) → P g x) :
    f.Assembled s P c a x := by
  -- By induction on the filter, as only what the operands of a comparison are themselves put
  -- together of tells whether they are conditions. What is known of parts differs between the two,
  -- so `P` is generalized.
  induction f using Filter.induction generalizing c a n x m P with
  | step f ih =>
      cases f with
      | binary l op r =>
          obtain ⟨hop, n?, hn, hx⟩ := compile_binary_ok.mp hx
          obtain rfl : n? = none := Except.ok.inj (hn.symm.trans hleading)
          obtain ⟨y, k, z, hy, hz, hx⟩ := composed_ok.mp hx
          have hl : F.Reaches s type c (0 :: a) l := h.operand hleading rfl (by rintro _ ⟨⟩)
          have hr : F.Reaches s type c (1 :: a) r := h.operand hleading rfl (by rintro _ ⟨⟩)
          refine .binary hop (hparts l (by simp [parts]) _ _ _ _ _ hl hy)
            (hparts r (by simp [parts]) _ _ _ _ _ hr hz) ?_ hx
          intro hcompare
          obtain ⟨hnavl, hnavr⟩ := navigating_of_leading_compare hcompare hleading
          constructor
          · apply isCondition_of_assembled hnavl hy
            intro hleading'
            exact ih l (by simp [parts]) hl hleading' hy (P := fun _ _ => True) (by simp)
          · apply isCondition_of_assembled hnavr hz
            intro hleading'
            exact ih r (by simp [parts]) hr hleading' hz (P := fun _ _ => True) (by simp)
      | unary op operand =>
          obtain ⟨y, hy, hx⟩ := compile_unary_ok.mp hx
          have hoperand : F.Reaches s type c (0 :: a) operand :=
            h.operand hleading rfl (by rintro _ ⟨⟩)
          exact .unary (hparts operand (by simp [parts]) _ _ _ _ _ hoperand hy) hx
      | call g args =>
          obtain ⟨ns, n?, hns, hn, hx⟩ := compile_call_ok.mp hx
          have hnone : Navigating.only? ns = .ok none := by
            rwa [leading, hns] at hleading
          obtain rfl : n? = none := Except.ok.inj (hn.symm.trans hnone)
          obtain ⟨ys, hys, hx⟩ := called_ok.mp hx
          refine .call (compileAll_forall₂ hys ?_) hx
          intro j f hf n x m hrun
          rw [Nat.zero_add] at hrun
          exact hparts f (List.mem_of_getElem? hf) _ _ _ _ _
            (h.operand hleading hf (by rintro _ ⟨⟩)) hrun
      | member path => exact h.assembled_member hleading hx hparts
      | literal l =>
          obtain ⟨rfl, -⟩ := Numbered.pure_ok.mp hx
          exact .literal l
      | enumMember type member =>
          obtain ⟨v, t, hv, rfl, -⟩ := compile_enumMember_ok hx
          exact .enumMember hv
      | typeName name =>
          obtain ⟨t, ht, rfl, -⟩ := compile_typeName_ok hx
          exact .typeName ht
      | parameterAlias name => exact (Numbered.throw_ok.mp hx).elim

/-- **The operands of a comparison are conditions exactly if their forms are**, where nothing is
`leading`. -/
theorem operand_isCondition {l r g : Filter} {op : Comparison} {i : Nat}
    (h : F.Reaches s type c a (.binary l (.compare op) r))
    (hleading : (Filter.binary l (.compare op) r).leading s c a = .ok none)
    (hg : [l, r][i]? = some g) (hx : (g.compile s c (i :: a)).run n = .ok (x, m)) :
    x.isCondition = g.isCondition := by
  have hreaches : F.Reaches s type c (i :: a) g := h.operand hleading hg nofun
  have hnone : g.navigating s c (i :: a) = .ok [] := by
    obtain ⟨hl, hr⟩ := navigating_of_leading_compare rfl hleading
    match i with
    | 0 =>
        obtain rfl := Option.some.inj hg
        exact hl
    | 1 =>
        obtain rfl := Option.some.inj hg
        exact hr
    | _ + 2 => cases hg
  exact isCondition_of_assembled hnone hx fun hleading' =>
    hreaches.assembled hleading' hx (P := fun _ _ => True) (by simp)

/-- The form of `Reaches.induction` in which each case also has the run. -/
theorem induction_run
    (here : ∀ {f : Filter} {c : Context} {a : Address} {x : Compiled} {n m : Nat},
      F.Reaches s type c a f →
      (f.compile s c a).run n = .ok (x, m) → f.Assembled s P c a x → P f x)
    (behind : ∀ {f : Filter} {c : Context} {a : Address} {nav : Navigating} {x : Compiled}
      {e e' : Expr} {n m : Nat},
      F.Reaches s type c a f → (f.compile s c a).run n = .ok (.subquery e', m) →
      f.leading s c a = .ok (some nav) → P f x → x.predicate? = some e →
        Hop.Encloses nav.hops (some e) e' →
      P f (.subquery e'))
    (h : F.Reaches s type c a f) (hx : (f.compile s c a).run n = .ok (x, m)) : P f x := by
  induction f using Filter.induction generalizing c a n x m with
  | step f ih =>
      have hhere {c : Context} {n : Nat} {x : Compiled} (h : F.Reaches s type c a f)
          (hleading : f.leading s c a = .ok none) (hx : (f.compile s c a).run n =
            .ok (x, m)) : P f x :=
        here h hx (h.assembled hleading hx fun g hg _ _ _ _ _ hreaches hrun =>
          ih g hg hreaches hrun)
      cases hleading : f.leading s c a with
      | error err =>
          rw [compile_failed hleading] at hx
          exact (Numbered.throw_ok.mp hx).elim
      | ok nav? =>
          cases nav? with
          | none => exact hhere h hleading hx
          | some nav =>
              -- It is compiled again in a context that is reached, and has no member left there.
              have hagain := hx
              rw [compile_again hleading] at hagain
              obtain ⟨inner, k, y, e, e', hinner, hy, he, hencloses, rfl⟩ :=
                Context.within_encloses hagain
              have hy := hhere (h.behind hleading hinner) (leading_opened hleading hinner) hy
              exact behind h hx hleading hy he hencloses

/-- **Induction on compiled filters.** What passes from the parts to what is `Assembled` of them,
and stays when queries are put around that, holds of all that the compiler makes. -/
theorem induction
    (here : ∀ {f : Filter} {c : Context} {a : Address} {x : Compiled}, F.Reaches s type c a f →
      f.Assembled s P c a x → P f x)
    (behind : ∀ {f : Filter} {c : Context} {a : Address} {nav : Navigating} {x : Compiled}
      {e e' : Expr},
      F.Reaches s type c a f → f.leading s c a = .ok (some nav) → P f x → x.predicate? = some e →
      Hop.Encloses nav.hops (some e) e' → P f (.subquery e'))
    (h : F.Reaches s type c a f) (hx : (f.compile s c a).run n = .ok (x, m)) : P f x :=
  h.induction_run (fun h _ => here h) (fun h _ => behind h) hx

end Reaches

end Filter

end FilterSql
