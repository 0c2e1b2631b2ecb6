import FilterSql.Proofs.Compile.Assembly

/-!
# What compiles is supported

The compiler drops operands (`null`, truth values, the type of a cast), searches them for members,
compiles them again and passes them in another order. None of them is passed over, though: if a
filter compiles, each filter that stands in it is supported (`Schema.compile_supported`). A part is
dropped only after it has been compiled, and a `typeName` is refused wherever it is not the type of
a cast.
-/

namespace FilterSql

open Sql (Expr)

/-! ## What is supported

`Filter.Supported` says what the compiler has a rule for, as far as one filter and the kinds of its
parts go. `Filter.StandsIn` takes it to every depth: operands, arguments and the bodies of
quantifiers. -/

/-- The segments of a member that is supported. -/
structure Path.Supported (s : Schema) (path : Path) : Prop where
  /-- Only the last segment of a path may be something else than a name. -/
  last : ∀ front segment tail, path = front ++ segment :: tail →
    (∀ name, segment ≠ .property name) → tail = []
  /-- A function is called by itself, with nothing before it and nothing behind it. -/
  alone : ∀ name args, Segment.function name args ∈ path → path = [.function name args]
  /-- The function is found by its name, or by the part of this behind the last point. -/
  known : ∀ name args, Segment.function name args ∈ path →
    (s.function? name).isSome ∨ ∃ part, Schema.localName? name = some part ∧
      (s.function? part).isSome

namespace Filter

/-- The literal of a number, with any number of `minus` signs in front. -/
inductive IsNumeral : Filter → Prop where
  | literal {l : Literal} (hl : l.kind.isNumeric = true) : IsNumeral (.literal l)
  | minus {operand : Filter} (h : IsNumeral operand) : IsNumeral (.unary .minus operand)

/-- What the compiler has a rule for: no alias, no `has` and no `isOf`, a supported path, a `minus`
in front of a number only, and a `typeName` in its place. -/
structure Supported (s : Schema) (f : Filter) : Prop where
  noAlias : ∀ name, f ≠ .parameterAlias name
  noHas : ∀ l r, f ≠ .binary l .has r
  noIsOf : ∀ args, f ≠ .call .isOf args
  /-- The name of a type is the second argument of `cast`. -/
  typeName : ∀ i name, f.parts[i]? = some (.typeName name) → i = 1 ∧ ∃ args, f = .call .cast args
  minus : ∀ operand, f = .unary .minus operand → operand.IsNumeral
  member : ∀ path, f = .member path → Path.Supported s path

/-- `g.StandsIn f`: `g` is `f` itself or stands in one of its parts. -/
inductive StandsIn : Filter → Filter → Prop where
  | here (f : Filter) : StandsIn f f
  | part {f g part : Filter} (hpart : part ∈ f.parts) (h : StandsIn g part) : StandsIn g f

end Filter

/-! ## Names of types

A `Compiled.typeName` is the only thing that a name of a type is compiled to, and only `castTo`
takes it. All other operators and functions ask for a value, a condition or a literal. -/

namespace Compiled

def isTypeName : Compiled → Bool
  | typeName _ => true
  | _ => false

variable {x y z : Compiled}

theorem isTypeName_of_predicate {e : Expr} (h : x.predicate? = some e) : x.isTypeName = false := by
  cases x with
  | typeName => cases h
  | predicate | value | member | subquery | literal => rfl

theorem isTypeName_of_boolean {b : Bool} (h : x.boolean? = some b) : x.isTypeName = false := by
  cases x with
  | literal => rfl
  | predicate | value | member | subquery | typeName => cases h

/-- No operand is the name of a type. -/
theorem isTypeName_of_operand {s : Schema} {beside : Option ValueType} {o : Operand}
    (h : s.operand x beside = .ok o) :
    x.isTypeName = false := by
  cases x with
  | typeName => cases h
  | predicate | value | member | subquery | literal => rfl

theorem composeUnary_isTypeName {op : UnaryOperator} (h : x.composeUnary op = .ok z) :
    x.isTypeName = false := by
  cases op with
  | not =>
      obtain ⟨e, he, -⟩ := negateCondition_ok.mp h
      exact isTypeName_of_predicate he
  | minus =>
      obtain ⟨l, l', rfl, -⟩ := negate_ok h
      rfl

end Compiled

namespace Schema

variable {s : Schema} {x y z : Compiled} {e : Expr}

open Compiled (isTypeName_of_predicate isTypeName_of_boolean isTypeName_of_operand)

theorem compare_isTypeName {op : Comparison} (h : s.compare op x y = .ok z) :
    x.isTypeName = false ∧ y.isTypeName = false := by
  rcases compare_ok h with ⟨_, -, hboolean, h⟩ | ⟨_, hboolean, -, h⟩ | ⟨-, h⟩
  · obtain ⟨e, kept, he, -, -⟩ := Compiled.compareCondition_ok.mp h
    exact ⟨isTypeName_of_predicate he, isTypeName_of_boolean hboolean⟩
  · obtain ⟨e, kept, he, -, -⟩ := Compiled.compareCondition_ok.mp h
    exact ⟨isTypeName_of_boolean hboolean, isTypeName_of_predicate he⟩
  · obtain ⟨l, r, hlr, -⟩ := compareValues_ok h
    obtain ⟨hl, hr⟩ := operands_ok.mp hlr
    exact ⟨isTypeName_of_operand hl, isTypeName_of_operand hr⟩

/-- No binary operator takes the name of a type. -/
theorem compose_isTypeName {op : BinaryOperator} (h : s.compose op x y = .ok z) :
    x.isTypeName = false ∧ y.isTypeName = false := by
  cases op with
  | compare op => exact compare_isTypeName h
  | arith op =>
      obtain ⟨l, r, type, hl, hr, -⟩ := calculate_ok h
      exact ⟨isTypeName_of_operand hl, isTypeName_of_operand hr⟩
  | and | or =>
      obtain ⟨l, r, hl, hr, -⟩ := Compiled.combine_ok.mp h
      exact ⟨isTypeName_of_predicate hl, isTypeName_of_predicate hr⟩
  | has => cases h

theorem Pattern.isTypeName {m : Sql.Like.Margins} {escape : Option Char}
    (h : s.Pattern m x e escape) :
    x.isTypeName = false := by
  cases h with
  | written => rfl
  | computed _ he =>
      obtain ⟨o, ho, -⟩ := he
      exact isTypeName_of_operand ho

theorem Start.isTypeName (h : s.Start x e) : x.isTypeName = false := by
  cases h with
  | written => rfl
  | computed _ he =>
      obtain ⟨o, ho, -⟩ := he
      exact isTypeName_of_operand ho

/-- No built-in function takes the name of a type but `cast`, and that in the second place. -/
theorem Calls.isTypeName {family : BuiltIn.Family} {xs : List Compiled}
    (h : s.Calls family xs z) {i : Nat} (hx : xs[i]? = some x) (htype : x.isTypeName = true) :
    i = 1 ∧ family = .cast := by
  have hreads {y : Compiled} {beside : Option ValueType} {e : Expr} (h : s.Reads y beside e) :
    y.isTypeName = false := by
    obtain ⟨o, ho, -⟩ := h
    exact isTypeName_of_operand ho
  -- But for the second one of `cast`, all arguments are read as values, which the name of a type is
  -- not.
  have hnone (hxs : ∀ y ∈ xs, y.isTypeName = false) : i = 1 ∧ family = .cast := by
    rw [hxs x (List.mem_of_getElem? hx)] at htype
    cases htype
  cases h with
  | matching htext hpattern => exact hnone (by simp [hreads htext, hpattern.isTypeName])
  | ofText htext => exact hnone (by simp [hreads htext])
  | indexOf htext hpart => exact hnone (by simp [hreads htext, hreads hpart])
  | rest htext hstart => exact hnone (by simp [hreads htext, hstart.isTypeName])
  | substring htext hstart hlength =>
      exact hnone (by simp [hreads htext, hstart.isTypeName, hreads hlength])
  | concat hleft hright => exact hnone (by simp [hreads hleft, hreads hright])
  | field he => exact hnone (by simp [hreads he])
  | instantPart he => exact hnone (by simp [hreads he])
  | now => exact hnone (by simp)
  | rounding ho => exact hnone (by simp [isTypeName_of_operand ho])
  | cast ho =>
      match i with
      | 0 =>
          obtain rfl := Option.some.inj hx
          rw [isTypeName_of_operand ho] at htype
          cases htype
      | 1 => exact ⟨rfl, rfl⟩
      | _ + 2 => cases hx

theorem not_calls_isOf {xs : List Compiled} (h : s.Calls BuiltIn.Family.isOf xs z) : False := by
  cases h

/-- A function that `calledFunction` finds is declared under the name, or under the part behind its
point. -/
theorem calledFunction_known {name : String} {g : Function} (h : s.calledFunction name = .ok g) :
    (s.function? name).isSome ∨ ∃ part, localName? name = some part ∧
    (s.function? part).isSome := by
  rw [calledFunction] at h
  split at h
  · rename_i hfound
    left
    rw [hfound]
    rfl
  · rename_i hfound
    obtain ⟨part, hpart, hfound⟩ := Option.bind_eq_some_iff.mp hfound
    right
    exact ⟨part, hpart, by rw [hfound]; rfl⟩
  · cases h

end Schema

/-! ## Paths

What `denote` takes apart is supported: names, and behind them at most one segment of another kind,
or a single function that the schema declares. -/

namespace Path

variable {s : Schema}

/-- If one segment at most stands behind the names, one that is not a name is the last. -/
theorem last_of_names {names : List String} {back front tail : Path} {segment : Segment}
    (hback : back.length ≤ 1)
    (hsplit : names.map Segment.property ++ back = front ++ segment :: tail)
    (hsegment : ∀ name, segment ≠ .property name) : tail = [] := by
  induction names generalizing front with
  | nil =>
      have hlength := congrArg List.length hsplit
      simp only [List.map_nil, List.nil_append, List.length_append, List.length_cons] at hlength
      exact List.length_eq_zero_iff.mp (by omega)
  | cons name names ih =>
      cases front with
      | nil => exact absurd (List.cons.inj hsplit).1.symm (hsegment name)
      | cons first front => exact ih (List.cons.inj hsplit).2

/-- Names are supported with at most one segment behind them, if this is not a function. -/
theorem supported_names (names : List String) {back : Path} (hback : back.length ≤ 1)
    (hfunction : ∀ name args, Segment.function name args ∉ back) :
    Supported s (names.map Segment.property ++ back) := by
  have hnone (name : String) (args : List Argument) :
      Segment.function name args ∉ names.map Segment.property ++ back := by
    rw [List.mem_append, not_or]
    refine ⟨?_, hfunction name args⟩
    intro hmem
    obtain ⟨_, -, heq⟩ := List.mem_map.mp hmem
    cases heq
  constructor
  · intro front segment tail hsplit hsegment
    exact last_of_names hback hsplit hsegment
  · intro name args hmem
    exact absurd hmem (hnone name args)
  · intro name args hmem
    exact absurd hmem (hnone name args)

theorem IsDirect.supported {path : Path} (h : path.IsDirect) : Supported s path := by
  obtain ⟨names, tail, rfl, rfl | rfl⟩ := h
  · exact supported_names names (by simp) (by simp)
  · exact supported_names names (by simp) (by simp)

theorem supported_function {name : String} {args : List Argument} {g : Function}
    (h : s.calledFunction name = .ok g) : Supported s [.function name args] := by
  have hmem {name' : String} {args' : List Argument}
      (h : Segment.function name' args' ∈ [Segment.function name args]) :
      name' = name ∧ args' = args := Segment.function.inj (List.mem_singleton.mp h)
  constructor
  · intro front segment tail hsplit hsegment
    have hback : List.length [Segment.function name args] ≤ 1 := Nat.le_refl 1
    exact last_of_names hback (show [].map Segment.property ++ [.function name args] = _
      from hsplit) hsegment
  · intro name' args' h
    obtain ⟨rfl, rfl⟩ := hmem h
    rfl
  · intro name' args' h
    obtain ⟨rfl, rfl⟩ := hmem h
    exact Schema.calledFunction_known ‹_›

/-- No filter stands in names: the parts of such a path are those of its last segment. -/
theorem parts_names (names : List String) (last : Segment) :
    (names.map Segment.property ++ [last]).flatMap Segment.parts = last.parts := by
  have hnames : (names.map Segment.property).flatMap Segment.parts = [] := by
    apply List.flatMap_eq_nil_iff.mpr
    intro segment hsegment
    obtain ⟨name, -, rfl⟩ := List.mem_map.mp hsegment
    rfl
  rw [List.flatMap_append, hnames, List.flatMap_singleton, List.nil_append]

end Path

/-! ## Compiled filters

By induction on how a filter is put together (`Filter.Assembled`). Each rule has a lemma that its
filter is supported if its parts are `Vetted`. -/

namespace Filter

/-- `f.Vetted s x`: all that stands in `f` is supported, and `x` tells whether `f` is a number or
the name of a type. -/
structure Vetted (s : Schema) (f : Filter) (x : Compiled) : Prop where
  supported : ∀ g : Filter, g.StandsIn f → g.Supported s
  numeral : ∀ l, x = .literal l → l.kind.isNumeric = true → f.IsNumeral
  typeName : ∀ name, f = .typeName name → x.isTypeName = true

variable {s : Schema} {f : Filter} {c : Context} {a : Address} {x : Compiled}

/-- A `typeName` among the parts is compiled to one, so it stands where `hplace` allows. -/
theorem typeName_place {xs : List Compiled} (hxs : List.Forall₂ (Vetted s) f.parts xs)
    (hplace : ∀ i x, xs[i]? = some x → x.isTypeName = true → i = 1 ∧ ∃ args, f = .call .cast args)
    (i : Nat) (name : String) (h : f.parts[i]? = some (.typeName name)) :
    i = 1 ∧ ∃ args, f = .call .cast args := by
  obtain ⟨hi, hpart⟩ := List.getElem?_eq_some_iff.mp h
  have hi' : i < xs.length := hxs.length_eq ▸ hi
  have hvetted := (List.forall₂_iff_get.mp hxs).2 i hi hi'
  exact hplace i xs[i] (List.getElem?_eq_getElem hi') (hvetted.typeName name hpart)

/-- All that stands in `f` is supported if `f` is, and its parts are `Vetted`. -/
theorem standsIn_supported {xs : List Compiled} (hf : f.Supported s)
    (hxs : List.Forall₂ (Vetted s) f.parts xs) (g : Filter) (h : g.StandsIn f) : g.Supported s := by
  cases h with
  | here => exact hf
  | part hpart h =>
      obtain ⟨i, hi, rfl⟩ := List.mem_iff_getElem.mp hpart
      have hi' : i < xs.length := hxs.length_eq ▸ hi
      have hvetted := (List.forall₂_iff_get.mp hxs).2 i hi hi'
      exact hvetted.supported g h

/-- If no part is compiled to the name of a type, then no part is one. -/
theorem typeName_nowhere {xs : List Compiled} (hxs : ∀ x ∈ xs, x.isTypeName = false) (i : Nat)
    (x : Compiled) (hx : xs[i]? = some x) (htype : x.isTypeName = true) :
    i = 1 ∧ ∃ args, f = .call .cast args := by
  rw [hxs x (List.mem_of_getElem? hx)] at htype
  cases htype

theorem member_supported {path : Path} {xs : List Compiled} (hpath : Path.Supported s path)
    (hxs : List.Forall₂ (Vetted s) (path.flatMap Segment.parts) xs)
    (htypes : ∀ x ∈ xs, x.isTypeName = false) :
    ∀ g : Filter, g.StandsIn (.member path) → g.Supported s := by
  refine standsIn_supported ⟨nofun, nofun, nofun, typeName_place hxs (typeName_nowhere htypes),
    nofun, ?_⟩ hxs
  rintro _ ⟨⟩
  exact hpath

theorem direct_supported {path : Path} (hpath : path.IsDirect) :
    ∀ g : Filter, g.StandsIn (.member path) → g.Supported s := by
  have hxs : List.Forall₂ (Vetted s) (path.flatMap Segment.parts) [] := by
    rw [hpath.isPlain.parts]
    exact .nil
  exact member_supported hpath.supported hxs (by simp)

/-- A quantifier or a test for elements behind names is supported if its body is. -/
theorem quantifier_supported (names : List String) {last : Segment} {xs : List Compiled}
    (hlast : ∀ name args, last ≠ .function name args) (hxs : List.Forall₂ (Vetted s) last.parts xs)
    (htypes : ∀ x ∈ xs, x.isTypeName = false) :
    ∀ g : Filter, g.StandsIn (.member (names.map Segment.property ++ [last])) → g.Supported s := by
  have hfunction (name : String) (args : List Argument) : Segment.function name args ∉ [last] :=
    fun hmem => hlast name args (List.mem_singleton.mp hmem).symm
  refine member_supported (Path.supported_names names (by simp) hfunction) ?_ htypes
  rwa [Path.parts_names]

theorem body_supported (names : List String) {last : Segment} {body : Filter} {y : Compiled}
    {e : Expr} (hlast : ∀ name args, last ≠ .function name args) (hparts : last.parts = [body])
    (hy : body.Vetted s y) (he : y.predicate? = some e) :
    ∀ g : Filter, g.StandsIn (.member (names.map Segment.property ++ [last])) → g.Supported s := by
  have hxs : List.Forall₂ (Vetted s) last.parts [y] := by
    rw [hparts]
    exact .cons hy .nil
  exact quantifier_supported names hlast hxs (by simpa using Compiled.isTypeName_of_predicate he)

theorem unary_supported {operand : Filter} {op : UnaryOperator} {y : Compiled}
    (hy : operand.Vetted s y) (hx : y.composeUnary op = .ok x) :
    ∀ g : Filter, g.StandsIn (.unary op operand) → g.Supported s := by
  have htype := Compiled.composeUnary_isTypeName hx
  have hparts : List.Forall₂ (Vetted s) (Filter.unary op operand).parts [y] := .cons hy .nil
  have hplace := typeName_place hparts (typeName_nowhere (by simpa using htype))
  cases op with
  | not => exact standsIn_supported ⟨nofun, nofun, nofun, hplace, nofun, nofun⟩ hparts
  | minus =>
      obtain ⟨l, _, rfl, -, hl, -⟩ := Compiled.negate_ok hx
      refine standsIn_supported ⟨nofun, nofun, nofun, hplace, ?_, nofun⟩ hparts
      rintro _ ⟨⟩
      exact hy.numeral l rfl hl

theorem binary_supported {l r : Filter} {op : BinaryOperator} {y z : Compiled} (hop : op ≠ .has)
    (hy : l.Vetted s y) (hz : r.Vetted s z) (hx : s.compose op y z = .ok x) :
    ∀ g : Filter, g.StandsIn (.binary l op r) → g.Supported s := by
  obtain ⟨hytype, hztype⟩ := s.compose_isTypeName hx
  have hparts : List.Forall₂ (Vetted s) (Filter.binary l op r).parts [y, z] :=
    .cons hy (.cons hz .nil)
  have hplace := typeName_place hparts (typeName_nowhere (by simp [hytype, hztype]))
  refine standsIn_supported ⟨nofun, ?_, nofun, hplace, nofun, nofun⟩ hparts
  rintro _ _ ⟨⟩
  exact hop rfl

theorem function_supported {name : String} {args : List Argument} {xs : List Compiled}
    (hxs : List.Forall₂ (Vetted s) (args.map Argument.value) xs)
    (hx : s.callCustom name ((args.map Argument.name).zip xs) = .ok x) :
    ∀ g : Filter, g.StandsIn (.member [.function name args]) → g.Supported s := by
  have hlength : (args.map Argument.name).length = xs.length := by
    rw [← hxs.length_eq, List.length_map, List.length_map]
  obtain ⟨g, type, used, hg, hperm, hused, -⟩ := s.callCustom_used hlength hx
  -- Each argument is used, as a value.
  have htypes : ∀ y ∈ xs, y.isTypeName = false := by
    intro y hy
    obtain ⟨arg, harg, rfl⟩ := List.mem_map.mp (hperm.mem_iff.mpr hy)
    obtain ⟨p, o, ho, -⟩ := hused arg harg
    exact Compiled.isTypeName_of_operand ho
  refine member_supported (Path.supported_function hg) ?_ htypes
  show List.Forall₂ (Vetted s) (args.map Argument.value ++ []) xs
  rwa [List.append_nil]

theorem call_supported {g : BuiltIn} {args : List Filter} {xs : List Compiled}
    (hxs : List.Forall₂ (Vetted s) args xs) (hx : s.callBuiltIn g xs = .ok x) :
    ∀ f : Filter, f.StandsIn (.call g args) → f.Supported s := by
  have hcalls := s.callBuiltIn_ok hx
  have hcast : g.family = .cast → g = .cast := by cases g <;> simp [BuiltIn.family]
  have hplace (i : Nat) (y : Compiled) (hy : xs[i]? = some y) (htype : y.isTypeName = true) :
      i = 1 ∧ ∃ args', Filter.call g args = .call .cast args' := by
    obtain ⟨rfl, hfamily⟩ := hcalls.isTypeName hy htype
    exact ⟨rfl, args, by rw [hcast hfamily]⟩
  refine standsIn_supported ⟨nofun, nofun, ?_, typeName_place hxs hplace, nofun, nofun⟩ hxs
  rintro _ ⟨⟩
  exact s.not_calls_isOf hcalls

/-- What is put together of `Vetted` parts has only supported filters in it. -/
theorem Assembled.supported (h : f.Assembled s (Vetted s) c a x) :
    ∀ g : Filter, g.StandsIn f → g.Supported s := by
  have hnone (hparts : f.parts = []) : List.Forall₂ (Vetted s) f.parts [] := hparts ▸ .nil
  cases h with
  | binary hop hy hz _ hx => exact binary_supported hop hy hz hx
  | unary hy hx => exact unary_supported hy hx
  | element hpath | leaf hpath | count hpath => exact direct_supported hpath
  | nonempty => exact quantifier_supported _ nofun .nil (by simp)
  | any _ hy he | all _ hy he => exact body_supported _ nofun rfl hy he
  | function hxs hx => exact function_supported hxs hx
  | call hxs hx => exact call_supported hxs hx
  | literal | enumMember | typeName =>
      exact standsIn_supported ⟨nofun, nofun, nofun, nofun, nofun, nofun⟩ (hnone rfl)

/-- **What is put together of vetted parts is vetted**, literals and names of types among them. -/
theorem Assembled.vetted (h : f.Assembled s (Vetted s) c a x) : f.Vetted s x := by
  refine ⟨h.supported, ?_, ?_⟩
  · rintro l rfl hl
    obtain rfl | ⟨operand, l', rfl, hoperand, hnegate⟩ := h.of_literal
    · exact .literal hl
    · obtain ⟨_, _, ⟨⟩, -, hl', -⟩ := Compiled.negate_ok hnegate
      exact .minus (hoperand.numeral l' rfl hl')
  · rintro name rfl
    cases h with
    | typeName => rfl

end Filter

namespace Schema

variable {s : Schema} {entity : String} {f : Filter} {e : Expr}

/-- **Nothing is ignored.** If a filter compiles, there is no `parameterAlias`, no `has` and no
`isOf` anywhere in it; a type is named only as the second argument of `cast`; a `minus` stands only
in front of the literal of a number, or of another `minus`; all segments of a member but the last
are names; and a function is called by itself and declared by the schema. -/
theorem compile_supported (h : s.compile entity f = .ok e) :
    (∀ name, f ≠ .typeName name) ∧ ∀ g : Filter, g.StandsIn f → g.Supported s := by
  obtain ⟨type, -, hon⟩ := compile_ok.mp h
  obtain ⟨x, m, hx, he⟩ := compileOn_ok.mp hon
  have hvetted : f.Vetted s x := by
    have hreaches : f.Reaches s type (.ofEntity type) [] f := .whole
    refine Filter.Reaches.induction (fun _ h => h.vetted) ?_ hreaches hx
    intro f c a nav x e e' _ hleading hx _ _
    refine ⟨hx.supported, nofun, ?_⟩
    -- No member stands in the name of a type.
    rintro name rfl
    cases hleading
  refine ⟨?_, hvetted.supported⟩
  rintro name rfl
  have htype := hvetted.typeName name rfl
  rw [Compiled.isTypeName_of_predicate he] at htype
  cases htype

/-- In `Filter.roleLike` a member and a text are compared, under a quantifier. -/
theorem supported_roleLike : ∃ e, sample.compile "User" (.roleLike "x") = .ok e ∧
    (∀ name, Filter.roleLike "x" ≠ .typeName name) ∧ ∀ g : Filter, g.StandsIn (.roleLike "x") →
      g.Supported sample :=
  ⟨_, rfl, compile_supported (show sample.compile "User" (.roleLike "x") = .ok _ from rfl)⟩

end Schema

end FilterSql
