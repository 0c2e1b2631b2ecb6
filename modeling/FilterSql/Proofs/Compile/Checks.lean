import FilterSql.Proofs.Compile.Reentry
import FilterSql.Proofs.Schema.Names

/-!
# Checks that do not break down

The compiler checks rules of its own that a filter cannot break, and reports a `Defect` where one
is broken. This module takes the checks one by one: values, operators, functions, names and
members. `Checked.Intact` says that a check ends without a defect. For most of them it holds at
once. Four defects are ruled out by a check made before:

- `missingArgument`, since `BuiltIn.checkArity` has counted the arguments (`intact_applyBuiltIn`);
- `noExpression`, since `Compiled.isPredicate` lets no operand without one pass
  (`intact_condition`);
- `comparedWithNonBoolean`, since only boolean literals are tested for (`intact_compareCondition`);
- `nameInTail`, since a member's names are cut off in front of its first other segment
  (`intact_target`).

`emptyPath` and `noScalarType` are conditions on what is looked up, and `noReturnType` and
`noJoinColumns` are conditions on the schema, which `Schema.Declared` states.
-/

namespace FilterSql

open Sql (Expr Select)

/-! ## Intact checks

Chains of checks are intact step by step, so each function is taken apart where it binds. -/

namespace Checked

variable {α β : Type}

/-- The check does not end with a defect, whether it passes or not. -/
def Intact (x : Except FilterError α) : Prop :=
  ∀ err, x = .error err → err.category ≠ .defect

@[simp]
theorem intact_ok {a : α} : Intact (.ok a) := by
  rintro _ ⟨⟩

@[simp]
theorem intact_pure {a : α} : Intact (pure a : Except FilterError α) :=
  intact_ok

@[simp]
theorem intact_error {err : FilterError} :
    Intact (.error err : Except FilterError α) ↔ err.category ≠ .defect := by
  constructor
  · intro h
    exact h err rfl
  · rintro h _ ⟨⟩
    exact h

@[simp]
theorem intact_throw {err : FilterError} :
    Intact (throw err : Except FilterError α) ↔ err.category ≠ .defect :=
  intact_error

/-- A chain of checks is intact if each check is, given that those before it have passed. -/
@[simp]
theorem intact_bind {x : Except FilterError α} {f : α → Except FilterError β} :
    Intact (x >>= f) ↔ Intact x ∧ ∀ a, x = .ok a → Intact (f a) := by
  cases x with
  | error err =>
      show Intact (.error err) ↔ _
      simp
  | ok a =>
      show Intact (f a) ↔ _
      simp

@[simp]
theorem intact_map {x : Except FilterError α} {f : α → β} : Intact (f <$> x) ↔ Intact x := by
  cases x <;> simp [Functor.map, Except.map]

@[simp]
theorem intact_ite {p : Prop} [Decidable p] {x y : Except FilterError α} :
    Intact (if p then x else y) ↔ (p → Intact x) ∧ (¬p → Intact y) := by
  split <;> simp_all

end Checked

open Checked (Intact)

/-! ## Values

Reading a literal fails for its text or its type only. -/

namespace Literal

variable {text : String} {type : DataType}

@[simp]
theorem intact_refuse {α : Type} {fault : ValueFault} :
    Intact (refuse text type fault : Except FilterError α) := by
  simp [refuse, FilterError.category]

@[simp]
theorem intact_readAs {ε α : Type} {fault : ε → ValueFault} {read : String → Except ε α} :
    Intact (readAs text type fault read) := by
  unfold readAs
  split <;> simp

@[simp]
theorem intact_readBoolean : Intact (readBoolean text) := by
  simp [readBoolean]

@[simp]
theorem intact_readInteger {low high : Int} {make : Int → Value} :
    Intact (readInteger text type low high make) := by
  unfold readInteger
  split
  · split <;> simp
  · simp

@[simp]
theorem intact_readFloat : Intact (readFloat text) := by
  unfold readFloat
  split <;> simp

@[simp]
theorem intact_readDecimal : Intact (readDecimal text) := intact_readAs

@[simp]
theorem intact_readDate : Intact (readDate text) := intact_readAs

@[simp]
theorem intact_readUuid : Intact (readUuid text) := by
  simp [readUuid]

@[simp]
theorem intact_readTime : Intact (readTime text) := by
  simp [readTime]

@[simp]
theorem intact_readTimestamp : Intact (readTimestamp text) := by
  simp [readTimestamp]

@[simp]
theorem intact_alone (l : Literal) : Intact l.alone := by
  unfold alone
  split
  case h_3 => split <;> simp
  all_goals simp

end Literal

@[simp]
theorem EnumType.intact_value (t : EnumType) (member : String) : Intact (t.value member) := by
  unfold value
  split
  · split <;> simp [FilterError.category]
  · split <;> simp [FilterError.category]

namespace Schema

variable {s : Schema}

@[simp]
theorem intact_coerceTo (l : Literal) (type : ValueType) : Intact (s.coerceTo l type) := by
  unfold coerceTo
  cases type.dataType <;> simp [FilterError.category]
  case decimal =>
    intro _ d _
    split <;> simp
  case string | char => intro _; split <;> simp
  case enum => intro _; split <;> simp

@[simp]
theorem intact_coerce (l : Literal) (beside : Option ValueType) : Intact (s.coerce l beside) := by
  cases beside <;> simp [coerce]

@[simp]
theorem intact_coerceMember (type member : String) (beside : Option ValueType) :
    Intact (s.coerceMember type member beside) := by
  unfold coerceMember
  cases s.enumType? type <;> cases beside.bind (·.enumType) <;> simp [FilterError.category]

@[simp]
theorem intact_operand (c : Compiled) (beside : Option ValueType) :
    Intact (s.operand c beside) := by
  cases c <;> simp [operand, FilterError.category]

end Schema

/-! ## Operators

Conditions, comparisons and arithmetic. What a rule of the compiler asks for is checked right
before it is relied on. -/

namespace Compiled

@[simp]
theorem intact_condition (c : Compiled) : Intact c.condition := by
  rw [condition_eq]
  cases c.predicate? <;> simp [FilterError.category]

@[simp]
theorem intact_compareCondition (op : Comparison) (c : Compiled) (expected : Bool) :
    Intact (c.compareCondition op (some expected)) := by
  cases op <;> simp [compareCondition, FilterError.category]

@[simp]
theorem intact_combine (op : Sql.Operator) (a b : Compiled) : Intact (combine op a b) := by
  simp [combine]

@[simp]
theorem intact_composeUnary (op : UnaryOperator) (c : Compiled) : Intact (c.composeUnary op) := by
  cases op with
  | not =>
      rw [composeUnary, negateCondition]
      exact Checked.intact_ite.mpr ⟨fun _ => by simp [FilterError.category], fun _ => by simp⟩
  | minus => cases c <;> simp [composeUnary, negate, FilterError.category]

end Compiled

@[simp]
theorem intact_compareNull (op : Comparison) (e : Expr) : Intact (compareNull op e) := by
  cases op <;> simp [compareNull, FilterError.category]

@[simp]
theorem ValueType.intact_checkComparable (a b : ValueType) : Intact (a.checkComparable b) := by
  unfold checkComparable
  split
  · simp [FilterError.category]
  · split <;> simp [FilterError.category]

namespace Schema

variable {s : Schema}

@[simp]
theorem intact_compareValues (op : Comparison) (a b : Compiled) :
    Intact (s.compareValues op a b) := by
  simp [compareValues, operands]

@[simp]
theorem intact_calculate (op : Arithmetic) (a b : Compiled) : Intact (s.calculate op a b) := by
  rw [calculate]
  refine Checked.intact_bind.mpr ⟨intact_operand _ _, ?_⟩
  intro l _
  refine Checked.intact_bind.mpr ⟨intact_operand _ _, ?_⟩
  intro r _
  dsimp only
  split
  · simp [FilterError.category]
  · split <;> simp [FilterError.category]

@[simp]
theorem intact_compose (op : BinaryOperator) (a b : Compiled) : Intact (s.compose op a b) := by
  cases op with
  | compare op =>
      -- A condition is only compared with what has been found to be a boolean.
      rcases compare_cases a b with ⟨_, ha, hb⟩ | ⟨_, ha, hb⟩ | ⟨ha, hb⟩
      · rw [compose, compare_left ha hb]
        exact Compiled.intact_compareCondition _ _ _
      · rw [compose, compare_right ha hb]
        exact Compiled.intact_compareCondition _ _ _
      · rw [compose, compare_values ha hb]
        exact intact_compareValues _ _ _
  | arith op => exact intact_calculate op a b
  | and | or => simp [compose]
  | has => simp [compose, FilterError.category]

end Schema

/-! ## Functions

`BuiltIn.checkArity` counts the arguments, and `BuiltIn.next` takes them one by one. -/

theorem BuiltIn.intact_checkArity (f : BuiltIn) (n : Nat) : Intact (f.checkArity n) := by
  simp only [checkArity]
  split <;> simp [FilterError.category]

namespace Schema

variable {s : Schema} {f : BuiltIn} {c : Compiled} {args : List Compiled}

@[simp]
theorem intact_argument {accepts : DataType → Bool} {beside : Option ValueType} :
    Intact (s.argument f accepts beside c) := by
  simp [argument, FilterError.category]

@[simp]
theorem intact_textArgument : Intact (s.textArgument f c) := by
  simp [textArgument]

@[simp]
theorem intact_wholeArgument : Intact (s.wholeArgument f c) := by
  simp [wholeArgument]

@[simp]
theorem intact_dayArgument : Intact (s.dayArgument f c) := by
  simp [dayArgument]

@[simp]
theorem intact_clockArgument : Intact (s.clockArgument f c) := by
  simp [clockArgument]

@[simp]
theorem intact_startArgument : Intact (s.startArgument f c) := by
  unfold startArgument
  split
  · split
    · split <;> simp
    · simp
  · simp

theorem intact_likePattern {m : Sql.Like.Margins} : Intact (s.likePattern f m c) := by
  unfold likePattern
  dsimp only
  split
  · split <;> simp
  · simp

theorem intact_matching {m : Sql.Like.Margins} (a b : Compiled) :
    Intact (s.matching f m [a, b]) := by
  rw [matching_pair]
  refine Checked.intact_bind.mpr ⟨intact_textArgument, ?_⟩
  intro text _
  exact Checked.intact_bind.mpr ⟨intact_likePattern, fun _ _ => Checked.intact_pure⟩

theorem intact_castTarget : Intact (castTarget c) := by
  unfold castTarget
  split <;> simp [FilterError.category]

/-- With as many arguments as `BuiltIn.checkArity` admits, `BuiltIn.next` finds each one that it is
asked for. -/
theorem intact_applyBuiltIn
    (h : f.arity.1 ≤ args.length ∧ args.length ≤ f.arity.2) : Intact (s.applyBuiltIn f args) := by
  -- The arguments are spelled out, up to the greatest number of them that a function takes.
  rcases args with _ | ⟨a, _ | ⟨b, _ | ⟨c, rest⟩⟩⟩
  · cases f with
    | now => exact Checked.intact_ok
    | _ => simp [BuiltIn.arity] at h
  · cases f with
    | length | toLower | toUpper | trim => simp [applyBuiltIn, textFunction_singleton]
    | year | month | day | hour | minute | second => simp [applyBuiltIn, fieldFunction_singleton]
    | date | time => simp [applyBuiltIn, castFunction_singleton]
    | round | floor | ceiling => simp [applyBuiltIn, roundingFunction_singleton]
    | isOf => simp [applyBuiltIn, FilterError.category]
    | _ => simp [BuiltIn.arity] at h
  · cases f with
    | contains | startsWith | endsWith => exact intact_matching a b
    | indexOf => simp [applyBuiltIn, positionFunction_pair]
    | substring => simp [applyBuiltIn, partFunction_pair]
    | concat => simp [applyBuiltIn, joinFunction_pair]
    | cast => simp [applyBuiltIn, castTo_pair, intact_castTarget]
    | isOf => simp [applyBuiltIn, FilterError.category]
    | _ => simp [BuiltIn.arity] at h
  · cases f with
    | substring =>
        have hcount : (a :: b :: c :: rest).length ≤ 3 := h.2
        simp only [List.length_cons] at hcount
        obtain rfl : rest = [] := List.eq_nil_of_length_eq_zero (by omega)
        simp [applyBuiltIn, partFunction_triple]
    | _ => simp [BuiltIn.arity] at h

theorem intact_callBuiltIn (f : BuiltIn) (args : List Compiled) :
    Intact (s.callBuiltIn f args) := by
  refine Checked.intact_bind.mpr ⟨f.intact_checkArity _, ?_⟩
  rintro ⟨⟩ hcount
  exact intact_applyBuiltIn (BuiltIn.checkArity_ok.mp hcount)

/-! ## Functions of a schema

`Schema.Declared` holds what the schema has to provide: columns for each join, and the type that a
function returns. With these, no call of a function ends in a defect. -/

/-- The schema leaves nothing undeclared: an association, its link table and a collection have
columns to join by, and a function that returns a single value of a primitive type says of which. -/
structure Declared (s : Schema) : Prop where
  associations : ∀ a ∈ s.associations, a.joinColumns ≠ []
  links : ∀ a ∈ s.associations, ∀ link ∈ a.linkTable, link.columns ≠ []
  collections : ∀ a ∈ s.attributes, ∀ table columns element,
    a.kind = .collection table columns element → columns ≠ []
  functions : ∀ f ∈ s.functions, f.returnType.collection = false → f.returnType.kind = .primitive →
    f.returnType.dataType ≠ none

theorem intact_calledFunction {name : String} : Intact (s.calledFunction name) := by
  unfold calledFunction
  split <;> simp [FilterError.category]

theorem Declared.intact_returnedType (hs : s.Declared) {f : Function} (hf : f ∈ s.functions) :
    Intact (returnedType f) := by
  have hdeclared := hs.functions f hf
  unfold returnedType
  split
  · simp [FilterError.category]
  · split
    · simp [FilterError.category]
    · split <;> simp_all [Function.returnsScalar]
      cases hkind : f.returnType.kind <;> simp_all

theorem intact_bindArguments {called : String} {f : Function} {index : Nat}
    {bound : List (String × Compiled)} {args : List (Option String × Compiled)} :
    Intact (bindArguments called f index bound args) := by
  induction args generalizing index bound with
  | nil => simp [bindArguments]
  | cons arg args ih =>
      obtain ⟨name | name, c⟩ := arg
      · simp [bindArguments, FilterError.category]
      · unfold bindArguments
        split <;> simp [ih, FilterError.category]

theorem intact_passArguments {called : String} {bound : List (String × Compiled)}
    {ps : List Parameter} :
    Intact (s.passArguments called bound ps) := by
  induction ps generalizing bound with
  | nil => simp [passArguments]
  | cons p ps ih =>
      unfold passArguments
      split <;> simp [ih, FilterError.category]

theorem Declared.intact_callCustom (hs : s.Declared) {called : String}
    {args : List (Option String × Compiled)} :
    Intact (s.callCustom called args) := by
  have htype : ∀ f, s.calledFunction called = .ok f → Intact (returnedType f) :=
    fun f hf => hs.intact_returnedType (calledFunction_mem hf)
  simpa [callCustom, intact_calledFunction, intact_bindArguments, intact_passArguments] using htype

/-! ## Names

What is resolved is never an empty list of names, and only attributes of a single value are asked
for their type. -/

/-- An attribute of a single value has a type. -/
theorem intact_attributeType {a : Attribute} (h : a.dataType?.isSome) :
    Intact (s.attributeType a) := by
  obtain ⟨type, htype⟩ := Option.isSome_iff_exists.mp h
  simp [attributeType, ValueType.ofAttribute?, htype]

@[simp]
theorem intact_complexTypeOf {owner type : String} : Intact (s.complexTypeOf owner type) := by
  unfold complexTypeOf
  split <;> simp [FilterError.category]

@[simp]
theorem intact_elementScope {owner : String} {table : TableName} {e : Element} :
    Intact (s.elementScope owner table e) := by
  cases e <;> simp [elementScope]

@[simp]
theorem intact_associationScope {owner : String} {a : Association} :
    Intact (s.associationScope owner a) := by
  unfold associationScope
  split <;> simp [FilterError.category]

theorem intact_resolveFrom {p : Place} {index : Nat} {names : List String} :
    Intact (s.resolveFrom p index names) := by
  induction names generalizing p index with
  | nil => simp [resolveFrom]
  | cons name rest ih =>
      rw [resolveFrom]
      cases p.owner? with
      | none => simp [FilterError.category]
      | some owner =>
          cases ha : owner.attribute? name with
          | some a =>
              simp only [ha]
              cases hkind : a.kind with
              | primitive type | enum type =>
                  cases rest with
                  | nil =>
                      have htype :=
                        s.intact_attributeType (a := a) (by simp [Attribute.dataType?, hkind])
                      simp [htype]
                  | cons => simp [FilterError.category]
              | complex type lead => cases rest <;> simp [ih, FilterError.category]
              | collection table columns element => simp [ih]
          | none =>
              simp only [ha]
              cases owner.association? name with
              | some a => simp [ih]
              | none => simp [FilterError.category]

theorem intact_resolve {scope : Scope} {names : List String} (h : names ≠ []) :
    Intact (s.resolve scope names) := by
  cases names with
  | nil => exact absurd rfl h
  | cons => exact intact_resolveFrom

/-! ## Members

What `denote` does is checked step by step: the hops of a collection, the attribute at the end, and
the segment behind the names, each of which it looks up in the schema. -/

theorem intact_collectionHops {scope : Scope} {path : Path} {names : List String} :
    Intact (s.collectionHops scope path names) := by
  cases names with
  | nil => simp [collectionHops, FilterError.category]
  | cons name names =>
      have hrefused : Intact
          (.error (.notSupported (.notCollection path.shown)) : Except FilterError (List Hop)) := by
        simp [FilterError.category]
      apply Checked.intact_bind.mpr ⟨intact_resolve (List.cons_ne_nil _ _), ?_⟩
      intro r _
      split
      · exact Checked.intact_ite.mpr ⟨fun _ => Checked.intact_pure, fun _ => hrefused⟩
      · exact hrefused

theorem intact_attributeTarget {scope : Scope} {path : Path} {start : Nat} {names : List String} :
    Intact (s.attributeTarget scope path start names) := by
  cases names with
  | nil => exact Checked.intact_ok
  | cons name names =>
      apply Checked.intact_bind.mpr ⟨intact_resolve (List.cons_ne_nil _ _), ?_⟩
      intro r _
      split <;> simp [FilterError.category]

theorem intact_countTarget {scope : Scope} {path : Path} {start : Nat} {names : List String} :
    Intact (s.countTarget scope path start names) := by
  apply Checked.intact_bind.mpr ⟨intact_collectionHops, ?_⟩
  intro hops _
  split <;> exact Checked.intact_pure

/-- Behind the names that a member begins with there is no other name. -/
theorem intact_target {scope : Scope} {path segments : Path} {start : Nat} :
    Intact (s.target scope path start segments) := by
  have hname := segments.behindNames_ne_property
  rw [target]
  generalize segments.behindNames = tail at hname
  rcases tail with _ | ⟨first, _ | ⟨second, rest⟩⟩
  · exact intact_attributeTarget
  · cases first with
    | property name => exact absurd rfl (hname name [])
    | count => exact intact_countTarget
    | nonempty | any | all => simp [intact_collectionHops]
    | function name args => simp [FilterError.category]
  · simp [FilterError.category]

theorem intact_denote (c : Context) (a : Address) (path : Path) : Intact (s.denote c a path) := by
  simp [denote, intact_target]

end Schema

/-! ## Members that navigate

Two members that navigate in one expression are refused with `navigatesTwice`. All else that the
search runs into is what `denote` runs into, for one of the members that it comes across. -/

theorem Navigating.intact_only? (ns : List Navigating) : Intact (Navigating.only? ns) := by
  unfold only?
  split <;> simp [FilterError.category]

section

variable {s : Schema} {c : Context} {a : Address}

theorem intact_navigatingAll {fs : List Filter} {i : Nat}
    (h : ∀ f ∈ fs, ∀ a, Intact (f.navigating s c a)) : Intact (navigatingAll s c a i fs) := by
  induction fs generalizing i with
  | nil => simp [navigatingAll]
  | cons f fs ih =>
      rw [navigatingAll]
      simp [h, ih fun g hg => h g (List.mem_cons_of_mem f hg)]

theorem Filter.intact_navigating (f : Filter) (a : Address) : Intact (f.navigating s c a) := by
  induction f using Filter.induction generalizing a with
  | step f ih =>
      cases f with
      | member path =>
          rw [navigating]
          refine Checked.intact_bind.mpr ⟨s.intact_denote c a path, ?_⟩
          rintro ⟨anchor, target⟩ _
          cases target with
          | function name =>
              rw [navigatingPath_eq]
              apply intact_navigatingAll
              intro g hg
              obtain ⟨arg, harg, rfl⟩ := List.mem_map.mp hg
              exact ih _ (Path.arguments_mem harg)
          | _ => exact Checked.intact_pure
      | binary l op r =>
          have hl := ih l (by simp [parts])
          have hr := ih r (by simp [parts])
          simp [navigating, hl, hr]
      | unary op f =>
          have hf := ih f (by simp [parts])
          cases op <;> simp [navigating, hf]
      | call g args => exact intact_navigatingAll ih
      | literal | enumMember | typeName | parameterAlias => simp [navigating]

theorem Filter.intact_leading (f : Filter) : Intact (f.leading s c a) := by
  cases f with
  | binary l op r => simp [leading, binaryNavigating, intact_navigating, Navigating.intact_only?]
  | call g args => simp [leading, intact_navigatingAll, intact_navigating, Navigating.intact_only?]
  | member path =>
      rw [leading]
      refine Checked.intact_bind.mpr ⟨s.intact_denote c a path, ?_⟩
      rintro ⟨anchor, target⟩ _
      cases target <;> simp [intact_navigatingAll, intact_navigating, Navigating.intact_only?]
  | unary | literal | enumMember | typeName | parameterAlias => simp [leading]

end

/-! ## Joins

`Schema.Declared` speaks of what the schema declares. Resolution turns that into hops. -/

/-- The hop has columns to join its rows by, also at the far side of a link table. -/
structure Hop.Joined (h : Hop) : Prop where
  columns : h.joinColumns ≠ []
  link : ∀ link ∈ h.linkTable?, link.columns ≠ []

namespace Schema.Declared

variable {s : Schema}

theorem joined_of_step (hs : s.Declared) {owner : StructuredType} {name : String} {target : Scope}
    {kind : HopKind} {lead : String} {stop : Nat} (howner : owner ∈ s.structuredTypes)
    (h : s.HopsTo owner name target kind) :
    Hop.Joined ⟨name, target, kind, lead, stop⟩ := by
  cases h with
  | collection ha hkind =>
      refine ⟨hs.collections _ (attribute_mem howner ha) _ _ _ hkind, ?_⟩
      simp [Hop.linkTable?]
  | association _ ha =>
      have hmem := association_mem howner ha
      exact ⟨hs.associations _ hmem, hs.links _ hmem⟩

theorem resolves_joined (hs : s.Declared) {p : Place} {index : Nat} {names : List String}
    {r : Resolution} (h : s.Resolves p index names r) (hp : s.HasPlace p) :
    ∀ hop ∈ r.hops, hop.Joined := by
  induction h with
  | nil | column => simp
  | enter howner ha hkind hc _ ih =>
      exact ih (hasPlace_enter hp (attribute_mem (hp.owner _ howner) ha) hkind
        (complexTypeOf_mem hc))
  | hop howner hstep _ ih =>
      have howner := hp.owner _ howner
      intro hop hmem
      rcases List.mem_cons.mp hmem with rfl | hmem
      · exact hs.joined_of_step howner hstep
      · exact ih (hasPlace_start (hasHop_of_step howner hstep).1) hop hmem

theorem resolve_joined (hs : s.Declared) {scope : Scope} {names : List String} {r : Resolution}
    (hscope : s.HasScope scope) (h : s.resolve scope names = .ok r) : ∀ hop ∈ r.hops, hop.Joined :=
  hs.resolves_joined (resolve_ok.mp h).2 (hasPlace_start hscope)

/-- All hops of a member are joined. -/
theorem denote_joined (hs : s.Declared) {c : Context} {a : Address} {path : Path} {anchor : Level}
    {t : Target} (hc : s.HasContext c) (h : s.denote c a path = .ok (anchor, t)) :
    ∀ hop ∈ t.hops, hop.Joined := by
  obtain ⟨start, names, tail, hanchor, -, hdenotes⟩ := denote_ok.mp h
  have hscope := hc anchor (Context.mem_of_anchor hanchor)
  cases hdenotes with
  | element | leaf | function => simp [Target.hops]
  | navigation hr | count hr | nonempty hr | any hr | all hr => exact hs.resolve_joined hscope hr
  | countBehind hr =>
      have hjoined := hs.resolve_joined hscope hr
      intro hop hmem
      apply hjoined hop
      simp only [Target.hops, List.mem_append, List.mem_singleton] at hmem
      rcases hmem with hmem | rfl <;> simp [*]

end Schema.Declared

/-- A member that denotes anything but a value of its own row or a function has at least one hop. -/
theorem Schema.denote_hops {s : Schema} {c : Context} {a : Address} {path : Path} {anchor : Level}
    {t : Target} (h : s.denote c a path = .ok (anchor, t)) :
    t = .element ∨ (∃ p, t = .attribute p) ∨ (∃ name, t = .function name) ∨ t.hops ≠ [] := by
  obtain ⟨start, names, tail, -, -, hdenotes⟩ := denote_ok.mp h
  cases hdenotes <;> simp [Target.hops]

end FilterSql
