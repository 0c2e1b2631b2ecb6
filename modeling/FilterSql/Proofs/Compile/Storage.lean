import FilterSql.Proofs.Compile.Comparing
import FilterSql.Proofs.Schema.Declarations

/-!
# What members of enum types are compared with

An enum type stores its members by name or by number, and there is no sense in comparing a number
with a text. `checkComparable` looks at data types alone, and these do not tell how members are
stored: beside a member that is stored by number it lets texts stand that the database reads or
computes. What the compiler binds there itself (`Schema.BoundBeside`) is a number, and one of a
member of the same enum type (`Schema.compile_comparisons`).
-/

namespace FilterSql

open Sql (Expr)

/-! ## Types of enum members

`enumType` names the enum of a value. It is set for the data type `enum` only
(`ValueType.Coherent`), which the compiler maintains for every value (`Compiled.Typed`). -/

/-- A type names an enum only if its data type is `enum`. -/
def ValueType.Coherent (type : ValueType) : Prop :=
  type.enumType.isSome → type.dataType = .enum

theorem ValueType.Coherent.of_free {type : ValueType} (h : type.enumType = none) :
    type.Coherent := by
  intro henum
  rw [h] at henum
  cases henum

/-- The type of a compiled expression is coherent, and a parameter among them is a member that was
written with its enum type (`coerceMember`). -/
def Compiled.Typed (s : Schema) : Compiled → Prop
  | .value e type => type.Coherent ∧
      ∀ v, e = .parameter v → ∃ written member, s.coerceMember written member none = .ok (v, type)
  | .member e path => path.type.Coherent ∧ ∀ v, e ≠ .parameter v
  | .predicate _ | .subquery _ | .literal _ | .typeName _ => True

theorem Compiled.Typed.type? {s : Schema} {x : Compiled} (hx : x.Typed s) {type : ValueType}
    (htype : x.type? = some type) : type.Coherent := by
  cases x with
  | value | member =>
      obtain rfl := Option.some.inj htype
      exact hx.1
  | predicate | subquery | literal | typeName => cases htype

/-- A value that is neither bound nor of an enum type is `Typed`. -/
theorem Compiled.typed_of_free {s : Schema} {e : Expr} {type : ValueType}
    (htype : type.enumType = none) (he : ∀ v, e ≠ .parameter v) : (Compiled.value e type).Typed s :=
  ⟨.of_free htype, fun v hv => absurd hv (he v)⟩

theorem DataType.comparable_enum {type : DataType} (h : DataType.enum.comparable type = true) :
    type = .enum ∨ type = .string ∨ type = .null := by
  cases type <;> simp_all +decide

theorem EnumType.value_ordinal {t : EnumType} {member : String} {v : Value}
    (hstorage : t.storage = .ordinal) (h : t.value member = .ok v) :
    ∃ n, t.ordinal? member = some n ∧ v = .long n := by
  unfold value at h
  rw [hstorage] at h
  cases hn : t.ordinal? member with
  | none => simp [hn] at h
  | some n =>
      rw [hn] at h
      exact ⟨n, rfl, (Except.ok.inj h).symm⟩

/-- The element of a collection of primitive values is of no enum type. -/
theorem Scope.elementPath?_coherent {scope : Scope} {p : AttributePath}
    (hp : scope.elementPath? = some p) :
    p.type.Coherent := by
  cases scope with
  | entity | complexCollection => cases hp
  | primitiveCollection =>
      obtain rfl := Option.some.inj hp
      exact .of_free rfl

namespace Schema

variable {s : Schema}

theorem coerceTo_member {l : Literal} {type : ValueType} {v : Value} (htype : type.dataType = .enum)
    (h : s.coerceTo l type = .ok v) :
    ∃ t, type.enumType.bind s.enumType? = some t ∧ t.value l.text = .ok v := by
  unfold coerceTo at h
  simp only [htype] at h
  split at h
  · cases ht : type.enumType.bind s.enumType? with
    | none => simp [ht, Literal.refuse] at h
    | some t =>
        rw [ht] at h
        exact ⟨t, rfl, h⟩
  · cases h

theorem coerceMember_ok {written member : String} {v : Value} {type : ValueType}
    (h : s.coerceMember written member none = .ok (v, type)) :
    ∃ t ∈ s.enumTypes, t.value member = .ok v ∧ type = .enumeration t.name := by
  unfold coerceMember at h
  cases ht : s.enumType? written with
  | none =>
      rw [ht] at h
      cases h
  | some t =>
      rw [ht] at h
      have hvalue : (do return (← t.value member, ValueType.enumeration t.name)) =
        Except.ok (v, type) := h
      obtain ⟨value, hmember, hvalue⟩ := Checked.bind_ok.mp hvalue
      obtain ⟨rfl, rfl⟩ := Prod.mk.inj (Checked.pure_ok.mp hvalue)
      exact ⟨t, List.mem_of_find?_eq_some ht, hmember, rfl⟩

/-- No two enum types of a valid schema have one name. -/
theorem enumType_unique (hs : s.fault? = none) {t t' : EnumType} (ht : t ∈ s.enumTypes)
    (ht' : t' ∈ s.enumTypes) (hname : t'.name = t.name) : t' = t := by
  have hnodup : (s.enumTypes.map (·.name)).Nodup := (List.nodup_append.mp (typeNames_nodup hs)).2.1
  exact List.inj_on_of_nodup_map hnodup ht' ht hname

/-! ## Operands

A parameter becomes an operand in one of two ways: from a literal, which is read as the type beside
it, or from a member that was looked up when it was compiled (`bound_left`, `bound_right`). -/

section

variable {x y z : Compiled} {o l r : Operand}

/-- A literal is bound as a value of the type beside it, or of no enum type if there is none. -/
theorem operand_literal {l : Literal} {beside : Option ValueType}
    (h : s.operand (.literal l) beside = .ok o) (hnull : o.isNull = false) :
    ∃ v, o.expr = .parameter v ∧
      ((beside = some o.type ∧ s.coerceTo l o.type = .ok v) ∨
        ((∀ t, beside = some t → t.dataType = .null) ∧ o.type.enumType = none)) := by
  rcases literalOperand_ok h with ⟨-, rfl⟩ | ⟨hl, v, hv, rfl⟩
  · cases hnull
  · refine ⟨v, rfl, ?_⟩
    unfold coerce at hv
    rw [if_neg (by simp [hl])] at hv
    cases beside with
    | none => exact .inr ⟨nofun, rfl⟩
    | some t =>
        by_cases ht : t.dataType = .null
        · right
          refine ⟨by rintro _ ⟨⟩; exact ht, ?_⟩
          simp [Option.filter, ht, ValueType.of]
        · left
          simp only [if_neg ht] at hv
          simp [Option.filter, ht, hv]

/-- The type of an operand is coherent if the type `beside` it is. -/
theorem operand_coherent {beside : Option ValueType} (hx : x.Typed s)
    (hbeside : ∀ t, beside = some t → t.Coherent) (h : s.operand x beside = .ok o) :
    o.type.Coherent := by
  cases x with
  | literal l =>
      cases hnull : o.isNull with
      | true =>
          rcases literalOperand_ok h with ⟨-, rfl⟩ | ⟨-, v, -, rfl⟩
          · cases beside with
            | none => exact .of_free rfl
            | some t => exact hbeside t rfl
          · cases hnull
      | false =>
          obtain ⟨v, -, ⟨hsame, -⟩ | ⟨-, hfree⟩⟩ := operand_literal h hnull
          · exact hbeside o.type hsame
          · exact .of_free hfree
  | value e type | member e path =>
      obtain rfl := Except.ok.inj h
      exact hx.1
  | predicate e | subquery e =>
      obtain rfl := Except.ok.inj h
      exact .of_free rfl
  | typeName => cases h

/-- Operators give values of no enum type. -/
theorem compose_typed {op : BinaryOperator} (h : s.compose op x y = .ok z) : z.Typed s := by
  cases op with
  | compare op =>
      have hcondition := s.compare_isCondition h
      cases z with
      | predicate | subquery => trivial
      | value | member | literal | typeName => cases hcondition
  | arith op =>
      obtain ⟨_, _, _, -, -, -, -, -, rfl⟩ := calculate_ok h
      exact Compiled.typed_of_free rfl fun _ => nofun
  | and | or =>
      obtain ⟨_, _, -, -, rfl⟩ := Compiled.combine_ok.mp h
      trivial
  | has => cases h

theorem composeUnary_typed {op : UnaryOperator} (h : x.composeUnary op = .ok z) : z.Typed s := by
  cases op with
  | not =>
      obtain ⟨_, -, rfl⟩ := Compiled.negateCondition_ok.mp h
      trivial
  | minus =>
      obtain ⟨_, _, -, rfl, -⟩ := Compiled.negate_ok h
      trivial

/-- Built-in functions give values of no enum type, except that rounding keeps the type of its
argument. -/
theorem Calls.typed {family : BuiltIn.Family} {xs : List Compiled} (h : s.Calls family xs z)
    (hxs : ∀ x ∈ xs, x.Typed s) : z.Typed s := by
  cases h with
  | matching => trivial
  | rounding ho =>
      have hx := hxs _ (List.mem_singleton_self _)
      exact ⟨operand_coherent hx (by rintro _ ⟨⟩) ho, fun _ => nofun⟩
  | ofText | indexOf | rest | substring | concat | field | instantPart | now | cast =>
      exact Compiled.typed_of_free rfl fun _ => nofun

/-- `s.BoundBeside type o v`: beside a value of `type`, the operand `o` binds `v`, which was read
from a literal as a value of `type` or looked up as a member of the type of `o`. -/
def BoundBeside (s : Schema) (type : ValueType) (o : Operand) (v : Value) : Prop :=
  (o.type = type ∧ ∃ l, s.coerceTo l type = .ok v) ∨
    ∃ written member, s.coerceMember written member none = .ok (v, o.type)

/-- A parameter that was not a literal was looked up by `coerceMember`. -/
theorem operand_member {beside : Option ValueType} {v : Value} (hx : x.Typed s)
    (hliteral : ∀ l, x ≠ .literal l) (h : s.operand x beside = .ok o) (hv : o.expr = .parameter v)
    (hboolean : o.type.dataType ≠ .boolean) :
    ∃ written member, s.coerceMember written member none = .ok (v, o.type) := by
  cases x with
  | literal l => exact absurd rfl (hliteral l)
  | value e type =>
      obtain rfl := Except.ok.inj h
      exact hx.2 v hv
  | member e path =>
      obtain rfl := Except.ok.inj h
      exact absurd hv (hx.2 v)
  | predicate e | subquery e =>
      obtain rfl := Except.ok.inj h
      exact absurd rfl hboolean
  | typeName => cases h

theorem bound_right {v : Value} (hy : y.Typed s) (h : s.operands x y = .ok (l, r))
    (hl : l.isNull = false) (hr : r.isNull = false) (hv : r.expr = .parameter v)
    (henum : l.type.dataType = .enum) (hboolean : r.type.dataType ≠ .boolean) :
    s.BoundBeside l.type r v := by
  obtain ⟨-, hright⟩ := operands_ok.mp h
  simp only [hl, Bool.false_eq_true, if_false] at hright
  by_cases hliteral : ∃ w, y = .literal w
  · obtain ⟨w, rfl⟩ := hliteral
    obtain ⟨v', hv', ⟨hsame, hcoerce⟩ | ⟨hnull, -⟩⟩ := operand_literal hright hr
    · obtain rfl := Expr.parameter.inj (hv'.symm.trans hv)
      obtain hsame := Option.some.inj hsame
      exact .inl ⟨hsame.symm, w, hsame ▸ hcoerce⟩
    · rw [hnull l.type rfl] at henum
      cases henum
  · exact .inr (operand_member hy (fun w hw => hliteral ⟨w, hw⟩) hright hv hboolean)

theorem bound_left {v : Value} (hx : x.Typed s) (h : s.operands x y = .ok (l, r))
    (hl : l.isNull = false) (hr : r.isNull = false) (hv : l.expr = .parameter v)
    (henum : r.type.dataType = .enum) (hsome : r.type.enumType.isSome)
    (hboolean : l.type.dataType ≠ .boolean) : s.BoundBeside r.type l v := by
  obtain ⟨hleft, hright⟩ := operands_ok.mp h
  by_cases hliteral : ∃ w, x = .literal w
  · obtain ⟨w, rfl⟩ := hliteral
    obtain ⟨v', hv', hread⟩ := operand_literal hleft hl
    obtain rfl := Expr.parameter.inj (hv'.symm.trans hv)
    cases y with
    | value e type | member e path =>
        obtain rfl := Except.ok.inj hright
        obtain ⟨hsame, hcoerce⟩ | ⟨hnull, -⟩ := hread
        · obtain hsame := Option.some.inj hsame
          exact .inl ⟨hsame.symm, w, hsame ▸ hcoerce⟩
        · rw [hnull _ rfl] at henum
          cases henum
    | literal w' =>
        -- Of two literals the one on the left is read first, and by its form.
        obtain ⟨hsame, -⟩ | ⟨-, hnone⟩ := hread
        · cases hsame
        · simp only [hl, Bool.false_eq_true, if_false] at hright
          obtain ⟨-, -, ⟨hsame, -⟩ | ⟨-, hnone'⟩⟩ := operand_literal hright hr
          · rw [← Option.some.inj hsame, hnone] at hsome
            cases hsome
          · rw [hnone'] at hsome
            cases hsome
    | predicate e | subquery e =>
        obtain rfl := Except.ok.inj hright
        cases hsome
    | typeName => cases hright
  · exact .inr (operand_member hx (fun w hw => hliteral ⟨w, hw⟩) hleft hv hboolean)

end

/-! ## Storage

`Schema.Respects` says what a comparison may put beside an operand of an enum type with ordinal
storage. It is the strongest statement that the check of data types allows: a text that is not
bound is not excluded by it. -/

/-- `s.Respects o other`: if `o` is of an enum type `t` with ordinal storage, `other` is of no
other enum type, and of no data type but `enum`, `string` and `null`. If it is bound, it is the
number of a member of `t`, unless the name of `t` leads to another enum type. -/
def Respects (s : Schema) (o other : Operand) : Prop :=
  ∀ t ∈ s.enumTypes, t.storage = .ordinal → o.type.enumType = some t.name →
    (∀ E, other.type.enumType = some E → E = t.name) ∧
      other.type.dataType ∈ [.enum, .string, .null] ∧
    ∀ v, other.expr = .parameter v → other.type.dataType = .enum ∧
      ((∃ member n, t.ordinal? member = some n ∧ v = .long n) ∨
        ∃ t', s.enumType? t.name = some t' ∧ t' ≠ t)

/-- What `BoundBeside` binds for an enum type with ordinal storage is the number of a member. -/
theorem BoundBeside.ordinal {type : ValueType} {o : Operand} {v : Value} {t : EnumType}
    (hs : s.fault? = none) (ht : t ∈ s.enumTypes) (hstorage : t.storage = .ordinal)
    (hname : type.enumType = some t.name) (htype : type.dataType = .enum)
    (hsame : ∀ E, o.type.enumType = some E → E = t.name) (h : s.BoundBeside type o v) :
    o.type.dataType = .enum ∧
      ((∃ member n, t.ordinal? member = some n ∧ v = .long n) ∨ ∃ t', s.enumType? t.name = some t' ∧
        t' ≠ t) := by
  obtain ⟨heq, l, hcoerce⟩ | ⟨written, member, hmember⟩ := h
  · refine ⟨heq ▸ htype, ?_⟩
    obtain ⟨t', hfound, hvalue⟩ := coerceTo_member htype hcoerce
    rw [hname, Option.bind_some] at hfound
    by_cases hsame : t' = t
    · subst hsame
      obtain ⟨n, hn, rfl⟩ := EnumType.value_ordinal hstorage hvalue
      exact .inl ⟨l.text, n, hn, rfl⟩
    · exact .inr ⟨t', hfound, hsame⟩
  · obtain ⟨t', ht', hvalue, heq⟩ := coerceMember_ok hmember
    rw [heq] at hsame ⊢
    -- The member is of the same enum type, for no other one has its name.
    obtain rfl := enumType_unique hs ht ht' (hsame t'.name rfl)
    obtain ⟨n, hn, rfl⟩ := EnumType.value_ordinal hstorage hvalue
    exact ⟨rfl, .inl ⟨member, n, hn, rfl⟩⟩

theorem respects_of {o other : Operand} (hs : s.fault? = none)
    (hcoherent : o.type.Coherent)
    (hcomparable : o.type.dataType.comparable other.type.dataType = true)
    (hsame : ∀ E E', o.type.enumType = some E → other.type.enumType = some E' → E = E')
    (hbound : o.type.enumType.isSome → ∀ v, other.expr = .parameter v →
      other.type.dataType ≠ .boolean →
      s.BoundBeside o.type other v) : s.Respects o other := by
  intro t ht hstorage hname
  have hsome : o.type.enumType.isSome := by
    rw [hname]
    rfl
  have hdata := hcoherent hsome
  rw [hdata] at hcomparable
  have hother := DataType.comparable_enum hcomparable
  have hE (E : String) (hE : other.type.enumType = some E) : E = t.name := (hsame _ _ hname hE).symm
  refine ⟨hE, by simpa using hother, ?_⟩
  intro v hv
  have hboolean : other.type.dataType ≠ .boolean := by
    rcases hother with h | h | h <;> simp [h]
  exact (hbound hsome v hv hboolean).ordinal hs ht hstorage hname hdata hE

/-! ## Attributes

An attribute has the type that `attributeType` gives it, which is coherent. -/

/-- The leaf of a resolution has the type that `attributeType` gives to some attribute. -/
theorem Resolves.leaf_type {p : Place} {index : Nat} {names : List String} {r : Resolution}
    (h : s.Resolves p index names r) {leaf : AttributePath} (hleaf : r.leaf? = some leaf) :
    ∃ a, s.attributeType a = .ok leaf.type := by
  induction h with
  | nil => cases hleaf
  | column _ _ htype =>
      obtain rfl := Option.some.inj hleaf
      exact ⟨_, htype⟩
  | enter _ _ _ _ _ ih => exact ih hleaf
  | hop _ _ _ ih => exact ih hleaf

theorem attributeType_coherent {a : Attribute} {type : ValueType}
    (h : s.attributeType a = .ok type) : type.Coherent := by
  obtain ⟨dataType, hdata, rfl⟩ := attributeType_ok.mp h
  cases hkind : a.kind with
  | enum written =>
      intro _
      rw [Attribute.dataType?, hkind] at hdata
      exact (Option.some.inj hdata).symm
  | primitive | complex | collection =>
      apply ValueType.Coherent.of_free
      simp [Attribute.enumType?, hkind]

theorem denote_coherent {c : Context} {a : Address} {path : Path} {anchor : Level}
    {p : AttributePath} (h : s.denote c a path = .ok (anchor, .attribute p)) : p.type.Coherent := by
  obtain ⟨start, names, tail, -, -, hdenotes⟩ := denote_ok.mp h
  cases hdenotes with
  | leaf hr =>
      obtain ⟨a, htype⟩ := (resolve_ok.mp hr).2.leaf_type rfl
      exact attributeType_coherent htype

end Schema

/-! ## Filters

By induction along `Filter.Reaches`: what holds of the parts that the compiler comes to is kept
beside what they are compiled to (`Filter.Stored`), and each comparison relates to the sides that
it was written with (`Filter.ComparesOperands`). -/

namespace Filter

variable {s : Schema} {type : EntityType} {F f : Filter} {c : Context} {a : Address} {x : Compiled}
    {n m : Nat}

/-- `F.CompilesTo s type f x`: `f` is compiled to `x` somewhere that the compiler comes to it in
`F`. -/
def CompilesTo (s : Schema) (type : EntityType) (F f : Filter) (x : Compiled) : Prop :=
  ∃ c a n m, F.Reaches s type c a f ∧ (f.compile s c a).run n = .ok (x, m)

/-- `F` has a comparison `op` whose sides are compiled to the operands `l` and `r`, with literals
read as values of the type beside them. Neither is null, and `checkComparable` lets them be
compared. -/
def ComparesOperands (s : Schema) (type : EntityType) (F : Filter) (l : Operand) (op : Comparison)
    (r : Operand) : Prop :=
  ∃ left right x y, (∃ c a, F.Reaches s type c a (.binary left (.compare op) right)) ∧
    F.CompilesTo s type left x ∧ F.CompilesTo s type right y ∧ s.operands x y = .ok (l, r) ∧
    l.isNull = false ∧ r.isNull = false ∧ l.type.checkComparable r.type = .ok ()

/-- `F` compares the operands, and each of them `Respects` how the members of the other one are
stored. -/
def ComparesStored (s : Schema) (type : EntityType) (F : Filter) (l : Operand) (op : Comparison)
    (r : Operand) : Prop :=
  F.ComparesOperands s type l op r ∧ s.Respects l r ∧ s.Respects r l

/-- What is known of a part `f` and of what it is compiled to. -/
structure Stored (s : Schema) (type : EntityType) (F f : Filter) (x : Compiled) : Prop where
  compiles : F.CompilesTo s type f x
  typed : x.Typed s
  comparing : x.Comparing (F.ComparesStored s type)

/-- What is put together of `Typed` parts is `Typed`. -/
theorem Assembled.typed (h : f.Assembled s (F.Stored s type) c a x) : x.Typed s := by
  cases h with
  | binary _ _ _ _ hz => exact Schema.compose_typed hz
  | unary _ hz => exact Schema.composeUnary_typed hz
  | element _ _ hp => exact ⟨Scope.elementPath?_coherent hp, fun _ => nofun⟩
  | leaf _ hfound => exact ⟨Schema.denote_coherent hfound, fun _ => nofun⟩
  | count => exact Compiled.typed_of_free rfl fun _ => nofun
  | nonempty | any | all | literal | typeName => trivial
  | function _ hz =>
      obtain ⟨_, _, _, -, -, -, -, -, rfl⟩ := s.callCustom_ok hz
      exact Compiled.typed_of_free rfl fun _ => nofun
  | call hxs hz =>
      apply (s.callBuiltIn_ok hz).typed
      intro y hy
      obtain ⟨g, -, hy⟩ := compiled_mem hxs hy
      exact hy.typed
  | enumMember hv =>
      constructor
      · obtain ⟨_, -, -, rfl⟩ := s.coerceMember_ok hv
        exact fun _ => rfl
      · rintro v ⟨⟩
        exact ⟨_, _, hv⟩

/-- The operands of a comparison of `Stored` sides respect each other. -/
theorem Stored.compared (hs : s.fault? = none) {left right : Filter} {op : Comparison}
    {y : Compiled} {l r : Operand}
    (hreaches : F.Reaches s type c a (.binary left (.compare op) right))
    (hx : F.Stored s type left x) (hy : F.Stored s type right y) (h : s.operands x y = .ok (l, r))
    (hl : l.isNull = false) (hr : r.isNull = false)
    (hcheck : l.type.checkComparable r.type = .ok ()) : F.ComparesStored s type l op r := by
  obtain ⟨hleft, hright⟩ := Schema.operands_ok.mp h
  obtain ⟨hcomparable, hsame⟩ := ValueType.checkComparable_ok.mp hcheck
  have hltype := Schema.operand_coherent hx.typed (fun _ => hy.typed.type?) hleft
  have hrtype : r.type.Coherent := by
    apply Schema.operand_coherent hy.typed _ hright
    simpa [hl] using hltype
  refine ⟨⟨left, right, x, y, ⟨c, a, hreaches⟩, hx.compiles, hy.compiles, h, hl, hr, hcheck⟩,
    ?_, ?_⟩
  · apply Schema.respects_of hs hltype hcomparable hsame
    intro hsome v hv hboolean
    exact Schema.bound_right hy.typed h hl hr hv (hltype hsome) hboolean
  -- What holds of the left operand beside the right one holds the other way round as well.
  · rw [DataType.comparable_comm] at hcomparable
    apply Schema.respects_of hs hrtype hcomparable fun E E' hE hE' => (hsame E' E hE' hE).symm
    intro hsome v hv hboolean
    exact Schema.bound_left hx.typed h hl hr hv (hrtype hsome) hsome hboolean

/-- Whatever a part is compiled to, `Stored` holds of it. -/
theorem Reaches.stored (hs : s.fault? = none) (h : F.Reaches s type c a f)
    (hx : (f.compile s c a).run n = .ok (x, m)) : F.Stored s type f x := by
  refine h.induction_run (P := F.Stored s type) ?_ ?_ hx
  · intro f c a x n m hreaches hrun h
    refine ⟨⟨c, a, n, m, hreaches, hrun⟩, h.typed, h.comparing (fun hx => hx.comparing) ?_⟩
    rintro left right op y z l r rfl hy hz
    exact hy.compared hs hreaches hz
  · intro f c a nav x e e' n m hreaches hrun _ hx he hencloses
    have he := hx.comparing e (Compiled.expr?_of_predicate he)
    exact ⟨⟨c, a, n, m, hreaches, hrun⟩, trivial,
      Compiled.comparing_of rfl (.of_encloses hencloses he)⟩

end Filter

namespace Schema

variable {s : Schema} {entity : String} {f : Filter} {e : Expr}

/-- **Members that are stored by number, in comparisons.** Every comparison in a compiled filter is
one of operands that the filter compares. What the compiler binds beside an operand of an enum type
with ordinal storage is the number of a member, and never a text. What it does not bind may be a
text for all that: `checkComparable` lets the type of strings stand beside every enum type, however
this is stored. -/
theorem compile_comparisons (hs : s.fault? = none) (h : s.compile entity f = .ok e) :
    ∃ type, s.entityType? entity = some type ∧
      e.Comparisons fun l op r =>
        f.ComparesOperands s type l op r ∧ s.Respects l r ∧ s.Respects r l := by
  obtain ⟨type, htype, hon⟩ := compile_ok.mp h
  obtain ⟨x, m, hx, he⟩ := compileOn_ok.mp hon
  have hreaches : f.Reaches s type (.ofEntity type) [] f := .whole
  exact ⟨type, htype, (hreaches.stored hs hx).comparing e (Compiled.expr?_of_predicate he)⟩

/-- Cars with names, and with colors that are stored by number. -/
def painted : Schema where
  namespaceName := none
  entityTypes := [
    { name := "Car", table := ⟨none, "cars"⟩, keys := ["id"],
      attributes := [⟨"Name", some "name", true, {}, .primitive .string⟩,
        ⟨"Color", some "color", true, {}, .enum "Color"⟩], associations := [] }]
  complexTypes := []
  enumTypes := [⟨"Color", [⟨"Red", none⟩, ⟨"Blue", none⟩], .ordinal⟩]
  functions := []

/-- Whether a car has the color, which is written as a text. -/
def paintedIn (color : String) : Filter :=
  .binary (.member [.property "Color"]) (.compare .eq) (.literal ⟨color, .string⟩)

theorem comparisons_of_enum_column :
    painted.fault? = none ∧ ∃ e, painted.compile "Car" (paintedIn "Blue") = .ok e ∧
    ∃ type, painted.entityType? "Car" = some type ∧
      e.Comparisons fun l op r => (paintedIn "Blue").ComparesOperands painted type l op r ∧
        painted.Respects l r ∧ painted.Respects r l :=
  ⟨by decide, _, rfl, compile_comparisons (by decide) rfl⟩

/-- `Color'Red' eq Name`: the number of a member is compared with a text that the database reads. -/
example :
    painted.compile "Car" (.binary (.enumMember "Color" "Red") (.compare .eq)
      (.member [.property "Name"])) =
    .ok (.binary (.parameter (.long 0)) (.compare .eq) (.qualified "t0" "name")) :=
  rfl

end Schema

end FilterSql
