import FilterSql.Proofs.Schema.Names
import FilterSql.Schema.Validity

/-!
# Where names lead

`Schema.Follows` says of a resolution that it is the one of its names, without a look at how
`Schema.resolve` finds it. Each hop takes its own name and the names of the complex attributes
through which it is reached, and these have their columns in the table that the hop leaves. The
names behind the last hop are those of an attribute. So a column lead is made of the attributes
crossed since the hop before it, and of no others (`Schema.resolve_follows`).
-/

namespace FilterSql

namespace Schema

/-! ## Paths

`IsHop` and `IsLeaf` judge one hop and one attribute, from the rows that the hops in front lead to
and the number of names that these have taken. -/

/-- `Crosses top names leads t`: the complex attributes `names` lead from `top` into one another
and to `t`, and `leads` is what each puts in front of columns. -/
inductive Crosses (s : Schema) (top : StructuredType) :
    List String → List String → StructuredType → Prop where
  | here : Crosses s top [] [] top
  | into {names leads : List String} {t : StructuredType} {name type : String} {a : Attribute}
      {lead : Option String} {c : ComplexType} (h : Crosses s top names leads t)
      (ha : t.attribute? name = some a) (hkind : a.kind = .complex type lead)
      (hc : s.complexType? type = some c) :
      Crosses s top (names ++ [name]) (leads ++ [lead.getD ""]) (.complex c)

/-- The hop from the rows of `source`, to which the names up to `start` have led. It takes the
names of the complex attributes that it crosses and its own, and its column lead is theirs,
joined. -/
inductive IsHop (s : Schema) (names : List String) (start : Nat) (source : Scope)
    (h : Hop) : Prop where
  | across {top owner : StructuredType} {crossed leads : List String}
      (htop : source.structured? = some top) (hcrosses : s.Crosses top crossed leads owner)
      (hnames : names.drop start = crossed ++ h.name :: names.drop h.stop)
      (hstop : h.stop = start + crossed.length + 1) (hstep : s.HopsTo owner h.name h.target h.kind)
      (hlead : h.columnLead = String.join leads)

/-- The type of the values of `a`. An enum type goes by the name that it is declared with. -/
def HasType (s : Schema) (a : Attribute) (type : ValueType) : Prop :=
  match a.kind with
  | .primitive dataType => type = ⟨dataType, a.facets, a.nullable, none⟩
  | .enum name => ∃ declared, s.enumType? name = some declared ∧
      type = ⟨.enum, a.facets, a.nullable, some declared.name⟩
  | .complex .. | .collection .. => False

/-- The attribute of the rows of `source`, to which the names up to `start` have led. It takes all
names that are left, and its column has the leads of the complex attributes among them. -/
inductive IsLeaf (s : Schema) (names : List String) (start : Nat) (source : Scope)
    (leaf : AttributePath) : Prop where
  | across {top owner : StructuredType} {crossed leads : List String} {name : String}
      {a : Attribute} (htop : source.structured? = some top)
      (hcrosses : s.Crosses top crossed leads owner) (hnames : names.drop start = crossed ++ [name])
      (ha : owner.attribute? name = some a) (helements : leaf.elements = names.drop start)
      (hcolumn : leaf.column = String.join leads ++ a.column) (htype : s.HasType a leaf.type)

end Schema

namespace Hop

/-- The number of names that `hops` have taken, which is where the last of them stops. -/
def namesBehind (hops : List Hop) : Nat :=
  (hops.getLast?.map stop).getD 0

/-- The rows that `hops` lead to, or those of `scope` if there are none. -/
def rowsBehind (scope : Scope) (hops : List Hop) : Scope :=
  (hops.getLast?.map target).getD scope

end Hop

namespace Schema

/-- `r` is the resolution of `names` from the rows of `scope`: the stops increase, the names end
with a hop exactly if there is no attribute, and every hop and the attribute are what the names
say. -/
structure Follows (s : Schema) (scope : Scope) (names : List String) (r : Resolution) : Prop where
  increasing : (r.hops.map Hop.stop).Pairwise (· < ·)
  last : (∃ h, r.hops.getLast? = some h ∧ h.stop = names.length) ↔ r.leaf? = none
  hops : ∀ front h back, r.hops = front ++ h :: back →
    s.IsHop names (Hop.namesBehind front) (Hop.rowsBehind scope front) h
  leaf : ∀ leaf, r.leaf? = some leaf →
    s.IsLeaf names (Hop.namesBehind r.hops) (Hop.rowsBehind scope r.hops) leaf

variable {s : Schema} {scope : Scope} {p : Place} {index : Nat} {names : List String}
    {r : Resolution} {h : Hop} {back : List Hop} {leaf : AttributePath}

/-! ## Places

While names are resolved, a `Place` gathers what has been crossed since the last hop. -/

/-- `p` is where its elements lead from its scope, and has their column leads. -/
def IsWithin (s : Schema) (p : Place) : Prop :=
  ∀ owner, p.owner? = some owner → ∃ top leads, p.scope.structured? = some top ∧
    s.Crosses top p.elements leads owner ∧ p.columnLead = String.join leads

theorem isWithin_start : s.IsWithin (.start scope) :=
  fun owner howner => ⟨owner, [], howner, .here, rfl⟩

theorem isWithin_enter {owner : StructuredType} {a : Attribute} {name type : String}
    {lead : Option String} {c : ComplexType} (hp : s.IsWithin p) (howner : p.owner? = some owner)
    (ha : owner.attribute? name = some a) (hkind : a.kind = .complex type lead)
    (hc : s.complexTypeOf owner.name type = .ok c) :
    s.IsWithin (p.enter name lead c) := by
  obtain ⟨top, leads, htop, hcrosses, hlead⟩ := hp owner howner
  rintro _ ⟨⟩
  refine ⟨top, leads ++ [lead.getD ""], htop, .into hcrosses ha hkind (complexTypeOf_some hc), ?_⟩
  simp [Place.enter, hlead]

/-! ## One hop

Induction on `Schema.Resolves` up to the first hop, or to the attribute if there is none. -/

/-- The first hop crosses the elements of the place and the names in front of its own. -/
theorem Resolves.first (hr : s.Resolves p index names r) (hp : s.IsWithin p)
    (hhops : r.hops = h :: back) :
    ∃ top owner crossed leads, p.scope.structured? = some top ∧
      s.Crosses top (p.elements ++ crossed) leads owner ∧
      names = crossed ++ h.name :: names.drop (h.stop - index) ∧
      h.stop = index + crossed.length + 1 ∧
      s.HopsTo owner h.name h.target h.kind ∧ h.columnLead = String.join leads := by
  -- In front of the first hop complex types are entered, each of which adds its name and its lead.
  induction hr with
  | nil | column => cases hhops
  | @enter p index name next type rest owner a lead c r howner ha hkind hc hrest ih =>
      obtain ⟨top, last, crossed, leads, htop, hcrosses, hnames, hstop, hstep, hlead⟩ :=
        ih (isWithin_enter hp howner ha hkind hc) hhops
      have hdrop : h.stop - index = h.stop - (index + 1) + 1 := by omega
      refine ⟨top, last, name :: crossed, leads, htop, ?_, ?_, ?_, hstep, hlead⟩
      · simpa [Place.enter] using hcrosses
      · rw [hdrop, List.drop_succ_cons, List.cons_append, ← hnames]
      · rw [hstop, List.length_cons]
        omega
  | @hop p index name rest owner target kind r howner hstep hrest ih =>
      obtain ⟨rfl, rfl⟩ := List.cons.inj hhops
      obtain ⟨top, leads, htop, hcrosses, hlead⟩ := hp owner howner
      have hdrop : index + 1 - index = 1 := by omega
      exact ⟨top, owner, [], leads, htop, by simpa using hcrosses, by simp [hdrop], rfl,
        hstep, hlead⟩

/-- If there is no hop, the names are those of an attribute behind the elements of the place. -/
theorem Resolves.final (hr : s.Resolves p index names r) (hp : s.IsWithin p) (hhops : r.hops = [])
    (hleaf : r.leaf? = some leaf) :
    ∃ top owner crossed leads name a type, p.scope.structured? = some top ∧
      s.Crosses top (p.elements ++ crossed) leads owner ∧ names = crossed ++ [name] ∧
      owner.attribute? name = some a ∧ s.attributeType a = .ok type ∧
      leaf = ⟨p.elements ++ names, String.join leads ++ a.column, type⟩ := by
  -- Without a hop all names but the last one enter complex types.
  induction hr with
  | nil => cases hleaf
  | @column p index name owner a type howner ha htype =>
      obtain ⟨top, leads, htop, hcrosses, hlead⟩ := hp owner howner
      refine ⟨top, owner, [], leads, name, a, type, htop, by simpa using hcrosses, rfl, ha,
        htype, ?_⟩
      rw [← Option.some.inj hleaf, hlead]
  | @enter p index name next type rest owner a lead c r howner ha hkind hc hrest ih =>
      obtain ⟨top, last, crossed, leads, lastName, b, dataType, htop, hcrosses, hnames, hb,
        htype, rfl⟩ :=
        ih (isWithin_enter hp howner ha hkind hc) hhops hleaf
      refine ⟨top, last, name :: crossed, leads, lastName, b, dataType, htop, ?_, ?_, hb, htype, ?_⟩
      · simpa [Place.enter] using hcrosses
      · rw [List.cons_append, ← hnames]
      · simp [Place.enter]
  | hop => cases hhops

/-- Only the empty list of names resolves to no hop and no attribute. -/
theorem Resolves.names_nil (hr : s.Resolves p index names r) (hhops : r.hops = [])
    (hleaf : r.leaf? = none) :
    names = [] := by
  induction hr with
  | nil => rfl
  | column => cases hleaf
  | enter howner ha hkind hc hrest ih => cases ih hhops hleaf
  | hop => cases hhops

/-! ## All hops

Behind a hop, resolution starts over from its target, so what holds of the first hop holds of
each. -/

theorem Resolves.increasing (hr : s.Resolves p index names r) :
    (r.hops.map Hop.stop).Pairwise (· < ·) := by
  induction hr with
  | nil | column => exact .nil
  | enter _ _ _ _ _ ih => exact ih
  | hop howner hstep hrest ih =>
      refine List.pairwise_cons.mpr ⟨?_, ih⟩
      intro n hn
      obtain ⟨h, hh, rfl⟩ := List.mem_map.mp hn
      obtain ⟨front, back, hhops⟩ := List.append_of_mem hh
      exact (hrest.resume hhops).1

/-- Behind the hops in front, the names that are left resolve from the rows that those hops lead
to. -/
theorem Resolves.behind (hr : s.Resolves (.start scope) 0 names r) {front : List Hop}
    (hhops : r.hops = front ++ back) :
    Hop.namesBehind front ≤ names.length ∧
    s.Resolves (.start (Hop.rowsBehind scope front)) (Hop.namesBehind front)
      (names.drop (Hop.namesBehind front)) ⟨back, r.leaf?⟩ := by
  rcases List.eq_nil_or_concat front with rfl | ⟨front, h, rfl⟩
  · obtain rfl : r.hops = back := hhops
    exact ⟨Nat.zero_le _, hr⟩
  · rw [List.concat_append] at hhops
    obtain ⟨-, hle, hresumed⟩ := hr.resume hhops
    have hlast : (front.concat h).getLast? = some h := by simp
    rw [Hop.namesBehind, Hop.rowsBehind, hlast]
    exact ⟨by simpa using hle, by simpa using hresumed⟩

/-! ## Enum types

That an enum type is found is the only use that the law makes of validity. -/

theorem declares_of_valid (hs : s.fault? = none) {owner name : String} {kind : TypeKind}
    (h : (owner, kind, name) ∈ s.references) : s.declares kind name = true := by
  unfold fault? at hs
  split at hs
  next => cases hs
  next =>
    rw [Option.map_eq_none_iff, List.find?_eq_none] at hs
    simpa using hs _ h

theorem reference_mem {t : StructuredType} {a : Attribute} {kind : TypeKind} {name : String}
    (ht : t ∈ s.structuredTypes) (ha : a ∈ t.attributes)
    (hreference : a.reference? = some (kind, name)) :
    (t.name, kind, name) ∈ s.references := by
  have hmember : (kind, name) ∈ memberReferences t.attributes t.associations :=
    List.mem_append_left _ (List.mem_filterMap.mpr ⟨a, ha, hreference⟩)
  simp only [references, List.mem_append]
  left
  rcases List.mem_append.mp ht with ht | ht <;> obtain ⟨type, htype, rfl⟩ := List.mem_map.mp ht
  · exact .inl (List.mem_flatMap.mpr ⟨type, htype, List.mem_map_of_mem hmember⟩)
  · exact .inr (List.mem_flatMap.mpr ⟨type, htype, List.mem_map_of_mem hmember⟩)

/-- In a valid schema the type that is known of an attribute is the one that `HasType` says. -/
theorem hasType_attributeType (hs : s.fault? = none) {t : StructuredType} {a : Attribute}
    {type : ValueType} (ht : t ∈ s.structuredTypes) (ha : a ∈ t.attributes)
    (htype : s.attributeType a = .ok type) : s.HasType a type := by
  obtain ⟨data, hdata, rfl⟩ := attributeType_ok.mp htype
  unfold HasType
  cases hkind : a.kind with
  | primitive dataType =>
      have hdataType : dataType = data := by simpa [Attribute.dataType?, hkind] using hdata
      simp [Attribute.enumType?, hkind, hdataType]
  | enum name =>
      have hdeclares : s.declares .enum name = true :=
        declares_of_valid hs (reference_mem ht ha (by rw [Attribute.reference?, hkind]))
      obtain ⟨declared, hdeclared⟩ := Option.isSome_iff_exists.mp hdeclares
      have hdataType : DataType.enum = data := by simpa [Attribute.dataType?, hkind] using hdata
      refine ⟨declared, hdeclared, ?_⟩
      simp [Attribute.enumType?, hkind, enumName, hdeclared, hdataType]
  | complex | collection => simp [Attribute.dataType?, hkind] at hdata

theorem Crosses.mem {top owner : StructuredType} {crossed leads : List String}
    (h : s.Crosses top crossed leads owner) (htop : top ∈ s.structuredTypes) :
    owner ∈ s.structuredTypes := by
  cases h with
  | here => exact htop
  | into _ _ _ hc =>
      exact List.mem_append_right _ (List.mem_map_of_mem (List.mem_of_find?_eq_some hc))

theorem structured_mem {top : StructuredType} (hscope : s.HasScope scope)
    (htop : scope.structured? = some top) :
    top ∈ s.structuredTypes :=
  (hasPlace_start hscope).owner top htop

theorem rowsBehind_has {hops : List Hop} (hscope : s.HasScope scope)
    (hhops : ∀ h ∈ hops, s.HasHop h) :
    s.HasScope (Hop.rowsBehind scope hops) := by
  rw [Hop.rowsBehind]
  cases hlast : hops.getLast? with
  | none => exact hscope
  | some h => exact (hhops h (List.mem_of_getLast? hlast)).target

/-! ## The law

`resolve` succeeds exactly where `Resolves` holds, so the shape of a resolution is read off its
rules: hops at increasing stops, and a leaf behind the last one. -/

/-- The names end with a hop exactly if there is no attribute. -/
theorem Resolves.last_iff (hr : s.Resolves (.start scope) 0 names r) (hne : names ≠ []) :
    (∃ h, r.hops.getLast? = some h ∧ h.stop = names.length) ↔ r.leaf? = none := by
  obtain ⟨hle, hend⟩ := hr.behind (List.append_nil r.hops).symm
  constructor
  · rintro ⟨h, hlast, hstop⟩
    have hbehind : Hop.namesBehind r.hops = names.length := by simp [Hop.namesBehind, hlast, hstop]
    cases hleaf : r.leaf? with
    | none => rfl
    | some leaf => exact absurd (by rw [hbehind, List.drop_length]) (hend.ne_nil_of_leaf hleaf)
  · intro hleaf
    have hlength : names.length ≤ Hop.namesBehind r.hops :=
      List.drop_eq_nil_iff.mp (hend.names_nil rfl hleaf)
    rw [Hop.namesBehind] at hle hlength
    cases hlast : r.hops.getLast? with
    | none =>
        rw [hlast] at hlength
        exact absurd (List.eq_nil_of_length_eq_zero (Nat.le_zero.mp hlength)) hne
    | some h =>
        rw [hlast] at hle hlength
        exact ⟨h, rfl, Nat.le_antisymm hle hlength⟩

/-- **Names resolve to the hops that they lead across and to the attribute that is left.** In a
valid schema, what `resolve` gives `Follows` from the names: each hop has the target, the stop and
the column lead that the schema declares for the name it is crossed at, and the leaf has the column
and the type of its attribute. -/
theorem resolve_follows (hs : s.fault? = none) (hscope : s.HasScope scope)
    (h : s.resolve scope names = .ok r) :
    s.Follows scope names r := by
  obtain ⟨hne, hr⟩ := resolve_ok.mp h
  refine ⟨hr.increasing, hr.last_iff hne, ?_, ?_⟩
  · intro front hop back hhops
    obtain ⟨-, hbehind⟩ := hr.behind hhops
    obtain ⟨top, owner, crossed, leads, htop, hcrosses, hnames, hstop, hstep, hlead⟩ :=
      hbehind.first isWithin_start rfl
    refine .across htop hcrosses ?_ hstop hstep hlead
    rwa [List.drop_drop, Nat.add_sub_of_le (by omega)] at hnames
  · intro leaf hleaf
    -- What stands behind the last hop resolves without one.
    obtain ⟨-, hend⟩ := hr.behind (List.append_nil r.hops).symm
    obtain ⟨top, owner, crossed, leads, name, a, type, htop, hcrosses, hnames, ha, htype, rfl⟩ :=
      hend.final isWithin_start rfl hleaf
    have hsource := rowsBehind_has hscope (resolve_has hscope h).hops
    have howner := hcrosses.mem (structured_mem hsource htop)
    have hmember := List.mem_of_find?_eq_some ha
    exact .across htop hcrosses hnames ha rfl rfl (hasType_attributeType hs howner hmember htype)

/-- Users with an address inside, which has the country that it is in. -/
def travelling : Schema where
  namespaceName := none
  entityTypes := [
    { name := "User", table := ⟨none, "users"⟩, keys := ["id"],
      attributes := [⟨"Address", none, true, {}, .complex "Address" (some "address_")⟩],
      associations := [] },
    { name := "Country", table := ⟨none, "countries"⟩, keys := ["id"],
      attributes := [⟨"Climate", some "climate", true, {}, .enum "Climate"⟩], associations := [] }]
  complexTypes := [⟨"Address", [], [⟨"Country", "Country", .toOne, [⟨"country_id", "id"⟩], none⟩]⟩]
  enumTypes := [⟨"Climate", [⟨"Warm", none⟩, ⟨"Cold", none⟩], .name⟩]
  functions := []

/-- The rows of the users of `travelling`. -/
def travellers : Scope :=
  .entity {
    name := "User", table := ⟨none, "users"⟩, keys := ["id"],
    attributes := [⟨"Address", none, true, {}, .complex "Address" (some "address_")⟩],
    associations := [] }

theorem follows_through_complex : travelling.fault? = none ∧ travelling.HasScope travellers ∧
    ∃ r, travelling.resolve travellers ["Address", "Country", "Climate"] = .ok r ∧
      travelling.Follows travellers ["Address", "Country", "Climate"] r := by
  have hscope : travelling.HasScope travellers := List.mem_cons_self
  exact ⟨by decide, hscope, _, rfl, resolve_follows (by decide) hscope rfl⟩

/-- The hop has `address_` in front of its columns. The attribute behind it has nothing in front of
its column. -/
example : ∃ h leaf, travelling.resolve travellers ["Address", "Country", "Climate"] =
    .ok ⟨[h], some leaf⟩ ∧
    (h.columnLead, h.stop) = ("address_", 2) ∧
    (leaf.elements, leaf.column) = (["Climate"], "climate") :=
  ⟨_, _, rfl, rfl, rfl⟩

end Schema

end FilterSql
