import FilterSql.Proofs.Schema.Paths
import Mathlib.Order.Bounds.Basic

/-!
# Where names lead no further

Names are followed one by one, each as a member of what the names in front of it lead to: rows of a
type, or a single value, which has no members (`Schema.LeadsTo`). In a valid schema each member
leads on. So resolution can fail in two ways only: a name is no member, or the last name is an
attribute of a complex type, which is no value (`Schema.resolve_outcome`). An `invalidPath` blames
the first name that is no member.
-/

namespace FilterSql

/-! ## Members

A `Spot` is a place without what is gathered for columns: it keeps what matters for members. -/

/-- What the names of a path lead to, without what is gathered on the way. -/
inductive Spot where
  /-- Rows or a value of a type, with the members of the type. -/
  | within (type : StructuredType)
  /-- The single value of an attribute. -/
  | value (owner : StructuredType) (member : String)
  /-- The single value in each row of a table. -/
  | single (table : TableName)

namespace Spot

/-- What an error calls the spot in its `source`. -/
def name : Spot → String
  | within type => type.name
  | value owner member => owner.name ++ "/" ++ member
  | single table => toString table

/-- Whether an attribute or an association with this name is declared there. -/
def HasMember : Spot → String → Prop
  | within type, name =>
      (∃ a ∈ type.attributes, a.name = name) ∨ ∃ a ∈ type.associations, a.name = name
  | value .., _ => False
  | single _, _ => False

end Spot

/-- The spot at the rows of a scope, before any name is followed. -/
def Scope.spot : Scope → Spot
  | entity type => .within (.entity type)
  | complexCollection _ element => .within (.complex element)
  | primitiveCollection table _ _ => .single table

/-- The spot of a place: its `owner?`, or the rows of its `scope`. -/
def Place.spot (p : Place) : Spot :=
  match p.owner? with
  | some t => .within t
  | none => .single p.scope.table

/-- `name` is an attribute of a complex type. -/
def StructuredType.Embeds (t : StructuredType) (name : String) : Prop :=
  ∃ a type lead, t.attribute? name = some a ∧ a.kind = .complex type lead

variable {s : Schema} {spot next last dead : Spot} {name : String} {names front back : List String}
    {t : StructuredType} {scope : Scope} {p : Place} {x : Except FilterError Resolution}

theorem StructuredType.Embeds.hasMember (h : t.Embeds name) : (Spot.within t).HasMember name := by
  obtain ⟨a, -, -, ha, -⟩ := h
  exact .inl ⟨a, List.mem_of_find?_eq_some ha, by simpa using List.find?_some ha⟩

namespace Schema

/-- `name` leads from one spot to another. The types on the way are those that are found under the
names that the schema refers to them by. -/
inductive Steps (s : Schema) : Spot → String → Spot → Prop where
  | value {t : StructuredType} {name : String} {a : Attribute} {type : DataType}
      (ha : t.attribute? name = some a) (htype : a.dataType? = some type) :
      Steps s (.within t) name (.value t name)
  | embedded {t : StructuredType} {name type : String} {a : Attribute} {lead : Option String}
      {c : ComplexType} (ha : t.attribute? name = some a) (hkind : a.kind = .complex type lead)
      (hc : s.complexType? type = some c) :
      Steps s (.within t) name (.within (.complex c))
  | singles {t : StructuredType} {name column : String} {a : Attribute} {table : TableName}
      {columns : List JoinColumn} {type : DataType} (ha : t.attribute? name = some a)
      (hkind : a.kind = .collection table columns (.primitive column type)) :
      Steps s (.within t) name (.single table)
  | elements {t : StructuredType} {name type : String} {a : Attribute} {table : TableName}
      {columns : List JoinColumn} {c : ComplexType} (ha : t.attribute? name = some a)
      (hkind : a.kind = .collection table columns (.complex type))
      (hc : s.complexType? type = some c) : Steps s (.within t) name (.within (.complex c))
  | related {t : StructuredType} {name : String} {a : Association} {e : EntityType}
      (hnone : t.attribute? name = none) (ha : t.association? name = some a)
      (he : s.entityType? a.target = some e) :
      Steps s (.within t) name (.within (.entity e))

/-- `names` lead from one spot to another, one step for each. -/
inductive LeadsTo (s : Schema) : Spot → List String → Spot → Prop where
  | here (spot : Spot) : LeadsTo s spot [] spot
  | step {spot next last : Spot} {name : String} {names : List String}
      (hstep : s.Steps spot name next) (hrest : LeadsTo s next names last) :
      LeadsTo s spot (name :: names) last

/-- The name at `i` is a member of what the names in front of it lead to. -/
def MemberAt (s : Schema) (spot : Spot) (names : List String) (i : Nat) : Prop :=
  ∃ name place, names[i]? = some name ∧ s.LeadsTo spot (names.take i) place ∧ place.HasMember name

/-- The names end with `name`, an attribute of a complex type. -/
def EndsInside (s : Schema) (spot : Spot) (names : List String) (name : String) : Prop :=
  ∃ front t, names = front ++ [name] ∧ s.LeadsTo spot front (.within t) ∧ t.Embeds name

/-- The spot is `within` one of the schema's types, or a single value. -/
def HasSpot (s : Schema) : Spot → Prop
  | .within t => t ∈ s.structuredTypes
  | .value .. | .single _ => True

/-! ## Following names

A name leads to at most one spot, so what names lead to is determined by them. -/

theorem Steps.hasMember (h : s.Steps spot name next) : spot.HasMember name := by
  have hattribute {t : StructuredType} {a : Attribute} (ha : t.attribute? name = some a) :
      (Spot.within t).HasMember name :=
    .inl ⟨a, List.mem_of_find?_eq_some ha, by simpa using List.find?_some ha⟩
  cases h with
  | value ha | embedded ha | singles ha | elements ha => exact hattribute ha
  | related _ ha => exact .inr ⟨_, List.mem_of_find?_eq_some ha, by simpa using List.find?_some ha⟩

/-- A name leads to one spot only, so `Steps` is a partial function. -/
theorem Steps.unique {next' : Spot} (h : s.Steps spot name next) (h' : s.Steps spot name next') :
    next = next' := by
  cases h <;> cases h' <;> simp_all [Attribute.dataType?]

theorem LeadsTo.unique {last' : Spot} (h : s.LeadsTo spot names last)
    (h' : s.LeadsTo spot names last') :
    last = last' := by
  induction h with
  | here =>
      cases h'
      rfl
  | step hstep hrest ih =>
      cases h' with
      | step hstep' hrest' =>
          obtain rfl := hstep.unique hstep'
          exact ih hrest'

theorem LeadsTo.split (h : s.LeadsTo spot (front ++ back) last) :
    ∃ place, s.LeadsTo spot front place ∧ s.LeadsTo place back last := by
  induction front generalizing spot with
  | nil => exact ⟨spot, .here spot, h⟩
  | cons name front ih =>
      cases h with
      | step hstep hrest =>
          obtain ⟨place, hfront, hback⟩ := ih hrest
          exact ⟨place, .step hstep hfront, hback⟩

/-- Each of the names in `front` is a member where it stands. -/
theorem LeadsTo.memberAt (h : s.LeadsTo spot front last) (back : List String) {i : Nat}
    (hi : i < front.length) :
    s.MemberAt spot (front ++ back) i := by
  have hsplit : front = front.take i ++ front[i] :: front.drop (i + 1) := by
    rw [← List.drop_eq_getElem_cons hi, List.take_append_drop]
  rw [hsplit] at h
  obtain ⟨place, hfront, hback⟩ := h.split
  cases hback with
  | step hstep hrest =>
      refine ⟨front[i], place, by rw [List.getElem?_append_left hi, List.getElem?_eq_getElem hi],
        ?_, hstep.hasMember⟩
      rwa [List.take_append_of_le_length (by omega)]

/-- What `Steps` leads to belongs to the schema. -/
theorem Steps.hasSpot (h : s.Steps spot name next) : s.HasSpot next := by
  cases h with
  | value | singles => trivial
  | embedded _ _ hc | elements _ _ hc =>
      exact List.mem_append_right _ (List.mem_map_of_mem (List.mem_of_find?_eq_some hc))
  | related _ _ he =>
      exact List.mem_append_left _ (List.mem_map_of_mem (List.mem_of_find?_eq_some he))

theorem LeadsTo.hasSpot (h : s.LeadsTo spot names last) (hspot : s.HasSpot spot) :
    s.HasSpot last := by
  induction h with
  | here => exact hspot
  | step hstep _ ih => exact ih hstep.hasSpot

/-- A valid schema `declares` each type that the members of a spot refer to. -/
theorem declares_of_hasSpot (hs : s.fault? = none) (ht : s.HasSpot (.within t)) {kind : TypeKind}
    (h : (kind, name) ∈ memberReferences t.attributes t.associations) :
    s.declares kind name = true := by
  have hreference : (t.name, kind, name) ∈ s.references := by
    simp only [references, List.mem_append]
    left
    rcases List.mem_append.mp ht with ht | ht <;> obtain ⟨type, htype, rfl⟩ := List.mem_map.mp ht
    · exact .inl (List.mem_flatMap.mpr ⟨type, htype, List.mem_map_of_mem h⟩)
    · exact .inr (List.mem_flatMap.mpr ⟨type, htype, List.mem_map_of_mem h⟩)
  exact declares_of_valid hs hreference

/-! ## How resolving ends

`Ends` lists the three ends. The induction is the one of `Schema.resolveFrom`, and each of its
branches passes the end of the remaining names on. -/

/-- How the resolution of `names` from `spot` ends: where the names lead, in front of a name that
is no member, or with an attribute of a complex type as the last. -/
inductive Ends (s : Schema) (spot : Spot) (names : List String) :
    Except FilterError Resolution → Prop where
  | resolved {last : Spot} (r : Resolution) (hleads : s.LeadsTo spot names last)
      (hlast : ∀ name, ¬ s.EndsInside spot names name) : Ends s spot names (.ok r)
  | dead {front back : List String} {name : String} {dead : Spot}
      (hnames : names = front ++ name :: back) (hleads : s.LeadsTo spot front dead)
      (hmember : ¬ dead.HasMember name) :
      Ends s spot names (.error (.invalidPath name dead.name))
  | inside {name : String} (h : s.EndsInside spot names name) :
      Ends s spot names (.error (.notSupported (.complexAsValue name)))

/-- Without names any resolution is an end, and nothing can go wrong. -/
theorem ends_here (spot : Spot) (r : Resolution) : s.Ends spot [] (.ok r) :=
  .resolved r (.here spot) (by simp [EndsInside])

/-- A name in front leaves the end as it is, unless it is the only one and `Embeds` a complex
type. -/
theorem Ends.step (hstep : s.Steps (.within t) name next) (h : s.Ends next names x)
    (hlast : names ≠ [] ∨ ¬ t.Embeds name) (g : Resolution → Resolution) :
    s.Ends (.within t) (name :: names) (x.map g) := by
  cases h with
  | resolved r hleads hinside =>
      refine .resolved _ (.step hstep hleads) ?_
      -- They end inside a value only if those behind the first do, or if there are none.
      rintro last ⟨front, t', hnames, hfront, hembeds⟩
      cases hfront with
      | here =>
          obtain ⟨rfl, rfl⟩ := List.cons.inj hnames
          rcases hlast with hne | hplain
          · exact hne rfl
          · exact hplain hembeds
      | step hstep' hrest =>
          obtain ⟨rfl, rfl⟩ := List.cons.inj hnames
          obtain rfl := hstep.unique hstep'
          exact hinside last ⟨_, t', rfl, hrest, hembeds⟩
  | dead hnames hleads hmember =>
      exact .dead (congrArg (name :: ·) hnames) (.step hstep hleads) hmember
  | inside h =>
      obtain ⟨front, t', rfl, hfront, hembeds⟩ := h
      exact .inside ⟨name :: front, t', rfl, .step hstep hfront, hembeds⟩

/-- An attribute whose `kind` is not `complex` embeds nothing. -/
theorem not_embeds {a : Attribute} (ha : t.attribute? name = some a)
    (hkind : ∀ type lead, a.kind ≠ .complex type lead) : ¬ t.Embeds name := by
  rintro ⟨a', type, lead, ha', hkind'⟩
  obtain rfl : a = a' := Option.some.inj (ha.symm.trans ha')
  exact hkind type lead hkind'

/-- In a valid schema `complexTypeOf` finds the complex type that an attribute refers to. -/
theorem exists_complexType (hs : s.fault? = none) (ht : s.HasSpot (.within t)) {a : Attribute}
    (type : String) (ha : t.attribute? name = some a)
    (href : a.reference? = some (.complex, type)) :
    ∃ c, s.complexType? type = some c ∧ s.complexTypeOf t.name type = .ok c := by
  have hmem : (TypeKind.complex, type) ∈ memberReferences t.attributes t.associations :=
    List.mem_append_left _ (List.mem_filterMap.mpr ⟨a, List.mem_of_find?_eq_some ha, href⟩)
  obtain ⟨c, hc⟩ := Option.isSome_iff_exists.mp (declares_of_hasSpot hs ht hmem)
  exact ⟨c, hc, by simp [complexTypeOf, hc]⟩

/-- The entity type that an association refers to is found, and `associationScope` gives its
rows. -/
theorem exists_entityType (hs : s.fault? = none) (ht : s.HasSpot (.within t)) {a : Association}
    (ha : t.association? name = some a) :
    ∃ e, s.entityType? a.target = some e ∧ s.associationScope t.name a = .ok (.entity e) := by
  have hmem : (TypeKind.entity, a.target) ∈ memberReferences t.attributes t.associations :=
    List.mem_append_right _ (List.mem_map.mpr ⟨a, List.mem_of_find?_eq_some ha, rfl⟩)
  obtain ⟨e, he⟩ := Option.isSome_iff_exists.mp (declares_of_hasSpot hs ht hmem)
  exact ⟨e, he, by simp [associationScope, he]⟩

/-- In a valid schema a stored collection leads to its elements, the scope that `elementScope`
finds. -/
theorem exists_elementScope (hs : s.fault? = none) (ht : s.HasSpot (.within t)) {a : Attribute}
    {table : TableName} {columns : List JoinColumn} {element : Element}
    (ha : t.attribute? name = some a) (hkind : a.kind = .collection table columns element) :
    ∃ target, s.elementScope t.name table element = .ok target ∧
      s.Steps (.within t) name target.spot := by
  cases element with
  | primitive column type => exact ⟨_, rfl, .singles ha hkind⟩
  | complex type =>
      obtain ⟨c, hc, hfound⟩ :=
        exists_complexType hs ht type ha (by rw [Attribute.reference?, hkind])
      exact ⟨.complexCollection table c, by
        simp [elementScope, hfound, bind, Except.bind, pure, Except.pure],
        .elements ha hkind hc⟩

end Schema

theorem Place.spot_start (scope : Scope) : (Place.start scope).spot = scope.spot := by
  cases scope <;> rfl

theorem Place.name_start (h : (Place.start scope).owner? = none) :
    scope.name = toString scope.table := by
  cases scope with
  | entity | complexCollection => cases h
  | primitiveCollection => rfl

theorem Resolution.behind_map (h : Hop) : (do return (← x).behind h) = x.map (behind h) := by
  cases x <;> rfl

namespace Schema

/-- **Resolution ends in one of three ways** (`Ends`), from each place of a valid schema. -/
theorem resolveFrom_ends (hs : s.fault? = none)
    (hp : p.owner? = none → p.scope.name = toString p.scope.table) (hspot : s.HasSpot p.spot)
    (index : Nat) : s.Ends p.spot names (s.resolveFrom p index names) := by
  induction names generalizing p index with
  | nil => exact ends_here ..
  | cons name rest ih =>
      -- Resolving starts again from the rows that the name leads to.
      have hop {t : StructuredType} {target : Scope} (hstep : s.Steps (.within t) name target.spot)
          (hplain : ¬ t.Embeds name) (h : Hop) :
          s.Ends (.within t) (name :: rest) do
            return (← s.resolveFrom (.start target) (index + 1) rest).behind h := by
        have hrows : s.Ends target.spot rest (s.resolveFrom (.start target) (index + 1) rest) := by
          rw [← Place.spot_start]
          exact ih Place.name_start (by simpa only [Place.spot_start]
            using hstep.hasSpot) (index + 1)
        rw [Resolution.behind_map]
        exact hrows.step hstep (.inr hplain) _
      rw [resolveFrom]
      cases howner : p.owner? with
      | none =>
          have hname : p.scope.name = p.spot.name := by
            simp [Place.spot, howner, Spot.name, hp howner]
          simp only [hname]
          exact .dead (List.nil_append _).symm (.here _)
            (by simp [Place.spot, howner, Spot.HasMember])
      | some t =>
          have hwithin : p.spot = .within t := by simp [Place.spot, howner]
          rw [hwithin] at hspot ⊢
          cases ha : t.attribute? name with
          | some a =>
              simp only [ha]
              cases hkind : a.kind with
              | primitive type | enum type =>
                  obtain ⟨_, htype⟩ : ∃ type, a.dataType? = some type := by
                    simp [Attribute.dataType?, hkind]
                  have hstep : s.Steps (.within t) name (.value t name) := .value ha htype
                  cases rest with
                  | nil =>
                      have hplain : ¬ t.Embeds name := not_embeds ha (by simp [hkind])
                      simp only [attributeType_ok.mpr ⟨_, htype, rfl⟩]
                      exact (ends_here _ _).step hstep (.inr hplain) id
                  | cons next rest =>
                      exact .dead List.singleton_append.symm (.step hstep (.here _))
                        (by simp [Spot.HasMember])
              | complex type lead =>
                  cases rest with
                  | nil => exact .inside ⟨[], t, rfl, .here _, a, type, lead, ha, hkind⟩
                  | cons next rest =>
                      have href : a.reference? = some (.complex, type) := by
                        rw [Attribute.reference?, hkind]
                      obtain ⟨c, hc, hfound⟩ := exists_complexType hs hspot type ha href
                      have hstep : s.Steps (.within t) name (.within (.complex c)) :=
                        .embedded ha hkind hc
                      have hrest :=
                        ih (p := p.enter name lead c) (by simp [Place.enter]) hstep.hasSpot
                          (index + 1)
                      simpa [hfound, bind, Except.bind]
                        using hrest.step hstep (.inl (List.cons_ne_nil _ _)) id
              | collection table columns element =>
                  obtain ⟨target, htarget, hstep⟩ := exists_elementScope hs hspot ha hkind
                  simp only [htarget]
                  exact hop hstep (not_embeds ha (by simp [hkind])) _
          | none =>
              simp only [ha]
              have hplain : ¬ t.Embeds name := by
                rintro ⟨a, -, -, ha', -⟩
                simp [ha] at ha'
              cases hassociation : t.association? name with
              | some a =>
                  obtain ⟨e, he, hfound⟩ := exists_entityType hs hspot hassociation
                  simp only [hfound]
                  exact hop (.related ha hassociation he) hplain _
              | none =>
                  refine .dead (List.nil_append _).symm (.here _) ?_
                  simp_all [Spot.HasMember, StructuredType.attribute?, StructuredType.association?]

/-! ## The law

Each end is characterized by the members on the way alone, so that no two ends overlap. -/

theorem LeadsTo.memberAt_all (h : s.LeadsTo spot names last) :
    ∀ i < names.length, s.MemberAt spot names i := by
  intro i hi
  simpa using h.memberAt [] hi

/-- If the names end inside a complex type, each of them is a member, the last one included. -/
theorem EndsInside.memberAt (h : s.EndsInside spot names name) :
    ∀ i < names.length, s.MemberAt spot names i := by
  obtain ⟨front, t, rfl, hfront, hembeds⟩ := h
  intro i hi
  rcases Nat.lt_or_ge i front.length with hlt | hge
  · exact hfront.memberAt _ hlt
  · obtain rfl : i = front.length := by simp at hi; omega
    exact ⟨name, _, by simp, by simpa using hfront, hembeds.hasMember⟩

theorem EndsInside.unique {name' : String} (h : s.EndsInside spot names name)
    (h' : s.EndsInside spot names name') :
    name = name' := by
  obtain ⟨front, t, rfl, -⟩ := h
  obtain ⟨front', t', hnames, -⟩ := h'
  obtain ⟨-, hlast⟩ := List.append_inj' hnames rfl
  simpa using hlast

/-- The name that leads nowhere is the first that is not `MemberAt` its place. -/
theorem LeadsTo.isLeast (h : s.LeadsTo spot front dead) (hmember : ¬ dead.HasMember name)
    (back : List String) :
    IsLeast {i | i < (front ++ name :: back).length ∧
      ¬ s.MemberAt spot (front ++ name :: back) i} front.length := by
  refine ⟨⟨by simp, ?_⟩, ?_⟩
  · rintro ⟨name', place, hname, hplace, hmember'⟩
    obtain rfl : name = name' := by simpa using hname
    obtain rfl : dead = place := h.unique (by simpa using hplace)
    exact hmember hmember'
  · rintro i ⟨-, hi⟩
    exact Nat.le_of_not_lt fun hlt => hi (h.memberAt _ hlt)

theorem LeadsTo.not_all (h : s.LeadsTo spot front dead) (hmember : ¬ dead.HasMember name)
    (back : List String) :
    ¬ ∀ i < (front ++ name :: back).length, s.MemberAt spot (front ++ name :: back) i := by
  intro hall
  have hlt : front.length < (front ++ name :: back).length := by simp
  exact (h.isLeast hmember back).1.2 (hall front.length hlt)

theorem Ends.invalidPath_iff (h : s.Ends spot names x) :
    (∃ path owner, x = .error (.invalidPath path owner)) ↔
      ∃ i < names.length, ¬ s.MemberAt spot names i := by
  cases h with
  | resolved r hleads =>
      constructor
      · nofun
      · rintro ⟨i, hi, hnot⟩
        exact absurd (hleads.memberAt_all i hi) hnot
  | dead hnames hleads hmember =>
      subst hnames
      exact ⟨fun _ => ⟨_, (hleads.isLeast hmember _).1⟩, fun _ => ⟨_, _, rfl⟩⟩
  | inside hinside =>
      constructor
      · nofun
      · rintro ⟨i, hi, hnot⟩
        exact absurd (hinside.memberAt i hi) hnot

/-- An `invalidPath` blames the first name that is no member, and what it is no member of. -/
theorem Ends.blames {path owner : String}
    (h : s.Ends spot names (.error (.invalidPath path owner))) :
    ∃ i dead, IsLeast {i | i < names.length ∧ ¬ s.MemberAt spot names i} i ∧ names[i]? = some path ∧
      s.LeadsTo spot (names.take i) dead ∧ owner = dead.name := by
  cases h with
  | dead hnames hleads hmember =>
      subst hnames
      exact ⟨_, _, hleads.isLeast hmember _, by simp, by simpa using hleads, rfl⟩

theorem Ends.notSupported_iff {what : Unsupported} (h : s.Ends spot names x) :
    x = .error (.notSupported what) ↔ (∀ i < names.length, s.MemberAt spot names i) ∧
      ∃ name, s.EndsInside spot names name ∧ what = .complexAsValue name := by
  cases h with
  | resolved r hleads hlast =>
      constructor
      · nofun
      · rintro ⟨-, name, hinside, -⟩
        exact absurd hinside (hlast name)
  | dead hnames hleads hmember =>
      subst hnames
      constructor
      · nofun
      · rintro ⟨hall, -⟩
        exact absurd hall (hleads.not_all hmember _)
  | @inside name hinside =>
      constructor
      · intro h
        exact ⟨hinside.memberAt, name, hinside, by simpa using h.symm⟩
      · rintro ⟨-, name', hinside', rfl⟩
        rw [hinside.unique hinside']

theorem Ends.ok_iff (h : s.Ends spot names x) :
    (∃ r, x = .ok r) ↔ (∀ i < names.length, s.MemberAt spot names i) ∧
      ∀ name, ¬ s.EndsInside spot names name := by
  cases h with
  | resolved r hleads hlast => exact ⟨fun _ => ⟨hleads.memberAt_all, hlast⟩, fun _ => ⟨r, rfl⟩⟩
  | dead hnames hleads hmember =>
      subst hnames
      constructor
      · rintro ⟨r, ⟨⟩⟩
      · rintro ⟨hall, -⟩
        exact absurd hall (hleads.not_all hmember _)
  | inside hinside =>
      constructor
      · rintro ⟨r, ⟨⟩⟩
      · rintro ⟨-, hlast⟩
        exact absurd hinside (hlast _)

theorem hasSpot_scope (hscope : ∀ t, scope.structured? = some t → t ∈ s.structuredTypes) :
    s.HasSpot scope.spot := by
  cases scope with
  | entity | complexCollection => exact hscope _ rfl
  | primitiveCollection => trivial

/-- **Names resolve unless one of them is no member, or the last is an attribute of a complex
type.** In a valid schema, an `invalidPath` blames the first name that is not a `MemberAt` its
place, with the owner that the names in front of it lead to; `complexAsValue` tells of names that
end inside a complex type; and all other names resolve. No type that is referred to on the way is
missing. -/
theorem resolve_outcome (hs : s.fault? = none)
    (hscope : ∀ t, scope.structured? = some t → t ∈ s.structuredTypes) (hnames : names ≠ []) :
    ((∃ path owner, s.resolve scope names = .error (.invalidPath path owner)) ↔
      ∃ i < names.length, ¬ s.MemberAt scope.spot names i) ∧
    (∀ path owner, s.resolve scope names = .error (.invalidPath path owner) →
      ∃ i dead, IsLeast {i | i < names.length ∧ ¬ s.MemberAt scope.spot names i} i ∧
        names[i]? = some path ∧
        s.LeadsTo scope.spot (names.take i) dead ∧ owner = dead.name) ∧
    (∀ what, s.resolve scope names = .error (.notSupported what) ↔
      (∀ i < names.length, s.MemberAt scope.spot names i) ∧
        ∃ name, s.EndsInside scope.spot names name ∧ what = .complexAsValue name) ∧
    ((∃ r, s.resolve scope names = .ok r) ↔
      (∀ i < names.length, s.MemberAt scope.spot names i) ∧
        ∀ name, ¬ s.EndsInside scope.spot names name) ∧
    ∀ front t, s.LeadsTo scope.spot front (.within t) →
      ∀ kind type, (kind, type) ∈ memberReferences t.attributes t.associations →
        s.declares kind type = true := by
  have hspot := hasSpot_scope hscope
  have hends : s.Ends scope.spot names (s.resolve scope names) := by
    have hstart : s.resolve scope names = s.resolveFrom (.start scope) 0 names := by
      cases names with
      | nil => exact absurd rfl hnames
      | cons => rfl
    rw [hstart, ← Place.spot_start]
    exact resolveFrom_ends hs Place.name_start (by rwa [Place.spot_start]) 0
  refine ⟨hends.invalidPath_iff, ?_, fun what => hends.notSupported_iff, hends.ok_iff, ?_⟩
  · intro path owner h
    exact (h ▸ hends).blames
  · intro front t hfront kind type htype
    exact declares_of_hasSpot hs (hfront.hasSpot hspot) htype

/-- Customers with orders, which have tags and an address that they are shipped to. -/
def ordering : Schema where
  namespaceName := none
  entityTypes := [
    { name := "Order", table := ⟨some "shop", "orders"⟩, keys := ["id"],
      attributes := [⟨"Id", none, false, {}, .primitive .string⟩,
        ⟨"Shipping", none, true, {}, .complex "Address" (some "ship_")⟩,
        ⟨"Tags", none, true, {},
          .collection ⟨some "shop", "tags"⟩ [⟨"id", "order_id"⟩] (.primitive "tag" .string)⟩],
      associations := [] },
    { name := "Customer", table := ⟨some "shop", "customers"⟩, keys := ["id"], attributes := [],
      associations := [⟨"Orders", "Order", .toMany, [⟨"id", "customer_id"⟩], none⟩] }]
  complexTypes := [⟨"Address", [⟨"City", none, true, {}, .primitive .string⟩], []⟩]
  enumTypes := []
  functions := []

/-- The rows of the customers of `ordering`. -/
def customers : Scope :=
  .entity {
    name := "Customer", table := ⟨some "shop", "customers"⟩, keys := ["id"], attributes := [],
    associations := [⟨"Orders", "Order", .toMany, [⟨"id", "customer_id"⟩], none⟩] }

/-- Names behind the tags of a customer's orders, which are single values and have no members. -/
def behindTags : List String :=
  ["Orders", "Tags", "Tag", "Id"]

theorem outcome_missing_member : ordering.fault? = none ∧
    (∀ t, customers.structured? = some t → t ∈ ordering.structuredTypes) ∧ behindTags ≠ [] ∧
    ordering.resolve customers behindTags = .error (.invalidPath "Tag" "shop.tags") ∧
    ∃ i dead, IsLeast {i | i < behindTags.length ∧
      ¬ ordering.MemberAt customers.spot behindTags i} i ∧
      behindTags[i]? = some "Tag" ∧ ordering.LeadsTo customers.spot (behindTags.take i) dead ∧
      "shop.tags" = dead.name := by
  have hscope : ∀ t, customers.structured? = some t → t ∈ ordering.structuredTypes := by
    rintro _ ⟨⟩
    decide
  have hnames : behindTags ≠ [] := List.cons_ne_nil _ _
  exact ⟨by decide, hscope, hnames, rfl, (resolve_outcome (by decide) hscope hnames).2.1 _ _ rfl⟩

end Schema

end FilterSql
