import FilterSql.Proofs.Compile.Denoting

/-!
# The names of a schema

Compilation meets no column and no table but those that the schema names. A scope is a table of the
schema (`Schema.HasScope`). What names resolve to are hops between such tables, and a column with
the column leads of complex attributes in front (`Schema.resolve_has`). So is what a member
denotes, in whatever context it stands (`Schema.denote_has`).
-/

namespace FilterSql

/-! ## What a schema names

The columns, tables and column leads in the declarations of a schema. -/

namespace Schema

def structuredTypes (s : Schema) : List StructuredType :=
  s.entityTypes.map .entity ++ s.complexTypes.map .complex

def attributes (s : Schema) : List Attribute :=
  s.structuredTypes.flatMap StructuredType.attributes

def associations (s : Schema) : List Association :=
  s.structuredTypes.flatMap StructuredType.associations

end Schema

/-- The columns of both sides of the join conditions, each by its name. -/
def joinColumnNames (columns : List JoinColumn) : List String :=
  columns.flatMap fun j => [j.source, j.target]

namespace AttributeKind

/-- The columns that the kind of an attribute names: those of a `collection` and of its join. -/
def columnNames : AttributeKind → List String
  | collection _ joinColumns (.primitive column _) => column :: joinColumnNames joinColumns
  | collection _ joinColumns (.complex _) => joinColumnNames joinColumns
  | primitive _ | enum _ | complex .. => []

/-- The tables that the kind of an attribute names: that of a `collection`. -/
def tables : AttributeKind → List TableName
  | collection table _ _ => [table]
  | primitive _ | enum _ | complex .. => []

/-- What an attribute of a `complex` type puts in front of the columns of this type. -/
def columnLeads : AttributeKind → List String
  | complex _ lead => lead.toList
  | primitive _ | enum _ | collection .. => []

end AttributeKind

namespace Schema

/-- The columns that the declarations of a schema name, without anything in front of them. -/
def columnNames (s : Schema) : List String :=
  s.attributes.flatMap (fun a => a.column :: a.kind.columnNames) ++
  s.associations.flatMap fun a =>
    joinColumnNames a.joinColumns ++ a.linkTable.toList.flatMap (joinColumnNames ·.columns)

def tables (s : Schema) : List TableName :=
  s.entityTypes.map (·.table) ++ s.attributes.flatMap (·.kind.tables) ++
  s.associations.flatMap fun a => a.linkTable.toList.map (·.table)

def columnLeads (s : Schema) : List String :=
  s.attributes.flatMap (·.kind.columnLeads)

/-- What attributes of `complex` types put in front of a column, one inside the other. -/
inductive IsColumnLead (s : Schema) : String → Prop where
  | nil : IsColumnLead s ""
  | snoc {lead next : String} (hlead : IsColumnLead s lead) (hnext : next ∈ s.columnLeads) :
      IsColumnLead s (lead ++ next)

/-- A name out of `columnNames`, with an `IsColumnLead` in front of it. -/
def IsColumn (s : Schema) (name : String) : Prop :=
  ∃ lead column, s.IsColumnLead lead ∧ column ∈ s.columnNames ∧ name = lead ++ column

theorem isColumn_of_mem {s : Schema} {name : String} (h : name ∈ s.columnNames) : s.IsColumn name :=
  ⟨"", name, .nil, h, by simp⟩

/-! ## What compilation comes across

For each thing that resolution builds: the schema has it if the schema names its tables and
columns. -/

/-- The scope ranges over one of the `tables` of the schema. -/
def HasScope (s : Schema) : Scope → Prop
  | .entity type => type ∈ s.entityTypes
  | .complexCollection table element => table ∈ s.tables ∧ element ∈ s.complexTypes
  | .primitiveCollection table column _ => table ∈ s.tables ∧ column ∈ s.columnNames

/-- Both sides of the join conditions are columns of the schema (`IsColumn`). -/
def HasJoin (s : Schema) (columns : List JoinColumn) : Prop :=
  ∀ j ∈ columns, j.source ∈ s.columnNames ∧ j.target ∈ s.columnNames

def HasKind (s : Schema) : HopKind → Prop
  | .association a => s.HasJoin a.joinColumns ∧
      ∀ link ∈ a.linkTable, link.table ∈ s.tables ∧ s.HasJoin link.columns
  | .collection columns => s.HasJoin columns

/-- The hop leads between tables of the schema, along columns of the schema. -/
structure HasHop (s : Schema) (h : Hop) : Prop where
  target : s.HasScope h.target
  kind : s.HasKind h.kind
  lead : s.IsColumnLead h.columnLead

/-- The place is inside a row of a table of the schema, behind an `IsColumnLead`. -/
structure HasPlace (s : Schema) (p : Place) : Prop where
  scope : s.HasScope p.scope
  owner : ∀ t ∈ p.owner?, t ∈ s.structuredTypes
  lead : s.IsColumnLead p.columnLead

structure HasResolution (s : Schema) (r : Resolution) : Prop where
  hops : ∀ h ∈ r.hops, s.HasHop h
  leaf : ∀ p ∈ r.leaf?, s.IsColumn p.column

variable {s : Schema}

/-! ## Tables and columns

What a type of the schema declares is among the names of the schema. -/

theorem table_mem {scope : Scope} (h : s.HasScope scope) : scope.table ∈ s.tables := by
  cases scope with
  | entity type =>
      simp only [tables, List.mem_append, List.mem_map]
      exact .inl (.inl ⟨type, h, rfl⟩)
  | complexCollection table element => exact h.1
  | primitiveCollection table column type => exact h.1

theorem attribute_mem {t : StructuredType} {a : Attribute} {name : String}
    (ht : t ∈ s.structuredTypes) (h : t.attribute? name = some a) : a ∈ s.attributes :=
  List.mem_flatMap.mpr ⟨t, ht, List.mem_of_find?_eq_some h⟩

theorem association_mem {t : StructuredType} {a : Association} {name : String}
    (ht : t ∈ s.structuredTypes) (h : t.association? name = some a) : a ∈ s.associations :=
  List.mem_flatMap.mpr ⟨t, ht, List.mem_of_find?_eq_some h⟩

theorem column_mem {a : Attribute} (ha : a ∈ s.attributes) : a.column ∈ s.columnNames :=
  List.mem_append_left _ (List.mem_flatMap.mpr ⟨a, ha, by simp⟩)

theorem kind_columns_mem {a : Attribute} {name : String} (ha : a ∈ s.attributes)
    (h : name ∈ a.kind.columnNames) : name ∈ s.columnNames :=
  List.mem_append_left _ (List.mem_flatMap.mpr ⟨a, ha, List.mem_cons_of_mem _ h⟩)

theorem hasJoin_of_subset {columns : List JoinColumn}
    (h : joinColumnNames columns ⊆ s.columnNames) :
    s.HasJoin columns :=
  fun j hj => ⟨h (List.mem_flatMap.mpr ⟨j, hj, by simp⟩), h (List.mem_flatMap.mpr ⟨j, hj, by simp⟩)⟩

theorem hasKind_association {a : Association} (ha : a ∈ s.associations) :
    s.HasKind (.association a) := by
  have hnames {name : String} (h : name ∈ joinColumnNames a.joinColumns ++
      a.linkTable.toList.flatMap (joinColumnNames ·.columns)) : name ∈ s.columnNames :=
    List.mem_append_right _ (List.mem_flatMap.mpr ⟨a, ha, h⟩)
  constructor
  · apply hasJoin_of_subset
    intro name h
    exact hnames (List.mem_append_left _ h)
  · intro link hlink
    have hmem : link ∈ a.linkTable.toList := by simpa using hlink
    constructor
    · simp only [tables, List.mem_append]
      exact .inr (List.mem_flatMap.mpr ⟨a, ha, List.mem_map.mpr ⟨link, hmem, rfl⟩⟩)
    · apply hasJoin_of_subset
      intro name h
      exact hnames (List.mem_append_right _ (List.mem_flatMap.mpr ⟨link, hmem, h⟩))

theorem hasKind_collection {a : Attribute} {table : TableName} {columns : List JoinColumn}
    {element : Element} (ha : a ∈ s.attributes)
    (hkind : a.kind = .collection table columns element) :
    s.HasKind (.collection columns) := by
  apply hasJoin_of_subset
  intro name h
  apply kind_columns_mem ha
  rw [hkind]
  cases element with
  | primitive column type => exact List.mem_cons_of_mem _ h
  | complex type => exact h

/-! ## Places

Resolution starts at a place of the schema and enters complex attributes of the schema. -/

theorem hasScope_entity {name : String} {type : EntityType} (h : s.entityType? name = some type) :
    s.HasScope (.entity type) :=
  List.mem_of_find?_eq_some h

theorem complexTypeOf_some {owner type : String} {c : ComplexType}
    (h : s.complexTypeOf owner type = .ok c) :
    s.complexType? type = some c := by
  rw [complexTypeOf] at h
  split at h
  · obtain rfl := Except.ok.inj h
    assumption
  · cases h

theorem complexTypeOf_mem {owner type : String} {c : ComplexType}
    (h : s.complexTypeOf owner type = .ok c) :
    c ∈ s.complexTypes :=
  List.mem_of_find?_eq_some (complexTypeOf_some h)

theorem hasPlace_start {scope : Scope} (h : s.HasScope scope) : s.HasPlace (.start scope) := by
  refine ⟨h, ?_, .nil⟩
  cases scope with
  | entity type =>
      rintro _ ⟨⟩
      exact List.mem_append_left _ (List.mem_map_of_mem h)
  | complexCollection table element =>
      rintro _ ⟨⟩
      exact List.mem_append_right _ (List.mem_map_of_mem h.2)
  | primitiveCollection table column type => simp [Place.start, Scope.structured?]

theorem hasPlace_enter {p : Place} {a : Attribute} {name type : String} {lead : Option String}
    {c : ComplexType} (hp : s.HasPlace p) (ha : a ∈ s.attributes)
    (hkind : a.kind = .complex type lead) (hc : c ∈ s.complexTypes) :
    s.HasPlace (p.enter name lead c) := by
  refine ⟨hp.scope, ?_, ?_⟩
  · rintro _ ⟨⟩
    exact List.mem_append_right _ (List.mem_map_of_mem hc)
  · cases lead with
    | none => simpa [Place.enter] using hp.lead
    | some text =>
        exact .snoc hp.lead (List.mem_flatMap.mpr
          ⟨a, ha, by simp [hkind, AttributeKind.columnLeads]⟩)

theorem hasScope_element {a : Attribute} {table : TableName} {columns : List JoinColumn}
    {element : Element} {owner : String} {scope : Scope} (ha : a ∈ s.attributes)
    (hkind : a.kind = .collection table columns element)
    (h : s.elementScope owner table element = .ok scope) : s.HasScope scope := by
  have htable : table ∈ s.tables := by
    simp only [tables, List.mem_append]
    exact .inl (.inr (List.mem_flatMap.mpr ⟨a, ha, by simp [hkind, AttributeKind.tables]⟩))
  cases element with
  | primitive column type =>
      obtain rfl := Except.ok.inj h
      exact ⟨htable, kind_columns_mem ha (by simp [hkind, AttributeKind.columnNames])⟩
  | complex type =>
      obtain ⟨c, hc, h⟩ := Checked.bind_ok.mp h
      obtain rfl := Checked.pure_ok.mp h
      exact ⟨htable, complexTypeOf_mem hc⟩

theorem hasScope_association {owner : String} {a : Association} {scope : Scope}
    (h : s.associationScope owner a = .ok scope) : s.HasScope scope := by
  rw [associationScope] at h
  split at h
  · obtain rfl := Except.ok.inj h
    exact hasScope_entity ‹_›
  · cases h

/-! ## Resolution

By induction on `Schema.Resolves`, the relation that says what names resolve to. -/

theorem hasHop_of_step {owner : StructuredType} {name : String} {target : Scope} {kind : HopKind}
    (howner : owner ∈ s.structuredTypes) (h : s.HopsTo owner name target kind) :
    s.HasScope target ∧ s.HasKind kind := by
  cases h with
  | collection ha hkind htarget =>
      exact ⟨hasScope_element (attribute_mem howner ha) hkind htarget,
        hasKind_collection (attribute_mem howner ha) hkind⟩
  | association _ ha htarget =>
      exact ⟨hasScope_association htarget, hasKind_association (association_mem howner ha)⟩

/-- Names that `Resolves` relates to something lead across tables of the schema to a column of
it. -/
theorem resolves_has {p : Place} {index : Nat} {names : List String} {r : Resolution}
    (h : s.Resolves p index names r) (hp : s.HasPlace p) : s.HasResolution r := by
  induction h with
  | nil => exact ⟨by simp, by simp⟩
  | column howner ha htype =>
      refine ⟨by simp, ?_⟩
      rintro _ ⟨⟩
      exact ⟨_, _, hp.lead, column_mem (attribute_mem (hp.owner _ howner) ha), rfl⟩
  | enter howner ha hkind hc hrest ih =>
      exact ih (hasPlace_enter hp (attribute_mem (hp.owner _ howner) ha) hkind
        (complexTypeOf_mem hc))
  | hop howner hstep hrest ih =>
      obtain ⟨htarget, hkind⟩ := hasHop_of_step (hp.owner _ howner) hstep
      obtain ⟨hhops, hleaf⟩ := ih (hasPlace_start htarget)
      refine ⟨?_, hleaf⟩
      intro h hh
      rcases List.mem_cons.mp hh with rfl | hh
      · exact ⟨htarget, hkind, hp.lead⟩
      · exact hhops h hh

theorem resolve_has {scope : Scope} {names : List String} {r : Resolution}
    (hscope : s.HasScope scope) (h : s.resolve scope names = .ok r) : s.HasResolution r :=
  resolves_has (resolve_ok.mp h).2 (hasPlace_start hscope)

end Schema

/-! ## Members

A member denotes a `Target`. Its hops and its column come from a resolution, or from the element of
a collection that a level ranges over. -/

namespace Target

/-- The hops that a target goes along, empty for one that does not leave the row. -/
def hops : Target → List Hop
  | .navigation hops _ => hops
  | .count hops => hops
  | .nonempty hops => hops
  | .any hops _ => hops
  | .all hops _ => hops
  | .element | .attribute _ | .function _ => []

/-- The attribute that a target is, `none` for any other target. -/
def leaf? : Target → Option AttributePath
  | .attribute path => some path
  | _ => none

end Target

namespace Schema

variable {s : Schema}

/-- The hops of a target lead across tables of the schema, and its `leaf?` is a column. -/
structure HasTarget (s : Schema) (t : Target) : Prop where
  hops : ∀ h ∈ t.hops, s.HasHop h
  leaf : ∀ p ∈ t.leaf?, s.IsColumn p.column

theorem denotes_has {scope : Scope} {start : Nat} {names : List String} {tail : Path} {t : Target}
    (hscope : s.HasScope scope) (h : s.Denotes scope start names tail t) : s.HasTarget t := by
  cases h with
  | element | function => exact ⟨by simp [Target.hops], by simp [Target.leaf?]⟩
  | leaf hr => exact ⟨by simp [Target.hops], (resolve_has hscope hr).leaf⟩
  | navigation hr | count hr | nonempty hr | any hr | all hr =>
      exact ⟨(resolve_has hscope hr).hops, by simp [Target.leaf?]⟩
  | @countBehind _ front before last hr =>
      refine ⟨?_, by simp [Target.leaf?]⟩
      intro h hh
      apply (resolve_has hscope hr).hops
      -- The last hop is the one that is counted, and goes no further.
      simp only [Target.hops, List.mem_append, List.mem_singleton] at hh
      rcases hh with hh | rfl <;> simp [*]

theorem elementPath_has {scope : Scope} {p : AttributePath} (hscope : s.HasScope scope)
    (h : scope.elementPath? = some p) : s.IsColumn p.column := by
  cases scope with
  | entity | complexCollection => simp [Scope.elementPath?] at h
  | primitiveCollection table column type =>
      obtain rfl := Option.some.inj h
      exact isColumn_of_mem hscope.2

/-- All levels of a context range over tables of the schema (`HasScope`). -/
def HasContext (s : Schema) (c : Context) : Prop :=
  ∀ l ∈ c.levels, s.HasScope l.scope

theorem hasContext_inside {c : Context} {l : Level} (hl : s.HasScope l.scope)
    (hc : s.HasContext c) :
    s.HasContext (.inside l c) := by
  intro l' hl'
  rcases List.mem_cons.mp hl' with rfl | hl'
  · exact hl
  · exact hc l' hl'

theorem denote_has {c : Context} {a : Address} {path : Path} {anchor : Level} {t : Target}
    (hc : s.HasContext c) (h : s.denote c a path = .ok (anchor, t)) :
    anchor ∈ c.levels ∧ s.HasTarget t := by
  obtain ⟨start, names, tail, hanchor, -, hdenotes⟩ := denote_ok.mp h
  have hmem := Context.mem_of_anchor hanchor
  exact ⟨hmem, denotes_has (hc anchor hmem) hdenotes⟩

/-! ## A small schema

An example that other modules use as well. -/

/-- Users with their roles, to which a link table leads. -/
def sample : Schema where
  namespaceName := none
  entityTypes := [
    { name := "User", table := ⟨none, "users"⟩, keys := ["id"],
      attributes := [⟨"Name", some "name", true, {}, .primitive .string⟩],
      associations := [⟨"Roles", "Role", .toMany, [⟨"id", "user_id"⟩],
        some ⟨⟨none, "user_roles"⟩, [⟨"role_id", "id"⟩]⟩⟩] },
    { name := "Role", table := ⟨none, "roles"⟩, keys := ["id"],
      attributes := [⟨"Name", some "name", true, {}, .primitive .string⟩], associations := [] }]
  complexTypes := []
  enumTypes := []
  functions := []

end Schema

/-- Whether a user has a role whose name contains `text`. -/
def Filter.roleLike (text : String) : Filter :=
  .call .contains [.member [.property "Roles", .property "Name"], .literal ⟨text, .string⟩]

/-- Whether all roles of a user have the name `text`. -/
def Filter.rolesNamed (text : String) : Filter :=
  .member [.property "Roles",
    .all "r" (.binary (.member [.property "r", .property "Name"]) (.compare .eq)
      (.literal ⟨text, .string⟩))]

end FilterSql
