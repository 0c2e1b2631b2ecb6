import FilterSql.Proofs.Json.Layout
import FilterSql.Proofs.Schema.Declarations
import FilterSql.Schema.Coding

/-!
# Schemas written and read again

A schema that was read from a document is written as a document from which it is read again
(`Schema.read_written`). One thing changes: `char` has no name of its own in the entity data model,
so attributes of this type come back as strings of any length (`Schema.withoutChar`), and the new
schema is written as before. For each record of a schema a lemma `recodes` says so of its reader
and its writer, from the lemmas for its fields.
-/

namespace FilterSql

/-! ## Readers and writers

`Json.Recodes` is the statement for one reader and one writer. It passes from values to lists, to
values that may be null, and to the fields of a record. -/

namespace Json

variable {α : Type}

/-- `read` and `write` belong together: what was read is read again from what it is written as, up
to a `change` that the writing does not show. No number in the writing has a fraction or an
exponent. -/
structure Recodes (read : Json → Option α) (write : α → Json) (change : α → α) : Prop where
  again : ∀ {j a}, read j = some a → read (write a) = some (change a)
  same : ∀ a, write (change a) = write a
  plain : ∀ a, (write a).IsPlain

namespace Recodes

variable {read : Json → Option α} {write : α → Json} {change : α → α} {a : α} {field : Option Json}

theorem string : Recodes string? .string id where
  again _ := rfl
  same _ := rfl
  plain s := .string s

theorem bool : Recodes bool? .bool id where
  again _ := rfl
  same _ := rfl
  plain b := .bool b

theorem integer (low high : Int) : Recodes (intBetween? low high) .int id where
  again {j n} h := by
    cases j with
    | int m =>
        rw [intBetween?] at h
        split at h
        · obtain rfl := Option.some.inj h
          exact if_pos ‹_›
        · cases h
    | _ => cases h
  same _ := rfl
  plain n := .int n

theorem natural : Recodes nat32? (fun n => .int n) id where
  again {j n} h := by
    obtain ⟨m, hm, rfl⟩ := Option.map_eq_some_iff.mp h
    have hagain : intBetween? 0 4294967295 (.int m) = some m := (integer 0 4294967295).again hm
    have hpos : 0 ≤ m := by
      rw [intBetween?] at hagain
      split at hagain
      · omega
      · cases hagain
    show nat32? (.int m.toNat) = some m.toNat
    rw [Int.toNat_of_nonneg hpos, nat32?, hagain]
    rfl
  same _ := rfl
  plain n := .int n

/-- Words that stand for values, provided that each value has a word. -/
theorem word [BEq α] (words : List (String × α)) (h : ∀ a, word? words (ofWord words a) = some a) :
    Recodes (word? words) (ofWord words) id where
  again _ := h _
  same _ := rfl
  plain _ := .string _

theorem list (h : Recodes read write change) :
    Recodes (list? read) (ofList write) (List.map change) where
  again {j xs} hxs := by
    cases j with
    | array items =>
        have hitems : items.mapM read = some xs := hxs
        show (xs.map write).mapM read = some (xs.map change)
        induction items generalizing xs with
        | nil =>
            obtain rfl := Option.some.inj hitems
            rfl
        | cons j items ih =>
            simp only [List.mapM_cons, Option.bind_eq_bind, Option.bind_eq_some_iff,
              Option.pure_def, Option.some.injEq] at hitems
            obtain ⟨x, hx, xs, hrest, rfl⟩ := hitems
            simp [List.mapM_cons, h.again hx, ih hrest hrest]
    | _ => cases hxs
  same xs := by simp [ofList, Function.comp_def, h.same]
  plain xs := by
    refine .array fun j hj => ?_
    obtain ⟨a, -, rfl⟩ := List.mem_map.mp hj
    exact h.plain a

theorem nullable (h : Recodes read write change) (hnull : read .null = none) :
    Recodes (nullable? read) (ofOption write) (Option.map change) where
  again {j a} ha := by
    cases a with
    | none => rfl
    | some a =>
        have hread : read j = some a := by
          unfold nullable? at ha
          split at ha
          · cases ha
          · obtain ⟨a', ha', heq⟩ := Option.map_eq_some_iff.mp ha
            obtain rfl := Option.some.inj heq
            exact ha'
        have hwritten := h.again hread
        show nullable? read (write a) = some (some (change a))
        unfold nullable?
        split
        next hw =>
          rw [hw, hnull] at hwritten
          cases hwritten
        next => rw [hwritten, Option.map_some]
  same a := by cases a <;> simp [ofOption, h.same]
  plain a := by
    cases a with
    | none => exact .null
    | some a => exact h.plain a

/-! Fields of a record, in the three ways in which a record may have one: `Json.required` of it,
with a default, or optional. -/

theorem required (h : Recodes read write change) (hfield : required read field = some a) :
    Json.required read (some (write a)) = some (change a) := by
  obtain ⟨j, -, hj⟩ := Option.bind_eq_some_iff.mp hfield
  exact h.again hj

theorem orElse (h : Recodes read write change) {default : α}
    (hdefault : read (write default) = some (change default))
    (hfield : orElse default read field = some a) :
    Json.orElse default read (some (write a)) = some (change a) := by
  cases field with
  | none =>
      obtain rfl := Option.some.inj hfield
      exact hdefault
  | some j => exact h.again hfield

theorem optional {a : Option α} (h : Recodes read write change) (hnull : read .null = none)
    (hfield : optional read field = some a) :
    Json.optional read (some (ofOption write a)) = some (a.map change) :=
  (h.nullable hnull).orElse rfl hfield

end Recodes

/-- An object that gives none of `names` twice is read as a record of its fields. -/
theorem record?_object {names : List String} {fields : List (String × Json)}
    (h : names.all fun n => (fields.map Prod.fst).count n ≤ 1) :
    record? names (.object fields) = some fun n => fields.lookup n := by
  have hcount : (names.all fun n => fields.countP (·.1 == n) ≤ 1) = true := by
    simpa only [List.count, List.countP_map, Function.comp_def] using h
  rw [record?, members?, if_pos hcount]
  simp

end Json

open Json

/-! ## Data types and tables

Where the change begins: `DataType.edmName` gives `char` the name of `string`. -/

/-- The type that is read from the name of `t`: `string` instead of `char`. -/
def DataType.withoutChar : DataType → DataType
  | char => string
  | t => t

theorem DataType.ofName?_edmName (t : DataType) : ofName? t.edmName = some t.withoutChar := by
  cases t <;> decide

theorem Json.recodes_dataType : Recodes dataType? ofDataType DataType.withoutChar where
  again {_ t} _ := by rw [dataType?, ofDataType, string?, Option.bind_some,
    DataType.ofName?_edmName]
  same t := by cases t <;> rfl
  plain t := .string _

theorem TableName.toString_ofString (text : String) :
    toString (TableName.ofString text) = text := by
  unfold ofString
  dsimp only
  split
  next => rfl
  next point rest hrest =>
    have hpoint : point = '.' := by
      have hhead := List.head?_dropWhile_not (· ≠ '.') text.toList
      rw [hrest] at hhead
      simpa using hhead
    have hparts := List.takeWhile_append_dropWhile (p := (· ≠ '.')) (l := text.toList)
    rw [hrest, hpoint] at hparts
    show String.ofList _ ++ "." ++ String.ofList rest = text
    apply String.toList_injective
    simpa using hparts

theorem Json.recodes_tableName : Recodes tableName? ofTableName id where
  again {j t} h := by
    obtain ⟨text, -, rfl⟩ := Option.map_eq_some_iff.mp h
    show some (TableName.ofString (toString (TableName.ofString text))) = _
    rw [TableName.toString_ofString]
    rfl
  same _ := rfl
  plain t := .string _

theorem Json.ofNat?_eq (n : Option Nat) : ofNat? n = ofOption (fun k : Nat => .int k) n := by
  cases n <;> rfl

theorem Facets.ofFields?_members {field field' : String → Option Json} {f : Facets}
    (h : ofFields? field = some f) (hlength : field' "max_length" = some (ofNat? f.maxLength))
    (hprecision : field' "precision" = some (ofNat? f.precision))
    (hscale : field' "scale" = some (ofNat? f.scale)) :
    ofFields? field' = some f := by
  simp only [ofFields?, Option.bind_eq_bind, Option.bind_eq_some_iff, Option.pure_def,
    Option.some.injEq] at h
  obtain ⟨length, hl, precision, hp, scale, hs, rfl⟩ := h
  have hl := Recodes.natural.optional rfl hl
  have hp := Recodes.natural.optional rfl hp
  have hs := Recodes.natural.optional rfl hs
  simp only [Option.map_id, id] at hl hp hs
  simp [ofFields?, hlength, hprecision, hscale, ofNat?_eq, hl, hp, hs]

theorem Facets.plain_members (f : Facets) : ∀ m ∈ f.members, m.2.IsPlain := by
  have hplain (n : Option Nat) : (ofNat? n).IsPlain := by
    rw [ofNat?_eq]
    exact (Recodes.natural.nullable rfl).plain n
  simp [members, hplain]

/-! ## Joins and associations

Nothing in them has a data type, so nothing changes. -/

theorem JoinColumn.recodes : Recodes JoinColumn.ofJson? JoinColumn.toJson id where
  again {j c} h := by
    simp only [ofJson?, Option.bind_eq_bind, Option.bind_eq_some_iff, Option.pure_def,
      Option.some.injEq] at h
    obtain ⟨field, -, source, hsource, target, htarget, rfl⟩ := h
    have hsource := Recodes.string.required hsource
    have htarget := Recodes.string.required htarget
    rw [toJson, ofJson?, record?_object (by simp)]
    simp [List.lookup_cons, hsource, htarget]
  same _ := rfl
  plain c := .object (by simp)

theorem LinkTable.recodes : Recodes LinkTable.ofJson? LinkTable.toJson id where
  again {j t} h := by
    simp only [ofJson?, Option.bind_eq_bind, Option.bind_eq_some_iff, Option.pure_def,
      Option.some.injEq] at h
    obtain ⟨field, -, table, htable, columns, hcolumns, rfl⟩ := h
    have htable := recodes_tableName.required htable
    have hcolumns := JoinColumn.recodes.list.required hcolumns
    rw [toJson, ofJson?, record?_object (by simp)]
    simp [List.lookup_cons, htable, hcolumns]
  same _ := rfl
  plain t := .object (by simp [recodes_tableName.plain, JoinColumn.recodes.list.plain])

theorem Association.recodes : Recodes Association.ofJson? Association.toJson id where
  again {j a} h := by
    simp only [ofJson?, Option.bind_eq_bind, Option.bind_eq_some_iff, Option.pure_def,
      Option.some.injEq] at h
    obtain ⟨field, -, name, hname, target, htarget, cardinality, hcardinality, columns, hcolumns,
      link, hlink, rfl⟩ := h
    have hname := Recodes.string.required hname
    have htarget := Recodes.string.required htarget
    have hcardinality :=
      (Recodes.word Cardinality.words (by rintro (_ | _) <;> rfl)).orElse rfl hcardinality
    have hcolumns := JoinColumn.recodes.list.required hcolumns
    have hlink := LinkTable.recodes.optional rfl hlink
    rw [toJson, ofJson?, record?_object (by simp)]
    simp [List.lookup_cons, hname, htarget, hcardinality, hcolumns, hlink]
  same _ := rfl
  plain a := .object (by
    simp [ofWord, JoinColumn.recodes.list.plain, (LinkTable.recodes.nullable rfl).plain])

/-! ## Attributes

An attribute is written as one object with its own members and those of its kind. The kind is read
from the members that are not the attribute's own. -/

def Element.withoutChar : Element → Element
  | primitive column type => primitive column type.withoutChar
  | complex type => complex type

theorem Element.recodes : Recodes Element.ofJson? Element.toJson Element.withoutChar where
  again {j e} h := by
    simp only [ofJson?, Option.bind_eq_bind, Option.bind_eq_some_iff] at h
    obtain ⟨⟨tag, content?⟩, -, content, -, h⟩ := h
    dsimp only at h
    split at h
    next =>
      simp only [Option.bind_eq_some_iff, Option.pure_def, Option.some.injEq] at h
      obtain ⟨field, -, column, hcolumn, type, htype, rfl⟩ := h
      have hcolumn := Recodes.string.required hcolumn
      have htype := recodes_dataType.required htype
      have hrecord : record? ["column",
        "type"] (.object [("column", .string column), ("type", ofDataType type)]) = _ :=
        record?_object (by simp)
      simp [toJson, ofJson?, tagged?, hrecord, List.lookup_cons, hcolumn, htype, withoutChar]
    next =>
      simp only [Option.bind_eq_some_iff, Option.pure_def, Option.some.injEq] at h
      obtain ⟨field, -, type, htype, rfl⟩ := h
      have htype := Recodes.string.required htype
      have hrecord : record? ["complex_type"] (.object [("complex_type", .string type)]) = _ :=
        record?_object (by simp)
      simp [toJson, ofJson?, tagged?, hrecord, List.lookup_cons, htype, withoutChar]
    next => cases h
  same e := by cases e <;> simp [withoutChar, toJson, recodes_dataType.same]
  plain e := by cases e <;> simp [toJson, recodes_dataType.plain]

namespace AttributeKind

def withoutChar : AttributeKind → AttributeKind
  | primitive type => primitive type.withoutChar
  | enum type => enum type
  | complex type lead => complex type lead
  | collection table columns element => collection table columns element.withoutChar

theorem ofJson?_members {j : Json} {k : AttributeKind} (h : ofJson? j = some k) :
    ofJson? (.object k.members) = some k.withoutChar := by
  have htag (tag : String) : required tag? (some (.string tag)) = some tag := rfl
  simp only [ofJson?, Option.bind_eq_bind, Option.bind_eq_some_iff] at h
  obtain ⟨field, -, tag, -, h⟩ := h
  -- One case for each tag, which is read again before the other members: one branch of the reader
  -- is left then.
  split at h
  next =>
    simp only [Option.bind_eq_some_iff, Option.pure_def, Option.some.injEq] at h
    obtain ⟨field, -, type, htype, rfl⟩ := h
    have htype := recodes_dataType.required htype
    rw [members, ofJson?, record?_object (by simp)]
    simp only [Option.bind_eq_bind, Option.bind_some, List.lookup_cons_self, htag]
    simp [record?_object, List.lookup_cons, htype, withoutChar]
  next =>
    simp only [Option.bind_eq_some_iff, Option.pure_def, Option.some.injEq] at h
    obtain ⟨field, -, type, htype, rfl⟩ := h
    have htype := Recodes.string.required htype
    rw [members, ofJson?, record?_object (by simp)]
    simp only [Option.bind_eq_bind, Option.bind_some, List.lookup_cons_self, htag]
    simp [record?_object, List.lookup_cons, htype, withoutChar]
  next =>
    simp only [Option.bind_eq_some_iff, Option.pure_def, Option.some.injEq] at h
    obtain ⟨field, -, type, htype, lead, hlead, rfl⟩ := h
    have htype := Recodes.string.required htype
    have hlead := Recodes.string.optional rfl hlead
    rw [members, ofJson?, record?_object (by simp)]
    simp only [Option.bind_eq_bind, Option.bind_some, List.lookup_cons_self, htag]
    simp [record?_object, List.lookup_cons, htype, ofString?, hlead, withoutChar]
  next =>
    simp only [Option.bind_eq_some_iff, Option.pure_def, Option.some.injEq] at h
    obtain ⟨field, -, table, htable, columns, hcolumns, element, helement, rfl⟩ := h
    have htable := recodes_tableName.required htable
    have hcolumns := JoinColumn.recodes.list.required hcolumns
    have helement := Element.recodes.required helement
    rw [members, ofJson?, record?_object (by simp)]
    simp only [Option.bind_eq_bind, Option.bind_some, List.lookup_cons_self, htag]
    simp [record?_object, List.lookup_cons, htable, hcolumns, helement, withoutChar]
  next => cases h

theorem members_withoutChar (k : AttributeKind) : k.withoutChar.members = k.members := by
  cases k <;> simp [withoutChar, members, recodes_dataType.same, Element.recodes.same]

theorem plain_members (k : AttributeKind) : ∀ m ∈ k.members, m.2.IsPlain := by
  have hlead (lead : Option String) : (ofString? lead).IsPlain :=
    (Recodes.string.nullable rfl).plain lead
  cases k <;> simp [members, hlead, recodes_dataType.plain, recodes_tableName.plain,
    JoinColumn.recodes.list.plain, Element.recodes.plain]

/-- The members of a kind have none of the names in `Attribute.ownNames`. -/
theorem members_foreign (k : AttributeKind) : ∀ m ∈ k.members, m.1 ∉ Attribute.ownNames := by
  cases k <;> simp [members, Attribute.ownNames]

/-- There is no number in them, so none can be out of range. -/
theorem wellFormed_members (k : AttributeKind) : (Json.object k.members).wellFormed = true := by
  have hcolumns (columns : List JoinColumn) : wellFormedItems (columns.map JoinColumn.toJson) =
    true := by
    induction columns with
    | nil => rfl
    | cons c columns ih =>
        simp [wellFormedItems, JoinColumn.toJson, wellFormed, wellFormedFields, ih]
  cases k with
  | primitive type => rfl
  | enum type => rfl
  | complex type lead => cases lead <;> rfl
  | collection table columns element =>
      have helement : element.toJson.wellFormed = true := by cases element <;> rfl
      simp [members, wellFormed, wellFormedFields, ofTableName, ofList, hcolumns, helement]

theorem depth_members (k : AttributeKind) : (Json.object k.members).depth ≤ 3 := by
  have hcolumns (columns : List JoinColumn) : depthOfItems (columns.map JoinColumn.toJson) ≤ 1 := by
    induction columns with
    | nil => simp [depthOfItems]
    | cons c columns ih => simp [depthOfItems, JoinColumn.toJson, depth, depthOfFields, ih]
  cases k with
  | primitive type => simp [members, depth, depthOfFields, ofDataType]
  | enum type => simp [members, depth, depthOfFields]
  | complex type lead => cases lead <;> simp [members, depth, depthOfFields, ofString?, ofOption]
  | collection table columns element =>
      have helement : element.toJson.depth = 2 := by cases element <;> rfl
      have hcolumns := hcolumns columns
      simp [members, depth, depthOfFields, ofTableName, ofList, helement]
      omega

end AttributeKind

namespace Attribute

def withoutChar (a : Attribute) : Attribute :=
  { a with kind := a.kind.withoutChar }

/-- The members of an attribute that do not depend on its kind. -/
def ownMembers (a : Attribute) : List (String × Json) :=
  [("name", .string a.name), ("column", ofString? a.columnName), ("nullable", .bool a.nullable)] ++
    a.facets.members

theorem map_ownMembers (a : Attribute) : a.ownMembers.map Prod.fst = ownNames := rfl

/-- Leaving out the attribute's own members leaves those of its kind. -/
theorem filter_members (a : Attribute) :
    (a.ownMembers ++ a.kind.members).filter (fun (name, _) => name ∉ ownNames) =
      a.kind.members := by
  have hown : a.ownMembers.filter (fun (name, _) => name ∉ ownNames) = [] := by
    rw [List.filter_eq_nil_iff]
    intro m hm
    have hname : m.1 ∈ ownNames := map_ownMembers a ▸ List.mem_map_of_mem hm
    simp [hname]
  have hkind : a.kind.members.filter (fun (name, _) => name ∉ ownNames) = a.kind.members := by
    rw [List.filter_eq_self]
    intro m hm
    simp [a.kind.members_foreign m hm]
  rw [List.filter_append, hown, hkind, List.nil_append]

theorem toJson_eq (a : Attribute) : a.toJson = .object (a.ownMembers ++ a.kind.members) := rfl

/-- Each of the attribute's own members is given once. -/
theorem members?_own (a : Attribute) :
    (Json.object (a.ownMembers ++ a.kind.members)).members? ownNames =
    some fun n => (a.ownMembers ++ a.kind.members).lookup n := by
  have hcount : ∀ name ∈ ownNames, (a.ownMembers ++ a.kind.members).countP (·.1 == name) ≤ 1 := by
    intro name hname
    have hkind : a.kind.members.countP (·.1 == name) = 0 := by
      rw [List.countP_eq_zero]
      intro m hm heq
      exact a.kind.members_foreign m hm (beq_iff_eq.mp heq ▸ hname)
    have hown : a.ownMembers.countP (·.1 == name) = ownNames.count name := by
      rw [← map_ownMembers a, List.count, List.countP_map]
      rfl
    rw [List.countP_append, hkind, hown, Nat.add_zero]
    exact List.nodup_iff_count_le_one.mp (by decide) name
  exact if_pos (List.all_eq_true.mpr fun name hname => decide_eq_true (hcount name hname))

theorem recodes : Recodes Attribute.ofJson? Attribute.toJson Attribute.withoutChar where
  again {j a} h := by
    cases j with
    | object fields =>
        simp only [ofJson?, Option.bind_eq_bind, Option.bind_eq_some_iff] at h
        obtain ⟨field, -, h⟩ := h
        split at h
        next =>
          simp only [Option.bind_eq_some_iff, Option.pure_def, Option.some.injEq] at h
          obtain ⟨name, hname, column, hcolumn, nullable, hnullable, facets, hfacets, kind,
            hkind, rfl⟩ := h
          have hname := Recodes.string.required hname
          have hcolumn := Recodes.string.optional rfl hcolumn
          have hnullable := Recodes.bool.orElse rfl hnullable
          have hkind := AttributeKind.ofJson?_members hkind
          have hfacets : Facets.ofFields? (fun n =>
              (ownMembers ⟨name, column, nullable, facets, kind⟩ ++ kind.members).lookup n) =
              some facets :=
            Facets.ofFields?_members hfacets rfl rfl rfl
          rw [toJson_eq, ofJson?, members?_own, filter_members]
          dsimp only
          have hkept : (Json.object kind.members).wellFormed ∧
            (Json.object kind.members).depth ≤ maxDepth :=
            ⟨kind.wellFormed_members, kind.depth_members.trans (by decide)⟩
          rw [Option.bind_eq_bind, Option.bind_some, if_pos hkept, hfacets, hkind]
          simp [ownMembers, List.lookup_cons, ofString?, hname, hcolumn, hnullable, withoutChar]
        next => cases h
    | _ => cases h
  same a := by simp [withoutChar, toJson, AttributeKind.members_withoutChar]
  plain a := by
    have hcolumn : (ofString? a.columnName).IsPlain :=
      (Recodes.string.nullable rfl).plain a.columnName
    have hown : ∀ m ∈ a.ownMembers, m.2.IsPlain := by
      simpa [ownMembers, hcolumn] using a.facets.plain_members
    refine .object fun m hm => ?_
    rcases List.mem_append.mp hm with hm | hm
    · exact hown m hm
    · exact a.kind.plain_members m hm

end Attribute

/-! ## Types

Records of attributes, of associations and of members. -/

def EntityType.withoutChar (t : EntityType) : EntityType :=
  { t with attributes := t.attributes.map (·.withoutChar) }

theorem EntityType.recodes :
    Recodes EntityType.ofJson? EntityType.toJson EntityType.withoutChar where
  again {j t} h := by
    simp only [ofJson?, Option.bind_eq_bind, Option.bind_eq_some_iff, Option.pure_def,
      Option.some.injEq] at h
    obtain ⟨field, -, name, hname, table, htable, keys, hkeys, attributes, hattributes,
      associations, hassociations, rfl⟩ := h
    have hname := Recodes.string.required hname
    have htable := recodes_tableName.required htable
    have hkeys := Recodes.string.list.orElse rfl hkeys
    have hattributes := Attribute.recodes.list.orElse rfl hattributes
    have hassociations := Association.recodes.list.orElse rfl hassociations
    rw [toJson, ofJson?, record?_object (by simp)]
    simp [List.lookup_cons, hname, htable, hkeys, hattributes, hassociations, withoutChar]
  same t := by simp [withoutChar, toJson, Attribute.recodes.list.same]
  plain t := .object (by
    simp [recodes_tableName.plain, Recodes.string.list.plain, Attribute.recodes.list.plain,
      Association.recodes.list.plain])

def ComplexType.withoutChar (t : ComplexType) : ComplexType :=
  { t with attributes := t.attributes.map (·.withoutChar) }

theorem ComplexType.recodes :
    Recodes ComplexType.ofJson? ComplexType.toJson ComplexType.withoutChar where
  again {j t} h := by
    simp only [ofJson?, Option.bind_eq_bind, Option.bind_eq_some_iff, Option.pure_def,
      Option.some.injEq] at h
    obtain ⟨field, -, name, hname, attributes, hattributes, associations, hassociations, rfl⟩ := h
    have hname := Recodes.string.required hname
    have hattributes := Attribute.recodes.list.orElse rfl hattributes
    have hassociations := Association.recodes.list.orElse rfl hassociations
    rw [toJson, ofJson?, record?_object (by simp)]
    simp [List.lookup_cons, hname, hattributes, hassociations, withoutChar]
  same t := by simp [withoutChar, toJson, Attribute.recodes.list.same]
  plain t := .object (by simp [Attribute.recodes.list.plain, Association.recodes.list.plain])

theorem EnumMember.recodes : Recodes EnumMember.ofJson? EnumMember.toJson id where
  again {j m} h := by
    simp only [ofJson?, Option.bind_eq_bind, Option.bind_eq_some_iff, Option.pure_def,
      Option.some.injEq] at h
    obtain ⟨field, -, name, hname, value, hvalue, rfl⟩ := h
    have hname := Recodes.string.required hname
    have hvalue := (Recodes.integer _ _).optional rfl hvalue
    rw [toJson, ofJson?, record?_object (by simp)]
    simp [List.lookup_cons, hname, int64?, hvalue]
  same _ := rfl
  plain m := .object (by
    have hvalue : (ofOption .int m.value).IsPlain :=
      ((Recodes.integer 0 0).nullable rfl).plain m.value
    simp [hvalue])

theorem EnumType.recodes : Recodes EnumType.ofJson? EnumType.toJson id where
  again {j t} h := by
    simp only [ofJson?, Option.bind_eq_bind, Option.bind_eq_some_iff, Option.pure_def,
      Option.some.injEq] at h
    obtain ⟨field, -, name, hname, members, hmembers, storage, hstorage, rfl⟩ := h
    have hname := Recodes.string.required hname
    have hmembers := EnumMember.recodes.list.required hmembers
    have hstorage :=
      (Recodes.word EnumStorage.words (by rintro (_ | _) <;> rfl)).orElse rfl hstorage
    rw [toJson, ofJson?, record?_object (by simp)]
    simp [List.lookup_cons, hname, hmembers, hstorage]
  same _ := rfl
  plain t := .object (by simp [ofWord, EnumMember.recodes.list.plain])

/-! ## Functions

Parameters and results have data types, so they change as attributes do. -/

def ReturnType.withoutChar (t : ReturnType) : ReturnType :=
  { t with dataType := t.dataType.map (·.withoutChar) }

theorem ReturnType.recodes :
    Recodes ReturnType.ofJson? ReturnType.toJson ReturnType.withoutChar where
  again {j t} h := by
    simp only [ofJson?, Option.bind_eq_bind, Option.bind_eq_some_iff, Option.pure_def,
      Option.some.injEq] at h
    obtain ⟨field, -, kind, hkind, type, htype, collection, hcollection, rfl⟩ := h
    have hkind := (Recodes.word ReturnKind.words (by rintro (_ | _) <;> rfl)).required hkind
    have htype := recodes_dataType.optional rfl htype
    have hcollection := Recodes.bool.orElse rfl hcollection
    rw [toJson, ofJson?, record?_object (by simp)]
    simp [List.lookup_cons, hkind, htype, hcollection, withoutChar]
  same t := by simp [withoutChar, toJson, (recodes_dataType.nullable rfl).same]
  plain t := .object (by simp [ofWord, (recodes_dataType.nullable rfl).plain])

def Parameter.withoutChar (p : Parameter) : Parameter :=
  { p with dataType := p.dataType.withoutChar }

theorem Parameter.recodes : Recodes Parameter.ofJson? Parameter.toJson Parameter.withoutChar where
  again {j p} h := by
    simp only [ofJson?, Option.bind_eq_bind, Option.bind_eq_some_iff, Option.pure_def,
      Option.some.injEq] at h
    obtain ⟨field, -, name, hname, type, htype, enumType, henumType, facets, hfacets, rfl⟩ := h
    have hname := Recodes.string.required hname
    have htype := recodes_dataType.required htype
    have henumType := Recodes.string.optional rfl henumType
    have hfacets : Facets.ofFields? (fun n =>
        ([("name", .string name), ("type", ofDataType type), ("enum_type", ofString? enumType)] ++
          facets.members).lookup n) = some facets := Facets.ofFields?_members hfacets rfl rfl rfl
    rw [toJson, ofJson?, record?_object (by simp [Facets.members]), Option.bind_eq_bind,
      Option.bind_some, hfacets]
    simp [List.lookup_cons, ofString?, hname, htype, henumType, withoutChar]
  same p := by simp [withoutChar, toJson, recodes_dataType.same]
  plain p := .object (by
    have henumType : (ofString? p.enumType).IsPlain :=
      (Recodes.string.nullable rfl).plain p.enumType
    simpa [recodes_dataType.plain, henumType] using p.facets.plain_members)

def Function.withoutChar (f : Function) : Function :=
  { f with parameters := f.parameters.map (·.withoutChar), returnType := f.returnType.withoutChar }

theorem Function.recodes : Recodes Function.ofJson? Function.toJson Function.withoutChar where
  again {j f} h := by
    simp only [ofJson?, Option.bind_eq_bind, Option.bind_eq_some_iff, Option.pure_def,
      Option.some.injEq] at h
    obtain ⟨field, -, name, hname, sqlName, hsqlName, parameters, hparameters, returnType,
      hreturnType, rfl⟩ := h
    have hname := Recodes.string.required hname
    have hsqlName := Recodes.string.required hsqlName
    have hparameters := Parameter.recodes.list.orElse rfl hparameters
    have hreturnType := ReturnType.recodes.required hreturnType
    rw [toJson, ofJson?, record?_object (by simp)]
    simp [List.lookup_cons, hname, hsqlName, hparameters, hreturnType, withoutChar]
  same f := by simp [withoutChar, toJson, Parameter.recodes.list.same, ReturnType.recodes.same]
  plain f := .object (by simp [Parameter.recodes.list.plain, ReturnType.recodes.plain])

/-! ## Schemas

A schema is read in two steps: `Schema.ofJson?` reads the record, and `Schema.fault?` checks its
names and references. The check comes to the same for the changed schema. -/

namespace Schema

/-- The schema with `string` in the place of `char`, in attributes, in elements of collections, in
parameters and in results. -/
def withoutChar (s : Schema) : Schema :=
  { s with
    entityTypes := s.entityTypes.map (·.withoutChar)
    complexTypes := s.complexTypes.map (·.withoutChar)
    functions := s.functions.map (·.withoutChar) }

theorem recodes : Recodes ofJson? toJson withoutChar where
  again {j s} h := by
    simp only [ofJson?, Option.bind_eq_bind, Option.bind_eq_some_iff, Option.pure_def,
      Option.some.injEq] at h
    obtain ⟨field, -, lead, hlead, entities, hentities, complexes, hcomplexes, enums, henums,
      functions, hfunctions, rfl⟩ := h
    have hlead := Recodes.string.optional rfl hlead
    have hentities := EntityType.recodes.list.orElse rfl hentities
    have hcomplexes := ComplexType.recodes.list.orElse rfl hcomplexes
    have henums := EnumType.recodes.list.orElse rfl henums
    have hfunctions := Function.recodes.list.orElse rfl hfunctions
    rw [toJson, ofJson?, record?_object (by simp)]
    simp [List.lookup_cons, ofString?, hlead, hentities, hcomplexes, henums, hfunctions,
      withoutChar]
  same s := by
    simp [withoutChar, toJson, EntityType.recodes.list.same, ComplexType.recodes.list.same,
      Function.recodes.list.same]
  plain s := .object (by
    have hlead : (ofString? s.namespaceName).IsPlain :=
      (Recodes.string.nullable rfl).plain s.namespaceName
    simp [hlead, EntityType.recodes.list.plain, ComplexType.recodes.list.plain,
      EnumType.recodes.list.plain, Function.recodes.list.plain])

/-! The changed schema is as valid as before: its names and references have nothing to do with the
types of strings. -/

theorem typeNames_withoutChar (s : Schema) : s.withoutChar.typeNames = s.typeNames := by
  simp [typeNames, withoutChar, Function.comp_def, EntityType.withoutChar, ComplexType.withoutChar]

theorem declares_withoutChar (s : Schema) (kind : TypeKind) (name : String) :
    s.withoutChar.declares kind name = s.declares kind name := by
  cases kind with
  | entity =>
      rw [declares, entityType?, withoutChar, List.find?_map, Option.isSome_map]
      rfl
  | complex =>
      rw [declares, complexType?, withoutChar, List.find?_map, Option.isSome_map]
      rfl
  | enum => rfl

theorem memberReferences_withoutChar (attributes : List Attribute)
    (associations : List Association) :
    memberReferences (attributes.map (·.withoutChar)) associations =
      memberReferences attributes associations := by
  have hreference (a : Attribute) : a.withoutChar.reference? = a.reference? := by
    obtain ⟨_, _, _, _, kind⟩ := a
    cases kind with
    | collection _ _ element => cases element <;> rfl
    | _ => rfl
  simp [memberReferences, List.filterMap_map, hreference]

theorem references_withoutChar (s : Schema) : s.withoutChar.references = s.references := by
  have henums (f : Function) :
      f.withoutChar.parameters.filterMap (·.enumType) = f.parameters.filterMap (·.enumType) := by
    simp [Function.withoutChar, List.filterMap_map, Parameter.withoutChar]
  have hname (f : Function) : f.withoutChar.name = f.name := rfl
  simp [references, withoutChar, List.flatMap_map, EntityType.withoutChar, ComplexType.withoutChar,
    memberReferences_withoutChar, henums, hname]

theorem fault?_withoutChar (s : Schema) : s.withoutChar.fault? = s.fault? := by
  simp only [fault?, typeNames_withoutChar, references_withoutChar, declares_withoutChar]

/-- A value is loaded as the schema that it declares, if that schema has no fault. -/
theorem load?_eq_ok {j : Json} {s : Schema} :
    load? j = .ok s ↔ ofJson? j = some s ∧ s.fault? = none := by
  unfold load?
  cases ofJson? j with
  | none => simp
  | some s' => cases hfault : s'.fault? <;> grind

theorem read?_eq_ok {document : String} {s : Schema} :
    read? document = .ok s ↔ ∃ j, Json.read? document = some j ∧ load? j = .ok s := by
  unfold read?
  cases Json.read? document <;> simp

/-- What a loaded schema is written as declares it again, with `char` read as `string`. -/
theorem load?_written {j : Json} {s : Schema} (h : load? j = .ok s) :
    load? s.toJson = .ok s.withoutChar := by
  obtain ⟨hread, hvalid⟩ := load?_eq_ok.mp h
  exact load?_eq_ok.mpr ⟨recodes.again hread, s.fault?_withoutChar.trans hvalid⟩

/-- **A schema that was read is written as a document that reads back as `withoutChar`**, in one
line (`Json.compact`) and in many (`Json.pretty`). What is read then is written as it was before. -/
theorem read_written {document : String} {s : Schema} (h : read? document = .ok s) :
    read? s.toJson.compact = .ok s.withoutChar ∧ read? s.toJson.pretty = .ok s.withoutChar ∧
      s.withoutChar.toJson = s.toJson := by
  obtain ⟨j, -, hload⟩ := read?_eq_ok.mp h
  have hagain : load? s.toJson = .ok s.withoutChar := load?_written hload
  have hplain : s.toJson.IsPlain := recodes.plain s
  exact ⟨read?_eq_ok.mpr ⟨_, hplain.read?_compact, hagain⟩,
    read?_eq_ok.mpr ⟨_, hplain.read?_pretty, hagain⟩, recodes.same s⟩

/-- Cars under their number plates, with stickers that have codes, and a function for the district
of a plate. The document leaves out most of what may be left out. -/
def platesJson : Json :=
  .object [
    ("namespace", .string "demo"),
    ("entity_types", .array [.object [
      ("name", .string "Car"), ("table", .string "hall.main.cars"),
      ("keys", .array [.string "Plate"]), ("attributes", .array [
        .object [("name", .string "Plate"), ("kind", .string "primitive"), ("type", .string "char"),
          ("max_length", .int 8)],
        .object [("name", .string "Stickers"), ("kind", .string "element_collection"),
          ("table", .string "stickers"),
          ("join_columns",
            .array [.object [("source", .string "plate"), ("target", .string "car")]]), ("element",
            .object [("primitive",
              .object [("column", .string "code"), ("type", .string "Char")])])]])]]),
    ("functions", .array [.object [
      ("name", .string "District"), ("db_name", .string "district"),
      ("parameters", .array [.object [("name", .string "plate"), ("type", .string "CHAR")]]),
      ("return_type", .object [("kind", .string "primitive"), ("type", .string "char")])]])]

/-- The schema that `platesJson` declares. -/
def plates : Schema where
  namespaceName := some "demo"
  entityTypes := [{
    name := "Car"
    table := TableName.ofString "hall.main.cars"
    keys := ["Plate"]
    attributes := [
      ⟨"Plate", none, true, { maxLength := some 8 }, .primitive .char⟩,
      ⟨"Stickers", none, true, {}, .collection (TableName.ofString "stickers") [⟨"plate", "car"⟩]
        (.primitive "code" .char)⟩]
    associations := [] }]
  complexTypes := []
  enumTypes := []
  functions := [{
    name := "District"
    sqlName := "district"
    parameters := [⟨"plate", .char, none, {}⟩]
    returnType := ⟨.primitive, some .char, false⟩ }]

theorem read_written_without_char :
    read? platesJson.compact = .ok plates ∧ plates.withoutChar ≠ plates ∧
    (read? plates.toJson.compact = .ok plates.withoutChar ∧
      read? plates.toJson.pretty = .ok plates.withoutChar ∧
      plates.withoutChar.toJson = plates.toJson) := by
  have hplain : platesJson.IsPlain := by
    simp [platesJson]
  have hread : read? platesJson.compact = .ok plates :=
    read?_eq_ok.mpr ⟨_, hplain.read?_compact, rfl⟩
  exact ⟨hread, by decide, read_written hread⟩

end Schema

end FilterSql
