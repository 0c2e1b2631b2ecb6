import FilterSql.Schema.Validity
import Mathlib.Data.List.Nodup

/-!
# Types under their own names

A valid schema has no two types of one name. Still a name can mean two of them, since it may be
given with the namespace in front: another type may be declared by the name that stands behind the
namespace. A look-up takes the first type that the name means. So it finds a type under its own
name exactly if no type declared in front of it is meant as well (`Schema.finds_declared`).
-/

namespace FilterSql

namespace Schema

variable {s : Schema} {α : Type} {declared name : String}

/-! ## Names

`Schema.fault?` compares names as they are declared. `Schema.names`, by which types are found, also
accepts a name with the namespace. -/

theorem nodup_of_firstRepeated? {seen names : List String} (h : firstRepeated? seen names = none) :
    names.Nodup ∧ ∀ name ∈ names, name ∉ seen := by
  induction names generalizing seen with
  | nil => simp
  | cons first rest ih =>
      rw [firstRepeated?] at h
      split at h
      · cases h
      · rename_i hfirst
        obtain ⟨hnodup, hseen⟩ := ih h
        simp only [List.contains_eq_mem, decide_eq_true_eq] at hfirst
        grind

/-- No two types of a valid schema have one name. -/
theorem typeNames_nodup (hs : s.fault? = none) : s.typeNames.Nodup := by
  unfold fault? at hs
  split at hs
  · cases hs
  · exact (nodup_of_firstRepeated? ‹_›).1

/-- The name is the declared one behind the namespace of the schema. -/
def Qualifies (s : Schema) (declared name : String) : Prop :=
  ∃ ns, s.namespaceName = some ns ∧ name = ns ++ "." ++ declared

theorem dropLead?_eq_some {lead text rest : String} :
    dropLead? lead text = some rest ↔ text = lead ++ rest := by
  unfold dropLead?
  constructor
  · intro h
    split at h
    · obtain ⟨back, hback⟩ := List.isPrefixOf_iff_prefix.mp ‹_›
      obtain rfl := Option.some.inj h
      apply String.toList_injective
      rw [String.toList_append, String.toList_ofList, ← hback, ← String.length_toList,
        List.drop_left]
    · cases h
  · rintro rfl
    rw [if_pos (by simp [List.isPrefixOf_iff_prefix])]
    simp [← String.length_toList]

/-- A name means what is declared by it, and what is declared by the part behind the namespace. -/
theorem names_iff : s.names declared name = true ↔ declared = name ∨ s.Qualifies declared name := by
  unfold names Qualifies
  cases s.namespaceName with
  | none => simp
  | some ns => simp [dropLead?_eq_some, String.append_assoc]

/-- A name qualifies at most one declared name. -/
theorem Qualifies.unique {declared' : String} (h : s.Qualifies declared name)
    (h' : s.Qualifies declared' name) :
    declared = declared' := by
  obtain ⟨ns, hns, rfl⟩ := h
  obtain ⟨ns', hns', heq⟩ := h'
  obtain rfl : ns = ns' := Option.some.inj (hns.symm.trans hns')
  simpa [String.ext_iff] using heq

/-! ## Look-ups

All three look-ups take the first of their declarations that the name means. -/

/-- Each declaration is found under its own name unless the name `Qualifies` a declaration in front
of it. Then that one is found. -/
def FindsDeclared (s : Schema) (called : α → String) (declarations : List α)
    (lookup : String → Option α) : Prop :=
  ∀ front t back, declarations = front ++ t :: back →
    (lookup (called t) = some t ↔ ∀ t' ∈ front, ¬ s.Qualifies (called t') (called t)) ∧
    ∀ t' ∈ front, s.Qualifies (called t') (called t) → lookup (called t) = some t'

theorem find?_declared {called : α → String} {declarations : List α}
    (hnodup : (declarations.map called).Nodup) :
    s.FindsDeclared called declarations fun name => declarations.find? fun t =>
      s.names (called t) name := by
  rintro front t back rfl
  have hother : ∀ t' ∈ front, called t' ≠ called t := by
    intro t' ht' heq
    rw [List.map_append, List.nodup_append] at hnodup
    exact hnodup.2.2 _ (List.mem_map_of_mem ht') _ (by simp) heq
  -- The first thing in front that the name means is the one that the name has behind the namespace.
  have hshadowed : ∀ t' ∈ front, s.Qualifies (called t') (called t) →
      (front ++ t :: back).find? (fun t' => s.names (called t') (called t)) = some t' := by
    intro t' ht' hqualifies
    obtain ⟨first, hfirst⟩ : ∃ first,
      front.find? (fun t' => s.names (called t') (called t)) = some first :=
      Option.isSome_iff_exists.mp (List.find?_isSome.mpr ⟨t', ht', names_iff.mpr (.inr hqualifies)⟩)
    have hmem := List.mem_of_find?_eq_some hfirst
    have hmeans : s.names (called first) (called t) = true := by simpa using List.find?_some hfirst
    rcases names_iff.mp hmeans with heq | hfirst'
    · exact absurd heq (hother first hmem)
    · have hsame : first = t' :=
        List.inj_on_of_nodup_map hnodup (by simp [hmem]) (by simp [ht']) (hfirst'.unique hqualifies)
      rw [List.find?_append, hfirst, hsame, Option.some_or]
  refine ⟨⟨?_, ?_⟩, hshadowed⟩
  · intro h t' ht' hqualifies
    obtain rfl : t' = t := Option.some.inj ((hshadowed t' ht' hqualifies).symm.trans h)
    exact hother t' ht' rfl
  · intro hfront
    have hnone : front.find? (fun t' => s.names (called t') (called t)) = none := by
      rw [List.find?_eq_none]
      intro t' ht' hnames
      rcases names_iff.mp hnames with heq | hqualifies
      · exact hother t' ht' heq
      · exact hfront t' ht' hqualifies
    have hown : s.names (called t) (called t) = true := names_iff.mpr (.inl rfl)
    simp [hnone, hown]

/-- **When a type of a valid schema is found under its own name**: exactly if no type of its kind
that is declared in front of it has, as its whole name, the part behind the namespace of this name.
It is `FindsDeclared` for entity types, complex types and enum types. -/
theorem finds_declared (hs : s.fault? = none) :
    s.FindsDeclared (·.name) s.entityTypes s.entityType? ∧
    s.FindsDeclared (·.name) s.complexTypes s.complexType? ∧
      s.FindsDeclared (·.name) s.enumTypes s.enumType? := by
  have hnodup := typeNames_nodup hs
  rw [typeNames, List.append_assoc, List.nodup_append, List.nodup_append] at hnodup
  obtain ⟨hentity, ⟨hcomplex, henum, -⟩, -⟩ := hnodup
  exact ⟨find?_declared hentity, find?_declared hcomplex, find?_declared henum⟩

/-- `demo.Person` in the namespace `demo` is the name of two types: of the one that is declared so,
and of `Person`. -/
def namesakes : Schema where
  namespaceName := some "demo"
  entityTypes := [
    { name := "Person", table := ⟨none, "persons"⟩, keys := [], attributes := [],
      associations := [] },
    { name := "demo.Person", table := ⟨none, "demo_persons"⟩, keys := [], attributes := [],
      associations := [] }]
  complexTypes := [⟨"demo.Place", [], []⟩, ⟨"Place", [], []⟩]
  enumTypes := []
  functions := []

theorem declared_namesakes : namesakes.fault? = none ∧
    namesakes.FindsDeclared (·.name) namesakes.entityTypes namesakes.entityType? ∧
    namesakes.FindsDeclared (·.name) namesakes.complexTypes namesakes.complexType? ∧
    namesakes.FindsDeclared (·.name) namesakes.enumTypes namesakes.enumType? :=
  ⟨by decide, finds_declared (by decide)⟩

/-- The second entity type is not found under its own name. The complex type is, since it is
declared first. -/
example : (namesakes.entityType? "demo.Person").map (·.name) = some "Person" ∧
    (namesakes.complexType? "demo.Place").map (·.name) = some "demo.Place" := by
  decide

end Schema

end FilterSql
