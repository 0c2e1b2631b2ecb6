import FilterSql.Compile.Target
import FilterSql.Proofs.Compile.Outcome

/-!
# How names resolve

A name leads from a place to a column, into a complex attribute, or across a hop. `Schema.Resolves`
has one rule for each of these and is the relation that `Schema.resolveFrom` computes
(`Schema.resolveFrom_ok`). If the names are cut at a hop, those behind it resolve from the rows
that it leads to, to the hops that are left and to the same column (`Schema.Resolves.resume`). Only
the stops are then counted from another name.
-/

namespace FilterSql

namespace Schema

variable {s : Schema}

/-! ## Rules

`Resolves` has a rule for each kind of member that a name may lead to. It says what `resolveFrom`
does where it succeeds, without the order in which the code looks for members. -/

/-- `name` leads from the type `owner` to the rows of another table. Attributes are looked up
before associations. -/
inductive HopsTo (s : Schema) (owner : StructuredType) (name : String) :
    Scope → HopKind → Prop where
  | collection {a : Attribute} {table : TableName} {columns : List JoinColumn} {element : Element}
      {target : Scope} (ha : owner.attribute? name = some a)
      (hkind : a.kind = .collection table columns element)
      (htarget : s.elementScope owner.name table element = .ok target) :
      HopsTo s owner name target (.collection columns)
  | association {a : Association} {target : Scope} (hnone : owner.attribute? name = none)
      (ha : owner.association? name = some a)
      (htarget : s.associationScope owner.name a = .ok target) :
      HopsTo s owner name target (.association a)

/-- `names` resolve from a place, with `index` names in front of them. -/
inductive Resolves (s : Schema) : Place → Nat → List String → Resolution → Prop where
  | nil (p : Place) (index : Nat) : Resolves s p index [] ⟨[], none⟩
  | column {p : Place} {index : Nat} {name : String} {owner : StructuredType} {a : Attribute}
      {type : ValueType} (howner : p.owner? = some owner) (ha : owner.attribute? name = some a)
      (htype : s.attributeType a = .ok type) :
      Resolves s p index [name] ⟨[], some ⟨p.elements ++ [name], p.columnLead ++ a.column, type⟩⟩
  | enter {p : Place} {index : Nat} {name next type : String} {rest : List String}
      {owner : StructuredType} {a : Attribute} {lead : Option String} {c : ComplexType}
      {r : Resolution} (howner : p.owner? = some owner) (ha : owner.attribute? name = some a)
      (hkind : a.kind = .complex type lead) (hc : s.complexTypeOf owner.name type = .ok c)
      (hrest : Resolves s (p.enter name lead c) (index + 1) (next :: rest) r) :
      Resolves s p index (name :: next :: rest) r
  | hop {p : Place} {index : Nat} {name : String} {rest : List String} {owner : StructuredType}
      {target : Scope} {kind : HopKind} {r : Resolution} (howner : p.owner? = some owner)
      (hstep : s.HopsTo owner name target kind)
      (hrest : Resolves s (.start target) (index + 1) rest r) :
      Resolves s p index (name :: rest) (r.behind ⟨name, target, kind, p.columnLead, index + 1⟩)

theorem resolves_of_ok {p : Place} {index : Nat} {names : List String} {r : Resolution}
    (h : s.resolveFrom p index names = .ok r) : s.Resolves p index names r := by
  induction names generalizing p index r with
  | nil =>
      obtain rfl := Except.ok.inj h
      exact .nil p index
  | cons name rest ih =>
      rw [resolveFrom] at h
      -- The cases are those of the recursion: each of them that does not fail is a rule.
      cases howner : p.owner? with
      | none => simp [howner] at h
      | some owner =>
          simp only [howner] at h
          cases ha : owner.attribute? name with
          | some a =>
              simp only [ha] at h
              cases hkind : a.kind with
              | primitive type | enum type =>
                  cases rest with
                  | nil =>
                      simp only [hkind] at h
                      obtain ⟨t, ht, h⟩ := Checked.bind_ok.mp h
                      obtain rfl := Checked.pure_ok.mp h
                      exact .column howner ha ht
                  | cons next rest => simp [hkind] at h
              | complex type lead =>
                  cases rest with
                  | nil => simp [hkind] at h
                  | cons next rest =>
                      simp only [hkind] at h
                      obtain ⟨c, hc, h⟩ := Checked.bind_ok.mp h
                      exact .enter howner ha hkind hc (ih h)
              | collection table columns element =>
                  simp only [hkind] at h
                  obtain ⟨target, htarget, h⟩ := Checked.bind_ok.mp h
                  obtain ⟨r', hr, h⟩ := Checked.bind_ok.mp h
                  obtain rfl := Checked.pure_ok.mp h
                  exact .hop howner (.collection ha hkind htarget) (ih hr)
          | none =>
              simp only [ha] at h
              cases hassociation : owner.association? name with
              | none => simp [hassociation] at h
              | some a =>
                  simp only [hassociation] at h
                  obtain ⟨target, htarget, h⟩ := Checked.bind_ok.mp h
                  obtain ⟨r', hr, h⟩ := Checked.bind_ok.mp h
                  obtain rfl := Checked.pure_ok.mp h
                  exact .hop howner (.association ha hassociation htarget) (ih hr)

theorem ok_of_resolves {p : Place} {index : Nat} {names : List String} {r : Resolution}
    (h : s.Resolves p index names r) : s.resolveFrom p index names = .ok r := by
  induction h with
  | nil => rfl
  | @column p index name owner a type howner ha htype =>
      rw [resolveFrom]
      simp only [howner, ha]
      obtain ⟨dataType, hdata, -⟩ := attributeType_ok.mp htype
      cases hkind : a.kind with
      | primitive | enum => simp [htype, bind, Except.bind, pure, Except.pure]
      | complex | collection => simp [Attribute.dataType?, hkind] at hdata
  | enter howner ha hkind hc hrest ih =>
      rw [resolveFrom]
      simp only [howner, ha, hkind, hc]
      exact ih
  | hop howner hstep hrest ih =>
      rw [resolveFrom]
      cases hstep with
      | collection ha hkind htarget =>
          simp [howner, ha, hkind, htarget, ih, bind, Except.bind, pure, Except.pure]
      | association hnone ha htarget =>
          simp [howner, hnone, ha, htarget, ih, bind, Except.bind, pure, Except.pure]

/-- **Names resolve by the rules**, and to nothing else. -/
theorem resolveFrom_ok {p : Place} {index : Nat} {names : List String} {r : Resolution} :
    s.resolveFrom p index names = .ok r ↔ s.Resolves p index names r :=
  ⟨resolves_of_ok, ok_of_resolves⟩

theorem resolve_ok {scope : Scope} {names : List String} {r : Resolution} :
    s.resolve scope names = .ok r ↔ names ≠ [] ∧ s.Resolves (.start scope) 0 names r := by
  cases names with
  | nil => simp [resolve]
  | cons name rest => simp [resolve, resolveFrom_ok]

end Schema

/-! ## Cutting at a hop

A hop carries the number of names up to it, so the hops of a rest are counted from another name.
Apart from this number (`Hop.unnumbered`), they are those of the whole path. -/

/-- The hop without the number of its name. -/
def Hop.unnumbered (h : Hop) : Hop :=
  { h with stop := 0 }

/-- The number has no part in where a hop leads, and along which columns. -/
theorem Hop.eq_of_unnumbered {h h' : Hop} (heq : h'.unnumbered = h.unnumbered) :
    h'.target = h.target ∧ h'.kind = h.kind ∧ h'.columnLead = h.columnLead := by
  obtain ⟨-, htarget, hkind, hlead, -⟩ := Hop.mk.inj heq
  exact ⟨htarget, hkind, hlead⟩

namespace Schema.Resolves

variable {s : Schema} {p : Place} {index : Nat} {names : List String} {r : Resolution}

/-- The number of names in front changes nothing but the stops. -/
theorem renumber (h : s.Resolves p index names r) (index' : Nat) :
    ∃ r', s.Resolves p index' names r' ∧ r'.leaf? = r.leaf? ∧
      r'.hops.map Hop.unnumbered = r.hops.map Hop.unnumbered := by
  induction h generalizing index' with
  | nil p => exact ⟨_, .nil p index', rfl, rfl⟩
  | column howner ha htype => exact ⟨_, .column howner ha htype, rfl, rfl⟩
  | enter howner ha hkind hc hrest ih =>
      obtain ⟨r', hr, hleaf, hhops⟩ := ih (index' + 1)
      exact ⟨r', .enter howner ha hkind hc hr, hleaf, hhops⟩
  | hop howner hstep hrest ih =>
      obtain ⟨r', hr, hleaf, hhops⟩ := ih (index' + 1)
      refine ⟨_, .hop howner hstep hr, hleaf, ?_⟩
      simp only [Resolution.behind, List.map_cons, hhops, Hop.unnumbered]

/-- What is behind a hop resolves from the rows that it leads to. -/
theorem resume {front back : List Hop} {h : Hop} (hr : s.Resolves p index names r)
    (hhops : r.hops = front ++ h :: back) :
    index < h.stop ∧ h.stop ≤ index + names.length ∧
      s.Resolves (.start h.target) h.stop (names.drop (h.stop - index)) ⟨back, r.leaf?⟩ := by
  induction hr generalizing front with
  | nil | column => simp at hhops
  | @enter p index name next type rest owner a lead c r howner ha hkind hc hrest ih =>
      obtain ⟨hlt, hle, hback⟩ := ih hhops
      have hdrop : h.stop - index = (h.stop - (index + 1)) + 1 := by omega
      rw [hdrop, List.drop_succ_cons]
      simp only [List.length_cons] at hle ⊢
      exact ⟨by omega, by omega, hback⟩
  | @hop p index name rest owner target kind r howner hstep hrest ih =>
      cases front with
      | nil =>
          obtain ⟨rfl, rfl⟩ := List.cons.inj hhops
          -- The hop itself takes one name, and the rest is what it was put in front of.
          have hdrop : index + 1 - index = 0 + 1 := by omega
          rw [hdrop, List.drop_succ_cons, List.length_cons]
          refine ⟨Nat.lt_succ_self index, ?_, hrest⟩
          show index + 1 ≤ index + (rest.length + 1)
          omega
      | cons first front =>
          obtain ⟨hlt, hle, hback⟩ := ih (List.cons.inj hhops).2
          have hdrop : h.stop - index = (h.stop - (index + 1)) + 1 := by omega
          rw [hdrop, List.drop_succ_cons, List.length_cons]
          exact ⟨by omega, by omega, hback⟩

theorem ne_nil_of_leaf {leaf : AttributePath} (h : s.Resolves p index names r)
    (hleaf : r.leaf? = some leaf) :
    names ≠ [] := by
  rintro rfl
  cases h
  simp at hleaf

theorem ne_nil_of_hops (h : s.Resolves p index names r) (hhops : r.hops ≠ []) : names ≠ [] := by
  rintro rfl
  cases h
  simp at hhops

end Schema.Resolves

end FilterSql
