import FilterSql.Proofs.Schema.DeadEnds

/-!
# Paths in two parts

Behind a hop nothing is left of what was gathered in front of it: the type whose members come next,
the column lead, and the names of complex attributes. So the names behind a hop may be resolved by
themselves, from the rows that it leads to. They lead on, or are refused, as they do behind the
names in front (`Schema.resolve_resume`). Only the stops are then counted from another name.
-/

namespace FilterSql

/-! ## Names in front

`Schema.resolveFrom` carries the number of names in front, and uses it for nothing but the stops. -/

/-- The hop with `n` more names in front of it. -/
def Hop.later (n : Nat) (h : Hop) : Hop :=
  { h with stop := n + h.stop }

namespace Resolution

/-- The resolution with `n` more names in front. -/
def later (n : Nat) (r : Resolution) : Resolution :=
  ⟨r.hops.map (Hop.later n), r.leaf?⟩

/-- The resolution with the hops `front` in front of its own. -/
def behindAll (front : List Hop) (r : Resolution) : Resolution :=
  ⟨front ++ r.hops, r.leaf?⟩

end Resolution

namespace Schema

variable {s : Schema} {p : Place} {scope : Scope} {index : Nat} {names front back : List String}
    {hops : List Hop} {h : Hop}

/-- More names in front change the stops, and nothing about how resolution ends. -/
theorem resolveFrom_later (n : Nat) :
    s.resolveFrom p (n + index) names = (s.resolveFrom p index names).map (Resolution.later n) := by
  induction names generalizing p index with
  | nil => rfl
  | cons name rest ih =>
      have hnext (p : Place) : s.resolveFrom p (n + index + 1) rest =
          (s.resolveFrom p (index + 1) rest).map (Resolution.later n) := by
        rw [Nat.add_assoc, ih]
      -- Behind a hop the rest is counted on, and the hop is put in front of it.
      have hop (target : Scope) (kind : HopKind) :
          (s.resolveFrom (.start target) (n + index + 1) rest).map
            (Resolution.behind ⟨name, target, kind, p.columnLead, n + index + 1⟩) =
          ((s.resolveFrom (.start target) (index + 1) rest).map
            (Resolution.behind ⟨name, target, kind, p.columnLead, index + 1⟩)).map
            (Resolution.later n) := by
        rw [hnext]
        cases s.resolveFrom (.start target) (index + 1) rest <;> rfl
      rw [resolveFrom, resolveFrom]
      cases p.owner? with
      | none => rfl
      | some owner =>
          cases ha : owner.attribute? name with
          | some a =>
              simp only [ha]
              cases a.kind with
              | primitive | enum =>
                  cases rest with
                  | nil => cases s.attributeType a <;> rfl
                  | cons => rfl
              | complex type lead =>
                  cases rest with
                  | nil => rfl
                  | cons next rest => exact Checked.bind_map fun c => hnext (p.enter name lead c)
              | collection table columns element =>
                  exact Checked.bind_map fun t => hop t (.collection columns)
          | none =>
              simp only [ha]
              cases owner.association? name with
              | none => rfl
              | some a => exact Checked.bind_map fun t => hop t (.association a)

/-! ## Names behind a hop

From the target of a hop the rest of the names resolves as it does at the end of all of them, since
nothing but the place is handed from one name to the next. -/

theorem resolveFrom_enter {name next type : String} {rest : List String} {owner : StructuredType}
    {a : Attribute} {lead : Option String} {c : ComplexType} (howner : p.owner? = some owner)
    (ha : owner.attribute? name = some a) (hkind : a.kind = .complex type lead)
    (hc : s.complexTypeOf owner.name type = .ok c) :
    s.resolveFrom p index (name :: next :: rest) =
      s.resolveFrom (p.enter name lead c) (index + 1) (next :: rest) := by
  rw [resolveFrom]
  simp only [howner, ha, hkind, hc]
  rfl

theorem resolveFrom_hop {name : String} {rest : List String} {owner : StructuredType}
    {target : Scope} {kind : HopKind} (howner : p.owner? = some owner)
    (hstep : s.HopsTo owner name target kind) :
    s.resolveFrom p index (name :: rest) = (s.resolveFrom (.start target) (index + 1) rest).map
      (Resolution.behind ⟨name, target, kind, p.columnLead, index + 1⟩) := by
  rw [resolveFrom]
  cases hstep with
  | collection ha hkind htarget =>
      simp only [howner, ha, hkind, htarget]
      rfl
  | association hnone ha htarget =>
      simp only [howner, hnone, ha, htarget]
      rfl

/-- Names that are appended to names that end with a hop are resolved from the target of that
hop. -/
theorem Resolves.resolveFrom_append {r : Resolution} (hr : s.Resolves p index front r)
    (hhops : r.hops = hops ++ [h]) (hleaf : r.leaf? = none) (back : List String) :
    s.resolveFrom p index (front ++ back) =
      (s.resolveFrom (.start h.target) (index + front.length) back).map
        (Resolution.behindAll (hops ++ [h])) := by
  induction hr generalizing hops with
  | nil => simp at hhops
  | column => cases hleaf
  | @enter p index name next type rest owner a lead c r howner ha hkind hc hrest ih =>
      rw [List.cons_append, List.cons_append, resolveFrom_enter howner ha hkind hc,
        ← List.cons_append, ih hhops hleaf, Nat.add_assoc, Nat.add_comm 1, ← List.length_cons]
  | @hop p index name rest owner target kind r howner hstep hrest ih =>
      have hcount : index + 1 + rest.length = index + (name :: rest).length := by
        rw [List.length_cons]
        omega
      rw [List.cons_append, resolveFrom_hop howner hstep]
      cases hops with
      | nil =>
          -- The hop is the last one, so that no names are left in front of `back`.
          obtain ⟨rfl, hnone⟩ := List.cons.inj hhops
          obtain rfl := hrest.names_nil hnone hleaf
          rfl
      | cons first hops =>
          obtain ⟨rfl, hbehind⟩ := List.cons.inj hhops
          rw [ih hbehind hleaf, hcount]
          cases s.resolveFrom (.start h.target) (index + (name :: rest).length) back <;> rfl

/-- The names up to a hop resolve to the hops up to it. -/
theorem Resolves.upTo {r : Resolution} {last : List Hop} (hr : s.Resolves p index names r)
    (hhops : r.hops = hops ++ h :: last) :
    index < h.stop ∧ s.Resolves p index (names.take (h.stop - index)) ⟨hops ++ [h], none⟩ := by
  induction hr generalizing hops with
  | nil | column => simp at hhops
  | @enter p index name next type rest owner a lead c r howner ha hkind hc hrest ih =>
      obtain ⟨hlt, hfront⟩ := ih hhops
      have htake : h.stop - index = h.stop - (index + 1) + 1 := by omega
      have hsome : h.stop - (index + 1) = h.stop - (index + 1) - 1 + 1 := by omega
      refine ⟨by omega, ?_⟩
      rw [hsome, List.take_succ_cons] at hfront
      rw [htake, List.take_succ_cons, hsome, List.take_succ_cons]
      exact .enter howner ha hkind hc hfront
  | @hop p index name rest owner target kind r howner hstep hrest ih =>
      cases hops with
      | nil =>
          obtain ⟨rfl, -⟩ := List.cons.inj hhops
          have htake : index + 1 - index = 1 := by omega
          rw [htake]
          exact ⟨Nat.lt_succ_self index, .hop howner hstep (.nil _ _)⟩
      | cons first hops =>
          obtain ⟨rfl, hbehind⟩ := List.cons.inj hhops
          obtain ⟨hlt, hfront⟩ := ih hbehind
          have htake : h.stop - index = h.stop - (index + 1) + 1 := by omega
          rw [htake, List.take_succ_cons]
          exact ⟨by omega, .hop howner hstep hfront⟩

/-! ## The law

All hops at once, by induction on the names in front. A failure behind a hop that has been crossed
is the same failure, for it names its own place. -/

theorem resolve_eq (hnames : names ≠ []) :
    s.resolve scope names = s.resolveFrom (.start scope) 0 names := by
  cases names with
  | nil => exact absurd rfl hnames
  | cons => rfl

/-- Behind names that end with a hop, more names resolve from the target of that hop. -/
theorem resolve_append (hfront : s.resolve scope front = .ok ⟨hops ++ [h], none⟩)
    (hback : back ≠ []) :
    s.resolve scope (front ++ back) =
      (s.resolve h.target back).map fun r => (r.later front.length).behindAll (hops ++ [h]) := by
  obtain ⟨hne, hr⟩ := resolve_ok.mp hfront
  rw [resolve_eq (by simp [hne]), hr.resolveFrom_append rfl rfl, resolve_eq hback, Nat.zero_add,
    ← Nat.add_zero front.length, resolveFrom_later]
  cases s.resolveFrom (.start h.target) 0 back <;> rfl

/-- **A path may be resolved in two parts that meet at a hop.** For each hop `h` of a resolution,
the names up to `h.stop` resolve to the hops up to `h`, and the names behind it resolve from
`h.target` to the hops and the leaf that are left, with stops that are counted from there. If
`resolve` fails behind a hop that has been crossed, the names behind the hop fail by themselves for
the same reason. -/
theorem resolve_resume (s : Schema) (scope : Scope) (names : List String) :
    (∀ r front h back, s.resolve scope names = .ok r → r.hops = front ++ h :: back →
      s.resolve scope (names.take h.stop) = .ok ⟨front ++ [h], none⟩ ∧
        (names.drop h.stop ≠ [] → ∃ r', s.resolve h.target (names.drop h.stop) = .ok r' ∧
          back = r'.hops.map (Hop.later h.stop) ∧ r.leaf? = r'.leaf?)) ∧
    ∀ fault front h, s.resolve scope names = .error fault →
      s.resolve scope (names.take h.stop) = .ok ⟨front ++ [h], none⟩ →
        s.resolve h.target (names.drop h.stop) = .error fault := by
  constructor
  · intro r front h back hr hhops
    obtain ⟨hne, hresolves⟩ := resolve_ok.mp hr
    obtain ⟨hlt, hcrossed⟩ := hresolves.upTo hhops
    have hcrossed : s.resolve scope (names.take h.stop) = .ok ⟨front ++ [h], none⟩ :=
      resolve_ok.mpr ⟨hcrossed.ne_nil_of_hops (by simp), hcrossed⟩
    refine ⟨hcrossed, fun hleft => ?_⟩
    have hlength : (names.take h.stop).length = h.stop := by
      rw [List.length_take, Nat.min_eq_left]
      exact Nat.le_of_not_le (mt List.drop_eq_nil_iff.mpr hleft)
    -- Both parts together resolve as the whole does, so the second one cannot fail.
    have hparts := resolve_append hcrossed hleft
    rw [List.take_append_drop, hr, hlength] at hparts
    cases hrest : s.resolve h.target (names.drop h.stop) with
    | error fault =>
        rw [hrest] at hparts
        cases hparts
    | ok r' =>
        rw [hrest] at hparts
        obtain rfl := Except.ok.inj hparts
        have hsplit : front ++ h :: r'.hops.map (Hop.later h.stop) = front ++ h :: back := by
          simpa [Resolution.behindAll, Resolution.later] using hhops
        exact ⟨r', rfl, (List.cons.inj (List.append_cancel_left hsplit)).2.symm, rfl⟩
  · intro fault front h hfault hcrossed
    have hleft : names.drop h.stop ≠ [] := by
      intro hnone
      rw [List.take_of_length_le (List.drop_eq_nil_iff.mp hnone), hfault] at hcrossed
      cases hcrossed
    have hparts := resolve_append hcrossed hleft
    rw [List.take_append_drop, hfault] at hparts
    cases hrest : s.resolve h.target (names.drop h.stop) with
    | error fault' =>
        rw [hrest] at hparts
        rw [Except.error.inj hparts]
    | ok r' =>
        rw [hrest] at hparts
        cases hparts

/-- The hop from the orders of a customer to their tags. -/
def toTags : Hop :=
  ⟨"Tags", .primitiveCollection ⟨some "shop", "tags"⟩ "tag" .string,
    .collection [⟨"id", "order_id"⟩], "", 2⟩

/-- Two parts of a path that resolves, and of one that is refused behind its last hop. -/
theorem resume_behind_hop :
    (∃ r h, ordering.resolve customers ["Orders", "Shipping", "City"] = .ok r ∧ r.hops = [h] ∧
      ∃ r', ordering.resolve h.target ["Shipping", "City"] = .ok r' ∧
        [] = r'.hops.map (Hop.later h.stop) ∧
        r.leaf? = r'.leaf?) ∧
    ∃ front, ordering.resolve customers behindTags = .error (.invalidPath "Tag" "shop.tags") ∧
      ordering.resolve customers (behindTags.take toTags.stop) = .ok ⟨front ++ [toTags], none⟩ ∧
      ordering.resolve toTags.target ["Tag", "Id"] = .error (.invalidPath "Tag" "shop.tags") := by
  constructor
  · refine ⟨_, _, rfl, rfl, ?_⟩
    have hlaw :=
      (resolve_resume ordering customers ["Orders", "Shipping", "City"]).1 _ [] _ [] rfl rfl
    exact hlaw.2 (List.cons_ne_nil _ _)
  · exact ⟨[_], rfl, rfl, (resolve_resume ordering customers behindTags).2 _ [_] toTags rfl rfl⟩

end Schema

end FilterSql
