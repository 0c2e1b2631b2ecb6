import FilterSql.Proofs.Compile.Checks
import FilterSql.Proofs.Compile.Reentry

/-!
# Whom a refusal blames

No compilation ends with a defect, provided that the schema is `Declared`. So what is refused is
refused for what the filter says, or for having no counterpart in SQL (`Schema.compile_blames`).

The single checks that may find a `Defect` are the matter of the module on checks. Here each
function of the compiler is shown to meet their conditions: that questions have hops (`noHop`,
`hopsEnded`), that each hop has columns to join by (`noJoinColumns`), that a quantifier with a
variable has a body (`noBody`), and that a member does not navigate a second time
(`navigatesTwice`). The induction is on the filter, in all contexts of the schema.
-/

namespace FilterSql

open Sql (Expr)

/-! ## Runs

`Checked.Intact` for compilations, which take numbers besides. -/

namespace Numbered

variable {α β : Type}

/-- The compilation finds no defect, whatever number comes next. -/
def Intact (x : Numbered α) : Prop :=
  ∀ n, Checked.Intact (x.run n)

theorem intact_pure (a : α) : (pure a : Numbered α).Intact := by
  intro n
  exact Checked.intact_pure

theorem intact_lift {e : Except FilterError α} (h : Checked.Intact e) :
    (liftM e : Numbered α).Intact := by
  intro n
  simpa using h

theorem intact_fresh : fresh.Intact := by
  intro n
  simp [fresh]

/-- A step may rely on what the steps before it have given. -/
theorem Intact.bind {x : Numbered α} {f : α → Numbered β} (hx : x.Intact)
    (hf : ∀ n a m, x.run n = .ok (a, m) → (f a).Intact) : (x >>= f).Intact := by
  intro n
  rw [StateT.run_bind, Checked.intact_bind]
  refine ⟨hx n, ?_⟩
  rintro ⟨a, m⟩ ha
  exact hf n a m ha m

theorem Intact.map {x : Numbered α} (hx : x.Intact) (f : α → β) :
    (x >>= fun a => pure (f a)).Intact :=
  hx.bind fun _ a _ _ => intact_pure (f a)

end Numbered

open Numbered (intact_pure intact_lift)

theorem intact_conditionOf {x : Numbered Compiled} (hx : x.Intact) : (conditionOf x).Intact :=
  hx.bind fun _ y _ _ => intact_lift y.intact_condition

/-! ## Questions

A question is intact if there is a hop, and each hop is `Hop.Joined`. -/

/-- The levels that hops open range over tables of the schema. -/
theorem Context.Opened.hasContext {s : Schema} {binding : Binding} {c inner : Context}
    {hops : List Hop} (h : c.Opened binding hops inner) (hc : s.HasContext c)
    (hhops : ∀ hop ∈ hops, s.HasHop hop) : s.HasContext inner := by
  induction h with
  | last c h n => exact Schema.hasContext_inside (hhops h List.mem_cons_self).target hc
  | step n _ ih =>
      apply ih
      · exact Schema.hasContext_inside (hhops _ List.mem_cons_self).target hc
      · intro hop hmem
        exact hhops hop (List.mem_cons_of_mem _ hmem)

namespace Hop

variable {h : Hop} {c : Context} {source own : String} {binding : Binding}
    {condition : Context → Numbered (Option Expr)}

theorem intact_joinCondition {columns : List JoinColumn} {equation : JoinColumn → Expr}
    (h : columns ≠ []) :
    Checked.Intact (joinCondition columns equation) := by
  unfold joinCondition
  cases columns with
  | nil => exact absurd rfl h
  | cons j columns => simp [Expr.conjunction?]

theorem intact_extend {scope : Scope} : (c.extend scope binding).Intact :=
  Numbered.intact_fresh.map _

namespace Joined

theorem intact_query (hj : h.Joined) {columns : List Expr} :
    (h.query columns source own).Intact := by
  unfold query
  cases hlink : h.linkTable? with
  | none =>
      apply (intact_lift (intact_joinCondition hj.columns)).bind
      intro _ e _ _
      exact intact_pure _
  | some link =>
      apply Numbered.intact_fresh.bind
      intro _ through _ _
      apply (intact_lift (intact_joinCondition (hj.link link hlink))).bind
      intro _ on _ _
      apply (intact_lift (intact_joinCondition hj.columns)).bind
      intro _ e _ _
      exact intact_pure _

theorem intact_someRow (hj : h.Joined)
    (hcondition : ∀ n, (condition (.inside ⟨h.target, n, binding⟩ c)).Intact) :
    (someRow binding condition c source h).Intact := by
  unfold someRow
  apply intact_extend.bind
  intro n inner _ hinner
  obtain ⟨rfl, -⟩ := extend_ok.mp hinner
  apply hj.intact_query.bind
  intro _ rows _ _
  apply (hcondition n).bind
  intro _ e? _ _
  cases e? with
  | none => exact intact_pure _
  | some e => exact intact_pure _

theorem intact_countRows (hj : h.Joined) : (countRows c source h).Intact := by
  unfold countRows
  apply intact_extend.bind
  intro n inner _ _
  exact hj.intact_query.map _

end Joined

/-- **A question is asked without a defect** if its hops are joined and its condition is intact in
the contexts behind them. -/
theorem intact_ask {hops : List Hop} (hne : hops ≠ []) (hjoined : ∀ h ∈ hops, h.Joined)
    (hcondition : ∀ inner, c.Opened binding hops inner → (condition inner).Intact) :
    (ask (someRow binding condition) c source hops).Intact := by
  induction hops generalizing c source with
  | nil => exact absurd rfl hne
  | cons h rest ih =>
      have hj := hjoined h List.mem_cons_self
      cases rest with
      | nil => exact hj.intact_someRow fun n => hcondition _ (.last c h n)
      | cons next rest =>
          apply hj.intact_someRow
          intro n
          apply Numbered.Intact.map
          apply ih (by simp)
          · intro h hmem
            exact hjoined h (List.mem_cons_of_mem _ hmem)
          · intro inner hinner
            exact hcondition inner (.step n hinner)

/-- A question that narrows its rows by a condition. -/
theorem intact_askNarrowed {hops : List Hop} {condition : Context → Numbered Expr} (hne : hops ≠ [])
    (hjoined : ∀ h ∈ hops, h.Joined)
    (hcondition : ∀ inner, c.Opened binding hops inner → (condition inner).Intact) :
    (ask (someRow binding fun inner => do return some (← condition inner)) c source hops).Intact :=
  intact_ask hne hjoined fun inner hinner => (hcondition inner hinner).map some

end Hop

/-! ## Filters

The parts of a filter are intact in every context of the schema, as the induction has it. -/

section

variable {s : Schema} {c : Context} {a : Address}

theorem Context.intact_within {nav : Navigating} {compile : Context → Numbered Compiled}
    (hne : nav.hops ≠ []) (hjoined : ∀ h ∈ nav.hops, h.Joined)
    (hcompile : ∀ inner, nav.Enters c inner → (compile inner).Intact) :
    (c.within (some nav) compile).Intact := by
  apply Numbered.Intact.map
  apply Hop.intact_askNarrowed hne hjoined
  intro inner hinner
  exact intact_conditionOf (hcompile inner hinner)

theorem intact_operandsBy {operand : Context → Address → Filter → Numbered Compiled}
    {fs : List Filter} {i : Nat} (h : ∀ f ∈ fs, ∀ a, (operand c a f).Intact) :
    (operandsBy operand c a i fs).Intact := by
  induction fs generalizing i with
  | nil => exact intact_pure []
  | cons f fs ih =>
      apply (h f List.mem_cons_self _).bind
      intro _ x _ _
      exact (ih fun g hg => h g (List.mem_cons_of_mem f hg)).map _

namespace Schema

/-- A quantifier with a variable has a body, which is all that its question asks for. -/
theorem denote_body {anchor : Level} {path : Path} {target : Target}
    (hfound : s.denote c a path = .ok (anchor, target))
    (hbound : (∃ hops name, target = .any hops name) ∨ ∃ hops name, target = .all hops name) :
    ∃ filter, path.body? = some filter := by
  obtain ⟨start, names, tail, -, hsplit, hdenotes⟩ := denote_ok.mp hfound
  have hmem {g : Segment} (hg : tail = [g]) : g ∈ path := by
    apply List.mem_of_mem_drop (i := start)
    rw [hsplit, hg]
    simp
  rcases hbound with ⟨hops, name, rfl⟩ | ⟨hops, name, rfl⟩
  · cases hdenotes with
    | any => exact Path.exists_body? (.inl (hmem rfl))
  · cases hdenotes with
    | all => exact Path.exists_body? (.inr (hmem rfl))

namespace Declared

variable {anchor : Level} {path : Path}

/-- What a member denotes that does not navigate is asked without a defect, if its body and its
arguments have none. -/
theorem intact_target (hs : s.Declared) (hc : s.HasContext c) {target : Target}
    (hfound : s.denote c a path = .ok (anchor, target))
    (hnavigation : ∀ hops offset, target ≠ .navigation hops offset)
    {body : Context → Numbered Compiled}
    {arguments : Context → Numbered (List (Option String × Compiled))}
    (hbody : ∀ inner, s.HasContext inner → (∃ filter, path.body? = some filter) →
      (body inner).Intact) (harguments : (arguments c).Intact) :
    (target.compile s c path anchor body (fun _ => return []) arguments).Intact := by
  have hjoined := hs.denote_joined hc hfound
  have hhops := (denote_has hc hfound).2.hops
  -- To ask without a hop would be a defect. Whatever asks has at least one.
  have hne := denote_hops hfound
  cases target with
  | element =>
      rw [Target.compile]
      split
      · exact intact_pure _
      · apply intact_lift
        simp [FilterError.category]
  | navigation hops offset => exact absurd rfl (hnavigation hops offset)
  | count hops =>
      obtain ⟨last, rfl⟩ := denote_count hfound
      apply Numbered.Intact.map
      exact (hjoined last (List.mem_singleton_self last)).intact_countRows
  | nonempty hops =>
      apply Numbered.Intact.map
      apply Hop.intact_ask (by simpa [Target.hops] using hne) hjoined
      intro inner hinner
      exact intact_pure none
  | any hops name =>
      apply Numbered.Intact.map
      apply Hop.intact_askNarrowed (by simpa [Target.hops] using hne) hjoined
      intro inner hinner
      exact intact_conditionOf
        (hbody inner (hinner.hasContext hc hhops) (denote_body hfound (.inl ⟨hops, name, rfl⟩)))
  | all hops name =>
      have hhas := denote_body hfound (.inr ⟨hops, name, rfl⟩)
      have hhops' : hops ≠ [] := by simpa [Target.hops] using hne
      apply (Hop.intact_askNarrowed hhops' hjoined _).bind
      · intro _ some _ _
        apply Numbered.Intact.map
        apply Hop.intact_ask hhops' hjoined
        intro inner hinner
        exact (intact_conditionOf (hbody inner (hinner.hasContext hc hhops) hhas)).map
          fun e => Option.some (Expr.not e)
      · intro inner hinner
        exact intact_conditionOf (hbody inner (hinner.hasContext hc hhops) hhas)
  | function name =>
      show (arguments c >>= fun args => liftM (s.callCustom name args)).Intact
      apply harguments.bind
      intro _ args _ _
      exact intact_lift hs.intact_callCustom
  | _ => exact intact_pure _

/-- A filter that has no member to be compiled behind is put together of its parts without a
defect, if they have none. -/
theorem intact_assemble (hs : s.Declared) {f : Filter} (hleading : f.leading s c a = .ok none)
    (hc : s.HasContext c) {operand : Context → Address → Filter → Numbered Compiled}
    (hparts : ∀ g ∈ f.parts, ∀ c a, s.HasContext c → (operand c a g).Intact) :
    (f.assemble s operand a c).Intact := by
  cases f with
  | binary l op r =>
      rw [Filter.assemble]
      split
      · apply intact_lift
        simp [FilterError.category]
      · apply (hparts l (by simp [Filter.parts]) c _ hc).bind
        intro _ x _ _
        apply (hparts r (by simp [Filter.parts]) c _ hc).bind
        intro _ y _ _
        exact intact_lift (intact_compose op x y)
  | unary op f =>
      apply (hparts f (by simp [Filter.parts]) c _ hc).bind
      intro _ x _ _
      exact intact_lift (x.intact_composeUnary op)
  | member path =>
      apply (intact_lift (s.intact_denote c a path)).bind
      rintro _ ⟨anchor, target⟩ _ hfound
      obtain ⟨hfound, -⟩ := Numbered.lift_ok.mp hfound
      apply hs.intact_target hc hfound
      -- A member that navigates would have been compiled behind its hops, and not here.
      · rintro hops offset rfl
        rw [Filter.leading, hfound] at hleading
        cases hleading
      · rintro inner hinner ⟨body, hbody⟩
        simp only [hbody]
        exact hparts body (Path.body?_mem hbody) inner _ hinner
      · apply Numbered.Intact.map
        apply intact_operandsBy
        intro f hf a
        obtain ⟨arg, harg, rfl⟩ := List.mem_map.mp hf
        exact hparts _ (Path.arguments_mem harg) c a hc
  | call g args =>
      apply (intact_operandsBy fun f hf a => hparts f hf c a hc).bind
      intro _ xs _ _
      exact intact_lift (intact_callBuiltIn g xs)
  | literal l => exact intact_pure _
  | enumMember type member =>
      apply (intact_lift (s.intact_coerceMember type member none)).bind
      intro _ v _ _
      exact intact_pure _
  | typeName name =>
      show ((Filter.typeName name).compile s c a).Intact
      rw [Filter.compile]
      split
      · exact intact_pure _
      · apply intact_lift
        simp [FilterError.category]
  | parameterAlias name =>
      apply intact_lift
      simp [FilterError.category]

/-- **A filter is compiled without a defect** in every context of the schema. -/
theorem intact_compile (hs : s.Declared) (f : Filter) (hc : s.HasContext c) :
    (f.compile s c a).Intact := by
  induction f using Filter.induction generalizing c a with
  | step f ih =>
      have hparts (g : Filter) (hg : g ∈ f.parts) (c : Context) (a : Address)
          (hc : s.HasContext c) : (s.compiling c a g).Intact := ih g hg hc
      cases hleading : f.leading s c a with
      | error err =>
          have hchecked := f.intact_leading (s := s) (c := c) (a := a)
          rw [hleading, Checked.intact_error] at hchecked
          rw [Filter.compile_failed hleading]
          exact intact_lift (Checked.intact_error.mpr hchecked)
      | ok nav? =>
          cases nav? with
          | none =>
              rw [Filter.compile_here hleading]
              exact hs.intact_assemble hleading hc hparts
          | some nav =>
              have hfound := Filter.leading_denote hleading
              rw [Filter.compile_again hleading]
              apply Context.intact_within
              · simpa [Target.hops] using denote_hops hfound
              · exact hs.denote_joined hc hfound
              · intro inner hinner
                have hnone := Filter.leading_opened hleading hinner
                rw [Filter.compile_here hnone]
                exact hs.intact_assemble hnone
                  (hinner.hasContext hc (denote_has hc hfound).2.hops) hparts

end Declared

end Schema

end

/-! ## Whole filters

The root context has only declared rows in it, so the steps above put together show of a whole
filter that it is never refused with a `Defect`: each of them has a check before it. -/

namespace Schema

variable {s : Schema}

theorem hasContext_ofEntity {type : EntityType} (h : type ∈ s.entityTypes) :
    s.HasContext (.ofEntity type) := by
  intro l hl
  obtain rfl := List.mem_singleton.mp hl
  exact h

theorem Declared.intact_compileOn (hs : s.Declared) {type : EntityType}
    (htype : type ∈ s.entityTypes) (f : Filter) :
    Checked.Intact (s.compileOn type f) := by
  rw [compileOn, Checked.intact_bind]
  refine ⟨hs.intact_compile f (hasContext_ofEntity htype) 1, ?_⟩
  rintro ⟨x, m⟩ -
  cases x <;> simp [FilterError.category]

theorem intact_filtered {entity : String} : Checked.Intact (s.filtered entity) := by
  unfold filtered
  split <;> simp [FilterError.category]

theorem filtered_mem {entity : String} {type : EntityType} (h : s.filtered entity = .ok type) :
    type ∈ s.entityTypes :=
  List.mem_of_find?_eq_some (filtered_ok.mp h)

/-- **No filter breaks a rule of the compiler.** If the schema is `Declared`, no call of
`compile` or `select` fails with a `Defect`: whatever the filter and the entity are, it gives
a result, or refuses the filter for what it says (`client`) or for having no counterpart in
SQL (`unsupported`). -/
theorem compile_blames (s : Schema) (hs : s.Declared) (entity : String) (f : Filter)
    (err : FilterError) (h : s.compile entity f = .error err ∨ s.select entity f = .error err) :
    (∀ what, err ≠ .defect what) ∧ (err.category = .client ∨ err.category = .unsupported) := by
  have hcategory : err.category ≠ .defect := by
    rcases h with h | h
    · refine (?_ : Checked.Intact (s.compile entity f)) err h
      simp only [compile, Checked.intact_bind]
      exact ⟨intact_filtered, fun type htype => hs.intact_compileOn (filtered_mem htype) f⟩
    · refine (?_ : Checked.Intact (s.select entity f)) err h
      simp only [select, Checked.intact_bind]
      refine ⟨intact_filtered, fun type htype => ⟨hs.intact_compileOn (filtered_mem htype) f, ?_⟩⟩
      simp
  constructor
  · rintro what rfl
    exact hcategory rfl
  · cases hkind : err.category <;> simp_all

theorem declared_sample : sample.Declared where
  associations := by decide
  links := by decide
  collections := by
    have hprimitive : ∀ a ∈ sample.attributes, a.kind = .primitive .string := by decide
    intro a ha table columns element hkind
    rw [hprimitive a ha] at hkind
    cases hkind
  functions := by decide

/-- A role has no title, so the filter that asks for one is to blame. -/
theorem blames_roleTitle : ∃ f err, sample.Declared ∧ sample.compile "User" f = .error err ∧
    err = .invalidPath "Title" "Role" ∧ (err.category = .client ∨ err.category = .unsupported) := by
  have hrefused : sample.compile "User"
      (.call .length [.member [.property "Roles", .property "Title"]]) =
        .error (.invalidPath "Title" "Role") := rfl
  exact ⟨_, _, declared_sample, hrefused, rfl,
    (compile_blames sample declared_sample "User" _ _ (.inl hrefused)).2⟩

end Schema

end FilterSql
