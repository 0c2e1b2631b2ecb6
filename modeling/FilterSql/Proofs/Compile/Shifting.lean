import FilterSql.Proofs.Compile.Assembly
import FilterSql.Proofs.Compile.Relabeling
import Std.Data.String.ToNat

/-!
# Compiling from another number

Nothing depends on the numbers of the aliases but the aliases. So a filter that is compiled from
another number is refused for the same reason, or comes to the same expression, in which its own
aliases are shifted and the others are as before (`Filter.compile_shifts`). `Numbered.Shifts` says
this of any run, and is preserved when one run follows another.
-/

namespace FilterSql

open Sql (Expr Select)
open Checked (Carries carries_ok carries_error carries_bind)

/-! ## Shifted numbers

`shiftedAlias start k` moves the aliases from `tableAlias start` on by `k`, and leaves all other
labels as they are. As a function on labels it can be put through an expression by `relabel`. -/

/-- Numbers from `start` on, shifted by `k`. -/
def shiftedNumber (start k i : Nat) : Nat :=
  if start ≤ i then i + k else i

/-- The number of an alias, `none` if the label is not one that `tableAlias` gives. -/
def aliasNumber? (label : String) : Option Nat :=
  (String.ofList label.toList.tail).toNat?.filter fun i => tableAlias i = label

/-- Aliases with numbers from `start` on, shifted by `k`. -/
def shiftedAlias (start k : Nat) (label : String) : String :=
  match aliasNumber? label with
  | some i => tableAlias (shiftedNumber start k i)
  | none => label

@[simp] theorem aliasNumber?_tableAlias (i : Nat) : aliasNumber? (tableAlias i) = some i := by
  have htail : String.ofList (tableAlias i).toList.tail = Nat.repr i := by
    show String.ofList ("t" ++ Nat.repr i).toList.tail = Nat.repr i
    rw [String.toList_append]
    exact String.ofList_toList
  rw [aliasNumber?, htail, Nat.toNat?_repr]
  simp

@[simp] theorem shiftedAlias_tableAlias (start k i : Nat) :
    shiftedAlias start k (tableAlias i) = tableAlias (shiftedNumber start k i) := by
  rw [shiftedAlias, aliasNumber?_tableAlias]

/-- The expression with its own aliases, those from `start` on, shifted by `k`. -/
abbrev Sql.Expr.shift (start k : Nat) : Expr → Expr :=
  Expr.relabel (shiftedAlias start k)

abbrev Compiled.shift (start k : Nat) : Compiled → Compiled :=
  Compiled.relabel (shiftedAlias start k)

theorem shiftedNumber_of_lt {start k i : Nat} (h : i < start) : shiftedNumber start k i = i :=
  if_neg (by omega)

theorem shiftedNumber_of_le {start k i : Nat} (h : start ≤ i) : shiftedNumber start k i = i + k :=
  if_pos h

/-! ## Shifted contexts

The labels of the levels are shifted as those in expressions are. Nothing else in a context has to
do with numbers, so members are anchored at the levels that correspond. -/

def Level.shift (start k : Nat) (l : Level) : Level :=
  { l with number := shiftedNumber start k l.number }

theorem Level.scope_shift {start k : Nat} (l : Level) : (l.shift start k).scope = l.scope := rfl

def Navigating.shift (start k : Nat) (nav : Navigating) : Navigating :=
  { nav with anchor := nav.anchor.shift start k }

namespace Context

variable (start k : Nat) (c : Context)

def shift : Context → Context
  | root l => root (l.shift start k)
  | inside l c => inside (l.shift start k) c.shift

theorem levels_shift : (c.shift start k).levels = c.levels.map (·.shift start k) := by
  induction c with
  | root l => rfl
  | inside l c ih => rw [shift, levels, levels, ih, List.map_cons]

theorem outermost_shift : (c.shift start k).outermost = c.outermost.shift start k := by
  induction c with
  | root l => rfl
  | inside l c ih => exact ih

theorem memberLevel_shift : (c.shift start k).memberLevel = c.memberLevel.shift start k := by
  induction c with
  | root l => rfl
  | inside l c ih =>
      obtain ⟨scope, number, binding⟩ := l
      cases binding with
      | navigation pin? => exact ih
      | root | element => rfl

theorem element?_shift (name : String) :
    (c.shift start k).element? name = (c.element? name).map (·.shift start k) := by
  rw [element?, element?, levels_shift, List.find?_map]
  rfl

theorem pinned?_shift (a : Address) :
    (c.shift start k).pinned? a = (c.pinned? a).map fun found =>
      (found.1.shift start k, found.2) := by
  rw [pinned?, pinned?, levels_shift]
  induction c.levels with
  | nil => rfl
  | cons l ls ih =>
      obtain ⟨scope, number, binding⟩ := l
      rw [List.map_cons, List.findSome?_cons, List.findSome?_cons, ih]
      cases binding with
      | root | element => rfl
      | navigation pin? =>
          cases pin? with
          | none => rfl
          | some pin =>
              dsimp only [Level.shift]
              split <;> simp_all

theorem anchor_shift (a : Address) (path : Path) :
    (c.shift start k).anchor a path = ((c.anchor a path).1.shift start k, (c.anchor a path).2) := by
  unfold anchor
  rw [pinned?_shift, outermost_shift, memberLevel_shift]
  cases c.pinned? a with
  | some found => rfl
  | none =>
      rcases path with _ | ⟨first | _ | _ | _ | _ | _, rest⟩
      case cons.property =>
        dsimp only [Option.map_none]
        rw [element?_shift]
        split
        · rfl
        · cases c.element? first <;> rfl
      all_goals rfl

/-- A context whose levels are all numbered below `start` stays as it is. -/
theorem shift_of_lt (h : ∀ l ∈ c.levels, l.number < start) :
    c.shift start k = c := by
  have hlevel (l : Level) (hl : l.number < start) : l.shift start k = l := by
    rw [Level.shift, shiftedNumber_of_lt hl]
  induction c with
  | root l => rw [shift, hlevel l (h l List.mem_cons_self)]
  | inside l c ih =>
      rw [shift, hlevel l (h l List.mem_cons_self), ih fun l hl => h l (List.mem_cons_of_mem _ hl)]

end Context

/-! ## Members

`denote` and the search use the context for its scopes, its variables and its pins, and for nothing
that a shift changes. So they have the same outcome, with the levels shifted in it. -/

section

variable {s : Schema} {c : Context} {a : Address} {start k : Nat}

theorem Schema.denote_shift (s : Schema) (c : Context) (a : Address) (start k : Nat) (path : Path) :
    Carries (fun found =>
      (found.1.shift start k, found.2)) (s.denote c a path) (s.denote
        (c.shift start k) a path) := by
  unfold denote
  rw [Context.anchor_shift]
  apply carries_bind
  intro target
  rfl

theorem navigatingAll_shift {fs : List Filter} {i : Nat}
    (h : ∀ f ∈ fs, ∀ a, Carries (List.map (Navigating.shift start k)) (f.navigating s c a)
      (f.navigating s (c.shift start k) a)) :
    Carries (List.map (Navigating.shift start k)) (navigatingAll s c a i fs)
      (navigatingAll s (c.shift start k) a i fs) := by
  induction fs generalizing i with
  | nil => rfl
  | cons f fs ih =>
      rw [navigatingAll, navigatingAll]
      apply (h f List.mem_cons_self _).bind
      intro ns
      apply (ih fun g hg => h g (List.mem_cons_of_mem f hg)).bind
      intro ms
      rw [← List.map_append]
      rfl

theorem Filter.navigating_shift (f : Filter) (a : Address) :
    Carries (List.map (Navigating.shift start k)) (f.navigating s c a)
      (f.navigating s (c.shift start k) a) := by
  induction f using Filter.induction generalizing a with
  | step f ih =>
      cases f with
      | member path =>
          rw [navigating, navigating]
          apply (s.denote_shift c a start k path).bind
          rintro ⟨anchor, target⟩
          cases target with
          | function name =>
              dsimp only
              rw [navigatingPath_eq, navigatingPath_eq]
              apply navigatingAll_shift
              intro g hg
              obtain ⟨arg, harg, rfl⟩ := List.mem_map.mp hg
              exact ih _ (Path.arguments_mem harg)
          | _ => rfl
      | binary l op r =>
          rw [navigating, navigating]
          apply Checked.carries_ite _ (carries_ok _)
          apply (ih l (by simp [parts]) _).bind
          intro ls
          apply (ih r (by simp [parts]) _).bind
          intro rs
          rw [← List.map_append]
          rfl
      | unary op operand =>
          cases op with
          | not => rfl
          | minus => exact ih operand (by simp [parts]) _
      | call g args => exact navigatingAll_shift ih
      | literal | enumMember | typeName | parameterAlias => rfl

theorem Navigating.only?_shift (ns : List Navigating) :
    Carries (Option.map (shift start k)) (only? ns) (only? (ns.map (shift start k))) := by
  rcases ns with _ | ⟨nav, _ | ⟨next, rest⟩⟩
  · rfl
  · rfl
  · have hpaths (ns : List Navigating) :
        (ns.map (shift start k)).map (fun n => n.path.shown) = ns.map fun n => n.path.shown := by
      rw [List.map_map]
      rfl
    exact congrArg (fun paths => Except.error (FilterError.notSupported (.navigations paths)))
      (hpaths (nav :: next :: rest))

/-- The `leading` member of a filter does not depend on numbers. -/
theorem Filter.leading_shift (f : Filter) (a : Address) :
    Carries (Option.map (Navigating.shift start k)) (f.leading s c a)
      (f.leading s (c.shift start k) a) := by
  have honly (fs : List Filter) : Carries (Option.map (Navigating.shift start k))
      (do Navigating.only? (← navigatingAll s c a 0 fs))
        (do Navigating.only? (← navigatingAll s (c.shift start k) a 0 fs)) :=
    (navigatingAll_shift fun f _ a => f.navigating_shift a).bind Navigating.only?_shift
  cases f with
  | binary l op r =>
      apply Checked.carries_ite _ (carries_ok _)
      apply (l.navigating_shift _).bind
      intro ls
      apply (r.navigating_shift _).bind
      intro rs
      rw [← List.map_append]
      exact Navigating.only?_shift _
  | call g args => exact honly args
  | member path =>
      apply (s.denote_shift c a start k path).bind
      rintro ⟨anchor, target⟩
      cases target with
      | function name => exact honly _
      | _ => rfl
  | unary | literal | enumMember | typeName | parameterAlias => rfl

end

/-! ## Runs

Two runs are compared, from a number and from one that is `k` larger. A sequence is compared link
by link (`Shifts.bind`), and behind a check it may be used that this has passed
(`shifts_lift_bind`). -/

namespace Numbered

variable {α β γ δ : Type} {start k : Nat} {g : α → γ} {h : β → δ}

/-- For each number from `start` on: begun `k` further on, `y` is refused as `x` is, or gives the
image of what `x` gives and ends `k` further on. And `x` does not end below `start`. -/
def Shifts (start k : Nat) (g : α → γ) (x : Numbered α) (y : Numbered γ) : Prop :=
  ∀ n, start ≤ n → Carries (fun (a, m) => (g a, m + k)) (x.run n) (y.run (n + k)) ∧
    ∀ a m, x.run n = .ok (a, m) → start ≤ m

theorem shifts_lift {x : Except FilterError α} {y : Except FilterError γ} (hxy : Carries g x y) :
    Shifts start k g (liftM x) (liftM y) := by
  intro n hn
  subst hxy
  cases x with
  | error err => exact ⟨rfl, nofun⟩
  | ok a =>
      refine ⟨rfl, ?_⟩
      rintro _ _ ⟨⟩
      exact hn

theorem shifts_pure (a : α) : Shifts start k g (pure a) (pure (g a)) :=
  shifts_lift (carries_ok a)

theorem shifts_throw (err : FilterError) : Shifts start k g (throw err) (throw err) :=
  shifts_lift (carries_error err)

theorem shifts_fresh : Shifts start k (shiftedNumber start k) fresh fresh := by
  intro n hn
  constructor
  · show Except.ok (n + k, n + k + 1) = .ok (shiftedNumber start k n, n + 1 + k)
    rw [shiftedNumber_of_le hn, Nat.add_right_comm]
  · intro i m hrun
    obtain ⟨rfl, rfl⟩ := fresh_ok.mp hrun
    exact Nat.le_succ_of_le hn

/-- A run behind a shifted one begins where this has ended, so it is shifted as well. -/
theorem Shifts.bind {x : Numbered α} {y : Numbered γ} {f : α → Numbered β} {f' : γ → Numbered δ}
    (hx : Shifts start k g x y) (hf : ∀ a, Shifts start k h (f a) (f' (g a))) :
    Shifts start k h (x >>= f) (y >>= f') := by
  intro n hn
  obtain ⟨hcarries, hle⟩ := hx n hn
  simp only [StateT.run_bind]
  cases hrun : x.run n with
  | error err =>
      rw [hrun] at hcarries
      rw [hcarries]
      exact ⟨rfl, nofun⟩
  | ok found =>
      obtain ⟨a, m⟩ := found
      rw [hrun] at hcarries
      rw [hcarries]
      exact hf a m (hle a m hrun)

/-- Behind a check, it may be used that the check has passed. -/
theorem shifts_lift_bind {x : Except FilterError α} {y : Except FilterError γ} {f : α → Numbered β}
    {f' : γ → Numbered δ} (hxy : Carries g x y)
    (hf : ∀ a, x = .ok a → Shifts start k h (f a) (f' (g a))) :
    Shifts start k h (liftM x >>= f) (liftM y >>= f') := by
  subst hxy
  cases x with
  | error err => exact shifts_throw err
  | ok a => exact hf a rfl

theorem Shifts.map {x : Numbered α} {y : Numbered γ} {f : α → β} {f' : γ → δ}
    (hx : Shifts start k g x y) (hf : ∀ a, f' (g a) = h (f a)) :
    Shifts start k h (x >>= fun a => pure (f a)) (y >>= fun a => pure (f' a)) := by
  apply hx.bind
  intro a
  rw [hf]
  exact shifts_pure _

end Numbered

open Numbered (Shifts shifts_lift shifts_pure shifts_throw shifts_fresh)

variable {start k : Nat}

theorem conditionOf_shifts {x y : Numbered Compiled}
    (h : Shifts start k (Compiled.shift start k) x y) :
    Shifts start k (Expr.shift start k) (conditionOf x) (conditionOf y) := by
  apply h.bind
  intro x
  exact shifts_lift x.condition_relabel

/-! ## Questions

A query takes its alias from the counter, so it is shifted if it is numbered from `start` on. What
it is joined with may be an outer alias, which is shifted only if its number is. -/

namespace Hop

variable {h : Hop} {c : Context} {source own : String} {binding : Binding} {columns : List Expr}

/-- Equations between other aliases, as `relabel` makes them. -/
theorem equations_relabel {js : List JoinColumn} {equation equation' : JoinColumn → Expr}
    {ρ : String → String} (hequation : ∀ j, equation' j = (equation j).relabel ρ) :
    Expr.conjunction? (js.map equation') =
      (Expr.conjunction? (js.map equation)).map (Expr.relabel ρ) := by
  rw [← Expr.conjunction?_relabel, List.map_map]
  exact congrArg Expr.conjunction? (List.map_congr_left fun j _ => hequation j)

theorem joinCondition_shifts {js : List JoinColumn} {equation equation' : JoinColumn → Expr}
    {ρ : String → String} (hequation : ∀ j, equation' j = (equation j).relabel ρ) :
    Carries (Expr.relabel ρ) (joinCondition js equation) (joinCondition js equation') := by
  unfold joinCondition
  rw [equations_relabel hequation]
  cases Expr.conjunction? (js.map equation) <;> rfl

/-- The `query` of a hop is shifted, with the alias of its link table. -/
theorem query_shifts (hcolumns : Sql.listRelabel (shiftedAlias start k) columns = columns) :
    Shifts start k (Select.relabel (shiftedAlias start k)) (h.query columns source own)
      (h.query columns (shiftedAlias start k source) (shiftedAlias start k own)) := by
  have hrows : (Select.ofTable columns h.target.table (some own)).relabel (shiftedAlias start k) =
      .ofTable columns h.target.table (some (shiftedAlias start k own)) := by
    rw [Select.ofTable, Select.relabel, hcolumns]
    rfl
  unfold query
  cases h.linkTable? with
  | none =>
      apply (shifts_lift (joinCondition_shifts fun _ => rfl)).map
      intro e
      rw [Select.relabel_filter, hrows]
  | some link =>
      apply shifts_fresh.bind
      intro i
      rw [← shiftedAlias_tableAlias]
      apply (shifts_lift (joinCondition_shifts fun _ => rfl)).bind
      intro on
      apply (shifts_lift (joinCondition_shifts fun _ => rfl)).map
      intro e
      rw [Select.relabel_filter, Select.relabel_join, hrows]
      rfl

theorem label_shift (l : Level) :
    (l.shift start k).label = shiftedAlias start k l.label :=
  (shiftedAlias_tableAlias start k l.number).symm

theorem someRow_shifts {condition condition' : Context → Numbered (Option Expr)}
    (hcondition : ∀ n, Shifts start k (Option.map (Expr.shift start k))
      (condition (.inside ⟨h.target, n, binding⟩ c))
      (condition' ((Context.inside ⟨h.target, n, binding⟩ c).shift start k))) :
    Shifts start k (Expr.shift start k) (someRow binding condition c source h)
      (someRow binding condition' (c.shift start k) (shiftedAlias start k source) h) := by
  unfold someRow Context.extend
  simp only [bind_assoc, pure_bind]
  apply shifts_fresh.bind
  intro n
  have hquery : Shifts start k (Select.relabel (shiftedAlias start k))
      (h.query [.constant (.int 1)] source (tableAlias n))
      (h.query [.constant (.int 1)] (shiftedAlias start k source)
        (tableAlias (shiftedNumber start k n))) := by
    rw [← shiftedAlias_tableAlias]
    exact query_shifts rfl
  apply hquery.bind
  intro rows
  apply (hcondition n).bind
  intro e?
  cases e? with
  | none => exact shifts_pure _
  | some e =>
      show Shifts _ _ _ _ (pure (Expr.hasRows ((rows.relabel _).filter (e.shift start k))))
      rw [← Select.relabel_filter]
      exact shifts_pure _

theorem countRows_shifts : Shifts start k (Expr.shift start k) (countRows c source h)
    (countRows (c.shift start k) (shiftedAlias start k source) h) := by
  unfold countRows Context.extend
  simp only [bind_assoc, pure_bind]
  apply shifts_fresh.bind
  intro n
  have hquery : Shifts start k (Select.relabel (shiftedAlias start k))
      (h.query [.countAll] source (tableAlias n))
      (h.query [.countAll] (shiftedAlias start k source)
        (tableAlias (shiftedNumber start k n))) := by
    rw [← shiftedAlias_tableAlias]
    exact query_shifts rfl
  exact hquery.map fun _ => rfl

/-- **A question behind hops is shifted** if its condition is, in each context that the hops
open. -/
theorem ask_shifts {hops : List Hop} {condition condition' : Context → Numbered (Option Expr)}
    (hcondition : ∀ inner, c.Opened binding hops inner →
      Shifts start k (Option.map (Expr.shift start k))
      (condition inner) (condition' (inner.shift start k))) :
    Shifts start k (Expr.shift start k) (ask (someRow binding condition) c source hops)
      (ask (someRow binding condition') (c.shift start k) (shiftedAlias start k source) hops) := by
  induction hops generalizing c source with
  | nil => exact shifts_throw _
  | cons h rest ih =>
      cases rest with
      | nil => exact someRow_shifts fun n => hcondition _ (.last c h n)
      | cons next rest =>
          apply someRow_shifts
          intro n
          have hrest (source : String) :=
            @ih (.inside ⟨h.target, n, .navigation none⟩ c) source fun inner hinner =>
            hcondition inner (.step n hinner)
          have hown := hrest (tableAlias n)
          rw [shiftedAlias_tableAlias] at hown
          exact hown.map fun _ => rfl

/-- The form of `ask_shifts` for a condition that is always there. -/
theorem askNarrowed_shifts {hops : List Hop} {condition condition' : Context → Numbered Expr}
    (hcondition : ∀ inner, c.Opened binding hops inner → Shifts start k (Expr.shift start k)
      (condition inner) (condition' (inner.shift start k))) :
    Shifts start k (Expr.shift start k)
      (ask (someRow binding fun inner => do return some (← condition inner)) c source hops)
      (ask (someRow binding fun inner => do return some (← condition' inner)) (c.shift start k)
        (shiftedAlias start k source) hops) :=
  ask_shifts fun inner hinner => (hcondition inner hinner).map fun _ => rfl

end Hop

/-! ## Filters

By induction on the filter, with `assemble` for a filter that has nothing `leading` and `within`
for one that has. -/

section

variable {s : Schema} {c : Context} {a : Address}

theorem Context.within_shifts {nav : Navigating} {compile compile' : Context → Numbered Compiled}
    (hcompile : ∀ inner, nav.Enters c inner →
      Shifts start k (Compiled.shift start k) (compile inner)
      (compile' (inner.shift start k))) :
    Shifts start k (Compiled.shift start k) (c.within (some nav) compile)
      ((c.shift start k).within (some (nav.shift start k)) compile') := by
  show Shifts _ _ _ (Hop.ask _ c nav.anchor.label nav.hops >>= _)
    (Hop.ask _ (c.shift start k) (nav.anchor.shift start k).label nav.hops >>= _)
  rw [Hop.label_shift]
  exact (Hop.askNarrowed_shifts fun inner hinner =>
    conditionOf_shifts (hcompile inner hinner)).map fun _ => rfl

theorem operandsBy_shifts {operand : Context → Address → Filter → Numbered Compiled}
    {fs : List Filter} {i : Nat}
    (h : ∀ f ∈ fs, ∀ a, Shifts start k (Compiled.shift start k) (operand c a f)
      (operand (c.shift start k) a f)) :
    Shifts start k (List.map (Compiled.shift start k)) (operandsBy operand c a i fs)
      (operandsBy operand (c.shift start k) a i fs) := by
  induction fs generalizing i with
  | nil => exact shifts_pure []
  | cons f fs ih =>
      apply (h f List.mem_cons_self _).bind
      intro x
      exact (ih fun g hg => h g (List.mem_cons_of_mem f hg)).map fun _ => rfl

/-- What a member denotes is shifted if its body and its arguments are. -/
theorem Target.compile_shifts {path : Path} {anchor : Level} {target : Target}
    (hfound : s.denote c a path = .ok (anchor, target)) {body : Context → Numbered Compiled}
    {arguments : Context → Numbered (List (Option String × Compiled))}
    (hbody : ∀ inner, Shifts start k (Compiled.shift start k) (body inner)
      (body (inner.shift start k)))
    (harguments : Shifts start k (Schema.relabelArguments (shiftedAlias start k)) (arguments c)
      (arguments (c.shift start k))) :
    Shifts start k (Compiled.shift start k) (target.compile s c path anchor body (fun _ =>
      return []) arguments)
      (target.compile s (c.shift start k) path (anchor.shift start k) body (fun _ =>
        return []) arguments) := by
  have hcondition (inner : Context) : Shifts start k (Expr.shift start k) (conditionOf (body inner))
      (conditionOf (body (inner.shift start k))) := conditionOf_shifts (hbody inner)
  have hmember (p : AttributePath) : Compiled.ofPath (shiftedAlias start k anchor.label) p =
      (Compiled.ofPath anchor.label p).shift start k := rfl
  unfold compile
  rw [Hop.label_shift]
  cases target with
  | element =>
      rw [Level.scope_shift]
      cases anchor.scope.elementPath? with
      | none => exact shifts_throw _
      | some p => exact shifts_pure _
  | «attribute» p => exact shifts_pure _
  | navigation hops offset => exact shifts_throw _
  | count hops =>
      obtain ⟨last, rfl⟩ := Schema.denote_count hfound
      exact Hop.countRows_shifts.map fun _ => rfl
  | nonempty hops => exact (Hop.ask_shifts fun _ _ => shifts_pure none).map fun _ => rfl
  | any hops name => exact (Hop.askNarrowed_shifts fun inner _ => hcondition inner).map fun _ => rfl
  | all hops name =>
      have hdenied (inner : Context) : Shifts start k (Option.map (Expr.shift start k))
          (do return Option.some (.not (← conditionOf (body inner))))
          (do return Option.some (.not (← conditionOf (body (inner.shift start k))))) :=
        (hcondition inner).bind fun e => shifts_pure (Option.some (Expr.not e))
      apply (Hop.askNarrowed_shifts fun inner _ => hcondition inner).bind
      intro some
      exact (Hop.ask_shifts fun inner _ => hdenied inner).map fun _ => rfl
  | function name =>
      show Shifts _ _ _ (arguments c >>= fun args => liftM (s.callCustom name args))
        (arguments (c.shift start k) >>= fun args => liftM (s.callCustom name args))
      apply harguments.bind
      intro args
      exact shifts_lift (s.callCustom_relabel name args)

/-- What `assemble` puts together of shifted parts is shifted. -/
theorem Filter.assemble_shifts {f : Filter}
    {operand : Context → Address → Filter → Numbered Compiled}
    (hparts : ∀ g ∈ f.parts, ∀ c a, Shifts start k (Compiled.shift start k) (operand c a g)
      (operand (c.shift start k) a g)) :
    Shifts start k (Compiled.shift start k) (f.assemble s operand a c)
      (f.assemble s operand a (c.shift start k)) := by
  cases f with
  | binary l op r =>
      by_cases hop : op = .has
      · simp only [assemble, if_pos hop]
        exact shifts_throw _
      · simp only [assemble, if_neg hop]
        apply (hparts l (by simp [parts]) c _).bind
        intro x
        apply (hparts r (by simp [parts]) c _).bind
        intro y
        exact shifts_lift (s.compose_relabel x y op)
  | unary op f =>
      apply (hparts f (by simp [parts]) c _).bind
      intro x
      exact shifts_lift (x.composeUnary_relabel op)
  | member path =>
      -- The member denotes the same with its level further on, so both runs go on with one target.
      apply Numbered.shifts_lift_bind (s.denote_shift c a start k path)
      rintro ⟨anchor, target⟩ hfound
      apply Target.compile_shifts hfound
      · intro inner
        cases hbody : Path.body? path with
        | none => exact Numbered.shifts_throw _
        | some body => exact hparts body (Path.body?_mem hbody) inner _
      · have hoperands : Shifts start k (List.map (Compiled.shift start k))
            (operandsBy operand c a 0 ((Path.arguments path).map Argument.value))
            (operandsBy operand (c.shift start k) a 0
              ((Path.arguments path).map Argument.value)) := by
          apply operandsBy_shifts
          intro f hf
          obtain ⟨arg, harg, rfl⟩ := List.mem_map.mp hf
          exact hparts _ (Path.arguments_mem harg) c
        apply hoperands.map
        intro xs
        rw [Schema.relabelArguments, List.zip_map_right]
        rfl
  | call g args =>
      apply (operandsBy_shifts fun f hf => hparts f hf c).bind
      intro xs
      exact shifts_lift (s.callBuiltIn_relabel g xs)
  | literal l => exact shifts_pure _
  | enumMember type member =>
      show Shifts _ _ _ ((Filter.enumMember type member).compile s c a)
        ((Filter.enumMember type member).compile s (c.shift start k) a)
      rw [Filter.compile, Filter.compile]
      cases s.coerceMember type member none with
      | error err => exact shifts_throw err
      | ok found => exact shifts_pure _
  | typeName name =>
      show Shifts _ _ _ ((Filter.typeName name).compile s c a)
        ((Filter.typeName name).compile s (c.shift start k) a)
      rw [Filter.compile, Filter.compile]
      cases DataType.ofName? name with
      | none => exact shifts_throw _
      | some t => exact shifts_pure _
  | parameterAlias name => exact shifts_throw _

/-- **A filter is compiled from another number as it is from this one**, in each context: with the
same error, or to the same operand with its own aliases shifted (`Shifts`). -/
theorem Filter.compile_shifts (f : Filter) :
    Shifts start k (Compiled.shift start k) (f.compile s c a)
      (f.compile s (c.shift start k) a) := by
  induction f using Filter.induction generalizing c a with
  | step f ih =>
      have hshifted : Carries (Option.map (Navigating.shift start k)) (f.leading s c a) _ :=
        f.leading_shift a
      have hparts (g : Filter) (hg : g ∈ f.parts) (c : Context) (a : Address) :
          Shifts start k (Compiled.shift start k) (s.compiling c a g)
            (s.compiling (c.shift start k) a g) := ih g hg
      cases hleading : f.leading s c a with
      | error err =>
          rw [Carries, hleading] at hshifted
          rw [compile_failed hleading, compile_failed hshifted]
          exact shifts_throw err
      | ok nav? =>
          rw [Carries, hleading] at hshifted
          cases nav? with
          | none =>
              rw [compile_here hleading, compile_here hshifted]
              exact assemble_shifts hparts
          | some nav =>
              rw [compile_again hleading, compile_again hshifted]
              apply Context.within_shifts
              intro inner hinner
              -- Behind the member there is none any more, from here on as well as further on.
              have hnone := leading_opened hleading hinner
              have hnone' : f.leading s (inner.shift start k) a = .ok none := by
                rw [f.leading_shift a, hnone]
                rfl
              rw [compile_here hnone, compile_here hnone']
              exact assemble_shifts hparts

end

end FilterSql
