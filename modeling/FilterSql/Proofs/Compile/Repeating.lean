import FilterSql.Proofs.Compile.Run
import Mathlib.Data.List.Forall2

/-!
# Repeating a run

What is compiled in one context is often compiled to the same in another that is related to it.
This is so for questions (`Hop.ask_repeats`) and behind members (`Context.within_repeats`), for
every relation of contexts that is preserved when the same levels are opened in both. What a filter
or a member is compiled to can be repeated if what its parts are compiled to can.
-/

namespace FilterSql

open Sql (Expr)

/-- Wherever `f` does not fail, `f'` gives the same. -/
def Numbered.Repeats {α : Type} (f f' : Numbered α) : Prop :=
  ∀ ⦃n m a⦄, f.run n = .ok (a, m) → f'.run n = .ok (a, m)

theorem Numbered.Repeats.refl {α : Type} (f : Numbered α) : f.Repeats f :=
  fun _ _ _ hrun => hrun

theorem conditionOf_repeats {x x' : Numbered Compiled} (h : x.Repeats x') :
    (conditionOf x).Repeats (conditionOf x') := by
  intro n m e hrun
  obtain ⟨y, hy, he⟩ := conditionOf_ok.mp hrun
  exact conditionOf_ok.mpr ⟨y, h hy, he⟩

theorem Path.bodyViolation_repeats {s : Schema} {path path' : Path} {a a' : Address}
    {c c' : Context} (h : (path.bodyCondition s a c).Repeats (path'.bodyCondition s a' c')) :
    (path.bodyViolation s a c).Repeats (path'.bodyViolation s a' c') := by
  intro n m e hrun
  obtain ⟨x, k, hx, hpure⟩ := Numbered.bind_ok.mp hrun
  exact Numbered.bind_ok.mpr ⟨x, k, h hx, hpure⟩

/-! ## Questions

Two runs of `ask` along the same hops open levels in pairs. A question `Repeats` if its second run
gives the same expression from the same number, and `ask` hands this on from the last hop to the
first. -/

/-- Opening levels with these bindings in contexts related by `R` makes them related by `T`. -/
def Context.Opens (R T : Context → Context → Prop) (binding binding' : Binding) : Prop :=
  ∀ c c' scope n, R c c' → T (.inside ⟨scope, n, binding⟩ c) (.inside ⟨scope, n, binding'⟩ c')

namespace Hop

variable {R T : Context → Context → Prop}

/-- The question can be repeated as `question'` in a related context. -/
def Question.Repeats (R : Context → Context → Prop) (question question' : Question) : Prop :=
  ∀ c c' source h, R c c' → (question c source h).Repeats (question' c' source h)

theorem ask_repeats {question question' : Question} {c c' : Context}
    (hopens : Context.Opens R R (.navigation none) (.navigation none))
    (hquestion : Question.Repeats R question question') (hc : R c c') (source : String)
    (hops : List Hop) :
    (ask question c source hops).Repeats (ask question' c' source hops) := by
  induction hops generalizing c c' source with
  | nil =>
      intro n m e h
      rw [ask] at h
      exact (Numbered.throw_ok.mp h).elim
  | cons h rest ih =>
      cases rest with
      | nil => exact hquestion c c' source h hc
      | cons next rest =>
          intro n m e hrun
          obtain ⟨joins, on, k, x, hselects, hx, rfl⟩ := ask_step_ok.mp hrun
          exact ask_step_ok.mpr ⟨joins, on, k, x, hselects, ih (hopens c c' _ n hc) _ hx, rfl⟩

theorem someRow_repeats {binding binding' : Binding}
    {condition condition' : Context → Numbered (Option Expr)}
    (hopens : Context.Opens R T binding binding')
    (h : ∀ c c', T c c' → (condition c).Repeats (condition' c')) :
    Question.Repeats R (someRow binding condition) (someRow binding' condition') := by
  intro c c' source hop hc n m e hrun
  obtain ⟨joins, on, k, narrowed, hselects, hx, rfl⟩ := someRow_ok.mp hrun
  exact someRow_ok.mpr ⟨joins, on, k, narrowed, hselects, h _ _ (hopens c c' _ n hc) hx, rfl⟩

theorem narrowedRow_repeats {binding binding' : Binding}
    {condition condition' : Context → Numbered Expr} (hopens : Context.Opens R T binding binding')
    (h : ∀ c c', T c c' → (condition c).Repeats (condition' c')) :
    Question.Repeats R (someRow binding fun inner => do return some (← condition inner))
      (someRow binding' fun inner => do return some (← condition' inner)) := by
  apply someRow_repeats hopens
  intro c c' hc n m narrowed hrun
  obtain ⟨x, k, hx, hpure⟩ := Numbered.bind_ok.mp hrun
  exact Numbered.bind_ok.mpr ⟨x, k, h c c' hc hx, hpure⟩

theorem anyRow_repeats : Question.Repeats R anyRow anyRow := by
  have hopens : Context.Opens R (fun _ _ => True) (.navigation none) (.navigation none) :=
    fun _ _ _ _ _ => trivial
  exact someRow_repeats hopens fun _ _ _ => .refl _

theorem countRows_repeats : Question.Repeats R countRows countRows := by
  intro c c' source hop _ n m e hrun
  exact countRows_ok.mpr (countRows_ok.mp hrun)

end Hop

/-! ## Behind a member

If both searches find the same member, with offsets that may be different, both runs compile behind
the same hops (`Navigating.Repeats`). -/

/-- The member leads along the same hops from the same rows in related contexts, and these are
still related behind it. -/
structure Navigating.Repeats (R : Context → Context → Prop) (nav nav' : Navigating) : Prop where
  label : nav'.anchor.label = nav.anchor.label
  hops : nav'.hops = nav.hops
  opens : Context.Opens R R (.navigation (some nav.pin)) (.navigation (some nav'.pin))

theorem Context.within_repeats {R : Context → Context → Prop} {c c' : Context}
    {n? n?' : Option Navigating} {compile compile' : Context → Numbered Compiled}
    (hopens : Opens R R (.navigation none) (.navigation none))
    (hnav : Option.Rel (Navigating.Repeats R) n? n?') (hc : R c c')
    (h : ∀ c c', R c c' → (compile c).Repeats (compile' c')) :
    (c.within n? compile).Repeats (c'.within n?' compile') := by
  cases hnav with
  | none => exact h c c' hc
  | some hnav =>
      intro n m x hrun
      obtain ⟨e, rfl, he⟩ := within_some_ok.mp hrun
      obtain ⟨hlabel, hhops, hbehind⟩ := hnav
      have hquestion := Hop.narrowedRow_repeats hbehind fun c c' hc =>
        conditionOf_repeats (h c c' hc)
      refine within_some_ok.mpr ⟨e, rfl, ?_⟩
      rw [hlabel, hhops]
      exact Hop.ask_repeats hopens hquestion hc _ _ he

/-- If there is only one member in each of two related lists, the two are related. -/
theorem Navigating.only?_related {R : Navigating → Navigating → Prop} {ns ns' : List Navigating}
    {n? : Option Navigating} (h : List.Forall₂ R ns ns') (hn : Navigating.only? ns = .ok n?) :
    ∃ n?', Navigating.only? ns' = .ok n?' ∧ Option.Rel R n? n?' := by
  rcases h with _ | ⟨hfirst, _ | ⟨_, _⟩⟩
  · obtain rfl := Except.ok.inj hn
    exact ⟨none, rfl, .none⟩
  · obtain rfl := Except.ok.inj hn
    exact ⟨_, rfl, .some hfirst⟩
  · cases hn

section

variable {s : Schema} {c c' : Context} {a a' : Address}

/-! ## Filters

For each form of a filter: if its operands give the same in the second run, it does so as well.
What the two runs have to do with each other is left to the parameter `R`. -/

theorem compileAll_cons_repeats {f f' : Filter} {fs fs' : List Filter} {i : Nat}
    (hf : (f.compile s c (i :: a)).Repeats (f'.compile s c' (i :: a')))
    (hfs : (compileAll s c a (i + 1) fs).Repeats (compileAll s c' a' (i + 1) fs')) :
    (compileAll s c a i (f :: fs)).Repeats (compileAll s c' a' i (f' :: fs')) := by
  intro n m xs hrun
  obtain ⟨y, k, ys, hy, hys, rfl⟩ := Filter.compileAll_cons_ok.mp hrun
  exact Filter.compileAll_cons_ok.mpr ⟨y, k, ys, hf hy, hfs hys, rfl⟩

namespace Filter

theorem unary_repeats {f f' : Filter} (op : UnaryOperator)
    (h : (f.compile s c (0 :: a)).Repeats (f'.compile s c' (0 :: a'))) :
    ((unary op f).compile s c a).Repeats ((unary op f').compile s c' a') := by
  intro n m x hrun
  obtain ⟨y, hy, hx⟩ := compile_unary_ok.mp hrun
  exact compile_unary_ok.mpr ⟨y, h hy, hx⟩

theorem composed_repeats {l l' r r' : Filter} (op : BinaryOperator)
    (hl : (l.compile s c (0 :: a)).Repeats (l'.compile s c' (0 :: a')))
    (hr : (r.compile s c (1 :: a)).Repeats (r'.compile s c' (1 :: a'))) :
    (composed s a l op r c).Repeats (composed s a' l' op r' c') := by
  intro n m x hrun
  obtain ⟨y, k, z, hy, hz, hx⟩ := composed_ok.mp hrun
  exact composed_ok.mpr ⟨y, k, z, hl hy, hr hz, hx⟩

theorem called_repeats {args args' : List Filter} (g : BuiltIn)
    (h : (compileAll s c a 0 args).Repeats (compileAll s c' a' 0 args')) :
    (called s a g args c).Repeats (called s a' g args' c') := by
  intro n m x hrun
  obtain ⟨ys, hys, hx⟩ := called_ok.mp hrun
  exact called_ok.mpr ⟨ys, h hys, hx⟩

end Filter

/-! ## Members

For each target of a member: if the body of its quantifier, or the arguments of its function, give
the same in the second run, the member does so as well. -/

namespace Path

variable {path path' : Path} {l l' : Level} {hops : List Hop}

theorem called_repeats (name : String)
    (hnames : path.arguments.map Argument.name = path'.arguments.map Argument.name)
    (h : (compileAll s c a 0 (path.arguments.map Argument.value)).Repeats
      (compileAll s c' a' 0 (path'.arguments.map Argument.value))) :
    (path.called s a name c).Repeats (path'.called s a' name c') := by
  intro n m x hrun
  obtain ⟨ys, hys, hx⟩ := called_ok.mp hrun
  rw [hnames] at hx
  exact called_ok.mpr ⟨ys, h hys, hx⟩

theorem element_repeats (hlabel : l.label = l'.label) (hscope : l.scope = l'.scope) :
    (path.compileAs s a c (l, .element)).Repeats (path'.compileAs s a' c' (l', .element)) := by
  intro n m x hrun
  obtain ⟨p, hp, rfl, rfl⟩ := compileAs_element_ok.mp hrun
  rw [hscope] at hp
  rw [hlabel]
  exact compileAs_element_ok.mpr ⟨p, hp, rfl, rfl⟩

theorem leaf_repeats (p : AttributePath) (hlabel : l.label = l'.label) :
    (path.compileAs s a c (l, .attribute p)).Repeats
      (path'.compileAs s a' c' (l', .attribute p)) := by
  intro n m x hrun
  obtain ⟨rfl, rfl⟩ := compileAs_leaf_ok.mp hrun
  rw [hlabel]
  exact compileAs_leaf_ok.mpr ⟨rfl, rfl⟩

theorem count_repeats
    (h : (Hop.ask Hop.countRows c l.label hops).Repeats (Hop.ask Hop.countRows c' l'.label hops)) :
    (path.compileAs s a c (l, .count hops)).Repeats
      (path'.compileAs s a' c' (l', .count hops)) := by
  intro n m x hrun
  obtain ⟨e, he, rfl⟩ := compileAs_count_ok.mp hrun
  exact compileAs_count_ok.mpr ⟨e, h he, rfl⟩

theorem nonempty_repeats
    (h : (Hop.ask Hop.anyRow c l.label hops).Repeats (Hop.ask Hop.anyRow c' l'.label hops)) :
    (path.compileAs s a c (l, .nonempty hops)).Repeats
      (path'.compileAs s a' c' (l', .nonempty hops)) := by
  intro n m x hrun
  obtain ⟨e, he, rfl⟩ := compileAs_nonempty_ok.mp hrun
  exact compileAs_nonempty_ok.mpr ⟨e, h he, rfl⟩

variable {name name' : String}

theorem any_repeats
    (h : (Hop.ask (path.matching s a name) c l.label hops).Repeats
      (Hop.ask (path'.matching s a' name') c' l'.label hops)) :
    (path.compileAs s a c (l, .any hops name)).Repeats
      (path'.compileAs s a' c' (l', .any hops name')) := by
  intro n m x hrun
  obtain ⟨e, he, rfl⟩ := compileAs_any_ok.mp hrun
  exact compileAs_any_ok.mpr ⟨e, h he, rfl⟩

theorem all_repeats
    (h : (Hop.ask (path.matching s a name) c l.label hops).Repeats
      (Hop.ask (path'.matching s a' name') c' l'.label hops))
    (h' : (Hop.ask (path.violating s a name) c l.label hops).Repeats
      (Hop.ask (path'.violating s a' name') c' l'.label hops)) :
    (path.compileAs s a c (l, .all hops name)).Repeats
      (path'.compileAs s a' c' (l', .all hops name')) := by
  intro n m x hrun
  obtain ⟨e, k, e', he, he', rfl⟩ := compileAs_all_ok.mp hrun
  exact compileAs_all_ok.mpr ⟨e, k, e', h he, h' he', rfl⟩

end Path

end

end FilterSql
