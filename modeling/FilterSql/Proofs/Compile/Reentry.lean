import FilterSql.Proofs.Compile.Rescoping
import FilterSql.Proofs.Schema.Names

/-!
# Compiling an expression again

An expression with a member that navigates can be compiled by compiling the same expression again,
in the context that the hops of the member open. `Filter.step` is one step of this recursion: it
leaves what is to be compiled next, the same expression or a part of it, to a function that it is
given. The recursion does not run in a circle. In the context that is opened the member navigates
no more, and the others denote what they denoted before, so none is left to compile behind
(`Filter.leading_opened`). Hence steps that are nested at most twice as deep as the filter is large
compile it, whatever stands at the bottom (`Filter.steps_enough`).
-/

namespace FilterSql

open Sql (Expr)

/-! ## The contexts that are opened

`Context.Opened` tells what levels a row of hops opens: one for each hop, of which the last one has
the `Binding` that is asked for, and the others have none. -/

/-- The contexts behind hops below a context: there is a level for each hop, and the last one has
the `binding`. -/
inductive Context.Opened (binding : Binding) : Context → List Hop → Context → Prop where
  | last (c : Context) (h : Hop) (n : Nat) : Opened binding c [h] (.inside ⟨h.target, n, binding⟩ c)
  | step {c inner : Context} {h : Hop} {hops : List Hop} (n : Nat)
      (hinner : Opened binding (.inside ⟨h.target, n, .navigation none⟩ c) hops inner) :
      Opened binding c (h :: hops) inner

/-- `nav.Enters c inner`: the hops of `nav` open `inner` inside `c`, with the last level pinned for
it. -/
abbrev Navigating.Enters (nav : Navigating) (c inner : Context) : Prop :=
  c.Opened (.navigation (some nav.pin)) nav.hops inner

namespace Context.Opened

variable {pin : Pin} {c inner : Context} {hops : List Hop}

/-- Levels that are opened for the member at `pin.address` are not noticed at any other address. -/
theorem agreesAway {around : Context} (h : c.Opened (.navigation (some pin)) hops inner)
    (hagrees : around.AgreesAway pin.address c) : around.AgreesAway pin.address inner := by
  induction h with
  | last => exact hagrees.inside (.inr ⟨pin.offset, rfl⟩)
  | step _ _ ih => exact ih (hagrees.inside (.inl rfl))

/-- The innermost level is that of the last hop, and the member is pinned to it. -/
theorem level (h : c.Opened (.navigation (some pin)) hops inner) :
    ∃ front last, hops = front ++ [last] ∧
    inner.level.scope = last.target ∧
    inner.pinned? pin.address = some (inner.level, pin.offset) := by
  induction h with
  | last c h n => exact ⟨[], h, rfl, rfl, pinned?_inside rfl⟩
  | @step _ _ h _ _ _ ih =>
      obtain ⟨front, last, rfl, hscope, hpinned⟩ := ih
      exact ⟨h :: front, last, rfl, hscope, hpinned⟩

end Context.Opened

/-! ## Members behind hops

Two consequences of `denote_behind` and `Filter.navigating_behind` for the contexts that a member
enters: what the member denotes there, and that no other one is left. -/

section

variable {s : Schema} {c inner : Context} {a : Address} {nav : Navigating} {f : Filter}

/-- **A member goes on from the end of its hops** to an attribute of the rows there, or to the
`count` of the rows behind one more hop. -/
theorem Navigating.Enters.denote (hinner : nav.Enters c inner)
    (hfound : s.denote c nav.address nav.path = .ok (nav.anchor, .navigation nav.hops nav.offset)) :
    ∃ target, inner.anchor nav.address nav.path = (inner.level, nav.offset) ∧
      s.denote inner nav.address nav.path = .ok (inner.level, target) ∧
      ((∃ leaf, target = .attribute leaf) ∨ ∃ h, target = .count [h]) := by
  obtain ⟨front, last, hhops, hscope, hpinned⟩ := hinner.level
  obtain ⟨_, _, _, target, front', last', -, -, hleads, hhops', hbehind⟩ := s.denote_behind hfound
  obtain rfl : last = last' := by
    rw [hhops] at hhops'
    exact List.singleton_inj.mp (List.append_inj' hhops' rfl).2
  refine ⟨target, Context.anchor_of_pinned hpinned nav.path,
    hbehind inner inner.level hpinned hscope, ?_⟩
  cases hleads with
  | leaf => exact .inl ⟨_, rfl⟩
  | count => exact .inr ⟨_, rfl⟩

/-- In the context that `nav` enters, no operand has a member left that navigates. -/
theorem Navigating.Enters.navigatingAll {fs : List Filter} (hinner : nav.Enters c inner)
    (hns : navigatingAll s c a 0 fs = .ok [nav]) : navigatingAll s inner a 0 fs = .ok [] := by
  obtain ⟨g, -, i, ms, -, hms, hmem⟩ := navigatingAll_mem hns (List.mem_singleton_self nav)
  obtain ⟨target, -, hdenote, htarget⟩ := hinner.denote (Filter.navigating_mem hms hmem)
  have hagrees := hinner.agreesAway (.refl nav.address c)
  have hneither : (∀ hops offset, target ≠ .navigation hops offset) ∧
    ∀ name, target ≠ .function name := by
    rcases htarget with ⟨leaf, rfl⟩ | ⟨h, rfl⟩ <;> simp
  apply navigatingAll_behind hagrees _ hns
  intro f _ i hf
  exact Filter.navigating_behind hagrees hdenote hneither.1 hneither.2 hf

/-! ## The member that an expression is compiled behind

`Filter.leading` is the search by itself, without the compilation that follows. A comparison looks
into its operands and a call into its arguments; a member may be the leading one itself. -/

/-- The member behind which a filter is compiled, `none` if it is compiled where it stands. -/
def Filter.leading (s : Schema) (c : Context) (a : Address) :
    Filter → Except FilterError (Option Navigating)
  | .binary l op r => binaryNavigating s c a l op r
  | .call _ args => do Navigating.only? (← navigatingAll s c a 0 args)
  | .member path => do
      match ← s.denote c a path with
      | (anchor, .navigation hops offset) => return some ⟨a, path, anchor, hops, offset⟩
      | (_, .function _) =>
          Navigating.only? (← navigatingAll s c a 0 ((Path.arguments path).map Argument.value))
      | _ => return none
  | .unary .. | .literal _ | .enumMember .. | .typeName _ | .parameterAlias _ => return none

/-- What is `leading` is the filter itself, a member, or stands in one of its operands. -/
theorem Filter.leading_some (h : f.leading s c a = .ok (some nav)) :
    (∃ path, f = .member path ∧
      s.denote c a path = .ok (nav.anchor, .navigation nav.hops nav.offset) ∧
      nav.address = a ∧ nav.path = path) ∨
    ∃ fs, navigatingAll s c a 0 fs = .ok [nav] ∧ ((∃ l op r, f = .binary l op r ∧ fs = [l, r]) ∨
      (∃ g, f = .call g fs) ∨ ∃ path anchor name, f = .member path ∧
        s.denote c a path = .ok (anchor, .function name) ∧
          fs = (Path.arguments path).map Argument.value) := by
  cases f with
  | binary l op r =>
      right
      rcases binaryNavigating_ok.mp h with ⟨-, ns, hns, hn⟩ | ⟨-, hn⟩
      · obtain rfl := Navigating.only?_some hn
        exact ⟨[l, r], hns, .inl ⟨l, op, r, rfl, rfl⟩⟩
      · cases hn
  | call g args =>
      right
      obtain ⟨ns, hns, hn⟩ := Checked.bind_ok.mp h
      obtain rfl := Navigating.only?_some hn
      exact ⟨args, hns, .inr (.inl ⟨g, rfl⟩)⟩
  | member path =>
      obtain ⟨⟨anchor, target⟩, hfound, h⟩ := Checked.bind_ok.mp h
      cases target with
      | navigation hops offset =>
          obtain rfl := Option.some.inj (Checked.pure_ok.mp h)
          exact .inl ⟨path, rfl, hfound, rfl, rfl⟩
      | function name =>
          right
          obtain ⟨ns, hns, hn⟩ := Checked.bind_ok.mp h
          obtain rfl := Navigating.only?_some hn
          exact ⟨_, hns, .inr (.inr ⟨path, anchor, name, rfl, hfound, rfl⟩)⟩
      | _ => cases h
  | unary | literal | enumMember | typeName | parameterAlias => cases h

/-- The member that is `leading` denotes a `navigation`. -/
theorem Filter.leading_denote (h : f.leading s c a = .ok (some nav)) :
    s.denote c nav.address nav.path = .ok (nav.anchor, .navigation nav.hops nav.offset) := by
  rcases leading_some h with ⟨path, -, hfound, rfl, rfl⟩ | ⟨fs, hns, -⟩
  · exact hfound
  · obtain ⟨g, -, i, ms, -, hms, hmem⟩ := navigatingAll_mem hns (List.mem_singleton_self nav)
    exact navigating_mem hms hmem

/-- **In the context that is opened there is nothing leading**, so the filter is compiled where it
stands. -/
theorem Filter.leading_opened (h : f.leading s c a = .ok (some nav)) (hinner : nav.Enters c inner) :
    f.leading s inner a = .ok none := by
  obtain ⟨target, -, hdenote, htarget⟩ := hinner.denote (leading_denote h)
  rcases leading_some h with ⟨path, rfl, -, rfl, rfl⟩ | ⟨fs, hns, hf⟩
  · rw [leading, hdenote]
    rcases htarget with ⟨leaf, rfl⟩ | ⟨h, rfl⟩ <;> rfl
  · have hnone := hinner.navigatingAll hns
    rcases hf with ⟨l, op, r, rfl, rfl⟩ | ⟨g, rfl⟩ | ⟨path, anchor, name, rfl, hfound, rfl⟩
    · apply binaryNavigating_ok.mpr
      cases hop : op.isComparison with
      | true => exact .inl ⟨rfl, [], hnone, rfl⟩
      | false => exact .inr ⟨rfl, rfl⟩
    · rw [leading, hnone]
      rfl
    · -- The call itself stands above the member, so it is still the same call.
      have hother : s.denote inner a path = .ok (anchor, .function name) := by
        rw [s.denote_away (hinner.agreesAway (.refl nav.address c))
          (navigatingAll_ne hns (List.mem_singleton_self nav)).symm]
        exact hfound
      rw [leading, hother]
      show (do
        Navigating.only?
          (← FilterSql.navigatingAll s inner a 0 ((Path.arguments path).map Argument.value))) = _
      rw [hnone]
      rfl

end

/-! ## Runs in the contexts that are opened

A question does nothing with its condition but compile it in the contexts that its hops open. So
two conditions that agree in these contexts cannot be told apart. -/

section

variable {c : Context} {source : String} {h : Hop} {binding : Binding}

/-- `someRow` compiles its condition on the level of the rows that the hop leads to, and nowhere
else. -/
theorem Hop.someRow_congr {condition condition' : Context → Numbered (Option Expr)}
    (hcondition : ∀ n, condition (.inside ⟨h.target, n, binding⟩ c) =
      condition' (.inside ⟨h.target, n, binding⟩ c)) :
    Hop.someRow binding condition c source h = Hop.someRow binding condition' c source h := by
  simp only [someRow, Context.extend, bind_assoc, pure_bind, hcondition]

theorem Hop.ask_congr {hops : List Hop} {condition condition' : Context → Numbered (Option Expr)}
    (hcondition : ∀ inner, c.Opened binding hops inner → condition inner = condition' inner) :
    Hop.ask (Hop.someRow binding condition) c source hops =
      Hop.ask (Hop.someRow binding condition') c source hops := by
  induction hops generalizing c source with
  | nil => rfl
  | cons h rest ih =>
      cases rest with
      | nil =>
          apply Hop.someRow_congr
          intro n
          exact hcondition _ (.last c h n)
      | cons next rest =>
          apply Hop.someRow_congr
          intro n
          show (do return some (← Hop.ask _ _ _ (next :: rest))) = _
          rw [ih]
          · rfl
          · intro inner hinner
            exact hcondition inner (.step n hinner)

/-- `within` compiles behind a member in the contexts that the member `Enters`, and nowhere else. -/
theorem Context.within_congr {nav : Navigating} {compile compile' : Context → Numbered Compiled}
    (hcompile : ∀ inner, nav.Enters c inner → compile inner = compile' inner) :
    c.within (some nav) compile = c.within (some nav) compile' := by
  unfold Context.within
  simp only
  rw [Hop.ask_congr]
  intro inner hinner
  rw [hcompile inner hinner]

end

/-! ## One step of compilation

`Filter.step` is the compiler with its recursive calls replaced by `operand`, in two parts: the
search for a `leading` member, and `Filter.assemble` for a filter that has none. -/

/-- Compiles operands by the function `operand`, from place `i` on below one address. -/
def operandsBy (operand : Context → Address → Filter → Numbered Compiled) (c : Context)
    (a : Address) (i : Nat) :
    List Filter → Numbered (List Compiled)
  | [] => return []
  | f :: fs => do
      let x ← operand c (i :: a) f
      return x :: (← operandsBy operand c a (i + 1) fs)

/-- Compiles a filter where it stands, and its parts by the function `operand`. -/
def Filter.assemble (s : Schema) (operand : Context → Address → Filter → Numbered Compiled)
    (a : Address) (c : Context) : Filter → Numbered Compiled
  | .binary l op r =>
      if op = .has then throw (.notSupported .has)
      else do
        let x ← operand c (0 :: a) l
        let y ← operand c (1 :: a) r
        s.compose op x y
  | .unary op f => do (← operand c (0 :: a) f).composeUnary op
  | .member path => do
      let (anchor, target) ← s.denote c a path
      let body (inner : Context) : Numbered Compiled :=
        match Path.body? path with
        | some f => operand inner (0 :: a) f
        | none => throw (.defect .noBody)
      let arguments (inner : Context) : Numbered (List (Option String × Compiled)) := do
        return ((Path.arguments path).map Argument.name).zip
          (← operandsBy operand inner a 0 ((Path.arguments path).map Argument.value))
      target.compile s c path anchor body (fun _ => return []) arguments
  | .call g args => do s.callBuiltIn g (← operandsBy operand c a 0 args)
  | f => f.compile s c a

/-- **One step**: a filter with a member that navigates is compiled `again` behind it, and any
other is compiled where it stands. -/
def Filter.step (s : Schema) (again : Context → Address → Filter → Numbered Compiled) (c : Context)
    (a : Address) (f : Filter) : Numbered Compiled := do
  match ← f.leading s c a with
  | some nav => c.within (some nav) fun inner => again inner a f
  | none => f.assemble s again a c

/-- `Filter.compile` with the context and the address as its first arguments. -/
def Schema.compiling (s : Schema) (c : Context) (a : Address) (f : Filter) : Numbered Compiled :=
  f.compile s c a

section

variable {s : Schema} {c : Context} {a : Address} {f : Filter}
    {operand operand' : Context → Address → Filter → Numbered Compiled}

theorem operandsBy_congr {fs : List Filter} {i : Nat}
    (h : ∀ f ∈ fs, ∀ c a, operand c a f = operand' c a f) :
    operandsBy operand c a i fs = operandsBy operand' c a i fs := by
  induction fs generalizing i with
  | nil => rfl
  | cons f fs ih =>
      rw [operandsBy, operandsBy, h f List.mem_cons_self]
      simp only [ih fun g hg => h g (List.mem_cons_of_mem f hg)]

/-- `assemble` compiles the parts of a filter by `operand`, and looks at nothing else of it. -/
theorem Filter.assemble_congr (h : ∀ g ∈ f.parts, ∀ c a, operand c a g = operand' c a g) :
    f.assemble s operand a c = f.assemble s operand' a c := by
  cases f with
  | binary l op r =>
      have hl := h l (by simp [parts])
      have hr := h r (by simp [parts])
      simp only [assemble, hl, hr]
  | unary op f =>
      have hf := h f (by simp [parts])
      simp only [assemble, hf]
  | member path =>
      have hbody (inner : Context) : (match Path.body? path with
          | some f => operand inner (0 :: a) f
          | none =>
              (throw (FilterError.defect .noBody) : Numbered Compiled)) = match Path.body? path with
          | some f => operand' inner (0 :: a) f
          | none => throw (.defect .noBody) := by
        cases hfound : Path.body? path with
        | none => rfl
        | some body => exact h body (Path.body?_mem hfound) inner (0 :: a)
      have harguments (inner : Context) :
          operandsBy operand inner a 0 ((Path.arguments path).map Argument.value) =
            operandsBy operand' inner a 0 ((Path.arguments path).map Argument.value) := by
        apply operandsBy_congr
        intro f hf
        obtain ⟨arg, harg, rfl⟩ := List.mem_map.mp hf
        exact h _ (Path.arguments_mem harg)
      simp only [assemble, hbody, harguments]
  | call g args =>
      have hargs : operandsBy operand c a 0 args = operandsBy operand' c a 0 args :=
        operandsBy_congr h
      rw [assemble, assemble, hargs]
  | literal | enumMember | typeName | parameterAlias => rfl

theorem compileAll_eq {fs : List Filter} {i : Nat} :
    compileAll s c a i fs = operandsBy s.compiling c a i fs := by
  induction fs generalizing i with
  | nil => rw [compileAll, operandsBy]
  | cons f fs ih =>
      rw [compileAll, operandsBy, ih]
      rfl

theorem compileArguments_eq {args : List Argument} {i : Nat} : compileArguments s c a i args = do
    return (args.map Argument.name).zip
      (← operandsBy s.compiling c a i (args.map Argument.value)) := by
  induction args generalizing i with
  | nil =>
      rw [compileArguments]
      rfl
  | cons arg rest ih =>
      obtain ⟨name, f⟩ := arg
      simp only [compileArguments, ih, List.map_cons, operandsBy, Argument.name, Argument.value,
        bind_assoc, pure_bind, List.zip_cons_cons]
      rfl

/-- `compileAs` puts a member together of the same parts as `assemble` does. -/
theorem Path.compileAs_eq {path : Path} {anchor : Level} {target : Target}
    (hfunction : ∀ name, target ≠ .function name)
    (hfound : s.denote c a path = .ok (anchor, target)) :
    path.compileAs s a c (anchor, target) = (Filter.member path).assemble s s.compiling a c := by
  rw [Path.compileAs, Filter.assemble, hfound]
  have hbody : (fun inner => compileBody s inner a path) = fun inner =>
      match path.body? with
      | some f => s.compiling inner (0 :: a) f
      | none => throw (.defect .noBody) := by
    funext inner
    exact compileBody_eq
  rw [hbody]
  cases target with
  | function name => exact absurd rfl (hfunction name)
  | _ => rfl

theorem Path.called_eq {path : Path} {anchor : Level} {name : String}
    (hfound : s.denote c a path = .ok (anchor, .function name)) :
    path.called s a name c = (Filter.member path).assemble s s.compiling a c := by
  rw [Path.called, compileArguments_eq, Filter.assemble, hfound]
  rfl

end

/-! ## The search and the compilation behind it

For each form of a filter, `compile` does what `step` does with `compile` itself in the place of
the operands. From here on the proofs refer to `leading` and `assemble` only. -/

namespace Filter

section

variable {s : Schema} {c : Context} {a : Address} {f : Filter} {nav : Navigating}

theorem compile_binary_eq {l r : Filter} {op : BinaryOperator} (hop : op ≠ .has) :
    (binary l op r).compile s c a =
    liftM ((binary l op r).leading s c a) >>= fun n? => c.within n? (composed s a l op r) := by
  rw [compile, if_neg hop, leading, binaryNavigating]
  split <;> simp only [liftM_bind, liftM_pure, bind_assoc] <;> rfl

theorem assemble_binary_eq {l r : Filter} {op : BinaryOperator} (hop : op ≠ .has) :
    (binary l op r).assemble s s.compiling a c = composed s a l op r c := by
  rw [assemble, if_neg hop]
  rfl

theorem compile_call_eq {g : BuiltIn} {args : List Filter} : (call g args).compile s c a =
    liftM ((call g args).leading s c a) >>= fun n? => c.within n? (called s a g args) := by
  rw [compile, leading, liftM_bind, bind_assoc]
  rfl

theorem assemble_call_eq {g : BuiltIn} {args : List Filter} :
    (call g args).assemble s s.compiling a c = called s a g args c := by
  rw [assemble, called, compileAll_eq]

theorem compile_navigation_eq {path : Path} {anchor : Level} {hops : List Hop} {offset : Nat}
    (hfound : s.denote c a path = .ok (anchor, .navigation hops offset)) :
    (member path).compile s c a =
      c.within (some ⟨a, path, anchor, hops, offset⟩) (path.compileBehind s a) := by
  rw [compile, hfound]
  rfl

theorem compile_member_eq {path : Path} {anchor : Level} {target : Target}
    (hfound : s.denote c a path = .ok (anchor, target))
    (hnavigation : ∀ hops offset, target ≠ .navigation hops offset) :
    (member path).compile s c a = path.compileAs s a c (anchor, target) := by
  rw [compile, hfound]
  cases target with
  | navigation hops offset => exact absurd rfl (hnavigation hops offset)
  | _ => rfl

theorem compile_function_eq {path : Path} {anchor : Level} {name : String}
    (hfound : s.denote c a path = .ok (anchor, .function name)) : (member path).compile s c a =
      liftM ((member path).leading s c a) >>= fun n? => c.within n? (path.called s a name) := by
  have hfold : (fun c : Context => do
      (s.callCustom name (← compilePath s c a path) : Numbered Compiled)) =
      path.called s a name := by
    funext c
    rw [compilePath_eq]
    rfl
  rw [compile_member_eq hfound (by simp)]
  show path.compileAs s a c (anchor, .function name) = _
  rw [Path.compileAs, Target.compile, hfold, navigatingPath_eq, leading, hfound, ← bind_assoc,
    ← liftM_bind]
  rfl

/-- Where the search for what is `leading` fails, compilation fails with it. -/
theorem compile_failed {err : FilterError} (h : f.leading s c a = .error err) :
    f.compile s c a = throw err := by
  cases f with
  | binary l op r =>
      by_cases hop : op = .has
      · subst hop
        cases h
      · rw [compile_binary_eq hop, h]
        rfl
  | call g args =>
      rw [compile_call_eq, h]
      rfl
  | member path =>
      cases hfound : s.denote c a path with
      | error err' =>
          rw [leading, hfound] at h
          obtain rfl := Except.error.inj h
          rw [compile, hfound]
          rfl
      | ok found =>
          obtain ⟨anchor, target⟩ := found
          cases target with
          | function name =>
              rw [compile_function_eq hfound, h]
              rfl
          | _ =>
              rw [leading, hfound] at h
              cases h
  | unary | literal | enumMember | typeName | parameterAlias => cases h

/-- A filter with nothing `leading` is put together of its parts where it stands. -/
theorem compile_here (h : f.leading s c a = .ok none) :
    f.compile s c a = f.assemble s s.compiling a c := by
  cases f with
  | binary l op r =>
      by_cases hop : op = .has
      · rw [compile, assemble, if_pos hop, if_pos hop]
      · rw [compile_binary_eq hop, assemble_binary_eq hop, h]
        rfl
  | unary op f =>
      rw [compile]
      rfl
  | member path =>
      cases hfound : s.denote c a path with
      | error err =>
          rw [leading, hfound] at h
          cases h
      | ok found =>
          obtain ⟨anchor, target⟩ := found
          cases target with
          | navigation hops offset =>
              rw [leading, hfound] at h
              cases h
          | function name =>
              rw [compile_function_eq hfound, ← Path.called_eq hfound, h]
              rfl
          | _ =>
              rw [compile_member_eq hfound (by simp)]
              exact Path.compileAs_eq (by simp) hfound
  | call g args =>
      rw [compile_call_eq, assemble_call_eq, h]
      rfl
  | literal | enumMember | typeName | parameterAlias => rfl

/-- **A filter with a leading member is compiled again**, in the contexts that its hops open. -/
theorem compile_again (h : f.leading s c a = .ok (some nav)) :
    f.compile s c a = c.within (some nav) fun inner => f.compile s inner a := by
  have hhere (inner : Context) (hinner : nav.Enters c inner) :=
    compile_here (leading_opened h hinner)
  cases f with
  | binary l op r =>
      by_cases hop : op = .has
      · subst hop
        cases h
      · rw [compile_binary_eq hop, h]
        apply Context.within_congr
        intro inner hinner
        rw [hhere inner hinner, assemble_binary_eq hop]
  | call g args =>
      rw [compile_call_eq, h]
      apply Context.within_congr
      intro inner hinner
      rw [hhere inner hinner, assemble_call_eq]
  | member path =>
      obtain ⟨⟨anchor, target⟩, hfound, hleading⟩ := Checked.bind_ok.mp h
      cases target with
      | navigation hops offset =>
          obtain rfl := Option.some.inj (Checked.pure_ok.mp hleading)
          rw [compile_navigation_eq hfound]
          apply Context.within_congr
          intro inner hinner
          -- It navigates no more, and so it is not compiled in any other way than it would be from
          -- the start.
          obtain ⟨target, -, hbehind, htarget⟩ := hinner.denote hfound
          have hnavigation : ∀ hops offset, target ≠ .navigation hops offset := by
            rcases htarget with ⟨leaf, rfl⟩ | ⟨h, rfl⟩ <;> simp
          rw [Path.compileBehind, hbehind, compile_member_eq hbehind hnavigation]
          rfl
      | function name =>
          rw [compile_function_eq hfound, h]
          apply Context.within_congr
          intro inner hinner
          rw [hhere inner hinner]
          apply Path.called_eq
          rw [s.denote_away (hinner.agreesAway (.refl nav.address c)), hfound]
          obtain ⟨ns, hns, hn⟩ := Checked.bind_ok.mp hleading
          obtain rfl := Navigating.only?_some hn
          exact (navigatingAll_ne hns (List.mem_singleton_self nav)).symm
      | _ => cases hleading
  | unary | literal | enumMember | typeName | parameterAlias => cases h

/-- **Compilation takes one step after the other**: it is a fixed point of `Filter.step`. -/
theorem compile_step : f.compile s c a = f.step s s.compiling c a := by
  cases h : f.leading s c a with
  | error err =>
      rw [compile_failed h, step, h]
      rfl
  | ok nav? =>
      rw [step, h]
      cases nav? with
      | none => exact compile_here h
      | some nav => exact compile_again h

end

/-! ## Nested steps

`steps` nests one step inside the other, with `bottom` in the place of the innermost recursive
call. It is there for the statement that compilation ends, which does not depend on `bottom`. -/

/-- Compilation by steps that are nested `k` deep, with `bottom` behind the last of them. -/
def steps (s : Schema) (bottom : Context → Address → Filter → Numbered Compiled) :
    Nat → Context → Address → Filter → Numbered Compiled
  | 0 => bottom
  | k + 1 => step s (steps s bottom k)

section

variable {s : Schema} {bottom : Context → Address → Filter → Numbered Compiled} {c : Context}
    {a : Address} {f : Filter}

/-- With nothing `leading`, a filter takes one step, and its parts take the others. -/
theorem steps_here {k : Nat} (h : f.leading s c a = .ok none)
    (hparts : ∀ g ∈ f.parts, ∀ c a, steps s bottom k c a g = g.compile s c a) :
    steps s bottom (k + 1) c a f = f.compile s c a := by
  rw [steps, step, h, compile_here h]
  exact assemble_congr hparts

/-- **Compilation comes to an end.** A filter takes two `steps` at most, the second one behind its
member, so twice its size is enough. -/
theorem steps_enough {k : Nat} (hk : 2 * sizeOf f ≤ k) :
    steps s bottom k c a f = f.compile s c a := by
  induction f using Filter.induction generalizing k c a with
  | step f ih =>
      have hpos : 0 < sizeOf f := by cases f <;> simp +arith
      obtain ⟨k, rfl⟩ : ∃ k', k = k' + 2 := ⟨k - 2, by omega⟩
      have hparts {k' : Nat} (hk' : k ≤ k') (g : Filter) (hg : g ∈ f.parts) (c : Context)
          (a : Address) : steps s bottom k' c a g = g.compile s c a := by
        have hlt := sizeOf_part hg
        exact ih g hg (by omega)
      cases h : f.leading s c a with
      | error err =>
          rw [steps, step, h, compile_failed h]
          rfl
      | ok nav? =>
          cases nav? with
          | none => exact steps_here h (hparts (Nat.le_succ k))
          | some nav =>
              rw [steps, step, h, compile_again h]
              apply Context.within_congr
              intro inner hinner
              exact steps_here (leading_opened h hinner) (hparts (Nat.le_refl k))

end

end Filter

/-! ## Compiling behind a member, once

The parts of the theorem have been shown above, for any context. That compilation ends is the
statement that the innermost call is never reached. -/

/-- **An expression is compiled behind a member at most once, and its compilation ends.** In each
context that the leading member `Enters`, the member goes on from the end of its hops, to an
attribute or to the `count` of the rows behind one hop. Each other member denotes what it denoted,
and the expression has nothing `leading` there. These are the contexts in which it is compiled
again, and with twice as many steps as the filter is large nothing is left to the `bottom`. -/
theorem Schema.compile_reentrant (s : Schema) (f : Filter) (c : Context) (a : Address) :
    (∀ nav, f.leading s c a = .ok (some nav) →
      (∀ inner, nav.Enters c inner →
        (∃ target, inner.anchor nav.address nav.path = (inner.level, nav.offset) ∧
          s.denote inner nav.address nav.path = .ok (inner.level, target) ∧
          ((∃ leaf, target = .attribute leaf) ∨ ∃ h, target = .count [h])) ∧
        (∀ a' ≠ nav.address, ∀ path, s.denote inner a' path = s.denote c a' path) ∧
        f.leading s inner a = .ok none) ∧
      ∀ again : Context → Numbered Compiled,
        (∀ inner, nav.Enters c inner → again inner = f.compile s inner a) →
          f.compile s c a = c.within (some nav) again) ∧
    f.compile s c a = f.step s s.compiling c a ∧
    ∀ bottom k, 2 * sizeOf f ≤ k → Filter.steps s bottom k c a f = f.compile s c a := by
  refine ⟨?_, Filter.compile_step, fun _ _ => Filter.steps_enough⟩
  intro nav hnav
  constructor
  · intro inner hinner
    refine ⟨hinner.denote (Filter.leading_denote hnav), ?_, Filter.leading_opened hnav hinner⟩
    intro a' ha' path
    exact s.denote_away (hinner.agreesAway (.refl nav.address c)) ha'
  · intro again hagain
    rw [Filter.compile_again hnav]
    apply Context.within_congr
    intro inner hinner
    exact (hagain inner hinner).symm

theorem Schema.reentrant_roleLike : ∃ type nav inner, sample.entityType? "User" = some type ∧
    (Filter.roleLike "x").leading sample (.ofEntity type) [] = .ok (some nav) ∧
    nav.Enters (.ofEntity type) inner ∧
    inner.anchor nav.address nav.path = (inner.level, nav.offset) ∧
    (Filter.roleLike "x").leading sample inner [] = .ok none ∧
    (Filter.roleLike "x").compile sample (.ofEntity type) [] =
      (Context.ofEntity type).within (some nav) fun inner =>
        (Filter.roleLike "x").compile sample inner [] := by
  obtain ⟨type, htype⟩ : ∃ type, sample.entityType? "User" = some type := ⟨_, rfl⟩
  obtain ⟨nav, hnav, hop, hhops⟩ : ∃ nav,
      (Filter.roleLike "x").leading sample (.ofEntity type) [] = .ok (some nav) ∧
        ∃ hop, nav.hops = [hop] := by
    obtain rfl := Option.some.inj htype
    exact ⟨_, rfl, _, rfl⟩
  have hinner : nav.Enters (.ofEntity type)
      (.inside ⟨hop.target, 1, .navigation (some nav.pin)⟩ (.ofEntity type)) := by
    rw [Navigating.Enters, hhops]
    exact .last _ hop 1
  obtain ⟨hbehind, hagain⟩ :=
    (compile_reentrant sample (.roleLike "x") (.ofEntity type) []).1 nav hnav
  obtain ⟨⟨target, hanchor, -⟩, -, hnone⟩ := hbehind _ hinner
  exact ⟨type, nav, _, htype, hnav, hinner, hanchor, hnone, hagain _ fun _ _ => rfl⟩

end FilterSql
