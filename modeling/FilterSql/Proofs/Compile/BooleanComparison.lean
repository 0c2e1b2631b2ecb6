import FilterSql.Proofs.Compile.Relocation
import FilterSql.Proofs.Schema.Names

/-!
# Conditions compared with booleans

A filter that is a condition by its form may be compared with `true` or `false`. A comparison that
keeps the condition compiles to the same expression, and one that denies it to the negation
(`Schema.compile_compared`). The point is where `NOT` stands: in front of the expression, unless
the arguments of a call navigate. Then it stands behind their hops, and the query asks for a row
that does not match instead of the lack of one that does.
-/

namespace FilterSql

open Sql (Expr)

/-! ## Comparisons

`compared` lists the four comparisons that keep a condition `f`, or the four that negate it: by
`eq` or `ne`, with the boolean on either side. `keptOr` is what becomes of the condition. -/

namespace Filter

/-- The literal `true` or `false`. -/
def boolean (b : Bool) : Filter :=
  .literal ⟨if b then "true" else "false", .boolean⟩

/-- Whether the filter is a condition by its form: a call that matches texts, a comparison, a
connective, or a quantifier. -/
def isCondition : Filter → Bool
  | .call f _ => f.family.isMatching
  | .binary _ (.compare _) _ | .binary _ .and _ | .binary _ .or _ => true
  | .unary .not _ => true
  | .member path => Path.isQuantifier path
  | _ => false

/-- The four comparisons of `f` with a boolean that keep it as a condition, or the four that deny
it. -/
def compared (f : Filter) (kept : Bool) : List Filter :=
  [.binary f (.compare .eq) (boolean kept), .binary f (.compare .ne) (boolean !kept),
   .binary (boolean kept) (.compare .eq) f, .binary (boolean !kept) (.compare .ne) f]

/-- The operands of such a comparison, with `i` as the place of `f` among them. -/
inductive Compares (f : Filter) (kept : Bool) : Nat → Filter → Comparison → Filter → Prop where
  | left {op : Comparison} {b : Bool} (hkept : op = .eq ∧ kept = b ∨ op = .ne ∧ kept = !b) :
      Compares f kept 0 f op (boolean b)
  | right {op : Comparison} {b : Bool} (hkept : op = .eq ∧ kept = b ∨ op = .ne ∧ kept = !b) :
      Compares f kept 1 (boolean b) op f

theorem compares_of_mem {f g : Filter} {kept : Bool} (h : g ∈ f.compared kept) :
    ∃ i l op r, g = .binary l (.compare op) r ∧ f.Compares kept i l op r := by
  simp only [compared, List.mem_cons, List.not_mem_nil, or_false] at h
  rcases h with rfl | rfl | rfl | rfl
  · exact ⟨0, _, _, _, rfl, .left (.inl ⟨rfl, rfl⟩)⟩
  · exact ⟨0, _, _, _, rfl, .left (.inr ⟨rfl, by simp⟩)⟩
  · exact ⟨1, _, _, _, rfl, .right (.inl ⟨rfl, rfl⟩)⟩
  · exact ⟨1, _, _, _, rfl, .right (.inr ⟨rfl, by simp⟩)⟩

end Filter

/-- The condition itself or its negation. -/
def keptOr (kept : Bool) (e : Expr) : Expr :=
  if kept then e else .not e

section

variable {s : Schema} {c : Context} {a : Address} {f l r : Filter} {op : Comparison} {kept : Bool}
    {i : Nat}

/-- The comparison looks for members where the condition does. -/
theorem Filter.Compares.navigating {ns : List Navigating} (h : f.Compares kept i l op r)
    (hns : f.navigating s c (i :: a) = .ok ns) : navigatingAll s c a 0 [l, r] = .ok ns := by
  have hnone (i : Nat) (b : Bool) : (boolean b).navigating s c (i :: a) = .ok [] := rfl
  cases h with
  | left => exact navigatingAll_pair_ok.mpr ⟨ns, [], hns, hnone 1 _, List.append_nil ns⟩
  | right => exact navigatingAll_pair_ok.mpr ⟨[], ns, hnone 0 _, hns, List.nil_append ns⟩

/-- Composing a condition with a boolean keeps or negates it. -/
theorem Filter.Compares.composed {x : Compiled} {e : Expr} {n m : Nat}
    (h : f.Compares kept i l op r) (hx : (f.compile s c (i :: a)).run n = .ok (x, m))
    (hcondition : x.isCondition = true) (he : x.predicate? = some e) :
    (composed s a l (.compare op) r c).run n = .ok (.predicate (keptOr kept e), m) := by
  have hboolean (b : Bool) :
    (Compiled.literal ⟨if b then "true" else "false", .boolean⟩).boolean? = some b := by
    cases b <;> rfl
  cases h with
  | @left op b hkept =>
      refine composed_ok.mpr ⟨x, m, _, hx, rfl, ?_⟩
      show s.compare op x _ = _
      rw [s.compare_left hcondition (hboolean b)]
      exact Compiled.compareCondition_ok.mpr ⟨e, kept, he, hkept, rfl⟩
  | @right op b hkept =>
      refine composed_ok.mpr ⟨_, n, x, rfl, hx, ?_⟩
      show s.compare op _ x = _
      rw [s.compare_right (hboolean b) hcondition]
      exact Compiled.compareCondition_ok.mpr ⟨e, kept, he, hkept, rfl⟩

/-! ## Conditions by form

Whether a filter is a condition can be seen in its form, as long as it compiles at all
(`Filter.isCondition_compiled`). A member is one if it ends in a quantifier or a test for
elements. -/

theorem called_isCondition {g : BuiltIn} {args : List Filter} {x : Compiled} {n m : Nat}
    (hg : g.family.isMatching = true) (h : (Filter.called s a g args c).run n = .ok (x, m)) :
    x.isCondition = true := by
  obtain ⟨ys, -, hx⟩ := Filter.called_ok.mp h
  have hcalls := s.callBuiltIn_ok hx
  generalize g.family = family at hg hcalls
  cases hcalls with
  | matching => rfl
  | _ => simp [BuiltIn.Family.isMatching] at hg

/-- At the root, a path that ends in a quantifier denotes a question about rows. -/
theorem denote_quantifier {type : EntityType} {path : Path} {anchor : Level} {target : Target}
    (hpath : path.isQuantifier = true)
    (h : s.denote (.ofEntity type) a path = .ok (anchor, target)) :
    ∃ hops, target = .nonempty hops ∨ ∃ name, target = .any hops name ∨
      target = .all hops name := by
  obtain ⟨start, names, tail, hanchor, hsplit, hdenotes⟩ := Schema.denote_ok.mp h
  -- No more than a name has led to the start, so the quantifier is behind it.
  have hlast : (path.drop start).getLast? = path.getLast? := by
    rw [Context.anchor_of_not_pinned rfl] at hanchor
    rcases path with _ | ⟨first | _ | _ | _ | _ | _, rest⟩
    case cons.property =>
      have hrest : rest ≠ [] := by
        rintro rfl
        simp [Path.isQuantifier] at hpath
      by_cases hroot : first = rootName
      · obtain rfl : 1 = start := by simpa [hroot] using congrArg Prod.snd hanchor
        simp [List.getLast?_cons, List.getLast?_eq_some_getLast hrest]
      · obtain rfl : 0 = start := by
          simpa [hroot, Context.element?, Context.ofEntity, Context.levels]
            using congrArg Prod.snd hanchor
        rfl
    all_goals
      obtain rfl : 0 = start := congrArg Prod.snd hanchor
      rfl
  have hquantifier : Path.isQuantifier (names.map Segment.property ++ tail) = true := by
    rwa [Path.isQuantifier, ← hsplit, hlast]
  have htail : tail ≠ [] := by
    rintro rfl
    rw [List.append_nil, Path.isQuantifier, List.getLast?_map] at hquantifier
    cases hname : names.getLast? <;> simp [hname] at hquantifier
  cases hdenotes with
  | element | leaf | navigation => exact absurd rfl htail
  | count | countBehind | function => simp [Path.isQuantifier] at hquantifier
  | nonempty => exact ⟨_, .inl rfl⟩
  | any => exact ⟨_, .inr ⟨_, .inl rfl⟩⟩
  | all => exact ⟨_, .inr ⟨_, .inr rfl⟩⟩

/-- A condition by its form is compiled to a condition. Only in the arguments of a call are members
searched for that navigate. -/
theorem Filter.isCondition_compiled {type : EntityType} {x : Compiled} {n m : Nat}
    (hf : f.isCondition = true) (hx : (f.compile s (.ofEntity type) []).run n = .ok (x, m)) :
    x.isCondition = true ∧ ∃ ns, f.navigating s (.ofEntity type) [] = .ok ns ∧
      (ns = [] ∨ ∃ g args, f = .call g args ∧ g.family.isMatching = true) := by
  cases f with
  | call g args =>
      obtain ⟨ns, n?, hns, -, hx⟩ := compile_call_ok.mp hx
      exact ⟨within_isCondition (called_isCondition hf) hx, ns, hns, .inr ⟨g, args, rfl, hf⟩⟩
  | binary l op r =>
      obtain ⟨-, n?, hn, hx⟩ := compile_binary_ok.mp hx
      cases op with
      | compare op =>
          refine ⟨?_, [], rfl, .inl rfl⟩
          apply within_isCondition _ hx
          intro y n m hx
          obtain ⟨y, k, z, -, -, hx⟩ := composed_ok.mp hx
          exact s.compare_isCondition hx
      | and | or =>
          rcases binaryNavigating_ok.mp hn with ⟨hop, -⟩ | ⟨-, rfl⟩
          · simp [BinaryOperator.isComparison] at hop
          · obtain ⟨y, k, z, -, -, hx⟩ := composed_ok.mp hx
            obtain ⟨l, r, -, -, rfl⟩ := Compiled.combine_ok.mp hx
            exact ⟨rfl, [], rfl, .inl rfl⟩
      | arith | has => simp [isCondition] at hf
  | unary op operand =>
      cases op with
      | not =>
          obtain ⟨y, -, hx⟩ := compile_unary_ok.mp hx
          obtain ⟨e, -, rfl⟩ := Compiled.negateCondition_ok.mp hx
          exact ⟨rfl, [], rfl, .inl rfl⟩
      | minus => simp [isCondition] at hf
  | member path =>
      obtain ⟨anchor, target, hfound, hx⟩ := compile_member_ok.mp hx
      -- A quantifier asks a question itself, so it does not navigate, and its body is not searched.
      have hnavigating (hnavigation : ∀ hops offset, target ≠ .navigation hops offset)
          (hfunction : ∀ name, target ≠ .function name) :
          (Filter.member path).navigating s (.ofEntity type) [] = .ok [] := by
        apply navigating_ok.mpr
        right
        exact ⟨[], .member hfound hnavigation hfunction, rfl⟩
      obtain ⟨hops, rfl | ⟨name, rfl | rfl⟩⟩ := denote_quantifier hf hfound
      · obtain ⟨e, -, rfl⟩ := Path.compileAs_nonempty_ok.mp hx
        exact ⟨rfl, [], hnavigating (by simp) (by simp), .inl rfl⟩
      · obtain ⟨e, -, rfl⟩ := Path.compileAs_any_ok.mp hx
        exact ⟨rfl, [], hnavigating (by simp) (by simp), .inl rfl⟩
      · obtain ⟨e, k, e', -, -, rfl⟩ := Path.compileAs_all_ok.mp hx
        exact ⟨rfl, [], hnavigating (by simp) (by simp), .inl rfl⟩
  | literal | enumMember | typeName | parameterAlias => simp [isCondition] at hf

end

/-! ## Behind hops

`Sql.Expr.behind` changes the condition inside the innermost of nested queries. A comparison that
looks through a call is made there, which is not the same as to negate the outermost query
(`Sql.Expr.behind_ne_not`). -/

/-- Applies `change` to the part of an expression behind `k` hops: the last condition of their
innermost query. -/
def Sql.Expr.behind (change : Expr → Expr) : Nat → Expr → Expr
  | 0, e => change e
  | k + 1, .hasRows (.mk columns source joins (some (.binary on .and e))) =>
      .hasRows (.mk columns source joins (some (.binary on .and (behind change k e))))
  | _ + 1, e => e

theorem Sql.Expr.behind_id (k : Nat) (e : Expr) : e.behind id k = e := by
  fun_induction behind id k e with
  | case1 e => rfl
  | case2 k columns source joins on e ih => rw [ih]
  | case3 => rfl

theorem Sql.Expr.behind_ne_not {change : Expr → Expr} {k : Nat} {e : Expr} (hk : 0 < k) :
    e.behind change k ≠ .not e := by
  fun_cases behind change k e with
  | case1 => simp at hk
  | case2 => simp
  | case3 =>
      intro heq
      have hsize := congrArg sizeOf heq
      simp at hsize

section

variable {c : Context} {a b : Address} {change : Expr → Expr} {n m : Nat} {e : Expr}

/-- Changing the query of a hop behind it changes what the query is narrowed by. -/
theorem Hop.behind_selection (h : Hop) (own : String) (joins : List Sql.Join) (on x : Expr)
    (k : Nat) :
    (Expr.hasRows (h.selection [.constant (.int 1)] own joins on (some x))).behind change (k + 1) =
      .hasRows (h.selection [.constant (.int 1)] own joins on (some (x.behind change k))) := rfl

/-- If asking behind the last hop is changed, so is asking behind all hops. -/
theorem Hop.ask_behind {question question' : Hop.Question} {front : List Hop} {last : Hop}
    {source : String} {a₀ : Address} {c₀ : Context} (hagrees : c₀.AgreesAway a₀ c)
    (hlast : ∀ {c source n m e}, c₀.AgreesAway a₀ c → (question c source last).run n = .ok (e, m) →
      (question' (c.relocate b) source last).run n = .ok (e.behind change 1, m))
    (h : (ask question c source (front ++ [last])).run n = .ok (e, m)) :
    (ask question' (c.relocate b) source (front ++ [last])).run n =
      .ok (e.behind change (front.length + 1), m) := by
  induction front generalizing c source n m e with
  | nil => exact hlast hagrees h
  | cons first front ih =>
      obtain ⟨next, rest, hnext⟩ : ∃ next rest, front ++ [last] = next :: rest :=
        List.exists_cons_of_ne_nil (by simp)
      rw [List.cons_append, hnext] at h ⊢
      obtain ⟨joins, on, k, x, hselects, hx, rfl⟩ := ask_step_ok.mp h
      rw [List.length_cons, behind_selection]
      rw [← hnext] at hx
      have hx' := ih (hagrees.inside (.inl rfl)) hx
      rw [hnext] at hx'
      exact ask_step_ok.mpr ⟨joins, on, k, _, hselects, hx', rfl⟩

end

/-! ## Whole filters

The comparison and the filter by itself stand at different addresses. Nothing depends on these as
long as no level is opened, so the operand is compiled as it is alone (`Filter.compile_operand`). -/

section

variable {s : Schema} {type : EntityType} {f l r : Filter} {op : Comparison} {kept : Bool} {i : Nat}
    {x : Compiled} {e : Expr} {n m : Nat}

/-- An operand of a comparison is compiled as it is by itself, since only addresses differ. -/
theorem Filter.compile_operand (h : (f.compile s (.ofEntity type) []).run n = .ok (x, m)) :
    (f.compile s (.ofEntity type) [i]).run n = .ok (x, m) :=
  f.compile_relocate (.ofEntity type) [] h

/-- A call that is compiled behind the hops of its argument is compared there as well. -/
theorem Filter.Compares.behind {g : BuiltIn} {args : List Filter} {nav : Navigating}
    (h : (Filter.call g args).Compares kept i l op r) (hg : g.family.isMatching = true)
    (hns : (Filter.call g args).navigating s (.ofEntity type) [] = .ok [nav])
    (he : (Hop.ask (nav.question (Filter.called s [] g args))
      (.ofEntity type) nav.anchor.label nav.hops).run n =
      .ok (e, m)) :
    (Hop.ask ((nav.relocate [i]).question (Filter.composed s [] l (.compare op) r)) (.ofEntity type)
      nav.anchor.label nav.hops).run n = .ok (e.behind (keptOr kept) nav.hops.length, m) := by
  obtain ⟨front, last, hhops, hbehind⟩ :=
    s.denote_once (Filter.navigating_mem hns (List.mem_singleton_self nav))
  have hlast {c : Context} {source : String} {n m : Nat} {e : Expr}
      (hagrees : (Context.ofEntity type).AgreesAway nav.address c)
      (he : (nav.question (Filter.called s [] g args) c source last).run n = .ok (e, m)) :
      ((nav.relocate [i]).question (Filter.composed s [] l (.compare op) r)
        (c.relocate [i]) source last).run n =
        .ok (e.behind (keptOr kept) 1, m) := by
    obtain ⟨joins, on, k, y, narrowed, hselects, hy, hnarrowed, rfl⟩ := Navigating.question_ok.mp he
    -- On the level of the rows the call has no argument left that navigates, so it is called there.
    obtain ⟨target, hfound, hnavigation, hfunction⟩ := hbehind
      (.inside ⟨last.target, n, .navigation (some nav.pin)⟩ c) _ (Context.pinned?_inside rfl) rfl
    have hnone :=
      Filter.navigating_behind (hagrees.inside (.inr ⟨nav.offset, rfl⟩)) hfound hnavigation
        hfunction hns
    have hcall := Filter.compile_call_ok.mpr ⟨[], none, hnone, rfl, hy⟩
    have hmoved := Filter.compile_relocate (b := [i]) _ _ _ hcall
    have hcompared := h.composed hmoved (called_isCondition hg hy) hnarrowed
    exact Navigating.question_ok.mpr ⟨joins, on, k, _, _, hselects, hcompared, rfl, rfl⟩
  rw [hhops] at he ⊢
  rw [List.length_append]
  exact Hop.ask_behind (.refl _ _) hlast he

/-- **A condition compared with a boolean is compiled to the condition, or to its negation behind
the hops of its arguments.** -/
theorem Filter.Compares.compiled (h : f.Compares kept i l op r) (hf : f.isCondition = true)
    (hx : (f.compile s (.ofEntity type) []).run n = .ok (x, m)) (he : x.predicate? = some e) :
    ∃ ns y, f.navigating s (.ofEntity type) [] = .ok ns ∧
      ((Filter.binary l (.compare op) r).compile s (.ofEntity type) []).run n = .ok (y, m) ∧
      y.predicate? = some (e.behind (keptOr kept) (ns.flatMap (·.hops)).length) := by
  obtain ⟨hcondition, ns, hns, hsearched⟩ := isCondition_compiled hf hx
  have hoperands := h.navigating (navigating_relocate (b := [i]) hns)
  have hcompile {n?} {y : Compiled} (hn : Navigating.only? ns = .ok n?)
      (hy : ((Context.ofEntity type).within (n?.map (·.relocate [i]))
        (Filter.composed s [] l (.compare op) r)).run n = .ok (y, m)) :
      ((Filter.binary l (.compare op) r).compile s (.ofEntity type) []).run n = .ok (y, m) :=
    compile_binary_ok.mpr ⟨by simp, _, binaryNavigating_ok.mpr (.inl ⟨rfl, _, hoperands,
      Navigating.only?_map _ hn⟩), hy⟩
  -- Either nothing navigates, or one argument of a call does; with more of them the call does not
  -- compile.
  rcases ns with _ | ⟨nav, _ | ⟨_, _⟩⟩
  · have hkept := h.composed (compile_operand hx) hcondition he
    exact ⟨[], _, hns, hcompile rfl hkept, rfl⟩
  · obtain h | ⟨g, args, rfl, hg⟩ := hsearched
    · cases h
    · obtain ⟨ns, n?, hns', hn, hx⟩ := compile_call_ok.mp hx
      obtain rfl : [nav] = ns := Except.ok.inj (hns.symm.trans hns')
      obtain rfl := Except.ok.inj hn
      obtain ⟨e', rfl, hask⟩ := within_some_ok.mp hx
      obtain rfl := Option.some.inj he
      have hasked := h.behind hg hns hask
      refine ⟨[nav], .subquery _, hns, hcompile rfl (within_some_ok.mpr ⟨_, rfl, hasked⟩), ?_⟩
      rw [List.flatMap_singleton, Compiled.predicate?]
  · obtain h | ⟨g, args, rfl, hg⟩ := hsearched
    · cases h
    · obtain ⟨ns, n?, hns', hn, -⟩ := compile_call_ok.mp hx
      obtain rfl := Except.ok.inj (hns.symm.trans hns')
      cases hn

/-- Where members navigate, there is at least one hop. -/
theorem Filter.hops_pos_of_navigating {ns : List Navigating}
    (h : f.navigating s (.ofEntity type) [] = .ok ns) (hne : ns ≠ []) :
    0 < (ns.flatMap (·.hops)).length := by
  obtain ⟨nav, rest, rfl⟩ := List.exists_cons_of_ne_nil hne
  obtain ⟨front, last, hhops, -⟩ := s.denote_once (Filter.navigating_mem h List.mem_cons_self)
  rw [List.flatMap_cons, hhops, List.length_append, List.length_append, List.length_singleton]
  omega

end

namespace Schema

variable {s : Schema} {entity : String} {f : Filter} {e : Expr}

/-- **Comparing a condition with a boolean.** Let `f` be a condition that compiles to `e`. A
comparison that keeps it (`f.compared true`) compiles to `e`, and one that negates it (`f.compared
false`) to `e` with `NOT` behind the hops that the arguments of `f` navigate. This is `.not e`,
which `not` compiles to, exactly if none of them navigates. -/
theorem compile_compared (hf : f.isCondition = true) (h : s.compile entity f = .ok e) :
    s.compile entity (.unary .not f) = .ok (.not e) ∧
      (∀ g ∈ f.compared true, s.compile entity g = .ok e) ∧
      ∃ type ns, s.entityType? entity = some type ∧ f.navigating s (.ofEntity type) [] = .ok ns ∧
        ∀ g ∈ f.compared false,
          s.compile entity g = .ok (e.behind .not (ns.flatMap (·.hops)).length) ∧
          (s.compile entity g = .ok (.not e) ↔ ns = []) := by
  obtain ⟨type, htype, hcompile⟩ := compile_ok.mp h
  obtain ⟨x, m, hx, he⟩ := compileOn_ok.mp hcompile
  have hcompared {kept : Bool} {g : Filter} (hg : g ∈ f.compared kept) : ∃ ns,
      f.navigating s (.ofEntity type) [] = .ok ns ∧
        s.compile entity g = .ok (e.behind (keptOr kept) (ns.flatMap (·.hops)).length) := by
    obtain ⟨i, l, op, r, rfl, hcompares⟩ := Filter.compares_of_mem hg
    obtain ⟨ns, y, hns, hy, hkept⟩ := hcompares.compiled hf hx he
    have hon := compileOn_ok.mpr ⟨y, m, hy, hkept⟩
    exact ⟨ns, hns, compile_ok.mpr ⟨type, htype, hon⟩⟩
  obtain ⟨-, ns, hns, -⟩ := Filter.isCondition_compiled hf hx
  refine ⟨?_, ?_, type, ns, htype, hns, ?_⟩
  · have hnot : Compiled.composeUnary .not x = .ok (.predicate (.not e)) :=
      Compiled.negateCondition_ok.mpr ⟨e, he, rfl⟩
    have hunary := Filter.compile_unary_ok.mpr ⟨x, Filter.compile_operand hx, hnot⟩
    exact compile_ok.mpr ⟨type, htype, compileOn_ok.mpr ⟨_, m, hunary, rfl⟩⟩
  · intro g hg
    obtain ⟨ns, -, hkept⟩ := hcompared hg
    rwa [show keptOr true = id from rfl, Expr.behind_id] at hkept
  · intro g hg
    obtain ⟨ns', hns', hdenied⟩ := hcompared hg
    obtain rfl : ns = ns' := Except.ok.inj (hns.symm.trans hns')
    refine ⟨hdenied, ?_, ?_⟩
    · intro heq
      by_contra hne
      have hfront : e.behind .not (ns.flatMap (·.hops)).length = .not e :=
        Except.ok.inj (hdenied.symm.trans heq)
      exact Expr.behind_ne_not (Filter.hops_pos_of_navigating hns hne) hfront
    · rintro rfl
      exact hdenied

theorem compared_roleLike : ∃ e, (Filter.roleLike "x").isCondition = true ∧
    sample.compile "User" (.roleLike "x") = .ok e ∧
    sample.compile "User" (.unary .not (.roleLike "x")) = .ok (.not e) ∧
      ∀ g ∈ (Filter.roleLike "x").compared false,
        sample.compile "User" g = .ok (e.behind .not 1) ∧
        sample.compile "User" g ≠ .ok (.not e) := by
  refine ⟨_, rfl, rfl, ?_⟩
  obtain ⟨hnot, -, type, ns, htype, hns, hdenied⟩ :=
    compile_compared rfl (show sample.compile "User" (.roleLike "x") = .ok _ from rfl)
  obtain rfl := Option.some.inj htype
  obtain rfl := Except.ok.inj hns
  refine ⟨hnot, ?_⟩
  intro g hg
  obtain ⟨hbehind, hfront⟩ := hdenied g hg
  refine ⟨hbehind, ?_⟩
  intro heq
  cases hfront.mp heq

end Schema

end FilterSql
