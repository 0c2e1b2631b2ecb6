import FilterSql.Proofs.Compile.Places
import FilterSql.Proofs.Compile.Repeating

/-!
# Filters that correspond

Two filters correspond if they have one nameless form and stand at one address in two whole
filters. They are compiled in contexts with levels of the same rows (`Context.Renamed`), in which
variables have other names, and a member may go on from another offset because its prefix is longer
or shorter. In such contexts corresponding members denote the same (`Schema.denote_renamed`).
-/

namespace FilterSql

/-! ## Filters at addresses

An `Address` leads from the inside to the outside, so `partAt?` follows it from its end. -/

namespace Filter

/-- The filters that are compiled below the address of a filter, in the order of their places. -/
def operands : Filter → List Filter
  | binary l _ r => [l, r]
  | unary _ operand => [operand]
  | member path =>
      match Path.body? path with
      | some body => [body]
      | none => (Path.arguments path).map Argument.value
  | call _ args => args
  | literal _ | enumMember .. | typeName _ | parameterAlias _ => []

/-- Whether a filter has no `operands`, and no name of a variable in it. -/
def isLeaf : Filter → Bool
  | literal _ | enumMember .. | typeName _ | parameterAlias _ => true
  | binary .. | unary .. | member _ | call .. => false

/-- The filter at the address `a` in `f`. -/
def partAt? (f : Filter) : Address → Option Filter
  | [] => some f
  | i :: a => do (← f.partAt? a).operands[i]?

/-- Two filters with one nameless form, at one address in the whole filters `F` and `G`. -/
structure Corresponds (F G : Filter) (bound bound' : List String) (a : Address)
    (f g : Filter) : Prop where
  left : F.partAt? a = some f
  right : G.partAt? a = some g
  nameless : f.nameless bound = g.nameless bound'

/-- Operands that correspond one by one, from place `i` on below one address. -/
inductive CorrespondAll (F G : Filter) (bound bound' : List String) (a : Address) :
    Nat → List Filter → List Filter → Prop where
  | nil (i : Nat) : CorrespondAll F G bound bound' a i [] []
  | cons {i : Nat} {f g : Filter} {fs gs : List Filter}
      (h : Corresponds F G bound bound' (i :: a) f g)
      (hrest : CorrespondAll F G bound bound' a (i + 1) fs gs) :
      CorrespondAll F G bound bound' a i (f :: fs) (g :: gs)

variable {F G : Filter} {bound bound' : List String} {a : Address}

theorem correspondAll_of_places {i : Nat} {fs gs : List Filter}
    (hleft : ∀ j f, fs[j]? = some f → F.partAt? ((i + j) :: a) = some f)
    (hright : ∀ j g, gs[j]? = some g → G.partAt? ((i + j) :: a) = some g)
    (hsame : fs.map (Filter.nameless bound) = gs.map (Filter.nameless bound')) :
    CorrespondAll F G bound bound' a i fs gs := by
  induction fs generalizing i gs with
  | nil =>
      obtain rfl := List.map_eq_nil_iff.mp hsame.symm
      exact .nil i
  | cons f fs ih =>
      obtain ⟨g, gs, rfl⟩ : ∃ g rest, gs = g :: rest := by
        cases gs with
        | nil => cases hsame
        | cons g rest => exact ⟨g, rest, rfl⟩
      obtain ⟨hfirst, hrest⟩ := List.cons.inj hsame
      refine .cons ⟨hleft 0 f rfl, hright 0 g rfl, hfirst⟩ (ih ?_ ?_ hrest)
      · intro j f' hj
        have hplace := hleft (j + 1) f' hj
        rwa [show i + (j + 1) = i + 1 + j by omega] at hplace
      · intro j g' hj
        have hplace := hright (j + 1) g' hj
        rwa [show i + (j + 1) = i + 1 + j by omega] at hplace

theorem partAt?_operand {f g : Filter} {i : Nat} (h : F.partAt? a = some f)
    (hg : f.operands[i]? = some g) :
    F.partAt? (i :: a) = some g := by
  rw [partAt?, h]
  exact hg

/-- The operands of two filters at one address correspond if they have the same `nameless` forms. -/
theorem correspondAll_operands {f g : Filter} (hleft : F.partAt? a = some f)
    (hright : G.partAt? a = some g)
    (hsame : f.operands.map (Filter.nameless bound) = g.operands.map (Filter.nameless bound')) :
    CorrespondAll F G bound bound' a 0 f.operands g.operands := by
  apply correspondAll_of_places _ _ hsame
  · intro j f' hj
    rw [Nat.zero_add]
    exact partAt?_operand hleft hj
  · intro j g' hj
    rw [Nat.zero_add]
    exact partAt?_operand hright hj

/-! Filters that correspond are of one kind, and so are their operands. -/

namespace Corresponds

variable {g : Filter}

theorem of_binary {l r : Filter} {op : BinaryOperator}
    (h : F.Corresponds G bound bound' a (.binary l op r) g) :
    ∃ l' r', g = .binary l' op r' ∧ F.Corresponds G bound bound' (0 :: a) l l' ∧
      F.Corresponds G bound bound' (1 :: a) r r' := by
  obtain ⟨hleft, hright, hsame⟩ := h
  cases g <;> simp only [Filter.nameless, rewrite, reduceCtorEq, binary.injEq] at hsame
  obtain ⟨hl, rfl, hr⟩ := hsame
  exact ⟨_, _, rfl, ⟨partAt?_operand hleft rfl, partAt?_operand hright rfl, hl⟩,
    partAt?_operand hleft rfl, partAt?_operand hright rfl, hr⟩

theorem of_unary {operand : Filter} {op : UnaryOperator}
    (h : F.Corresponds G bound bound' a (.unary op operand) g) :
    ∃ operand', g = .unary op operand' ∧
      F.Corresponds G bound bound' (0 :: a) operand operand' := by
  obtain ⟨hleft, hright, hsame⟩ := h
  cases g <;> simp only [Filter.nameless, rewrite, reduceCtorEq, unary.injEq] at hsame
  obtain ⟨rfl, hoperand⟩ := hsame
  exact ⟨_, rfl, partAt?_operand hleft rfl, partAt?_operand hright rfl, hoperand⟩

theorem of_call {f : BuiltIn} {args : List Filter}
    (h : F.Corresponds G bound bound' a (.call f args) g) :
    ∃ args', g = .call f args' ∧ F.CorrespondAll G bound bound' a 0 args args' := by
  obtain ⟨hleft, hright, hsame⟩ := h
  cases g <;> simp only [Filter.nameless, rewrite, reduceCtorEq, call.injEq, rewriteAll_eq] at hsame
  obtain ⟨rfl, hargs⟩ := hsame
  exact ⟨_, rfl, correspondAll_operands hleft hright hargs⟩

theorem of_member {path : Path} (h : F.Corresponds G bound bound' a (.member path) g) :
    ∃ path', g = .member path' := by
  have hsame := h.nameless
  cases g <;> simp only [Filter.nameless, rewrite, reduceCtorEq] at hsame
  exact ⟨_, rfl⟩

theorem eq_of_leaf {f : Filter} (h : F.Corresponds G bound bound' a f g) (hleaf : f.isLeaf = true) :
    g = f := by
  have hsame := h.nameless
  cases f <;> simp only [isLeaf, Bool.false_eq_true] at hleaf <;> cases g <;>
    simp_all only [Filter.nameless, rewrite, reduceCtorEq]

/-- The body of a quantifier is compiled below its variable, which joins those in `bound`. -/
theorem body {path path' : Path} {name name' : String} {body body' : Filter}
    (h : F.Corresponds G bound bound' a (.member path) (.member path'))
    (hbody : path.body? = some body) (hbody' : path'.body? = some body')
    (hsame : body.nameless (name :: bound) = body'.nameless (name' :: bound')) :
    F.Corresponds G (name :: bound) (name' :: bound') (0 :: a) body body' :=
  ⟨partAt?_operand h.left (by simp [operands, hbody]),
    partAt?_operand h.right (by simp [operands, hbody']), hsame⟩

/-- Functions that correspond have arguments for the same parameters, which correspond as well. -/
theorem arguments {path path' : Path} {name : String} {args args' : List Argument}
    (h : F.Corresponds G bound bound' a (.member path) (.member path'))
    (hpath : path = [.function name args]) (hpath' : path' = [.function name args'])
    (hsame : rewriteArguments Path.placed (fun _ => "") bound args =
      rewriteArguments Path.placed (fun _ => "") bound' args') :
    path.arguments.map Argument.name = path'.arguments.map Argument.name ∧
      F.CorrespondAll G bound bound' a 0 (path.arguments.map Argument.value)
        (path'.arguments.map Argument.value) := by
  subst hpath hpath'
  have hnames := congrArg (List.map Argument.name) hsame
  have hvalues := congrArg (List.map Argument.value) hsame
  rw [rewriteArguments_eq, rewriteArguments_eq, List.map_map, List.map_map] at hnames hvalues
  refine ⟨hnames, correspondAll_operands h.left h.right ?_⟩
  have hoperands (args : List Argument) : (member [.function name args]).operands =
    args.map Argument.value := rfl
  rw [hoperands, hoperands, List.map_map, List.map_map]
  exact hvalues

end Corresponds

end Filter

/-! ## Contexts

The compiler descends into both filters at once, so the contexts have levels in pairs. They agree
in the rows and in the labels; the variables that they bind may have different names. -/

/-- Two levels with the same rows and label, whose `binding` may be different. -/
structure Level.Alike (l l' : Level) : Prop where
  scope : l'.scope = l.scope
  number : l'.number = l.number

theorem Level.Alike.label {l l' : Level} (h : l.Alike l') : l'.label = l.label := by
  rw [Level.label, Level.label, h.number]

/-- Behind these offsets, the members at `a` in both filters go on with the same names. -/
def Filter.Resume (F G : Filter) (a : Address) (offset offset' : Nat) : Prop :=
  ∀ path path', F.partAt? a = some (.member path) → G.partAt? a = some (.member path') →
    path.drop offset = path'.drop offset' ∧ Path.IsPlain (path.drop offset)

/-- Contexts of two filters, with levels that are `Alike`. Other variables may be bound in them,
and members may be pinned with other offsets. -/
inductive Context.Renamed (F G : Filter) :
    List String → List String → Context → Context → Prop where
  | root (type : EntityType) : Renamed F G [] [] (.ofEntity type) (.ofEntity type)
  | element {bound bound' : List String} {c c' : Context} (name name' : String)
      (scope : Scope) (n : Nat) (h : Renamed F G bound bound' c c') :
      Renamed F G (name :: bound) (name' :: bound')
        (.inside ⟨scope, n, .element name⟩ c) (.inside ⟨scope, n, .element name'⟩ c')
  | navigation {bound bound' : List String} {c c' : Context} (scope : Scope) (n : Nat)
      (h : Renamed F G bound bound' c c') : Renamed F G bound bound'
        (.inside ⟨scope, n, .navigation none⟩ c) (.inside ⟨scope, n, .navigation none⟩ c')
  | pinned {bound bound' : List String} {c c' : Context} {a : Address} {offset offset' : Nat}
      (scope : Scope) (n : Nat) (hpin : F.Resume G a offset offset')
      (h : Renamed F G bound bound' c c') : Renamed F G bound bound'
        (.inside ⟨scope, n, .navigation (some ⟨a, offset⟩)⟩ c)
        (.inside ⟨scope, n, .navigation (some ⟨a, offset'⟩)⟩ c')

namespace Context.Renamed

variable {F G : Filter} {bound bound' : List String} {c c' : Context}

theorem left (h : Renamed F G bound bound' c c') : c.Binds bound := by
  induction h with
  | root type => exact .root type
  | element name name' scope n h ih => exact .element name scope n ih
  | navigation scope n h ih | pinned scope n hpin h ih => exact .navigation _ scope n ih

theorem right (h : Renamed F G bound bound' c c') : c'.Binds bound' := by
  induction h with
  | root type => exact .root type
  | element name name' scope n h ih => exact .element name' scope n ih
  | navigation scope n h ih | pinned scope n hpin h ih => exact .navigation _ scope n ih

theorem place (h : Renamed F G bound bound' c c') (i : Nat) : (c.place i).Alike (c'.place i) := by
  induction h generalizing i with
  | root type => exact ⟨rfl, rfl⟩
  | element name name' scope n h ih =>
      simp only [Context.place]
      split
      · exact ⟨rfl, rfl⟩
      · exact ih (i - 1)
  | navigation scope n h ih | pinned scope n hpin h ih => exact ih i

/-- `pinned?` finds levels that are `Alike` for the same addresses. -/
theorem pinned? (h : Renamed F G bound bound' c c') (a : Address) :
    Option.Rel (fun found found' => found.1.Alike found'.1 ∧ F.Resume G a found.2 found'.2)
      (c.pinned? a) (c'.pinned? a) := by
  induction h with
  | root type => exact .none
  | element name name' scope n h ih | navigation scope n h ih => exact ih
  | @pinned bound bound' c c' b offset offset' scope n hpin h ih =>
      simp only [Context.pinned?] at ih ⊢
      by_cases hb : b = a
      · subst hb
        simp only [levels, List.findSome?_cons, if_true]
        exact .some ⟨⟨rfl, rfl⟩, hpin⟩
      · simp only [levels, List.findSome?_cons, hb, if_false]
        exact ih

theorem opens_navigation :
    Context.Opens (Renamed F G bound bound') (Renamed F G bound bound') (.navigation none)
    (.navigation none) :=
  fun _ _ scope n h => .navigation scope n h

theorem opens_element (name name' : String) : Context.Opens (Renamed F G bound bound')
    (Renamed F G (name :: bound) (name' :: bound')) (.element name) (.element name') :=
  fun _ _ scope n h => .element name name' scope n h

end Context.Renamed

/-! ## What members denote

A path is split at the segments that say where it starts. Behind them the names have to be the
same, and so does the form of what follows (`Path.GoesOn`); then both members denote the same. -/

/-- Behind `start` and `start'` both paths go on with one nameless form. A quantifier that follows
is the first one of its path, and a function has no prefix on the right if it has none on the
left. -/
structure Path.GoesOn (bound bound' : List String) (path : Path) (start : Nat) (path' : Path)
    (start' : Nat) : Prop where
  segments : namelessPath bound (path.drop start) = namelessPath bound' (path'.drop start')
  left : ∀ body, body? (path.drop start) = some body → path.body? = some body
  right : ∀ body, body? (path'.drop start') = some body → path'.body? = some body
  function : ∀ name args, path.drop start = [.function name args] → start = 0 → start' = 0

namespace Path.GoesOn

variable {bound bound' : List String} {path path' : Path} {start start' : Nat}

/-- Paths that go on with nothing but names go on with the same ones, also from a later name on. -/
theorem of_plain (h : GoesOn bound bound' path start path' start')
    (hplain : IsPlain (path.drop start)) :
    path'.drop start' = path.drop start ∧
      ∀ k, path.drop (start + k) = path'.drop (start' + k) ∧ IsPlain (path.drop (start + k)) := by
  have hsame : path'.drop start' = path.drop start := by
    rw [← namelessPath_eq_plain hplain, ← h.segments]
    exact (namelessPath_eq_plain hplain).mpr rfl
  refine ⟨hsame, ?_⟩
  intro k
  rw [← List.drop_drop, ← List.drop_drop, hsame]
  exact ⟨rfl, hplain.drop k⟩

/-- Behind the same names, both paths have one segment left, of one nameless form. -/
theorem last (h : GoesOn bound bound' path start path' start') (names : List String)
    {last : Segment} (hsplit : path.drop start = names.map Segment.property ++ [last]) :
    ∃ last', path'.drop start' = names.map Segment.property ++ [last'] ∧
      last'.rewrite placed (fun _ => "") bound' = last.rewrite placed (fun _ => "") bound := by
  have hsegments := h.segments
  rw [hsplit, namelessPath_names.mpr ⟨[last], rfl, rfl⟩] at hsegments
  obtain ⟨tail, hsplit', htail⟩ := namelessPath_names.mp hsegments.symm
  rw [namelessPath_eq, namelessPath_eq, List.map_singleton] at htail
  obtain ⟨last', rfl, hsame⟩ := List.map_eq_singleton_iff.mp htail
  exact ⟨last', hsplit', hsame⟩

end Path.GoesOn

/-- What two members denote that differ in the names of variables: the same target, up to an
`offset`, a variable and the arguments of a function. -/
inductive Target.Alike (bound bound' : List String) (path path' : Path) :
    Target → Target → Prop where
  | element : Alike bound bound' path path' .element .element
  | leaf (leaf : AttributePath) : Alike bound bound' path path' (.attribute leaf) (.attribute leaf)
  | navigation (hops : List Hop) {offset offset' : Nat}
      (hsame : path.drop offset = path'.drop offset') (hplain : Path.IsPlain (path.drop offset)) :
      Alike bound bound' path path' (.navigation hops offset) (.navigation hops offset')
  | count (hops : List Hop) : Alike bound bound' path path' (.count hops) (.count hops)
  | nonempty (hops : List Hop) : Alike bound bound' path path' (.nonempty hops) (.nonempty hops)
  | any (hops : List Hop) {name name' : String} {body body' : Filter}
      (hbody : path.body? = some body) (hbody' : path'.body? = some body')
      (hsame : body.nameless (name :: bound) = body'.nameless (name' :: bound')) :
      Alike bound bound' path path' (.any hops name) (.any hops name')
  | all (hops : List Hop) {name name' : String} {body body' : Filter}
      (hbody : path.body? = some body) (hbody' : path'.body? = some body')
      (hsame : body.nameless (name :: bound) = body'.nameless (name' :: bound')) :
      Alike bound bound' path path' (.all hops name) (.all hops name')
  | function (name : String) (args args' : List Argument) (hpath : path = [.function name args])
      (hpath' : path' = [.function name args'])
      (hsame : rewriteArguments Path.placed (fun _ => "") bound args =
        rewriteArguments Path.placed (fun _ => "") bound' args') :
      Alike bound bound' path path' (.function name) (.function name)

theorem Context.Renamed.anchor {F G : Filter} {bound bound' : List String} {c c' : Context}
    {a : Address} {path path' : Path} (hc : Renamed F G bound bound' c c')
    (h : F.Corresponds G bound bound' a (.member path) (.member path')) :
    (c.anchor a path).1.Alike (c'.anchor a path').1 ∧
      Path.GoesOn bound bound' path (c.anchor a path).2 path' (c'.anchor a path').2 := by
  have hpinned := hc.pinned? a
  generalize hfound : c.pinned? a = found, hfound' : c'.pinned? a = found' at hpinned
  cases hpinned with
  | none =>
      -- No level was opened for them, so they start at the place that their nameless form shows.
      obtain ⟨hplace, hsegments, hfirst⟩ := Path.start_alike h.nameless
      rw [hc.left.anchor hfound, hc.right.anchor hfound', hplace]
      refine ⟨hc.place _, hsegments, ?_, ?_, ?_⟩
      · rw [Path.body?_drop_start]
        exact fun body hbody => hbody
      · rw [Path.body?_drop_start]
        exact fun body hbody => hbody
      · intro name args hcall hzero
        rw [hzero, List.drop_zero] at hcall
        rw [Path.start_of_first? (hfirst (hcall ▸ rfl))]
  | some hpin =>
      -- They go on from a level that was opened for them, with names that are the same.
      obtain ⟨halike, hresume⟩ := hpin
      obtain ⟨hsame, hplain⟩ := hresume path path' h.left h.right
      rw [Context.anchor_of_pinned hfound, Context.anchor_of_pinned hfound']
      have hplain' := hsame ▸ hplain
      refine ⟨halike, ?_, ?_, ?_, ?_⟩
      · rw [(Path.namelessPath_eq_plain hplain).mpr rfl,
          (Path.namelessPath_eq_plain hplain').mpr rfl, hsame]
      · rw [Path.body?_plain hplain]
        rintro body ⟨⟩
      · rw [Path.body?_plain hplain']
        rintro body ⟨⟩
      · intro name args hcall
        rcases hplain (.function name args) (hcall ▸ List.mem_singleton_self _) with heq | ⟨_,
          heq⟩ <;> cases heq

namespace Schema

variable {s : Schema} {F G : Filter} {bound bound' : List String} {a : Address} {path path' : Path}

/-- The same names lead to the same rows, and what is asked behind them is `Alike`. -/
theorem Denotes.alike {scope : Scope} {start start' : Nat} {names : List String} {tail : Path}
    {t : Target} (h : s.Denotes scope start names tail t)
    (hsplit : path.drop start = names.map Segment.property ++ tail)
    (hgoes : Path.GoesOn bound bound' path start path' start') :
    ∃ tail' t', path'.drop start' = names.map Segment.property ++ tail' ∧
      s.Denotes scope start' names tail' t' ∧ t.Alike bound bound' path path' t' := by
  -- Names and a count behind them are plain: the other path has the very same segments there. A
  -- quantifier or a call differs in what is inside, and `last` gives its counterpart.
  have hnil : Path.IsPlain [] := by simp [Path.IsPlain]
  have hcount : Path.IsPlain [.count] := by simp [Path.IsPlain]
  cases h with
  | element =>
      obtain ⟨hsplit', -⟩ := hgoes.of_plain (hsplit ▸ hnil)
      exact ⟨[], .element, hsplit'.trans hsplit, .element, .element⟩
  | leaf hr =>
      obtain ⟨hsplit', -⟩ := hgoes.of_plain (hsplit ▸ Path.isPlain_names names hnil)
      exact ⟨[], _, hsplit'.trans hsplit, .leaf hr, .leaf _⟩
  | navigation hr =>
      obtain ⟨hsplit', hresume⟩ := hgoes.of_plain (hsplit ▸ Path.isPlain_names names hnil)
      obtain ⟨hsame, hplain⟩ := hresume _
      exact ⟨[], _, hsplit'.trans hsplit, .navigation hr, .navigation _ hsame hplain⟩
  | count hr hlast =>
      obtain ⟨hsplit', -⟩ := hgoes.of_plain (hsplit ▸ Path.isPlain_names names hcount)
      exact ⟨[.count], _, hsplit'.trans hsplit, .count hr hlast, .count _⟩
  | countBehind hr hlast =>
      obtain ⟨hsplit', hresume⟩ := hgoes.of_plain (hsplit ▸ Path.isPlain_names names hcount)
      obtain ⟨hsame, hplain⟩ := hresume _
      exact ⟨[.count], _, hsplit'.trans hsplit, .countBehind hr hlast, .navigation _ hsame hplain⟩
  | nonempty hr hlast =>
      obtain ⟨last', hsplit', hsame⟩ := hgoes.last names hsplit
      cases last' <;> simp only [Segment.rewrite, reduceCtorEq] at hsame
      exact ⟨[.nonempty], _, hsplit', .nonempty hr hlast, .nonempty _⟩
  | any hr hlast =>
      obtain ⟨last', hsplit', hsame⟩ := hgoes.last names hsplit
      cases last' <;> simp only [Segment.rewrite, reduceCtorEq, Segment.any.injEq, true_and]
        at hsame
      have hbody := hgoes.left _ (by rw [hsplit, Path.body?_names]; rfl)
      have hbody' := hgoes.right _ (by rw [hsplit', Path.body?_names]; rfl)
      exact ⟨_, _, hsplit', .any hr hlast, .any _ hbody hbody' hsame.symm⟩
  | all hr hlast =>
      obtain ⟨last', hsplit', hsame⟩ := hgoes.last names hsplit
      cases last' <;> simp only [Segment.rewrite, reduceCtorEq, Segment.all.injEq, true_and]
        at hsame
      have hbody := hgoes.left _ (by rw [hsplit, Path.body?_names]; rfl)
      have hbody' := hgoes.right _ (by rw [hsplit', Path.body?_names]; rfl)
      exact ⟨_, _, hsplit', .all hr hlast, .all _ hbody hbody' hsame.symm⟩
  | @function name args hstart =>
      subst hstart
      obtain ⟨last', hsplit', hsame⟩ := hgoes.last [] hsplit
      cases last' <;> simp only [Segment.rewrite, reduceCtorEq, Segment.function.injEq] at hsame
      obtain ⟨rfl, hargs⟩ := hsame
      obtain rfl := hgoes.function _ args hsplit rfl
      exact ⟨_, _, hsplit', .function rfl, .function _ args _ hsplit hsplit' hargs.symm⟩

/-- **Members with one nameless form denote the same**, in contexts that are `Renamed`. -/
theorem denote_renamed {c c' : Context} {l : Level} {t : Target}
    (hc : c.Renamed F G bound bound' c')
    (h : F.Corresponds G bound bound' a (.member path) (.member path'))
    (hfound : s.denote c a path = .ok (l, t)) :
    ∃ l' t', s.denote c' a path' = .ok (l', t') ∧ l.Alike l' ∧
      t.Alike bound bound' path path' t' := by
  obtain ⟨start, names, tail, hanchor, hsplit, hdenotes⟩ := denote_ok.mp hfound
  obtain ⟨halike, hgoes⟩ := hc.anchor h
  rw [hanchor] at halike hgoes
  obtain ⟨tail', t', hsplit', hdenotes', htarget⟩ := hdenotes.alike hsplit hgoes
  rw [← halike.scope] at hdenotes'
  exact ⟨_, t', denote_ok.mpr ⟨_, names, tail', rfl, hsplit', hdenotes'⟩, halike, htarget⟩

end Schema

end FilterSql
