import FilterSql.Proofs.Compile.Run

/-!
# Filters without their texts

The skeleton of a filter is the filter with the texts of its strings taken out. Of a string that
becomes a pattern, `Filter.skeleton` keeps whether it has special characters, since the escape
character is declared only for these. Two filters have one skeleton if they differ in the texts of
strings and in nothing else. What the members of a filter denote, and which of them navigate, shows
in the skeleton (`Schema.denote_skeleton`, `Filter.navigating_skeleton`).
-/

namespace FilterSql

/-! ## Skeletons

`Filter.skeleton` replaces the texts of strings by one text, and keeps all else. Behind a function
that looks for a text it keeps the special characters, since these decide on the `ESCAPE` clause. -/

/-- What is left of a literal, which may stand where a pattern does. -/
def Literal.skeleton (pattern : Bool) (l : Literal) : Literal :=
  if l.kind = .string then
    ⟨if pattern && l.text.toList.any Sql.Like.isSpecial then "%" else "", .string⟩
  else l

/-- Whether the arguments behind the first one are patterns. -/
def BuiltIn.isMatching : BuiltIn → Bool
  | contains | startsWith | endsWith => true
  | _ => false

mutual

/-- What is left of a filter, which may stand where a pattern does. -/
def Filter.skeleton (pattern : Bool) : Filter → Filter
  | .binary l op r => .binary (l.skeleton false) op (r.skeleton false)
  | .unary op operand => .unary op (operand.skeleton false)
  | .member path => .member (skeletonPath path)
  | .literal l => .literal (l.skeleton pattern)
  | .enumMember type member => .enumMember type member
  | .call f args => .call f (skeletonAll f.isMatching false args)
  | .typeName name => .typeName name
  | .parameterAlias name => .parameterAlias name

/-- What is left of operands. The first one may stand where a pattern does, and so may those behind
it. -/
def skeletonAll (behind first : Bool) : List Filter → List Filter
  | [] => []
  | f :: fs => f.skeleton first :: skeletonAll behind behind fs

def skeletonPath : Path → Path
  | [] => []
  | segment :: rest => segment.skeleton :: skeletonPath rest

def Segment.skeleton : Segment → Segment
  | .property name => .property name
  | .count => .count
  | .nonempty => .nonempty
  | .any name body => .any name (body.skeleton false)
  | .all name body => .all name (body.skeleton false)
  | .function name args => .function name (skeletonArguments args)

def skeletonArguments : List Argument → List Argument
  | [] => []
  | .mk name f :: rest => .mk name (f.skeleton false) :: skeletonArguments rest

end

theorem skeletonPath_eq (path : Path) : skeletonPath path = path.map Segment.skeleton := by
  induction path with
  | nil => rfl
  | cons segment rest ih => rw [skeletonPath, ih, List.map_cons]

theorem skeletonArguments_names (args : List Argument) :
    (skeletonArguments args).map Argument.name = args.map Argument.name := by
  induction args with
  | nil => rfl
  | cons arg rest ih =>
      obtain ⟨name, f⟩ := arg
      simp [skeletonArguments, Argument.name, ih]

theorem skeletonArguments_values (args : List Argument) :
    (skeletonArguments args).map Argument.value =
      skeletonAll false false (args.map Argument.value) := by
  induction args with
  | nil => rfl
  | cons arg rest ih =>
      obtain ⟨name, f⟩ := arg
      simp [skeletonArguments, skeletonAll, Argument.value, ih]

/-! ## Literals

What the compiler asks of a literal before it binds it: its kind, whether it is null, and the
escape character of its pattern. All of this shows in the skeleton. -/

namespace Literal

variable {p : Bool} {l l' : Literal}

theorem kind_eq_of_skeleton (h : l.skeleton p = l'.skeleton p) : l.kind = l'.kind := by
  have hkind (l : Literal) : (l.skeleton p).kind = l.kind := by
    by_cases hl : l.kind = .string <;> simp [skeleton, hl]
  rw [← hkind l, ← hkind l', h]

/-- Only strings can differ in their texts. -/
theorem eq_of_skeleton (h : l.skeleton p = l'.skeleton p) (hkind : l.kind ≠ .string) : l = l' := by
  have hkind' : l'.kind ≠ .string := kind_eq_of_skeleton h ▸ hkind
  simpa [skeleton, hkind, hkind'] using h

theorem skeleton_plain (h : l.skeleton p = l'.skeleton p) :
    l.skeleton false = l'.skeleton false := by
  by_cases hkind : l.kind = .string
  · have hkind' : l'.kind = .string := kind_eq_of_skeleton h ▸ hkind
    simp [skeleton, hkind, hkind']
  · rw [eq_of_skeleton h hkind]

theorem escapeOf_eq_of_skeleton (h : l.skeleton true = l'.skeleton true)
    (hkind : l.kind = .string) :
    Sql.Like.escapeOf l.text = Sql.Like.escapeOf l'.text := by
  have hkind' : l'.kind = .string := kind_eq_of_skeleton h ▸ hkind
  simp only [skeleton, hkind, hkind', if_true, Bool.true_and, Literal.mk.injEq, and_true] at h
  rw [Sql.Like.escapeOf, Sql.Like.escapeOf]
  by_cases hl : l.text.toList.any Sql.Like.isSpecial <;>
    by_cases hl' : l'.text.toList.any Sql.Like.isSpecial <;> simp [hl, hl'] at h ⊢

theorem isNull_eq_of_skeleton (h : l.skeleton p = l'.skeleton p) : l.isNull = l'.isNull := by
  by_cases hkind : l.kind = .string
  · have hkind' : l'.kind = .string := kind_eq_of_skeleton h ▸ hkind
    simp [isNull, hkind, hkind']
  · rw [eq_of_skeleton h hkind]

end Literal

/-! ## Paths

The skeleton of a path has the same names and the same kinds of segments, with skeletons of filters
in them. So its body and its arguments are the skeletons of those of the path. -/

theorem Segment.shown_skeleton (segment : Segment) : segment.skeleton.shown = segment.shown := by
  cases segment <;> rfl

namespace Path

theorem shown_skeleton (path : Path) : shown (skeletonPath path) = path.shown := by
  rw [skeletonPath_eq, shown, shown, List.map_map]
  congr 1
  exact List.map_congr_left fun segment _ => segment.shown_skeleton

theorem body?_skeleton (path : Path) :
    body? (skeletonPath path) = path.body?.map (Filter.skeleton false) := by
  induction path with
  | nil => rfl
  | cons segment rest ih =>
      cases segment with
      | any | all => rfl
      | property | count | nonempty | function => exact ih

theorem names_skeleton (path : Path) : names (skeletonPath path) = path.names := by
  induction path with
  | nil => rfl
  | cons segment rest ih =>
      cases segment with
      | property name => exact congrArg (name :: ·) ih
      | count | nonempty | any | all | function => rfl

theorem behindNames_skeleton (path : Path) :
    behindNames (skeletonPath path) = skeletonPath path.behindNames := by
  induction path with
  | nil => rfl
  | cons segment rest ih =>
      cases segment with
      | property name => exact ih
      | count | nonempty | any | all | function => rfl

theorem arguments_skeleton (path : Path) :
    arguments (skeletonPath path) = skeletonArguments path.arguments := by
  rcases path with _ | ⟨_ | _ | _ | _ | _ | _, _⟩ <;> rfl

end Path

/-! ## What members denote

`denote` reads names, and the kind of the segment behind them. Neither of them is changed by the
skeleton, so paths with one `skeletonPath` denote the same. -/

namespace Schema

variable (s : Schema)

theorem target_skeleton (scope : Scope) (path : Path) (start : Nat) (segments : Path) :
    s.target scope (skeletonPath path) start (skeletonPath segments) =
      s.target scope path start segments := by
  rw [target, target, Path.names_skeleton, Path.behindNames_skeleton]
  rcases segments.behindNames with _ | ⟨first, _ | ⟨second, rest⟩⟩
  · simp only [skeletonPath, attributeTarget, Path.shown_skeleton]
  · cases first <;>
      simp only [skeletonPath, Segment.skeleton, countTarget, collectionHops, Path.shown_skeleton]
  · simp only [skeletonPath, Segment.shown_skeleton]

theorem anchor_skeleton (c : Context) (a : Address) (path : Path) :
    c.anchor a (skeletonPath path) = c.anchor a path := by
  rcases path with _ | ⟨_ | _ | _ | _ | _ | _, _⟩ <;> rfl

/-- What a member denotes shows in its skeleton. -/
theorem denote_skeleton (c : Context) (a : Address) (path : Path) :
    s.denote c a (skeletonPath path) = s.denote c a path := by
  have hdrop (n : Nat) : (skeletonPath path).drop n = skeletonPath (path.drop n) := by
    rw [skeletonPath_eq, skeletonPath_eq, List.map_drop]
  simp only [denote, anchor_skeleton, hdrop, target_skeleton]

end Schema

/-! ## Which members navigate

The search for them reads paths and addresses. The paths that it finds may differ in their texts,
so what is compared is the skeleton of each member. -/

/-- The member without the texts in its path. -/
def Navigating.skeleton (n : Navigating) : Navigating :=
  { n with path := skeletonPath n.path }

theorem navigatingAll_skeleton_of {s : Schema} {c : Context} {a : Address} {behind first : Bool}
    {fs : List Filter} {i : Nat} (hfs : ∀ f ∈ fs, ∀ p a, (f.skeleton p).navigating s c a =
      (f.navigating s c a).map (List.map Navigating.skeleton)) :
    navigatingAll s c a i (skeletonAll behind first fs) =
      (navigatingAll s c a i fs).map (List.map Navigating.skeleton) := by
  induction fs generalizing i first with
  | nil => rfl
  | cons f fs ih =>
      rw [skeletonAll, navigatingAll, navigatingAll, hfs f List.mem_cons_self,
        ih fun g hg => hfs g (List.mem_cons_of_mem f hg)]
      cases f.navigating s c (i :: a) <;> cases navigatingAll s c a (i + 1) fs <;>
        simp [Except.map, bind, Except.bind, pure, Except.pure]

/-- The skeleton has the same members that navigate, without their texts. -/
theorem Filter.navigating_skeleton {s : Schema} {c : Context} (f : Filter) (p : Bool)
    (a : Address) :
    (f.skeleton p).navigating s c a = (f.navigating s c a).map (List.map Navigating.skeleton) := by
  induction f using Filter.induction generalizing p a with
  | step f ih =>
      cases f with
      | binary l op r =>
          rw [Filter.skeleton, Filter.navigating, Filter.navigating]
          cases op.isArithmetic with
          | false => rfl
          | true =>
              rw [ih l (by simp [Filter.parts]), ih r (by simp [Filter.parts])]
              cases l.navigating s c (0 :: a) <;> cases r.navigating s c (1 :: a) <;>
                simp [Except.map, bind, Except.bind, pure, Except.pure]
      | unary op operand =>
          cases op with
          | not => rfl
          | minus =>
              rw [Filter.skeleton, Filter.navigating, Filter.navigating]
              exact ih operand (by simp [Filter.parts]) false _
      | call g args =>
          rw [Filter.skeleton, Filter.navigating, Filter.navigating]
          exact navigatingAll_skeleton_of fun f hf => ih f hf
      | member path =>
          rw [Filter.skeleton, Filter.navigating, Filter.navigating, s.denote_skeleton,
            navigatingPath_eq, navigatingPath_eq, Path.arguments_skeleton, skeletonArguments_values]
          -- Texts are in bodies and in arguments, and a member denotes the same whatever they are.
          cases hfound : s.denote c a path with
          | error e => rfl
          | ok found =>
              obtain ⟨anchor, target⟩ := found
              cases target with
              | function name =>
                  apply navigatingAll_skeleton_of
                  intro f hf
                  apply ih
                  obtain ⟨arg, harg, rfl⟩ := List.mem_map.mp hf
                  exact Path.arguments_mem harg
              | _ => rfl
      | literal | enumMember | typeName | parameterAlias => rfl

/-- Operands of one skeleton are compiled behind the same member, up to the texts in its path. -/
theorem Navigating.only?_alike {s : Schema} {c : Context} {a : Address} {behind first : Bool}
    {fs gs : List Filter} {i : Nat} {ns ns' : List Navigating} {n? n?' : Option Navigating}
    (h : skeletonAll behind first fs = skeletonAll behind first gs)
    (hns : navigatingAll s c a i fs = .ok ns) (hns' : navigatingAll s c a i gs = .ok ns')
    (hn : Navigating.only? ns = .ok n?) (hn' : Navigating.only? ns' = .ok n?') :
    n?.map Navigating.skeleton = n?'.map Navigating.skeleton := by
  have hfound {fs : List Filter} {ns : List Navigating} (hns : navigatingAll s c a i fs = .ok ns) :
      navigatingAll s c a i (skeletonAll behind first fs) = .ok (ns.map Navigating.skeleton) := by
    rw [navigatingAll_skeleton_of fun f _ => f.navigating_skeleton, hns]
    rfl
  have hsame : ns.map Navigating.skeleton = ns'.map Navigating.skeleton :=
    Except.ok.inj ((hfound hns).symm.trans (h ▸ hfound hns'))
  have honly := Navigating.only?_map Navigating.skeleton hn
  rw [hsame, Navigating.only?_map Navigating.skeleton hn'] at honly
  exact (Except.ok.inj honly).symm

end FilterSql
