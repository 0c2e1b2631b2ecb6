import FilterSql.Proofs.Compile.Correspondence
import FilterSql.Proofs.Compile.Reentry

/-!
# Where the parts of a filter are compiled

On its way to a part of a filter the compiler opens levels: behind the hops of members, and for the
elements that quantifiers are about. `Filter.Reaches` says in which contexts it arrives at a part.
A level is opened for a member only if the member consists of names (`Path.IsDirect`). So a member
with anything else in it is read from its first segment on, and its last segment shows what it
denotes (`Filter.Reaches.ends`).
-/

namespace FilterSql

/-! ## Paths of names

A level is opened for a member that navigates, which consists of names. Of a path with another
segment behind its names, this segment tells what it denotes (`Path.Ends`). -/

namespace Path

/-- Names, behind which `$count` may stand. -/
def IsDirect (path : Path) : Prop :=
  ∃ (names : List String) (tail : Path), path = names.map Segment.property ++ tail ∧
    (tail = [] ∨ tail = [.count])

/-- What a path denotes by its last segment, if it is read from the first one on. -/
inductive Ends : Path → Target → Prop where
  | element {path : Path} (hpath : path.IsDirect) : Ends path .element
  | leaf {path : Path} (p : AttributePath) (hpath : path.IsDirect) : Ends path (.attribute p)
  | navigation {path : Path} (hops : List Hop) (offset : Nat) (hpath : path.IsDirect) :
      Ends path (.navigation hops offset)
  | count {path : Path} (hops : List Hop) (hpath : path.IsDirect) : Ends path (.count hops)
  | nonempty (names : List String) (hops : List Hop) :
      Ends (names.map Segment.property ++ [.nonempty]) (.nonempty hops)
  | any (names : List String) (name : String) (body : Filter) (hops : List Hop) :
      Ends (names.map Segment.property ++ [.any name body]) (.any hops name)
  | all (names : List String) (name : String) (body : Filter) (hops : List Hop) :
      Ends (names.map Segment.property ++ [.all name body]) (.all hops name)
  | function (name : String) (args : List Argument) : Ends [.function name args] (.function name)

theorem IsDirect.isPlain {path : Path} (h : path.IsDirect) : path.IsPlain := by
  obtain ⟨names, tail, rfl, rfl | rfl⟩ := h
  · exact isPlain_names names (by simp [IsPlain])
  · exact isPlain_names names (by simp [IsPlain])

/-- No filter stands in a path of names and `$count`. -/
theorem IsPlain.parts {path : Path} (h : path.IsPlain) : path.flatMap Segment.parts = [] := by
  apply List.flatMap_eq_nil_iff.mpr
  intro segment hsegment
  rcases h segment hsegment with rfl | ⟨name, rfl⟩ <;> rfl

/-- The segment behind the names shows the target that is denoted, since it is no name itself. -/
theorem ends_of_denotes {s : Schema} {scope : Scope} {start : Nat} {names more : List String}
    {tail : Path} {t : Target} (h : s.Denotes scope start more tail t)
    (hstart : start = 0 → names = more) :
    Ends (names.map Segment.property ++ tail) t := by
  have hdirect : IsDirect (names.map Segment.property ++ []) := ⟨names, [], rfl, .inl rfl⟩
  have hcounted : IsDirect (names.map Segment.property ++ [.count]) :=
    ⟨names, [.count], rfl, .inr rfl⟩
  cases h with
  | element => exact .element hdirect
  | leaf => exact .leaf _ hdirect
  | navigation => exact .navigation _ _ hdirect
  | count => exact .count _ hcounted
  | countBehind => exact .navigation _ _ hcounted
  | nonempty => exact .nonempty names _
  | any => exact .any names _ _ _
  | all => exact .all names _ _ _
  | function hzero =>
      obtain rfl := hstart hzero
      exact .function _ _

end Path

/-- Where no level is pinned, `anchor` takes off at most one segment that says where the member
starts. -/
theorem Context.anchor_split {c : Context} {a : Address} {path tail : Path} {l : Level}
    {start : Nat} {more : List String} (hnone : c.pinned? a = none)
    (hanchor : c.anchor a path = (l, start))
    (hsplit : path.drop start = more.map Segment.property ++ tail) :
    ∃ names, path = names.map Segment.property ++ tail ∧ (start = 0 → names = more) := by
  rw [anchor_of_not_pinned hnone] at hanchor
  -- A prefix is one name in front of those that are left, and without a prefix all names are left.
  have hzero (h : start = 0) : ∃ names, path = names.map Segment.property ++ tail ∧
    (start = 0 → names = more) := by
    subst h
    exact ⟨more, hsplit, fun _ => rfl⟩
  rcases path with _ | ⟨first | _ | _ | _ | _ | _, rest⟩
  case cons.property =>
    have hone (h : start = 1) :
        ∃ names, Segment.property first :: rest = names.map Segment.property ++ tail ∧
          (start = 0 → names = more) := by
      subst h
      refine ⟨first :: more, ?_, nofun⟩
      exact congrArg (Segment.property first :: ·) hsplit
    by_cases hroot : first = rootName
    · simp only [hroot, if_true, Prod.mk.injEq] at hanchor
      exact hone hanchor.2.symm
    · cases hfound : c.element? first with
      | some l' =>
          simp only [hroot, if_false, hfound, Prod.mk.injEq] at hanchor
          exact hone hanchor.2.symm
      | none =>
          simp only [hroot, if_false, hfound, Prod.mk.injEq] at hanchor
          exact hzero hanchor.2.symm
  all_goals exact hzero (Prod.mk.inj hanchor).2.symm

section

variable {s : Schema} {c : Context} {a : Address} {path : Path} {l : Level} {t : Target}

/-- The end of a path shows what `denote` makes of it, unless a level was opened for it. -/
theorem Schema.denote_ends (hdirect : (c.pinned? a).isSome → path.IsDirect)
    (h : s.denote c a path = .ok (l, t)) :
    path.Ends t := by
  obtain ⟨start, more, tail, hanchor, hsplit, hdenotes⟩ := denote_ok.mp h
  cases hpinned : c.pinned? a with
  | none =>
      obtain ⟨names, rfl, hstart⟩ := Context.anchor_split hpinned hanchor hsplit
      exact Path.ends_of_denotes hdenotes hstart
  | some found =>
      have hpath := hdirect (by rw [hpinned]; rfl)
      -- Behind the level only names are left, and so nothing that one asks with another segment.
      have hplain := hpath.isPlain.drop start
      rw [hsplit] at hplain
      have hlast {last : Segment} (hlast : last ∈ tail) :=
        hplain last (List.mem_append_right _ hlast)
      cases hdenotes with
      | element => exact .element hpath
      | leaf => exact .leaf _ hpath
      | navigation | countBehind => exact .navigation _ _ hpath
      | count => exact .count _ hpath
      | nonempty | any | all | function =>
          rcases hlast (List.mem_singleton_self _) with h | ⟨_, h⟩ <;> cases h

/-- A member that denotes a `navigation` consists of names. -/
theorem Schema.denote_isDirect {hops : List Hop} {offset : Nat}
    (hdirect : (c.pinned? a).isSome → path.IsDirect)
    (h : s.denote c a path = .ok (l, .navigation hops offset)) : path.IsDirect := by
  cases s.denote_ends hdirect h with
  | navigation _ _ hpath => exact hpath

end

/-! ## Members that navigate, by their addresses

The search gives an address with each member that it finds. `partAt?` leads from the address back
to the member, as each step of the search has added the place of an operand. -/

section

variable {s : Schema} {c : Context} {a : Address} {F f : Filter} {nav : Navigating}

/-- What `navigatingAll` finds is found in one of the operands, at its place. -/
theorem navigatingAll_place {fs : List Filter} {i : Nat} {ns : List Navigating}
    (h : navigatingAll s c a i fs = .ok ns) (hnav : nav ∈ ns) :
    ∃ (j : Nat) (f : Filter) (ms : List Navigating), fs[j]? = some f ∧
      f.navigating s c ((i + j) :: a) = .ok ms ∧
      nav ∈ ms := by
  induction fs generalizing i ns with
  | nil =>
      obtain rfl := Except.ok.inj h
      cases hnav
  | cons f fs ih =>
      obtain ⟨ms, hms, h⟩ := Checked.bind_ok.mp h
      obtain ⟨rest, hrest, h⟩ := Checked.bind_ok.mp h
      obtain rfl := Checked.pure_ok.mp h
      rcases List.mem_append.mp hnav with hnav | hnav
      · exact ⟨0, f, ms, rfl, hms, hnav⟩
      · obtain ⟨j, g, ms, hg, hms, hnav⟩ := ih hrest hnav
        refine ⟨j + 1, g, ms, hg, ?_, hnav⟩
        rwa [show i + (j + 1) = i + 1 + j by omega]

/-- The operands that are `Searched` are those below the filter, at their places. -/
theorem Filter.Searched.operands {fs : List Filter} (h : f.Searched s c a fs) {j : Nat} {g : Filter}
    (hg : fs[j]? = some g) : f.operands[j]? = some g := by
  cases h with
  | arithmetic | minus | call => exact hg
  | @function path _ name hfound =>
      obtain ⟨start, names, tail, -, hsplit, hdenotes⟩ := Schema.denote_ok.mp hfound
      cases hdenotes with
      | function hstart =>
          subst hstart
          obtain rfl : path = [.function name _] := hsplit
          exact hg
  | condition | not | member | literal | enumMember | typeName | parameterAlias => cases hg

/-- What `navigating` finds in a filter stands where its address says. -/
theorem Filter.navigating_partAt? {ns : List Navigating} (hpart : F.partAt? a = some f)
    (h : f.navigating s c a = .ok ns) (hnav : nav ∈ ns) :
    F.partAt? nav.address = some (.member nav.path) := by
  induction f using Filter.induction generalizing a ns with
  | step f ih =>
      rcases navigating_ok.mp h with ⟨path, anchor, hops, offset, rfl, -, rfl⟩ | ⟨fs, hsearched, h⟩
      · obtain rfl := List.mem_singleton.mp hnav
        exact hpart
      · obtain ⟨j, g, ms, hg, hms, hnav⟩ := navigatingAll_place h hnav
        rw [Nat.zero_add] at hms
        have hplace := partAt?_operand hpart (hsearched.operands hg)
        exact ih g (hsearched.parts (List.mem_of_getElem? hg)) hplace hms hnav

/-- The `leading` member of a filter stands where its address says. -/
theorem Filter.leading_partAt? (hpart : F.partAt? a = some f)
    (h : f.leading s c a = .ok (some nav)) :
    F.partAt? nav.address = some (.member nav.path) := by
  rcases leading_some h with ⟨path, rfl, -, rfl, rfl⟩ | ⟨fs, hns, hf⟩
  · exact hpart
  · obtain ⟨j, g, ms, hg, hms, hnav⟩ := navigatingAll_place hns (List.mem_singleton_self nav)
    rw [Nat.zero_add] at hms
    have hoperand : f.operands[j]? = some g := by
      rcases hf with ⟨l, op, r, rfl, rfl⟩ | ⟨g, rfl⟩ | ⟨path, anchor, name, rfl, hfound, rfl⟩
      · exact hg
      · exact hg
      · exact Searched.operands (.function hfound) hg
    exact navigating_partAt? (partAt?_operand hpart hoperand) hms hnav

end

/-! ## Contexts that are reached

`Filter.Reaches` follows the compiler from the root context to the parts of a filter. It opens
levels in two places only: behind the hops of a `leading` member, and around the body of a
quantifier. -/

/-- `F.Reaches s type c a f`: the compiler arrives in `c` at the part `f` of `F`, which is at the
address `a`. -/
inductive Filter.Reaches (s : Schema) (type : EntityType) (F : Filter) :
    Context → Address → Filter → Prop where
  | whole : Reaches s type F (.ofEntity type) [] F
  /-- A filter that is compiled again behind its `leading` member. -/
  | behind {c inner : Context} {a : Address} {f : Filter} {nav : Navigating}
      (h : Reaches s type F c a f) (hleading : f.leading s c a = .ok (some nav))
      (hinner : nav.Enters c inner) : Reaches s type F inner a f
  | operand {c : Context} {a : Address} {f g : Filter} {i : Nat} (h : Reaches s type F c a f)
      (hleading : f.leading s c a = .ok none) (hg : f.operands[i]? = some g)
      (hbody : ∀ path, f = .member path → Path.body? path = none) : Reaches s type F c (i :: a) g
  /-- The body of a quantifier, on the level of the elements. -/
  | body {c inner : Context} {a : Address} {path : Path} {l : Level} {t : Target} {name : String}
      {f : Filter} (h : Reaches s type F c a (.member path))
      (hfound : s.denote c a path = .ok (l, t)) (ht : t = .any t.hops name ∨ t = .all t.hops name)
      (hinner : c.Opened (.element name) t.hops inner) (hbody : Path.body? path = some f) :
      Reaches s type F inner (0 :: a) f

/-- No member is pinned to the level that a variable is bound to. -/
theorem Context.Opened.pinned?_element {c inner : Context} {name : String} {hops : List Hop}
    (h : c.Opened (.element name) hops inner) (a : Address) : inner.pinned? a = c.pinned? a := by
  induction h with
  | last => rfl
  | step _ _ ih => exact ih

namespace Filter.Reaches

variable {s : Schema} {type : EntityType} {F f : Filter} {c : Context} {a : Address} {path : Path}

theorem partAt? (h : F.Reaches s type c a f) : F.partAt? a = some f := by
  induction h with
  | whole => rfl
  | behind _ _ _ ih => exact ih
  | operand _ _ hg _ ih => exact partAt?_operand ih hg
  | body _ _ _ _ hbody ih => exact partAt?_operand ih (by simp [operands, hbody])

/-- **Levels are opened only for members that consist of names** (`Path.IsDirect`). -/
theorem pinned_isDirect (h : F.Reaches s type c a f) {b : Address} {path : Path}
    (hb : (c.pinned? b).isSome) (hpath : F.partAt? b = some (.member path)) : path.IsDirect := by
  induction h generalizing b path with
  | whole => cases hb
  | @behind c inner a f nav h hleading hinner ih =>
      by_cases hsame : b = nav.address
      · -- It is the member that navigates, and the levels in front of it were opened for such
        -- members too.
        subst hsame
        have hmember := leading_partAt? h.partAt? hleading
        obtain rfl : nav.path = path :=
          Filter.member.inj (Option.some.inj (hmember.symm.trans hpath))
        apply s.denote_isDirect _ (leading_denote hleading)
        intro hpinned
        exact ih hpinned hmember
      · have hagrees := hinner.agreesAway (.refl nav.address c)
        rw [hagrees.pinned b hsame] at hb
        exact ih hb hpath
  | operand _ _ _ _ ih => exact ih hb hpath
  | body _ _ _ hinner _ ih =>
      rw [hinner.pinned?_element] at hb
      exact ih hb hpath

/-- **The end of a path shows what a member denotes**, wherever the compiler `Reaches` it. -/
theorem ends (h : F.Reaches s type c a (.member path)) {l : Level} {t : Target}
    (hfound : s.denote c a path = .ok (l, t)) : path.Ends t :=
  s.denote_ends (fun hpinned => h.pinned_isDirect hpinned h.partAt?) hfound

end Filter.Reaches

end FilterSql
