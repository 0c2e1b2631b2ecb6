import FilterSql.Compile.Target
import FilterSql.Proofs.Filter.Parts
import Std.Data.String.ToNat

/-!
# Filters without the names of variables

The name of a variable serves to find the quantifier that binds it. In `Filter.nameless` the number
of that quantifier stands in its place, counted from the inside. The root has a number too, and
each member begins with one, whether it has a prefix or not. Two filters have one nameless form if
they differ in the name of a variable (`Path.Rebinds.nameless`) or in a prefix that says where a
member starts anyway (`Path.Prefixed.nameless`), at any depth (`Filter.Changed.nameless`).
-/

namespace FilterSql

/-! ## Writing members differently

Nameless forms and renaming are two uses of one recursion, `Filter.rewrite`. -/

section

variable (member : List String → Path → Path) (binder : String → String)

mutual

/-- The filter with `member` applied to its members and `binder` to the variables of its
quantifiers. How a member is written may depend on the variables that are bound around it, the
innermost first. -/
def Filter.rewrite (bound : List String) : Filter → Filter
  | .binary l op r => .binary (l.rewrite bound) op (r.rewrite bound)
  | .unary op operand => .unary op (operand.rewrite bound)
  | .member path => .member (member bound (rewritePath bound path))
  | .literal l => .literal l
  | .enumMember type name => .enumMember type name
  | .call f args => .call f (rewriteAll bound args)
  | .typeName name => .typeName name
  | .parameterAlias name => .parameterAlias name

def rewriteAll (bound : List String) : List Filter → List Filter
  | [] => []
  | f :: fs => f.rewrite bound :: rewriteAll bound fs

/-- The path with the filters in its segments rewritten by `Segment.rewrite`. -/
def rewritePath (bound : List String) : Path → Path
  | [] => []
  | segment :: rest => segment.rewrite bound :: rewritePath bound rest

def Segment.rewrite (bound : List String) : Segment → Segment
  | .property name => .property name
  | .count => .count
  | .nonempty => .nonempty
  | .any name body => .any (binder name) (body.rewrite (name :: bound))
  | .all name body => .all (binder name) (body.rewrite (name :: bound))
  | .function name args => .function name (rewriteArguments bound args)

def rewriteArguments (bound : List String) : List Argument → List Argument
  | [] => []
  | .mk name f :: rest => .mk name (f.rewrite bound) :: rewriteArguments bound rest

end

variable {member binder} {bound : List String}

theorem rewriteAll_eq (fs : List Filter) :
    rewriteAll member binder bound fs = fs.map (·.rewrite member binder bound) := by
  induction fs with
  | nil => rfl
  | cons f fs ih => rw [rewriteAll, ih, List.map_cons]

theorem rewritePath_eq (path : Path) :
    rewritePath member binder bound path = path.map (·.rewrite member binder bound) := by
  induction path with
  | nil => rfl
  | cons segment rest ih => rw [rewritePath, ih, List.map_cons]

theorem rewriteArguments_eq (args : List Argument) : rewriteArguments member binder bound args =
    args.map fun arg => .mk arg.name (arg.value.rewrite member binder bound) := by
  induction args with
  | nil => rfl
  | cons arg rest ih =>
      obtain ⟨name, f⟩ := arg
      rw [rewriteArguments, ih, List.map_cons, Argument.name, Argument.value]

end

/-! ## Members and variables of a filter

`Filter.members` goes to every depth, through operands, arguments and the bodies of quantifiers. A
filter `Avoids` a name if no member in it begins with the name and no quantifier binds it. -/

mutual

/-- The paths of all members in a filter, at any depth. -/
def Filter.members : Filter → List Path
  | .binary l _ r => l.members ++ r.members
  | .unary _ operand => operand.members
  | .member path => path :: membersPath path
  | .call _ args => membersAll args
  | .literal _ | .enumMember .. | .typeName _ | .parameterAlias _ => []

def membersAll : List Filter → List Path
  | [] => []
  | f :: fs => f.members ++ membersAll fs

def membersPath : Path → List Path
  | [] => []
  | segment :: rest => segment.members ++ membersPath rest

def Segment.members : Segment → List Path
  | .any _ body | .all _ body => body.members
  | .function _ args => membersArguments args
  | .property _ | .count | .nonempty => []

def membersArguments : List Argument → List Path
  | [] => []
  | .mk _ f :: rest => f.members ++ membersArguments rest

end

theorem membersAll_eq (fs : List Filter) : membersAll fs = fs.flatMap Filter.members := by
  induction fs with
  | nil => rfl
  | cons f fs ih => rw [membersAll, ih, List.flatMap_cons]

theorem membersArguments_eq (args : List Argument) :
    membersArguments args = (args.map Argument.value).flatMap Filter.members := by
  induction args with
  | nil => rfl
  | cons arg rest ih =>
      obtain ⟨name, f⟩ := arg
      rw [membersArguments, ih, List.map_cons, List.flatMap_cons, Argument.value]

theorem Segment.members_eq (segment : Segment) :
    segment.members = segment.parts.flatMap Filter.members := by
  cases segment with
  | any name body | all name body => simp [Segment.members, Segment.parts]
  | function name args => rw [Segment.members, Segment.parts, membersArguments_eq]
  | property | count | nonempty => rfl

theorem membersPath_eq (path : Path) :
    membersPath path = (path.flatMap Segment.parts).flatMap Filter.members := by
  induction path with
  | nil => rfl
  | cons segment rest ih =>
      rw [membersPath, ih, Segment.members_eq, List.flatMap_cons, List.flatMap_append]

/-- The members of one of the `parts` are members of the filter. -/
theorem Filter.members_part {f part : Filter} (h : part ∈ f.parts) : part.members ⊆ f.members := by
  intro path hpath
  have hmem : path ∈ f.parts.flatMap Filter.members := List.mem_flatMap.mpr ⟨part, h, hpath⟩
  cases f with
  | binary l op r => simpa [Filter.parts, Filter.members] using hmem
  | unary op operand => simpa [Filter.parts, Filter.members] using hmem
  | member path =>
      rw [Filter.members, membersPath_eq]
      exact List.mem_cons_of_mem path hmem
  | call f args => rwa [Filter.members, membersAll_eq]
  | literal | enumMember | typeName | parameterAlias => simp [Filter.parts] at h

/-- The name that a member begins with, `none` if it begins with something else. -/
def Path.first? : Path → Option String
  | .property name :: _ => some name
  | _ => none

/-- The variable that a segment binds, `none` if it is no quantifier. -/
def Segment.binder? : Segment → Option String
  | .any name _ | .all name _ => some name
  | _ => none

/-- No member of the filter begins with `name`, and no quantifier in it binds `name`. -/
def Filter.Avoids (f : Filter) (name : String) : Prop :=
  ∀ path ∈ f.members, path.first? ≠ some name ∧ some name ∉ path.map Segment.binder?

instance (f : Filter) (name : String) : Decidable (f.Avoids name) :=
  inferInstanceAs (Decidable (∀ path ∈ f.members, _))

theorem Filter.Avoids.part {f part : Filter} {name : String} (h : f.Avoids name)
    (hpart : part ∈ f.parts) :
    part.Avoids name :=
  fun path hpath => h path (members_part hpart hpath)

/-! ## Nameless forms

A variable is replaced by its distance from the place where it is used, as in the notation of de
Bruijn. The body of a quantifier has one more variable around it, so the numbers differ there. -/

namespace Path

/-- Where a member starts, and how many of its segments say so. The variables in `bound` are
counted from the inside, and the root comes behind the last of them. -/
def start (bound : List String) : Path → Nat × Nat
  | .property first :: _ =>
      if first = rootName then (bound.length, 1)
      else if first ∈ bound then (bound.idxOf first, 1)
      else (0, 0)
  | _ => (0, 0)

/-- The member with the number of its `start` in front, in the place of the segment that says so. -/
def placed (bound : List String) : Path → Path
  | .property first :: rest =>
      .property (toString (start bound (.property first :: rest)).1) ::
        (Segment.property first :: rest).drop (start bound (.property first :: rest)).2
  | path => path

end Path

/-- The filter with numbers in the place of variables, and with all binders alike. -/
def Filter.nameless (bound : List String) (f : Filter) : Filter :=
  f.rewrite Path.placed (fun _ => "") bound

/-- The path with the filters in its segments `nameless`. Names are left as they are. -/
def namelessPath (bound : List String) (path : Path) : Path :=
  rewritePath Path.placed (fun _ => "") bound path

theorem Filter.nameless_member (bound : List String) (path : Path) :
    (Filter.member path).nameless bound = .member (Path.placed bound (namelessPath bound path)) :=
      rfl

theorem namelessPath_eq (bound : List String) (path : Path) :
    namelessPath bound path = path.map (·.rewrite Path.placed (fun _ => "") bound) :=
  rewritePath_eq path

/-- The segment that is rewritten to a `property` is that `property`. -/
theorem Segment.rewrite_eq_property {member : List String → Path → Path} {binder : String → String}
    {bound : List String} {segment : Segment} {name : String} :
    segment.rewrite member binder bound = .property name ↔ segment = .property name := by
  cases segment <;> simp [Segment.rewrite]

theorem namelessPath_names {bound : List String} {path : Path} {names : List String} {tail : Path} :
    namelessPath bound path = names.map Segment.property ++ tail ↔
      ∃ tail', path = names.map Segment.property ++ tail' ∧ namelessPath bound tail' = tail := by
  simp only [namelessPath_eq]
  induction names generalizing path with
  | nil => simp
  | cons name names ih =>
      cases path with
      | nil => simp
      | cons first rest =>
          simp only [List.map_cons, List.cons_append, List.cons.injEq, Segment.rewrite_eq_property,
            ih, and_assoc]
          constructor
          · rintro ⟨rfl, tail', rfl, htail⟩
            exact ⟨tail', rfl, rfl, htail⟩
          · rintro ⟨tail', rfl, rfl, htail⟩
            exact ⟨rfl, tail', rfl, htail⟩

namespace Path

/-- A path of names and `$count` alone, in which no filter stands. -/
def IsPlain (path : Path) : Prop :=
  ∀ segment ∈ path, segment = .count ∨ ∃ name, segment = .property name

theorem IsPlain.drop {path : Path} (h : path.IsPlain) (k : Nat) : IsPlain (path.drop k) :=
  fun segment hsegment => h segment (List.mem_of_mem_drop hsegment)

theorem isPlain_names (names : List String) {tail : Path} (h : tail.IsPlain) :
    IsPlain (names.map Segment.property ++ tail) := by
  intro segment hsegment
  rcases List.mem_append.mp hsegment with hname | htail
  · obtain ⟨name, -, rfl⟩ := List.mem_map.mp hname
    exact .inr ⟨name, rfl⟩
  · exact h segment htail

/-- A plain path is its `namelessPath`, and that of no other path. -/
theorem namelessPath_eq_plain {bound : List String} {path plain : Path} (h : plain.IsPlain) :
    namelessPath bound path = plain ↔ path = plain := by
  rw [namelessPath_eq]
  induction plain generalizing path with
  | nil => exact List.map_eq_nil_iff
  | cons first rest ih =>
      have hrest : IsPlain rest := fun segment hsegment =>
        h segment (List.mem_cons_of_mem first hsegment)
      have hfirst {segment : Segment} : segment.rewrite placed (fun _ => "") bound = first ↔
        segment = first := by
        rcases h first List.mem_cons_self with rfl | ⟨name,
          rfl⟩ <;> cases segment <;> simp [Segment.rewrite]
      cases path with
      | nil => simp
      | cons segment segments =>
          rw [List.map_cons, List.cons.injEq, List.cons.injEq, hfirst, ih hrest]

theorem body?_plain {path : Path} (h : path.IsPlain) : path.body? = none := by
  induction path with
  | nil => rfl
  | cons first rest ih =>
      have hrest := ih fun segment hsegment => h segment (List.mem_cons_of_mem first hsegment)
      rcases h first List.mem_cons_self with rfl | ⟨name, rfl⟩ <;> exact hrest

theorem body?_names (names : List String) (tail : Path) :
    body? (names.map Segment.property ++ tail) = tail.body? := by
  induction names with
  | nil => rfl
  | cons name names ih => exact ih

/-- The segments that say where a member starts are no quantifiers, so `body?` is that of the
rest. -/
theorem body?_drop_start (bound : List String) (path : Path) :
    body? (path.drop (path.start bound).2) = path.body? := by
  rcases path with _ | ⟨first | _ | _ | _ | _ | _, rest⟩
  case cons.property =>
    rw [start]
    split
    · rfl
    · split <;> rfl
  all_goals rfl

theorem start_of_first? {bound : List String} {path : Path} (h : path.first? = none) :
    path.start bound = (0, 0) := by
  rcases path with _ | ⟨first | _ | _ | _ | _ | _, rest⟩
  case cons.property => simp [first?] at h
  all_goals rfl

/-- The nameless form of a member is the number of its `start`, followed by the nameless form of
the rest. -/
theorem placed_namelessPath (bound : List String) (path : Path) :
    placed bound (namelessPath bound path) =
      (path.first?.map fun _ => Segment.property (toString (path.start bound).1)).toList ++
        namelessPath bound (path.drop (path.start bound).2) := by
  rcases path with _ | ⟨first | _ | _ | _ | _ | _, rest⟩
  case cons.property =>
    simp [namelessPath_eq, Segment.rewrite, placed, start, first?, List.map_drop]
  all_goals rfl

/-- **Members with one nameless form** have the same `start`, and one nameless form behind it. -/
theorem start_alike {bound bound' : List String} {path path' : Path}
    (h : (Filter.member path).nameless bound = (Filter.member path').nameless bound') :
    (path.start bound).1 = (path'.start bound').1 ∧
      namelessPath bound (path.drop (path.start bound).2) =
        namelessPath bound' (path'.drop (path'.start bound').2) ∧
      (path.first? = none → path'.first? = none) := by
  have hpaths : placed bound (namelessPath bound path) =
    placed bound' (namelessPath bound' path') :=
    Filter.member.inj h
  -- The nameless form shows whether a member starts with a name.
  have hfirst (bound : List String) (path : Path) :
      (first? (placed bound (namelessPath bound path))).isSome = path.first?.isSome := by
    rcases path with _ | ⟨_ | _ | _ | _ | _ | _, _⟩ <;> rfl
  have hsome : path.first?.isSome = path'.first?.isSome := by
    rw [← hfirst bound path, hpaths, hfirst]
  rw [placed_namelessPath, placed_namelessPath] at hpaths
  cases hname : path.first? with
  | none =>
      cases hname' : path'.first? with
      | none =>
          rw [hname, hname'] at hpaths
          exact ⟨by rw [start_of_first? hname, start_of_first? hname'], hpaths, fun _ => rfl⟩
      | some name' => simp [hname, hname'] at hsome
  | some name =>
      cases hname' : path'.first? with
      | none => simp [hname, hname'] at hsome
      | some name' =>
          rw [hname, hname'] at hpaths
          obtain ⟨hplace, hrest⟩ := List.cons.inj hpaths
          have hnumber : toString (path.start bound).1 = toString (path'.start bound').1 :=
            Segment.property.inj hplace
          exact ⟨Nat.repr_injective hnumber, hrest, fun h => by cases h⟩

end Path

/-! ## Renaming

`Filter.renamed x y` replaces a variable by another one, but not below a quantifier that binds the
same name again. If the new name is not in use, the nameless form stays as it is. -/

/-- The member with `y` for `x` in front, unless `x` is bound around it. -/
def Path.renamed (x y : String) (bound : List String) : Path → Path
  | .property first :: rest => .property (if first = x ∧ x ∉ bound then y else first) :: rest
  | path => path

/-- The filter with `y` for `x` in front of the members where `x` is free. -/
def Filter.renamed (x y : String) (f : Filter) : Filter :=
  f.rewrite (Path.renamed x y) id []

namespace Path

variable {x y : String} {inner outer : List String} {path : Path}

/-- A free variable is the one behind the `inner` ones, whatever it is called. -/
theorem start_renamed (hx : x ≠ rootName) (hy : y ≠ rootName) (hinner : y ∉ inner)
    (hfirst : path.first? ≠ some y) :
    start (inner ++ y :: outer) (path.renamed x y inner) = path.start (inner ++ x :: outer) := by
  rcases path with _ | ⟨first | _ | _ | _ | _ | _, rest⟩
  case cons.property =>
    have hne : first ≠ y := by simpa [first?] using hfirst
    by_cases hfree : first = x ∧ x ∉ inner
    · obtain ⟨rfl, hfree⟩ := hfree
      simp [renamed, start, hx, hy, hfree, List.idxOf_append, hinner]
    · -- The name stays, and it is neither `y` nor, in front of the inner variables, `x`.
      simp only [renamed, if_neg hfree, start]
      grind
  all_goals rfl

theorem placed_renamed (hx : x ≠ rootName) (hy : y ≠ rootName) (hinner : y ∉ inner)
    (hfirst : path.first? ≠ some y) :
    placed (inner ++ y :: outer) (path.renamed x y inner) = path.placed (inner ++ x :: outer) := by
  have hstart : start (inner ++ y :: outer) (path.renamed x y inner) =
    path.start (inner ++ x :: outer) :=
    start_renamed hx hy hinner hfirst
  rcases path with _ | ⟨first | _ | _ | _ | _ | _, rest⟩
  case cons.property =>
    by_cases hfree : first = x ∧ x ∉ inner
    · obtain ⟨rfl, hfree⟩ := hfree
      simp [renamed, placed, start, hx, hy, hfree, List.idxOf_append, hinner]
    · rw [renamed, if_neg hfree] at hstart ⊢
      rw [placed, placed, hstart]
  all_goals rfl

variable {member : List String → Path → Path} {binder : String → String} {bound : List String}

theorem first?_rewritePath (path : Path) :
    first? (rewritePath member binder bound path) = path.first? := by
  rcases path with _ | ⟨_ | _ | _ | _ | _ | _, _⟩ <;> rfl

/-- To rename the `first?` name of a path does not touch what stands inside its segments. -/
theorem renamed_rewritePath (path : Path) :
    rewritePath member binder bound (path.renamed x y inner) =
      renamed x y inner (rewritePath member binder bound path) := by
  rcases path with _ | ⟨_ | _ | _ | _ | _ | _, _⟩ <;> rfl

end Path

section

variable {x y : String} {inner outer : List String}

theorem Segment.nameless_renamed {segment : Segment} (hinner : y ∉ inner)
    (hbinder : segment.binder? ≠ some y) (hparts : ∀ part ∈ segment.parts, ∀ inner, y ∉ inner →
      (part.rewrite (Path.renamed x y) id inner).nameless (inner ++ y :: outer) =
        part.nameless (inner ++ x :: outer)) :
    (segment.rewrite (Path.renamed x y) id inner).rewrite Path.placed (fun _ =>
      "") (inner ++ y :: outer) =
      segment.rewrite Path.placed (fun _ => "") (inner ++ x :: outer) := by
  cases segment with
  | property | count | nonempty => rfl
  | any name body | all name body =>
      have hname : y ∉ name :: inner := by
        rw [List.mem_cons, not_or]
        exact ⟨fun h => hbinder (by rw [h]; rfl), hinner⟩
      have hbody := hparts body (by simp [Segment.parts]) (name :: inner) hname
      simp only [Segment.rewrite, id]
      congr 1
  | function name args =>
      simp only [Segment.rewrite, rewriteArguments_eq, List.map_map]
      congr 1
      apply List.map_congr_left
      intro arg harg
      have hvalue := hparts arg.value (List.mem_map_of_mem harg) inner hinner
      exact congrArg (Argument.mk arg.name) hvalue

/-- **A variable may be renamed** where the new name is not in use. Below a quantifier that binds
`x` again nothing is renamed, so `x` may be one of the `inner` variables. -/
theorem Filter.nameless_renamed (hx : x ≠ rootName) (hy : y ≠ rootName) {f : Filter}
    (havoids : f.Avoids y) (hinner : y ∉ inner) :
    (f.rewrite (Path.renamed x y) id inner).nameless (inner ++ y :: outer) =
      f.nameless (inner ++ x :: outer) := by
  induction f using Filter.induction generalizing inner with
  | step f ih =>
      have hpart {part : Filter} (hmem : part ∈ f.parts) {inner : List String}
          (hinner : y ∉ inner) :
          (part.rewrite (Path.renamed x y) id inner).nameless (inner ++ y :: outer) =
            part.nameless (inner ++ x :: outer) :=
        ih part hmem (havoids.part hmem) hinner
      cases f with
      | binary l op r =>
          have hl := hpart (show l ∈ _ by simp [Filter.parts]) hinner
          have hr := hpart (show r ∈ _ by simp [Filter.parts]) hinner
          simp only [nameless, rewrite] at hl hr ⊢
          rw [hl, hr]
      | unary op operand =>
          have hoperand := hpart (show operand ∈ _ by simp [Filter.parts]) hinner
          exact congrArg (Filter.unary op) hoperand
      | member path =>
          obtain ⟨hfirst, hbinders⟩ := havoids path (by simp [Filter.members])
          -- First what is inside of segments, and then the name that the path begins with.
          have hsegments : namelessPath (inner ++ y :: outer)
              (rewritePath (Path.renamed x y) id inner path) =
                namelessPath (inner ++ x :: outer) path := by
            simp only [namelessPath, rewritePath_eq, List.map_map]
            apply List.map_congr_left
            intro segment hsegment
            have hbinder : segment.binder? ≠ some y :=
              fun h => hbinders (h ▸ List.mem_map_of_mem hsegment)
            refine Segment.nameless_renamed hinner hbinder fun part hmem inner hinner => ?_
            exact hpart (List.mem_flatMap.mpr ⟨segment, hsegment, hmem⟩) hinner
          have hstart : (namelessPath (inner ++ x :: outer) path).first? ≠ some y := by
            rwa [namelessPath, Path.first?_rewritePath]
          rw [rewrite, nameless_member, nameless_member, namelessPath, Path.renamed_rewritePath,
            ← namelessPath, hsegments, Path.placed_renamed hx hy hinner hstart]
      | call g args =>
          simp only [nameless, rewrite, rewriteAll_eq, List.map_map]
          congr 1
          apply List.map_congr_left
          intro arg harg
          exact hpart harg hinner
      | literal | enumMember | typeName | parameterAlias => rfl

end

/-- The range of the inner quantifier lies outside of its scope, so the `x` there is renamed; its
body lies inside. -/
example :
    (Filter.member [.property "x", .any "x" (.member [.property "x"])]).renamed "x" "y" =
      .member [.property "y", .any "x" (.member [.property "x"])] := rfl

/-! ## Changing one member

`Filter.Changed` reaches a member anywhere in a filter, together with the variables around it. The
two changes of interest are the name of a variable (`Path.Rebinds`) and a prefix
(`Path.Prefixed`). -/

/-- One filter becomes the other by a `change` of one member, wherever that stands. The change is
given the variables that are bound there. -/
inductive Filter.Changed (change : List String → Path → Path → Prop) :
    List String → Filter → Filter → Prop where
  | member {bound : List String} {path path' : Path} (h : change bound path path') :
      Changed change bound (.member path) (.member path')
  | left {bound : List String} {l l' r : Filter} (op : BinaryOperator)
      (h : Changed change bound l l') :
      Changed change bound (.binary l op r) (.binary l' op r)
  | right {bound : List String} {l r r' : Filter} (op : BinaryOperator)
      (h : Changed change bound r r') :
      Changed change bound (.binary l op r) (.binary l op r')
  | operand {bound : List String} {f f' : Filter} (op : UnaryOperator)
      (h : Changed change bound f f') :
      Changed change bound (.unary op f) (.unary op f')
  | argument {bound : List String} {f f' : Filter} (g : BuiltIn) (front back : List Filter)
      (h : Changed change bound f f') :
      Changed change bound (.call g (front ++ f :: back)) (.call g (front ++ f' :: back))
  | any {bound : List String} {f f' : Filter} (name : String) (front back : Path)
      (h : Changed change (name :: bound) f f') :
      Changed change bound (.member (front ++ .any name f :: back))
        (.member (front ++ .any name f' :: back))
  | all {bound : List String} {f f' : Filter} (name : String) (front back : Path)
      (h : Changed change (name :: bound) f f') :
      Changed change bound (.member (front ++ .all name f :: back))
        (.member (front ++ .all name f' :: back))
  | function {bound : List String} {f f' : Filter} (name : String) (front back : Path)
      (label : Option String) (before behind : List Argument) (h : Changed change bound f f') :
      Changed change bound
        (.member (front ++ .function name (before ++ .mk label f :: behind) :: back))
        (.member (front ++ .function name (before ++ .mk label f' :: behind) :: back))

/-- **A change that keeps the nameless form of members keeps that of filters.** So it is enough to
look at one member, as `Filter.Changed` does. -/
theorem Filter.Changed.nameless {change : List String → Path → Path → Prop} {bound : List String}
    {f g : Filter} (h : f.Changed change bound g)
    (hchange : ∀ {bound path path'}, change bound path path' →
      (Filter.member path).nameless bound = (Filter.member path').nameless bound) :
    f.nameless bound = g.nameless bound := by
  induction h with
  | member h => exact hchange h
  | left op h ih | right op h ih | operand op h ih =>
      simp only [Filter.nameless, Filter.rewrite] at ih ⊢
      rw [ih]
  | argument g front back h ih =>
      simp only [Filter.nameless, Filter.rewrite, rewriteAll_eq, List.map_append, List.map_cons]
        at ih ⊢
      rw [ih]
  | any name front back h ih | all name front back h ih =>
      simp only [Filter.nameless, Filter.rewrite, rewritePath_eq, List.map_append, List.map_cons,
        Segment.rewrite] at ih ⊢
      rw [ih]
  | function name front back label before behind h ih =>
      simp only [Filter.nameless, Filter.rewrite, rewritePath_eq, List.map_append, List.map_cons,
        Segment.rewrite, rewriteArguments_eq, Argument.name, Argument.value] at ih ⊢
      rw [ih]

/-- One quantifier of a path binds `y` in the place of `x`, and so do the members of its body in
which `x` is free. -/
inductive Path.Rebinds (x y : String) (bound : List String) : Path → Path → Prop where
  | any (front : Path) {body : Filter} (back : Path) (havoids : body.Avoids y) :
      Rebinds x y bound (front ++ .any x body :: back) (front ++ .any y (body.renamed x y) :: back)
  | all (front : Path) {body : Filter} (back : Path) (havoids : body.Avoids y) :
      Rebinds x y bound (front ++ .all x body :: back) (front ++ .all y (body.renamed x y) :: back)

/-- `Prefixed bound path path'`: a member without a prefix gets the one that says where it starts,
`$it` or the innermost variable of `bound`. -/
inductive Path.Prefixed : List String → Path → Path → Prop where
  | root {name : String} (rest : Path) (hname : name ≠ rootName) :
      Prefixed [] (.property name :: rest) (.property rootName :: .property name :: rest)
  | element {x name : String} {bound : List String} (rest : Path) (hx : x ≠ rootName)
      (hname : name ≠ rootName) (hfree : name ∉ x :: bound) :
      Prefixed (x :: bound) (.property name :: rest) (.property x :: .property name :: rest)

variable {bound : List String} {path path' : Path}

theorem Path.Rebinds.nameless {x y : String} (hx : x ≠ rootName) (hy : y ≠ rootName)
    (h : Path.Rebinds x y bound path path') :
    (Filter.member path).nameless bound = (Filter.member path').nameless bound := by
  have hbody {body : Filter} (havoids : body.Avoids y) :
      body.nameless (x :: bound) = (body.renamed x y).nameless (y :: bound) := by
    have hrenamed : (body.renamed x y).nameless ([] ++ y :: bound) =
      body.nameless ([] ++ x :: bound) :=
      Filter.nameless_renamed hx hy havoids List.not_mem_nil
    exact hrenamed.symm
  cases h with
  | any front back havoids | all front back havoids =>
      have hbody := hbody havoids
      simp only [Filter.nameless, Filter.rewrite, rewritePath_eq, List.map_append, List.map_cons,
        Segment.rewrite] at hbody ⊢
      rw [hbody]

theorem Path.Prefixed.nameless (h : Path.Prefixed bound path path') :
    (Filter.member path).nameless bound = (Filter.member path').nameless bound := by
  cases h with
  | root rest hname =>
      simp [Filter.nameless_member, namelessPath, rewritePath, Segment.rewrite, placed,
        start, hname]
  | element rest hx hname hfree =>
      simp [Filter.nameless_member, namelessPath, rewritePath, Segment.rewrite, placed, start, hx,
        hname, hfree]

end FilterSql
