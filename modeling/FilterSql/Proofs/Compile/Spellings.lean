import FilterSql.Proofs.Compile.Mirroring
import FilterSql.Proofs.Compile.Storage

/-!
# Two spellings of a member of an enum type

A member of an enum type is written behind the name of the type, `Color'Red'`, or as a text,
`'Red'`, beside an attribute of the type. `coerceMember` looks the first one up when it is
compiled, and `coerceTo` the second one when it is compared. Both come to what `EnumType.value`
stores for the member, or to the complaint that there is no such member (`Schema.compile_spelled`).
-/

namespace FilterSql

open Sql (Expr)

/-! ## What is stored

`EnumType.Stored` relates a name to what is stored for it, without the search that `value` makes. A
name may be declared twice, and then the first declaration is the one that counts. -/

namespace EnumType

variable {t : EnumType} {member : String}

/-- What is stored for a member: its name, or its number, which is the declared one or else its
position. `noSuchMember` is the complaint about a name that no member has. -/
inductive Stored (t : EnumType) (member : String) : Except FilterError Value → Prop
  | named {m : EnumMember} (hstorage : t.storage = .name) (hm : m ∈ t.members)
      (hname : m.name = member) :
      Stored t member (.ok (.enum t.name member))
  | numbered {front back : List EnumMember} {m : EnumMember} (hstorage : t.storage = .ordinal)
      (hm : t.members = front ++ m :: back) (hname : m.name = member)
      (hfirst : ∀ m' ∈ front, m'.name ≠ member) :
      Stored t member (.ok (.long (m.value.getD front.length)))
  | unknown (hnone : ∀ m ∈ t.members, m.name ≠ member) :
      Stored t member (.error (.invalidValue member t.name (.noSuchMember t.name)))

theorem hasMember_iff : t.hasMember member = true ↔ ∃ m ∈ t.members, m.name = member := by
  simp [hasMember]

theorem ordinal?_none (h : t.ordinal? member = none) : ∀ m ∈ t.members, m.name ≠ member := by
  intro m hm hname
  rw [ordinal?, Option.map_eq_none_iff, List.find?_eq_none] at h
  obtain ⟨i, hi⟩ := List.mem_iff_getElem?.mp hm
  exact h (m, i) (List.mem_zipIdx_iff_getElem?.mpr hi) (by simp [hname])

/-- `ordinal?` gives the number of the first member with the name. -/
theorem ordinal?_some {number : Int} (h : t.ordinal? member = some number) :
    ∃ front m back, t.members = front ++ m :: back ∧ m.name = member ∧
      (∀ m' ∈ front, m'.name ≠ member) ∧
      number = m.value.getD front.length := by
  rw [ordinal?, Option.map_eq_some_iff] at h
  obtain ⟨⟨m, i⟩, hfind, rfl⟩ := h
  obtain ⟨hname, front, back, hsplit, hfront⟩ := List.find?_eq_some_iff_append.mp hfind
  have hmembers : t.members = (front ++ (m, i) :: back).map Prod.fst := by
    rw [← hsplit, List.zipIdx_map_fst]
  -- The members are numbered by their places, so the place is the number of those in front.
  have hi : i = front.length := by
    have hget : t.members.zipIdx[front.length]? = some (m, i) := by
      rw [hsplit]
      simp
    rw [List.getElem?_zipIdx] at hget
    simp only [Option.map_eq_some_iff, Prod.mk.injEq] at hget
    omega
  refine ⟨front.map Prod.fst, m, back.map Prod.fst, by simpa using hmembers, by simpa using hname,
    ?_, by simp [hi]⟩
  intro m' hm' hname'
  obtain ⟨⟨m'', i'⟩, hmem, rfl⟩ := List.mem_map.mp hm'
  exact absurd (hfront _ hmem) (by simpa using hname')

theorem value_stored (t : EnumType) (member : String) : t.Stored member (t.value member) := by
  unfold value
  cases hstorage : t.storage with
  | name =>
      cases hmember : t.hasMember member with
      | true =>
          obtain ⟨m, hm, hname⟩ := hasMember_iff.mp hmember
          exact .named hstorage hm hname
      | false =>
          refine .unknown fun m hm hname => ?_
          rw [hasMember_iff.mpr ⟨m, hm, hname⟩] at hmember
          cases hmember
  | ordinal =>
      dsimp only
      cases hnumber : t.ordinal? member with
      | none => exact .unknown (ordinal?_none hnumber)
      | some number =>
          obtain ⟨front, m, back, hm, hname, hfirst, rfl⟩ := ordinal?_some hnumber
          exact .numbered hstorage hm hname hfirst

end EnumType

/-! ## Comparisons

The statement is about both orders of the sides at once. A `Side` tells where the attribute stands,
and `Side.combine` puts the attribute there and the member on the other side. -/

/-- The side of a comparison that the attribute stands on. -/
inductive Side where
  | left
  | right

namespace Side

def opposite : Side → Side
  | left => right
  | right => left

/-- The place of the side among the parts of the comparison. -/
def place : Side → Nat
  | left => 0
  | right => 1

/-- Applies `f` to `x` and `y`, with `x` on this side. -/
def combine {α β : Type} (f : α → α → β) (x y : α) : Side → β
  | left => f x y
  | right => f y x

end Side

/-- A filter that spells a `member` of the enum type `t`: behind a name of `t`, or as a text. -/
inductive Filter.Spells (s : Schema) (t : EnumType) (member : String) : Filter → Prop
  | typed {written : String} (h : s.enumType? written = some t) :
      Spells s t member (.enumMember written member)
  | text : Spells s t member (.literal ⟨member, .string⟩)

namespace Schema

variable {s : Schema} {t : EnumType} {member written : String} {p : AttributePath} {e : Expr}
    {op : Comparison} {v : Value}

/-! ## Operands

Beside an attribute of the enum type each spelling comes to `EnumType.value`: a member that is
`typed` has been looked up before, and a text is looked up here. -/

theorem coerceMember_eq (h : s.enumType? written = some t) :
    s.coerceMember written member none = (t.value member).map fun v =>
      (v, .enumeration t.name) := by
  have hread : s.coerceMember written member none = do
    return (← t.value member, .enumeration t.name) := by
    unfold coerceMember
    rw [h]
    rfl
  rw [hread]
  cases t.value member <;> rfl

/-- Beside a value of the enum type a text is read as one of its members. -/
theorem operand_text {type : ValueType} (htype : type.dataType = .enum)
    (henum : type.enumType = some t.name) (hfound : s.enumType? t.name = some t) :
    s.operand (.literal ⟨member, .string⟩) (some type) =
      (t.value member).map fun v => ⟨.parameter v, type, false⟩ := by
  have hnull : Literal.isNull ⟨member, .string⟩ = false := by simp [Literal.isNull]
  have hcoerce : s.coerce ⟨member, .string⟩ (some type) = t.value member := by
    simp [coerce, hnull, htype, coerceTo, henum, hfound]
  rw [operand, hnull, hcoerce]
  cases t.value member with
  | error fault => rfl
  | ok v => simp [htype, Option.filter, Except.map, bind, Except.bind, pure, Except.pure]

/-- The attribute on `side` beside a text. -/
theorem compare_text (side : Side) (hp : p.type.dataType = .enum)
    (henum : p.type.enumType = some t.name) (hfound : s.enumType? t.name = some t) :
    side.combine (s.compare op) (.member e p) (.literal ⟨member, .string⟩) =
      (t.value member).map fun v =>
        .predicate (side.combine (.binary · (.compare op) ·) e (.parameter v)) := by
  have hcheck : p.type.checkComparable p.type = .ok () := by
    rw [ValueType.checkComparable_ok, hp, henum]
    exact ⟨rfl, by rintro E E' ⟨⟩ ⟨⟩; rfl⟩
  have htext : s.operand (.literal ⟨member, .string⟩) (some p.type) = _ :=
    operand_text hp henum hfound
  have hmember (beside : Option ValueType) : s.operand (.member e p) beside =
    .ok ⟨e, p.type, false⟩ := rfl
  cases side with
  | left =>
      rw [Side.combine, compare_values (.inl rfl) (.inl rfl)]
      cases hvalue : t.value member with
      | error fault =>
          rw [hvalue] at htext
          exact compareValues_right_error (hmember _) rfl htext
      | ok v =>
          rw [hvalue] at htext
          rw [compareValues_eq (hmember _) htext rfl rfl, hcheck]
          rfl
  | right =>
      rw [Side.combine, compare_values (.inl rfl) (.inl rfl)]
      cases hvalue : t.value member with
      | error fault =>
          rw [hvalue] at htext
          exact compareValues_left_error htext
      | ok v =>
          rw [hvalue] at htext
          rw [compareValues_eq htext (hmember _) rfl rfl, hcheck]
          rfl

/-- The attribute on `side` beside a member that was looked up before. -/
theorem compare_typed (side : Side) (hp : p.type.dataType = .enum)
    (henum : p.type.enumType = some t.name) :
    side.combine (s.compare op) (.member e p) (.value (.parameter v) (.enumeration t.name)) =
      .ok (.predicate (side.combine (.binary · (.compare op) ·) e (.parameter v))) := by
  have hcheck : p.type.checkComparable (.enumeration t.name) = .ok () := by
    rw [ValueType.checkComparable_ok, hp, henum]
    exact ⟨rfl, by rintro E E' ⟨⟩ ⟨⟩; rfl⟩
  cases side with
  | left =>
      rw [Side.combine, compare_values (.inl rfl) (.inl rfl),
        compareValues_eq rfl rfl rfl rfl, hcheck]
      rfl
  | right =>
      rw [Side.combine, compare_values (.inl rfl) (.inl rfl), compareValues_eq rfl rfl rfl rfl,
        ValueType.checkComparable_comm.mp hcheck]
      rfl

end Schema

/-! ## Filters

Neither an attribute nor a spelling of a member navigates, so the comparison is compiled right
where it stands and its operands with it. -/

namespace Filter

variable {s : Schema} {c : Context} {a : Address} {path : Path} {anchor : Level} {p : AttributePath}
    {l r f : Filter} {op : Comparison} {t : EnumType} {name : String} {side : Side}

/-- A comparison is compiled in the context it stands in if `navigating` finds no hops on either
side. -/
theorem compile_compare (hl : l.navigating s c (0 :: a) = .ok [])
    (hr : r.navigating s c (1 :: a) = .ok []) :
    (Filter.binary l (.compare op) r).compile s c a = composed s a l (.compare op) r c := by
  rw [Filter.compile, hl, hr]
  rfl

theorem navigating_attribute (hpath : s.denote c a path = .ok (anchor, .attribute p)) :
    (member path).navigating s c a = .ok [] := by
  rw [navigating, hpath]
  rfl

theorem compile_attribute (hpath : s.denote c a path = .ok (anchor, .attribute p)) :
    (member path).compile s c a = pure (.ofPath anchor.label p) := by
  rw [Filter.compile, hpath]
  rfl

/-- An attribute on `side` is compared with whatever `f` is compiled to, if `f` does not
navigate. -/
theorem compile_beside (hpath : s.denote c (side.place :: a) path = .ok (anchor, .attribute p))
    (hf : f.navigating s c (side.opposite.place :: a) = .ok []) (n : Nat) :
    ((side.combine (Filter.binary · (.compare op) ·) (.member path) f).compile s c a).run n =
      (f.compile s c (side.opposite.place :: a)).run n >>= fun (y, k) =>
        (side.combine (s.compare op) (.ofPath anchor.label p) y).map fun x => (x, k) := by
  have hlift (e : Except FilterError Compiled) (k : Nat) :
      (liftM e : Numbered Compiled).run k = e.map fun x => (x, k) := by
    cases e <;> rfl
  cases side with
  | left =>
      simp only [Side.place, Side.opposite] at hpath hf ⊢
      rw [Side.combine, compile_compare (navigating_attribute hpath) hf, composed,
        compile_attribute hpath, pure_bind, StateT.run_bind]
      simp only [hlift, Schema.compose, Side.combine]
  | right =>
      simp only [Side.place, Side.opposite] at hpath hf ⊢
      rw [Side.combine, compile_compare hf (navigating_attribute hpath), composed,
        compile_attribute hpath, StateT.run_bind]
      simp only [pure_bind, hlift, Schema.compose, Side.combine]

/-- With either spelling `f`, the comparison comes to one of the column with `t.value name`. -/
theorem Spells.compile_eq (hf : f.Spells s t name) (hfound : s.enumType? t.name = some t)
    (hpath : s.denote c (side.place :: a) path = .ok (anchor, .attribute p))
    (hp : p.type.enumType = some t.name) (op : Comparison) (n : Nat) :
    ((side.combine (Filter.binary · (.compare op) ·) (.member path) f).compile s c a).run n =
      (t.value name).map fun v => (.predicate (side.combine (.binary · (.compare op) ·)
        (.qualified anchor.label p.column) (.parameter v)), n) := by
  have henum : p.type.dataType = .enum := Schema.denote_coherent hpath (by rw [hp]; rfl)
  cases hf with
  | text =>
      rw [compile_beside hpath rfl]
      show (side.combine (s.compare op) (.member _ p) (.literal ⟨name, .string⟩)).map (fun x =>
        (x, n)) = _
      rw [Schema.compare_text side henum hp hfound]
      cases t.value name <;> rfl
  | @typed written h =>
      rw [compile_beside hpath rfl, Filter.compile, Schema.coerceMember_eq h]
      cases t.value name with
      | error fault => rfl
      | ok v =>
          show (side.combine (s.compare op) (.member _ p)
            (.value (.parameter v) (.enumeration t.name))).map
            (fun x => (x, n)) = _
          rw [Schema.compare_typed side henum hp]
          rfl

end Filter

namespace Schema

variable {s : Schema} {c : Context} {a : Address} {path : Path} {anchor : Level} {p : AttributePath}
    {t : EnumType} {side : Side}

/-- **The spellings of a member of an enum type.** A comparison with an attribute of the type, on
either side and by any operator, is compiled to the same thing for all spellings: to what is
`Stored` for the member beside the column of the attribute, or to the complaint that there is no
such member. The same holds if the comparison is the whole filter. -/
theorem compile_spelled (hfound : s.enumType? t.name = some t)
    (hpath : s.denote c (side.place :: a) path = .ok (anchor, .attribute p))
    (hp : p.type.enumType = some t.name) (op : Comparison) (name : String) :
    ∃ stored, t.Stored name stored ∧ ∀ f : Filter, f.Spells s t name →
      let compared := side.combine (Filter.binary · (.compare op) ·) (.member path) f
      let condition v :=
        side.combine (Expr.binary · (.compare op) ·) (.qualified anchor.label p.column)
          (.parameter v)
      (∀ n, (compared.compile s c a).run n = stored.map fun v => (.predicate (condition v), n)) ∧
      ∀ entity type, s.entityType? entity = some type → c = .ofEntity type → a = [] →
        s.compile entity compared = stored.map condition := by
  refine ⟨t.value name, t.value_stored name, fun f hf => ?_⟩
  have hrun := hf.compile_eq hfound hpath hp op
  refine ⟨hrun, ?_⟩
  rintro entity type hentity rfl rfl
  rw [compile, filtered, hentity]
  simp only [bind, Except.bind]
  rw [compileOn, hrun]
  cases t.value name <;> rfl

/-- A color, stored by number. -/
def color : EnumType :=
  ⟨"Color", [⟨"Red", none⟩, ⟨"Blue", some 7⟩, ⟨"Green", none⟩], .ordinal⟩

def car : EntityType where
  name := "Car"
  table := ⟨none, "cars"⟩
  keys := ["id"]
  attributes := [⟨"Color", some "color", true, {}, .enum "demo.Color"⟩]
  associations := []

/-- Cars with colors, in a schema whose names may have the namespace in front. -/
def garage : Schema where
  namespaceName := some "demo"
  entityTypes := [car]
  complexTypes := []
  enumTypes := [color]
  functions := []

theorem spelled_as_stored :
    ∃ stored, color.Stored "Blue" stored ∧ ∀ f : Filter, f.Spells garage color "Blue" →
    garage.compile "Car" (.binary f (.compare .ne) (.member [.property "Color"])) =
      stored.map fun v => .binary (.parameter v) (.compare .ne) (.qualified "t0" "color") := by
  have hpath : garage.denote (.ofEntity car) [Side.right.place] [.property "Color"] =
      .ok (⟨.entity car, 0, .root⟩,
        .attribute ⟨["Color"], "color", ⟨.enum, {}, true, some "Color"⟩⟩) := rfl
  obtain ⟨stored, hstored, hspelled⟩ := compile_spelled (t := color) rfl hpath rfl .ne "Blue"
  exact ⟨stored, hstored, fun f hf => (hspelled f hf).2 "Car" car rfl rfl rfl⟩

example :
    garage.compile "Car" (.binary (.enumMember "demo.Color" "Blue") (.compare .ne)
      (.member [.property "Color"])) =
      .ok (.binary (.parameter (.long 7)) (.compare .ne) (.qualified "t0" "color")) :=
  rfl

end Schema

end FilterSql
