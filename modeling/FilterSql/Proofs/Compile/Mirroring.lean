import FilterSql.Proofs.Compile.Operation

/-!
# Comparisons from the other side

A comparison may be turned round, and its operator with it: the compiler accepts both or neither,
and binds the same value for a literal on either side (`Schema.compare_mirror`). Two cases are
excepted. Of two literals, the left one says how the right one is read. And beside a condition, a
literal of the form of `null` that is another word is accepted on the left only.
-/

namespace FilterSql

open Sql (Expr)

namespace Comparison

/-- The comparison that holds between the exchanged sides: `gt` becomes `lt`, and `eq` stays. -/
def mirror : Comparison → Comparison
  | eq => eq
  | ne => ne
  | gt => lt
  | ge => le
  | lt => gt
  | le => ge

@[simp] theorem mirror_mirror (op : Comparison) : op.mirror.mirror = op := by
  cases op <;> rfl

/-- How the outcome of `op` is related to that of `op.mirror` with the sides exchanged: both are
refused, or both have the same operands in opposite order. A test has no order, so it is the same
from both sides. -/
inductive Mirrored (op : Comparison) (isTest : Prop) :
    Except FilterError Compiled → Except FilterError Compiled → Prop
  | refused {fault fault' : FilterError} : Mirrored op isTest (.error fault) (.error fault')
  | test (h : isTest) (e : Expr) : Mirrored op isTest (.ok (.predicate e)) (.ok (.predicate e))
  | turned (l r : Expr) : Mirrored op isTest
      (.ok (.predicate (.binary l (.compare op) r)))
        (.ok (.predicate (.binary r (.compare op.mirror) l)))

namespace Mirrored

variable {op : Comparison} {isTest : Prop} {a b : Except FilterError Compiled}

theorem symm (h : op.Mirrored isTest a b) : op.mirror.Mirrored isTest b a := by
  cases h with
  | refused => exact .refused
  | test h e => exact .test h e
  | turned l r =>
      have hturned : op.mirror.Mirrored isTest (.ok (.predicate (.binary r (.compare op.mirror) l)))
          (.ok (.predicate (.binary l (.compare op.mirror.mirror) r))) := .turned r l
      rwa [mirror_mirror] at hturned

end Mirrored

end Comparison

namespace Compiled

def isNull : Compiled → Bool
  | literal l => l.isNull
  | _ => false

/-- One of `x` and `y` is tested for null, or is a condition that is tested for a boolean. -/
def Tests (x y : Compiled) : Prop :=
  (x.isNull = true ∨ y.isNull = true) ∨
    x.isCondition = true ∧ y.boolean?.isSome = true ∨ y.isCondition = true ∧
      x.boolean?.isSome = true

end Compiled

theorem ValueType.checkComparable_comm {a b : ValueType} :
    a.checkComparable b = .ok () ↔ b.checkComparable a = .ok () := by
  rw [checkComparable_ok, checkComparable_ok, DataType.comparable_comm]
  refine and_congr_right fun _ => ⟨?_, ?_⟩ <;> exact fun h E E' hE hE' => (h E' E hE' hE).symm

namespace Schema

variable {s : Schema} {op : Comparison} {x y : Compiled} {l : Literal} {a b : Operand} {e : Expr}
    {isTest : Prop} {beside : Option ValueType}

/-! ## Tests

The outcomes without an order. A comparison with `null` keeps one operand, and one of a condition
with a boolean keeps the condition, so the exchange of the sides leaves nothing to exchange. -/

theorem compareNull_mirrored (htest : isTest) (e : Expr) :
    op.Mirrored isTest (compareNull op e) (compareNull op.mirror e) := by
  cases op with
  | eq | ne => exact .test htest _
  | gt | ge | lt | le => exact .refused

theorem compareCondition_mirrored (htest : isTest) (x : Compiled) (expected : Bool) :
    op.Mirrored isTest (x.compareCondition op expected)
      (x.compareCondition op.mirror expected) := by
  cases op with
  | eq | ne =>
      rw [Comparison.mirror, Compiled.compareCondition]
      cases x.condition with
      | ok e => exact .test htest _
      | error fault => exact .refused
  | gt | ge | lt | le => exact .refused

theorem operand_null (hl : l.isNull = true) :
    s.operand (.literal l) beside = .ok ⟨.constant .null, beside.getD (.of .null), true⟩ := by
  rw [operand, if_pos hl]

theorem operand_null_expr (h : s.operand x beside = .ok a) (hnull : a.isNull = true) :
    a.expr = .constant .null := by
  cases x with
  | literal l =>
      rcases literalOperand_ok h with ⟨-, rfl⟩ | ⟨-, v, -, rfl⟩
      · rfl
      · cases hnull
  | predicate | value | member | subquery =>
      obtain rfl := Except.ok.inj h
      cases hnull
  | typeName => cases h

theorem compareValues_of_operands (h : s.operands x y = .ok (a, b)) : s.compareValues op x y =
    if a.isNull then compareNull op b.expr
    else if b.isNull then compareNull op a.expr
    else a.type.checkComparable b.type >>= fun _ =>
      .ok (.predicate (.binary a.expr (.compare op) b.expr)) := by
  rw [compareValues, h]
  rfl

/-- Whichever side `null` is on, the other one is tested for it. -/
theorem compareValues_null (hl : l.isNull = true) :
    s.compareValues op (.literal l) y = (s.operand y none >>= fun b => compareNull op b.expr) ∧
      s.compareValues op y (.literal l) = (s.operand y none >>= fun b =>
        compareNull op b.expr) := by
  cases hy : s.operand y none with
  | error fault =>
      constructor
      · simp only [compareValues, operands, operand_null hl, bind, Except.bind, if_true, hy]
      · simp only [compareValues, operands, Compiled.type?, hy, bind, Except.bind]
  | ok b =>
      constructor
      · rw [compareValues_of_operands (operands_ok.mpr ⟨operand_null hl, hy⟩), if_pos rfl]
        rfl
      · rw [compareValues_of_operands (operands_ok.mpr ⟨hy, operand_null hl⟩), if_pos rfl]
        split
        next hb =>
          show compareNull op (.constant .null) = compareNull op b.expr
          rw [operand_null_expr hy hb]
        next => rfl

theorem compareValues_null_mirrored (htest : isTest) (hl : l.isNull = true) :
    op.Mirrored isTest (s.compareValues op (.literal l) y)
      (s.compareValues op.mirror y (.literal l)) := by
  rw [(compareValues_null hl).1, (compareValues_null hl).2]
  cases s.operand y none with
  | error fault => exact .refused
  | ok b => exact compareNull_mirrored htest b.expr

/-! ## Values

Operands are read one after the other, the right one beside the type of the left. Turning round
needs each to be read as the same in both orders. -/

theorem compareValues_eq (hx : s.operand x y.type? = .ok a) (hy : s.operand y (some a.type) = .ok b)
    (ha : a.isNull = false) (hb : b.isNull = false) : s.compareValues op x y =
      (a.type.checkComparable b.type >>= fun _ =>
        .ok (.predicate (.binary a.expr (.compare op) b.expr))) := by
  have hoperands : s.operands x y = .ok (a, b) := operands_ok.mpr ⟨hx, by rw [ha]; exact hy⟩
  rw [compareValues_of_operands hoperands, if_neg (by simp [ha]), if_neg (by simp [hb])]

/-- Two values are `Mirrored` if each of them is read as the same operand beside the other. -/
theorem compareValues_turned (hx : s.operand x y.type? = .ok a)
    (hx' : s.operand x (some b.type) = .ok a) (hy : s.operand y x.type? = .ok b)
    (hy' : s.operand y (some a.type) = .ok b) (ha : a.isNull = false) (hb : b.isNull = false) :
    op.Mirrored isTest (s.compareValues op x y) (s.compareValues op.mirror y x) := by
  rw [compareValues_eq hx hy' ha hb, compareValues_eq hy hx' hb ha]
  cases hcheck : a.type.checkComparable b.type with
  | ok =>
      rw [ValueType.checkComparable_comm.mp hcheck]
      exact .turned _ _
  | error fault =>
      cases hcheck' : b.type.checkComparable a.type with
      | ok =>
          rw [ValueType.checkComparable_comm.mp hcheck'] at hcheck
          cases hcheck
      | error fault' => exact .refused

theorem compareValues_left_error {fault : FilterError} (hx : s.operand x y.type? = .error fault) :
    s.compareValues op x y = .error fault := by
  rw [compareValues, operands, hx]
  rfl

theorem compareValues_right_error {fault : FilterError} (hx : s.operand x y.type? = .ok a)
    (ha : a.isNull = false) (hy : s.operand y (some a.type) = .error fault) :
    s.compareValues op x y = .error fault := by
  simp only [compareValues, operands, hx, ha, bind, Except.bind, Bool.false_eq_true, if_false, hy]

theorem operand_not_null (h : s.operand x beside = .ok a) (hx : x.isNull = false) :
    a.isNull = false := by
  cases x with
  | literal l =>
      rcases literalOperand_ok h with ⟨hnull, -⟩ | ⟨-, v, -, rfl⟩
      · rw [Compiled.isNull, hnull] at hx
        cases hx
      · rfl
  | predicate | value | member | subquery =>
      obtain rfl := Except.ok.inj h
      rfl
  | typeName => cases h

/-- If `x` is read as the same beside any type, it is compared in both orders with an operand that
is read alike beside the type of `x` before and after that is known. -/
theorem compareValues_mirrored (hx : ∀ beside, s.operand x beside = .ok a) (ha : a.isNull = false)
    (hbefore : s.operand y x.type? = s.operand y (some a.type)) (hy : y.isNull = false) :
    op.Mirrored isTest (s.compareValues op x y) (s.compareValues op.mirror y x) := by
  cases h : s.operand y (some a.type) with
  | ok b => exact compareValues_turned (hx _) (hx _) (hbefore.trans h) h ha (operand_not_null h hy)
  | error fault =>
      rw [compareValues_right_error (hx _) ha h, compareValues_left_error (hbefore.trans h)]
      exact .refused

theorem compareValues_typeName_mirrored {type : DataType} (hy : y.isNull = false) :
    op.Mirrored isTest (s.compareValues op (.typeName type) y)
      (s.compareValues op.mirror y (.typeName type)) := by
  rw [compareValues_left_error rfl]
  cases h : s.operand y none with
  | ok b =>
      rw [compareValues_right_error h (operand_not_null h hy) rfl]
      exact .refused
  | error fault =>
      rw [compareValues_left_error h]
      exact .refused

/-- What is `Mirrored` for all comparisons of `x` with `y` is so for those of `y` with `x`. -/
theorem compareValues_turn (op : Comparison)
    (h : ∀ op : Comparison,
      op.Mirrored isTest (s.compareValues op x y) (s.compareValues op.mirror y x)) :
    op.Mirrored isTest (s.compareValues op y x) (s.compareValues op.mirror x y) := by
  have hmirror := (h op.mirror).symm
  rwa [Comparison.mirror_mirror] at hmirror

/-! ## Conditions beside literals

A condition is read as a boolean wherever it stands, but it offers no type to the literal beside
it. So a literal is read by itself there, and its type decides whether the two may be compared. -/

/-- By itself a literal is not `comparable` with a boolean, unless it is written as one or as
`null`. -/
theorem alone_incomparable {v : Value} (hnull : l.kind ≠ .null) (hboolean : l.kind ≠ .boolean)
    (hv : l.alone = .ok v) : v.dataType.comparable .boolean = false := by
  have hmade {α : Type} {read : Except FilterError α} {make : α → Value}
      (hmake : ∀ a, (make a).dataType.comparable .boolean = false)
        (h : (do return make (← read)) = .ok v) :
      v.dataType.comparable .boolean = false := by
    obtain ⟨a, -, ha⟩ := Checked.bind_ok.mp h
    obtain rfl := Checked.pure_ok.mp ha
    exact hmake a
  unfold Literal.alone at hv
  cases hkind : l.kind <;> simp only [hkind] at hv
  case null => exact absurd hkind hnull
  case boolean => exact absurd hkind hboolean
  case integer =>
    split at hv
    next n _ =>
      obtain rfl := Except.ok.inj hv
      split <;> rfl
    next => exact hmade (fun _ => rfl) hv
  case double =>
    unfold Literal.readFloat at hv
    split at hv <;> cases hv
    rfl
  case string =>
    cases hv
    rfl
  case decimal => exact hmade (fun _ => rfl) hv
  case date => exact hmade (fun _ => rfl) hv
  case timeOfDay => exact hmade (fun _ => rfl) hv
  case dateTimeOffset => exact hmade (fun _ => rfl) hv
  case guid => exact hmade (fun _ => rfl) hv

theorem operand_alone (hl : l.isNull = false) :
    s.operand (.literal l) none = (l.alone >>= fun v =>
      .ok ⟨.parameter v, .of v.dataType, false⟩) := by
  rw [operand, if_neg (by simp [hl]), coerce, if_neg (by simp [hl])]
  rfl

/-- A literal that is not written as a boolean or as `null` is never compared with a condition. -/
theorem compareValues_condition_mirrored
    (hx : ∀ beside, s.operand x beside = .ok ⟨e, .of .boolean, false⟩) (htype : x.type? = none)
    (hl : l.isNull = false) (hnull : l.kind ≠ .null) (hboolean : l.kind ≠ .boolean) :
    op.Mirrored isTest (s.compareValues op x (.literal l))
      (s.compareValues op.mirror (.literal l) x) := by
  -- Beside a condition the literal is refused as no boolean, and on its own as none to compare with
  -- one.
  have hbeside : s.operand (.literal l) (some (.of .boolean)) =
      .error (.invalidValue l.written (toString DataType.boolean) (.doesNotConvert l.kind)) := by
    rw [operand, if_neg (by simp [hl]), coerce, if_neg (by simp [hl])]
    simp only [ValueType.of, reduceCtorEq, if_false, coerceTo, List.mem_singleton, hboolean]
    rfl
  have hbefore : s.operand (.literal l) x.type? = _ := htype ▸ operand_alone hl
  rw [compareValues_right_error (hx _) rfl hbeside]
  cases halone : l.alone with
  | error fault =>
      rw [halone] at hbefore
      rw [compareValues_left_error hbefore]
      exact .refused
  | ok v =>
      rw [halone] at hbefore
      rw [compareValues_eq hbefore (hx _) rfl rfl]
      cases hcheck : ValueType.checkComparable (.of v.dataType) (.of .boolean) with
      | error fault => exact .refused
      | ok =>
          have hcomparable := (ValueType.checkComparable_ok.mp hcheck).1
          rw [ValueType.of, ValueType.of, alone_incomparable hnull hboolean halone] at hcomparable
          cases hcomparable

/-- An operand that is no literal is compared in both orders or in none, unless it is a condition
beside a literal that could be read as a boolean. -/
theorem compareValues_other_mirrored (hx : ∀ l, x ≠ .literal l) (htest : y.isNull = true → isTest)
    (hcondition : ∀ l, y = .literal l → l.isNull = false → x.isCondition = true →
      l.kind ≠ .null ∧ l.kind ≠ .boolean) :
    op.Mirrored isTest (s.compareValues op x y) (s.compareValues op.mirror y x) := by
  cases hy : y.isNull with
  | true =>
      cases y with
      | literal l => exact compareValues_turn op fun _ => compareValues_null_mirrored (htest hy) hy
      | predicate | value | member | subquery | typeName => cases hy
  | false =>
      cases x with
      | literal l => exact absurd rfl (hx l)
      | typeName type => exact compareValues_typeName_mirrored hy
      | value | member => exact compareValues_mirrored (fun _ => rfl) rfl rfl hy
      | predicate | subquery =>
          cases y with
          | literal l =>
              obtain ⟨hnull, hboolean⟩ := hcondition l rfl hy rfl
              exact compareValues_condition_mirrored (fun _ => rfl) rfl hy hnull hboolean
          | predicate | value | member | subquery | typeName =>
              exact compareValues_mirrored (fun _ => rfl) rfl rfl hy

/-- The form of `compareValues_other_mirrored` for all operands, where of two literals one has to
be null. -/
theorem compareValues_mirror (htest : x.isNull = true ∨ y.isNull = true → isTest)
    (hliterals : ∀ l l', x = .literal l → y = .literal l' → l.isNull = true ∨ l'.isNull = true)
    (hleft : ∀ l, x = .literal l → l.isNull = false → y.isCondition = true →
      l.kind ≠ .null ∧ l.kind ≠ .boolean)
    (hright : ∀ l, y = .literal l → l.isNull = false → x.isCondition = true →
      l.kind ≠ .null ∧ l.kind ≠ .boolean) :
    op.Mirrored isTest (s.compareValues op x y) (s.compareValues op.mirror y x) := by
  by_cases hx : ∃ l, x = .literal l
  case neg => exact compareValues_other_mirrored (not_exists.mp hx) (fun h => htest (.inr h)) hright
  by_cases hy : ∃ l, y = .literal l
  case neg =>
    exact compareValues_turn op fun _ =>
      compareValues_other_mirrored (not_exists.mp hy) (fun h => htest (.inl h)) hleft
  obtain ⟨l, rfl⟩ := hx
  obtain ⟨l', rfl⟩ := hy
  rcases hliterals l l' rfl rfl with hl | hl'
  · exact compareValues_null_mirrored (htest (.inl hl)) hl
  · exact compareValues_turn op fun _ => compareValues_null_mirrored (htest (.inr hl')) hl'

/-! ## The law

The hypotheses exclude what is not the same from both sides: two literals, the first of which is
read by itself, and a literal of the kind `null` with another text beside a condition. -/

/-- **Comparisons may be turned round.** `compare` takes the operands in both orders or in none. If
the outcome is no test, it has the same operands, so a literal is bound as the same value on either
side. -/
theorem compare_mirror (s : Schema) (op : Comparison) {x y : Compiled}
    (hliterals : ∀ l l', x = .literal l → y = .literal l' → l.isNull = true ∨ l'.isNull = true)
    (hleft : ∀ l, x = .literal l → l.kind = .null → y.isCondition = true → l.isNull = true)
    (hright : ∀ l, y = .literal l → l.kind = .null → x.isCondition = true → l.isNull = true) :
    op.Mirrored (x.Tests y) (s.compose (.compare op) x y) (s.compose (.compare op.mirror) y x) := by
  show op.Mirrored (x.Tests y) (s.compare op x y) (s.compare op.mirror y x)
  have hform {l : Literal} (hnull : l.isNull = false) (hword : l.kind = .null → l.isNull = true)
      (hboolean : (Compiled.literal l).boolean? = none) : l.kind ≠ .null ∧ l.kind ≠ .boolean := by
    refine ⟨fun hkind => ?_, fun hkind => ?_⟩
    · rw [hword hkind] at hnull
      cases hnull
    · rw [Compiled.boolean?, if_pos hkind] at hboolean
      cases hboolean
  -- A condition beside a boolean is tested, on the right or on the left.
  rcases compare_cases x y with ⟨b, hx, hb⟩ | ⟨b, hb, hy⟩ | ⟨hl, hr⟩
  · rw [compare_left hx hb, compare_right hb hx]
    exact compareCondition_mirrored (.inr (.inl ⟨hx, Option.isSome_of_eq_some hb⟩)) x b
  · rw [compare_right hb hy, compare_left hy hb]
    exact compareCondition_mirrored (.inr (.inr ⟨hy, Option.isSome_of_eq_some hb⟩)) y b
  · rw [compare_values hl hr, compare_values hr hl]
    refine compareValues_mirror .inl hliterals ?_ ?_
    · rintro l rfl hnull hy
      exact hform hnull (hleft l rfl · hy) (hr.resolve_left (by simp [hy]))
    · rintro l rfl hnull hx
      exact hform hnull (hright l rfl · hx) (hl.resolve_left (by simp [hx]))

/-- Whether a user has a name, as a condition. -/
def named : Compiled :=
  .predicate (.isNotNull (.qualified "t0" "name"))

/-- A literal of the form of `null` with another text is bound on the left of a condition, and
refused on its right. -/
theorem compare_null_form_not_mirrored :
    (∀ l l', Compiled.literal ⟨"none", .null⟩ = .literal l → named = .literal l' →
      l.isNull = true ∨ l'.isNull = true) ∧
    (∃ z, (default : Schema).compose (.compare .eq) (.literal ⟨"none", .null⟩) named = .ok z) ∧
    ¬∃ z, (default : Schema).compose (.compare (Comparison.mirror .eq)) named
      (.literal ⟨"none", .null⟩) = .ok z := by
  refine ⟨nofun, ⟨_, rfl⟩, ?_⟩
  rintro ⟨z, hz⟩
  cases hz

/-- The number of users, of the type `long`. -/
def headcount : Compiled :=
  .value (.qualified "t0" "users") (.of .long)

/-- A literal beside `headcount` is bound as a 64-bit integer on either side. -/
theorem compare_long_mirrored : Comparison.Mirrored .gt (headcount.Tests (.literal ⟨"5", .integer⟩))
      ((default : Schema).compose (.compare .gt) headcount (.literal ⟨"5", .integer⟩))
      ((default : Schema).compose (.compare .lt) (.literal ⟨"5", .integer⟩) headcount) ∧
    (default : Schema).compose (.compare .lt) (.literal ⟨"5", .integer⟩) headcount =
      .ok (.predicate (.binary (.parameter (.long 5)) (.compare .lt) (.qualified "t0" "users"))) :=
  ⟨compare_mirror default .gt nofun nofun (by rintro l ⟨⟩; nofun), rfl⟩

end Schema

end FilterSql
