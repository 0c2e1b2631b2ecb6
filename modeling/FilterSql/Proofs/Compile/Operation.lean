import FilterSql.Compile.BuiltInCall
import FilterSql.Compile.Operator
import FilterSql.Compile.SchemaCall
import FilterSql.Proofs.Compile.Outcome
import FilterSql.Proofs.Sql.Standard

/-!
# What operators and functions do with their operands

For each operator and each function of the compiler: what it has done if it has not failed, that
is, which operands it has read as what, and what it has made of them. Built-in functions are sorted
into families, and one relation `Calls` covers all of them (`Schema.callBuiltIn_ok`). The
conditions under which a call is refused are left to those who need them.
-/

namespace FilterSql

open Sql (Expr)

/-- The expression of an operand, which neither a `literal` nor a `typeName` has. -/
def Compiled.expr? : Compiled → Option Expr
  | predicate e | value e _ | member e _ | subquery e => some e
  | literal _ | typeName _ => none

/-! ## Operators

For each operation of the compiler one lemma tells what it has done if it has not failed, with the
checks that have passed. The proofs below cite these lemmas and do not open the definitions
again. -/

namespace Compiled

variable {x y z : Compiled}

theorem expr?_of_predicate {e : Expr} (h : x.predicate? = some e) : x.expr? = some e := by
  cases x with
  | predicate | subquery => exact h
  | value | member =>
      obtain ⟨-, rfl⟩ := Option.ite_some_none_eq_some.mp h
      rfl
  | literal | typeName => cases h

theorem condition_ok {e : Expr} : x.condition = .ok e ↔ x.predicate? = some e := by
  rw [condition_eq]
  cases x.predicate? <;> simp

theorem combine_ok {op : Sql.Operator} :
    combine op x y = .ok z ↔
      ∃ l r, x.predicate? = some l ∧ y.predicate? = some r ∧ .predicate (.binary l op r) = z := by
  simp only [combine, Checked.bind_ok, Checked.pure_ok, condition_ok]
  grind

theorem negateCondition_ok :
    x.negateCondition = .ok z ↔ ∃ e, x.predicate? = some e ∧ .predicate (.not e) = z := by
  rw [negateCondition, isPredicate_eq, condition_eq]
  cases x.predicate? <;> simp [Functor.map, Except.map]

theorem compareCondition_ok {op : Comparison} {expected : Bool} :
    x.compareCondition op (some expected) = .ok z ↔
      ∃ e kept, x.predicate? = some e ∧ (op = .eq ∧ kept = expected ∨ op = .ne ∧ kept = !expected) ∧
        .predicate (if kept then e else .not e) = z := by
  cases op <;>
    simp [compareCondition, Checked.bind_ok, Checked.pure_ok, condition_ok, -bind_pure_comp]

/-- `negate` takes nothing but the literal of a number. -/
theorem negate_ok (h : x.negate = .ok z) :
    ∃ l l' : Literal, x = .literal l ∧ z = .literal l' ∧ l.kind.isNumeric ∧ l'.kind = l.kind := by
  cases x with
  | literal l =>
      by_cases hl : l.kind.isNumeric
      · simp only [negate, hl, if_true, Except.ok.injEq] at h
        exact ⟨l, _, rfl, h.symm, hl, rfl⟩
      · simp [negate, hl] at h
  | predicate | value | member | subquery | typeName => simp [negate] at h

end Compiled

theorem ValueType.checkComparable_ok {a b : ValueType} : a.checkComparable b = .ok () ↔
    a.dataType.comparable b.dataType = true ∧ ∀ E E', a.enumType = some E → b.enumType = some E' →
    E = E' := by
  rw [checkComparable]
  cases hcomparable : a.dataType.comparable b.dataType with
  | false => simp
  | true =>
      cases ha : a.enumType with
      | none => simp
      | some E =>
          cases hb : b.enumType with
          | none => simp
          | some E' => simp

namespace Schema

variable {s : Schema} {x y z : Compiled}

theorem operands_ok {l r : Operand} :
    s.operands x y = .ok (l, r) ↔
      s.operand x y.type? = .ok l ∧
      s.operand y (if l.isNull then none else some l.type) = .ok r := by
  simp only [operands, Checked.bind_ok, Checked.pure_ok, Prod.mk.injEq]
  constructor
  · rintro ⟨_, hl, _, hr, rfl, rfl⟩
    exact ⟨hl, hr⟩
  · rintro ⟨hl, hr⟩
    exact ⟨l, hl, r, hr, rfl, rfl⟩

/-- `operand` binds a literal, read as a value of the type `beside` it, unless the literal is
null. -/
theorem literalOperand_ok {l : Literal} {beside : Option ValueType} {o : Operand}
    (h : s.operand (.literal l) beside = .ok o) :
    (l.isNull = true ∧ o = ⟨.constant .null, beside.getD (.of .null), true⟩) ∨
      l.isNull = false ∧ ∃ v, s.coerce l beside = .ok v ∧
        o = ⟨.parameter v, (beside.filter (·.dataType ≠ .null)).getD (.of v.dataType), false⟩ := by
  cases hnull : l.isNull with
  | true =>
      rw [operand, if_pos hnull] at h
      exact .inl ⟨rfl, (Except.ok.inj h).symm⟩
  | false =>
      rw [operand, if_neg (by simp [hnull])] at h
      obtain ⟨v, hv, h⟩ := Checked.bind_ok.mp h
      exact .inr ⟨rfl, v, hv, (Checked.pure_ok.mp h).symm⟩

theorem compareNull_ok {op : Comparison} {e : Expr} :
    compareNull op e = .ok z ↔
      op = .eq ∧ .predicate (.isNull e) = z ∨ op = .ne ∧ .predicate (.isNotNull e) = z := by
  cases op <;> simp [compareNull]

/-- `compareValues` compares two values, or tests one for null if the other is the literal
`null`. -/
theorem compareValues_ok {op : Comparison} (h : s.compareValues op x y = .ok z) :
    ∃ l r, s.operands x y = .ok (l, r) ∧
      if l.isNull then compareNull op r.expr = .ok z
      else if r.isNull then compareNull op l.expr = .ok z
      else l.type.checkComparable r.type = .ok () ∧
      .predicate (.binary l.expr (.compare op) r.expr) = z := by
  obtain ⟨⟨l, r⟩, hlr, h⟩ := Checked.bind_ok.mp h
  refine ⟨l, r, hlr, ?_⟩
  by_cases hl : l.isNull
  · simpa [hl] using h
  · by_cases hr : r.isNull
    · simpa [hl, hr] using h
    · simp only [hl, hr, Bool.false_eq_true, if_false, Checked.bind_ok, Checked.pure_ok] at h ⊢
      obtain ⟨⟨⟩, hcheck, hz⟩ := h
      exact ⟨hcheck, hz⟩

/-! A condition beside a boolean literal is compared with it, whichever side it is on. -/

theorem compare_left {op : Comparison} {expected : Bool} (hx : x.isCondition = true)
    (hy : y.boolean? = some expected) :
    s.compare op x y = x.compareCondition op (some expected) := by
  simp [compare, hx, hy]

theorem compare_right {op : Comparison} {expected : Bool} (hx : x.boolean? = some expected)
    (hy : y.isCondition = true) :
    s.compare op x y = y.compareCondition op (some expected) := by
  have hx' : x.isCondition = false := by
    cases x <;> simp_all [Compiled.boolean?, Compiled.isCondition]
  simp [compare, hx, hx', hy]

theorem compare_values {op : Comparison} (hx : x.isCondition = false ∨ y.boolean? = none)
    (hy : y.isCondition = false ∨ x.boolean? = none) :
    s.compare op x y = s.compareValues op x y := by
  have hleft : (x.isCondition && y.boolean?.isSome) = false := by
    rcases hx with hx | hx <;> simp [hx]
  have hright : (y.isCondition && x.boolean?.isSome) = false := by
    rcases hy with hy | hy <;> simp [hy]
  rw [compare, hleft, hright]
  rfl

/-- Two operands of `compare` are a condition and a boolean literal, in either order, or two
values. -/
theorem compare_cases (x y : Compiled) :
    (∃ expected, x.isCondition = true ∧ y.boolean? = some expected) ∨
    (∃ expected, x.boolean? = some expected ∧ y.isCondition = true) ∨
    (x.isCondition = false ∨ y.boolean? = none) ∧ (y.isCondition = false ∨ x.boolean? = none) := by
  cases hx : x.isCondition <;> cases hy : y.isCondition <;> cases hbx : x.boolean? <;>
    cases hby : y.boolean? <;> simp

/-- **What a comparison has done.** `Compiled.compareCondition` is only ever given a boolean. -/
theorem compare_ok {op : Comparison} (h : s.compare op x y = .ok z) :
    (∃ expected, x.isCondition = true ∧ y.boolean? = some expected ∧
      x.compareCondition op (some expected) = .ok z) ∨
    (∃ expected, x.boolean? = some expected ∧ y.isCondition = true ∧
      y.compareCondition op (some expected) = .ok z) ∨
    ((x.isCondition = false ∨ y.boolean? = none) ∧ (y.isCondition = false ∨ x.boolean? = none)) ∧
      s.compareValues op x y = .ok z := by
  rcases compare_cases x y with ⟨b, hx, hy⟩ | ⟨b, hx, hy⟩ | ⟨hx, hy⟩
  · exact .inl ⟨b, hx, hy, by rwa [compare_left hx hy] at h⟩
  · exact .inr (.inl ⟨b, hx, hy, by rwa [compare_right hx hy] at h⟩)
  · exact .inr (.inr ⟨⟨hx, hy⟩, by rwa [compare_values hx hy] at h⟩)

/-- `compare` gives a condition, whatever is compared. -/
theorem compare_isCondition {op : Comparison} (h : s.compare op x y = .ok z) :
    z.isCondition = true := by
  have htest {x : Compiled} {b : Bool} (h : x.compareCondition op (some b) = .ok z) :
      z.isCondition = true := by
    obtain ⟨e, kept, -, -, rfl⟩ := Compiled.compareCondition_ok.mp h
    rfl
  have hnull {e : Expr} (h : compareNull op e = .ok z) : z.isCondition = true := by
    rcases compareNull_ok.mp h with ⟨-, rfl⟩ | ⟨-, rfl⟩ <;> rfl
  rcases compare_ok h with ⟨b, -, -, h⟩ | ⟨b, -, -, h⟩ | ⟨-, h⟩
  · exact htest h
  · exact htest h
  · obtain ⟨l, r, -, h⟩ := compareValues_ok h
    split at h
    · exact hnull h
    · split at h
      · exact hnull h
      · obtain ⟨-, rfl⟩ := h
        rfl

/-- `widen?` gives a numeric type. -/
theorem widen?_isNumeric {a b type : DataType} (h : a.widen? b = some type) :
    type.isNumeric = true := by
  rw [DataType.widen?] at h
  split at h
  · rename_i l r hl hr
    have hshort : DataType.short.isNumeric = true := rfl
    have ha : a.isNumeric = true := by rw [DataType.isNumeric, hl, Option.isSome_some]
    have hb : b.isNumeric = true := by rw [DataType.isNumeric, hr, Option.isSome_some]
    obtain rfl := Option.some.inj h
    split <;> split
    · exact hshort
    · exact ha
    · exact hshort
    · exact hb
  · cases h

theorem calculate_ok {op : Arithmetic} (h : s.calculate op x y = .ok z) :
    ∃ l r type, s.operand x (x.arithmeticType (y.type?.map (·.loose))) = .ok l ∧
      s.operand y (y.arithmeticType (if l.isNull then none else some l.type.loose)) = .ok r ∧
      l.isNull = false ∧ r.isNull = false ∧ l.type.dataType.widen? r.type.dataType = some type ∧
      .ofType (.binary l.expr (.arith op) r.expr) type = z := by
  simp only [calculate, Checked.bind_ok] at h
  obtain ⟨l, hl, r, hr, h⟩ := h
  cases hlnull : l.isNull <;> cases hrnull : r.isNull <;>
    simp only [hlnull, hrnull, Bool.or_self, Bool.or_true, Bool.true_or, Bool.false_eq_true,
      if_true, if_false, Checked.throw_ok, Checked.bind_ok, false_and, exists_false] at h
  cases hwiden : l.type.dataType.widen? r.type.dataType with
  | none => simp [hwiden, Checked.throw_ok] at h
  | some type =>
      rw [hwiden] at h
      exact ⟨l, r, type, hl, hr, hlnull, hrnull, hwiden, Checked.pure_ok.mp h⟩

end Schema

/-! ## Built-in functions

They fall into a few families, whose members differ in a name, a field or a type. -/

namespace BuiltIn

inductive Family where
  /-- Looks for a text, beside which anything may stand within the margins. -/
  | matching (m : Sql.Like.Margins)
  /-- A function of a single text. -/
  | ofText (name : String) (type : DataType)
  | indexOf
  | substring
  | concat
  /-- A part of a date or a time. -/
  | field (field : Sql.DateField)
  /-- The date or the time of an instant. -/
  | instantPart (type : DataType)
  | now
  | rounding (name : String)
  | cast
  | isOf

def family : BuiltIn → Family
  | contains => .matching ⟨true, true⟩
  | startsWith => .matching ⟨false, true⟩
  | endsWith => .matching ⟨true, false⟩
  | length => .ofText "CHAR_LENGTH" .long
  | toLower => .ofText "LOWER" .string
  | toUpper => .ofText "UPPER" .string
  | trim => .ofText "TRIM" .string
  | indexOf => .indexOf
  | substring => .substring
  | concat => .concat
  | year => .field .year
  | month => .field .month
  | day => .field .day
  | hour => .field .hour
  | minute => .field .minute
  | second => .field .second
  | date => .instantPart .date
  | time => .instantPart .time
  | now => .now
  | round => .rounding "ROUND"
  | floor => .rounding "FLOOR"
  | ceiling => .rounding "CEILING"
  | cast => .cast
  | isOf => .isOf

namespace Family

/-- Whether the argument behind the first one becomes a pattern of `LIKE`. -/
def isMatching : Family → Bool
  | matching _ => true
  | _ => false

/-- The names of the functions of SQL that a family calls. -/
def sqlNames : Family → List String
  | ofText name _ | rounding name => [name]
  | matching _ | concat => ["CONCAT"]
  | substring => ["SUBSTRING"]
  | indexOf | field _ | instantPart _ | now | cast | isOf => []

end Family

end BuiltIn

namespace Schema

variable {s : Schema} {f : BuiltIn} {x z : Compiled} {e : Expr}

theorem argument_ok {accepts : DataType → Bool} {beside : Option ValueType} {o : Operand} :
    s.argument f accepts beside x = .ok o ↔
      s.operand x beside = .ok o ∧ o.isNull = false ∧ accepts o.type.dataType = true := by
  simp only [argument, Checked.bind_ok]
  constructor
  · rintro ⟨o', ho, h⟩
    cases hnull : o'.isNull <;> cases haccepts : accepts o'.type.dataType <;>
      simp [hnull, haccepts, Checked.throw_ok, Checked.bind_ok, Checked.pure_ok, -bind_pure_comp]
        at h
    subst h
    exact ⟨ho, hnull, haccepts⟩
  · rintro ⟨ho, hnull, haccepts⟩
    exact ⟨o, ho, by simp [hnull, haccepts, Checked.pure_ok]⟩

/-- The operand `x` is put into an expression as `e`, after it has been read beside the given
type. -/
def Reads (s : Schema) (x : Compiled) (beside : Option ValueType) (e : Expr) : Prop :=
  ∃ o, s.operand x beside = .ok o ∧ o.isNull = false ∧ o.expr = e

theorem reads_of_argument {accepts : DataType → Bool} {beside : Option ValueType}
    (h : (do return (← s.argument f accepts beside x).expr) = .ok e) : s.Reads x beside e := by
  obtain ⟨o, ho, he⟩ := Checked.bind_ok.mp h
  obtain ⟨hoperand, hnull, -⟩ := argument_ok.mp ho
  exact ⟨o, hoperand, hnull, Checked.pure_ok.mp he⟩

theorem textArgument_ok (h : s.textArgument f x = .ok e) : s.Reads x (some (.of .string)) e :=
  reads_of_argument h

theorem wholeArgument_ok (h : s.wholeArgument f x = .ok e) : s.Reads x (some (.of .int)) e :=
  reads_of_argument h

theorem dayArgument_ok (h : s.dayArgument f x = .ok e) : s.Reads x none e :=
  reads_of_argument h

theorem clockArgument_ok (h : s.clockArgument f x = .ok e) : s.Reads x none e :=
  reads_of_argument h

/-- `Pattern s m x e escape`: as a pattern, `x` is `e`. A string literal is escaped right here, and
any other text is joined with wildcards in the database. -/
inductive Pattern (s : Schema) (m : Sql.Like.Margins) : Compiled → Expr → Option Char → Prop where
  | written {l : Literal} (hkind : l.kind = .string) :
      Pattern s m (.literal l) (.parameter (.string (Sql.Like.pattern m l.text)))
        (Sql.Like.escapeOf l.text)
  | computed {x : Compiled} {e : Expr} (hx : ∀ l, x = .literal l → l.kind ≠ .string)
      (he : s.Reads x (some (.of .string)) e) :
      Pattern s m x (.function "CONCAT" (m.around (.constant (.string "%")) [e])) none

theorem likePattern_ok {m : Sql.Like.Margins} {escape : Option Char}
    (h : s.likePattern f m x = .ok (e, escape)) : s.Pattern m x e escape := by
  have hcomputed (hx : ∀ l, x = .literal l → l.kind ≠ .string)
      (h : (do
        let e ← s.textArgument f x
        return (Expr.function "CONCAT" (m.around (.constant (.string "%")) [e]), none)) = .ok (e,
        escape)) :
      s.Pattern m x e escape := by
    obtain ⟨text, htext, hpair⟩ := Checked.bind_ok.mp h
    obtain ⟨rfl, rfl⟩ := Prod.mk.inj (Checked.pure_ok.mp hpair)
    exact .computed hx (textArgument_ok htext)
  cases x with
  | literal l =>
      by_cases hkind : l.kind = .string
      · simp only [likePattern, hkind, if_true, Except.ok.injEq, Prod.mk.injEq] at h
        obtain ⟨rfl, rfl⟩ := h
        exact .written hkind
      · exact hcomputed (by rintro _ ⟨⟩; exact hkind)
          (by simpa only [likePattern, hkind, if_false] using h)
  | predicate | value | member | subquery | typeName => exact hcomputed (by rintro _ ⟨⟩) h

/-- `Start s x e`: as a start counted from one, `x` is `e`. A literal is counted up right here, and
anything else in the database. -/
inductive Start (s : Schema) : Compiled → Expr → Prop where
  | written {l : Literal} {i : Int} (hkind : l.kind = .integer)
      (hi : Text.intOfBits? 32 l.text.toList = .ok i) :
      Start s (.literal l) (.parameter (.int (i + 1)))
  | computed {x : Compiled} {e : Expr} (hx : ∀ l, x = .literal l → l.kind ≠ .integer)
      (he : s.Reads x (some (.of .int)) e) :
      Start s x (.binary e (.arith .add) (.constant (.int 1)))

theorem startArgument_ok (h : s.startArgument f x = .ok e) : s.Start x e := by
  have hcomputed (hx : ∀ l, x = .literal l → l.kind ≠ .integer)
      (h : (do
        let e ← s.wholeArgument f x
        return (Expr.binary e (.arith .add) (.constant (.int 1)))) = .ok e) : s.Start x e := by
    obtain ⟨whole, hwhole, he⟩ := Checked.bind_ok.mp h
    obtain rfl := Checked.pure_ok.mp he
    exact .computed hx (wholeArgument_ok hwhole)
  cases x with
  | literal l =>
      by_cases hkind : l.kind = .integer
      · simp only [startArgument, hkind, if_true] at h
        cases hi : Text.intOfBits? 32 l.text.toList with
        | error _ => simp [hi, Literal.refuse] at h
        | ok i =>
            by_cases hlt : i + 1 < 2 ^ 31
            · simp only [hi, hlt, if_true, Except.ok.injEq] at h
              subst h
              exact .written hkind hi
            · simp only [hi, hlt, if_false, Literal.refuse, reduceCtorEq] at h
      · exact hcomputed (by rintro _ ⟨⟩; exact hkind)
          (by simpa only [startArgument, hkind, if_false] using h)
  | predicate | value | member | subquery | typeName => exact hcomputed (by rintro _ ⟨⟩) h

/-- `Calls s family xs z`: what the arguments `xs` of a function of the family have become. -/
inductive Calls (s : Schema) : BuiltIn.Family → List Compiled → Compiled → Prop where
  | matching {m : Sql.Like.Margins} {x y : Compiled} {text pattern : Expr} {escape : Option Char}
      (htext : s.Reads x (some (.of .string)) text) (hpattern : s.Pattern m y pattern escape) :
      Calls s (.matching m) [x, y] (.predicate (.like text pattern escape))
  | ofText {name : String} {type : DataType} {x : Compiled} {text : Expr}
      (htext : s.Reads x (some (.of .string)) text) :
      Calls s (.ofText name type) [x] (.ofType (.function name [text]) type)
  | indexOf {x y : Compiled} {text part : Expr} (htext : s.Reads x (some (.of .string)) text)
      (hpart : s.Reads y (some (.of .string)) part) :
      Calls s .indexOf [x, y]
        (.ofType (.binary (.position part text) (.arith .sub) (.constant (.int 1))) .long)
  | rest {x y : Compiled} {text start : Expr} (htext : s.Reads x (some (.of .string)) text)
      (hstart : s.Start y start) :
      Calls s .substring [x, y] (.ofType (.function "SUBSTRING" [text, start]) .string)
  | substring {x y w : Compiled} {text start length : Expr}
      (htext : s.Reads x (some (.of .string)) text) (hstart : s.Start y start)
      (hlength : s.Reads w (some (.of .int)) length) :
      Calls s .substring [x, y, w] (.ofType (.function "SUBSTRING" [text, start, length]) .string)
  | concat {x y : Compiled} {left right : Expr} (hleft : s.Reads x (some (.of .string)) left)
      (hright : s.Reads y (some (.of .string)) right) :
      Calls s .concat [x, y] (.ofType (.function "CONCAT" [left, right]) .string)
  | field {field : Sql.DateField} {x : Compiled} {e : Expr} (he : s.Reads x none e) :
      Calls s (.field field) [x] (.ofType (.extract field e) .int)
  | instantPart {type : DataType} {x : Compiled} {e : Expr} (he : s.Reads x none e)
      (htype : type ∈ Sql.castTypes) :
      Calls s (.instantPart type) [x] (.ofType (.cast e type) type)
  | now : Calls s .now [] (.ofType .now .timestamp)
  | rounding {name : String} {x : Compiled} {o : Operand} (ho : s.operand x none = .ok o) :
      Calls s (.rounding name) [x] (.value (.function name [o.expr]) o.type.loose)
  | cast {x : Compiled} {t : DataType} {o : Operand} (ho : s.operand x none = .ok o)
      (ht : t ∈ Sql.castTypes) :
      Calls s .cast [x, .typeName t] (.ofType (.cast o.expr t) t)

variable {args : List Compiled}

/-! A call that has not failed has as many arguments as `BuiltIn.arity` says. -/

theorem callBuiltIn_counted : s.callBuiltIn f args = .ok z ↔
    (f.arity.1 ≤ args.length ∧ args.length ≤ f.arity.2) ∧ s.applyBuiltIn f args = .ok z := by
  rw [callBuiltIn, Checked.bind_ok]
  constructor
  · rintro ⟨⟨⟩, hcount, h⟩
    exact ⟨BuiltIn.checkArity_ok.mp hcount, h⟩
  · rintro ⟨hcount, h⟩
    exact ⟨(), BuiltIn.checkArity_ok.mpr hcount, h⟩

theorem callBuiltIn_one (hf : f.arity = (1, 1)) :
    s.callBuiltIn f args = .ok z ↔ ∃ x, args = [x] ∧ s.applyBuiltIn f [x] = .ok z := by
  rw [callBuiltIn_counted, hf]
  rcases args with _ | ⟨x, _ | ⟨y, rest⟩⟩ <;> simp

theorem callBuiltIn_two (hf : f.arity = (2, 2)) :
    s.callBuiltIn f args = .ok z ↔ ∃ x y, args = [x, y] ∧ s.applyBuiltIn f [x, y] = .ok z := by
  rw [callBuiltIn_counted, hf]
  rcases args with _ | ⟨x, _ | ⟨y, _ | ⟨w, rest⟩⟩⟩ <;> simp [and_assoc]

/-- `substring` is called with two arguments or with three. -/
theorem callBuiltIn_substring : s.callBuiltIn .substring args = .ok z ↔
    (∃ x y, args = [x, y] ∧ s.applyBuiltIn .substring [x, y] = .ok z) ∨
      ∃ x y w, args = [x, y, w] ∧ s.applyBuiltIn .substring [x, y, w] = .ok z := by
  have harity : BuiltIn.arity .substring = (2, 3) := rfl
  rw [callBuiltIn_counted, harity]
  rcases args with _ | ⟨x, _ | ⟨y, _ | ⟨w, _ | ⟨v, rest⟩⟩⟩⟩
  case cons.cons.cons.cons =>
    have hcount : ¬ (x :: y :: w :: v :: rest).length ≤ 3 := by
      simp only [List.length_cons]
      omega
    exact iff_of_false (fun h => hcount h.1.2) (by simp)
  all_goals simp [and_assoc]

variable {y w : Compiled}

theorem matching_ok {m : Sql.Like.Margins} (h : s.matching f m [x, y] = .ok z) :
    s.Calls (.matching m) [x, y] z := by
  rw [matching_pair] at h
  obtain ⟨text, htext, h⟩ := Checked.bind_ok.mp h
  obtain ⟨⟨pattern, escape⟩, hpattern, h⟩ := Checked.bind_ok.mp h
  obtain rfl := Checked.pure_ok.mp h
  exact .matching (textArgument_ok htext) (likePattern_ok hpattern)

theorem textFunction_ok {name : String} {type : DataType}
    (h : s.textFunction f name type [x] = .ok z) : s.Calls (.ofText name type) [x] z := by
  rw [textFunction_singleton] at h
  obtain ⟨text, htext, h⟩ := Checked.bind_ok.mp h
  obtain rfl := Checked.pure_ok.mp h
  exact .ofText (textArgument_ok htext)

theorem fieldFunction_ok {field : Sql.DateField} {read : Compiled → Except FilterError Expr}
    (hread : ∀ x e, read x = .ok e → s.Reads x none e)
    (h : fieldFunction f field read [x] = .ok z) : s.Calls (.field field) [x] z := by
  rw [fieldFunction_singleton] at h
  obtain ⟨e, he, h⟩ := Checked.bind_ok.mp h
  obtain rfl := Checked.pure_ok.mp h
  exact .field (hread x e he)

theorem castFunction_ok {type : DataType} {read : Compiled → Except FilterError Expr}
    (htype : type ∈ Sql.castTypes) (hread : ∀ x e, read x = .ok e → s.Reads x none e)
    (h : castFunction f type read [x] = .ok z) : s.Calls (.instantPart type) [x] z := by
  rw [castFunction_singleton] at h
  obtain ⟨e, he, h⟩ := Checked.bind_ok.mp h
  obtain rfl := Checked.pure_ok.mp h
  exact .instantPart (hread x e he) htype

theorem roundingFunction_ok {name : String} (h : s.roundingFunction f name [x] = .ok z) :
    s.Calls (.rounding name) [x] z := by
  rw [roundingFunction_singleton] at h
  obtain ⟨o, ho, h⟩ := Checked.bind_ok.mp h
  obtain rfl := Checked.pure_ok.mp h
  exact .rounding (argument_ok.mp ho).1

theorem castTarget_ok {t : DataType} (h : castTarget x = .ok t) :
    x = .typeName t ∧ t ∈ Sql.castTypes := by
  cases x with
  | typeName u =>
      by_cases hu : u = .string ∨ u = .date
      · simp only [castTarget, hu, if_true, Except.ok.injEq] at h
        subst h
        refine ⟨rfl, ?_⟩
        rcases hu with rfl | rfl <;> simp [Sql.castTypes]
      · simp [castTarget, hu] at h
  | predicate | value | member | subquery | literal => simp [castTarget] at h

theorem positionFunction_ok (h : s.positionFunction f [x, y] = .ok z) :
    s.Calls .indexOf [x, y] z := by
  rw [positionFunction_pair] at h
  obtain ⟨text, htext, h⟩ := Checked.bind_ok.mp h
  obtain ⟨part, hpart, h⟩ := Checked.bind_ok.mp h
  obtain rfl := Checked.pure_ok.mp h
  exact .indexOf (textArgument_ok htext) (textArgument_ok hpart)

theorem partFunction_rest_ok (h : s.partFunction f [x, y] = .ok z) :
    s.Calls .substring [x, y] z := by
  rw [partFunction_pair] at h
  obtain ⟨text, htext, h⟩ := Checked.bind_ok.mp h
  obtain ⟨start, hstart, h⟩ := Checked.bind_ok.mp h
  obtain rfl := Checked.pure_ok.mp h
  exact .rest (textArgument_ok htext) (startArgument_ok hstart)

theorem partFunction_ok (h : s.partFunction f [x, y, w] = .ok z) :
    s.Calls .substring [x, y, w] z := by
  rw [partFunction_triple] at h
  obtain ⟨text, htext, h⟩ := Checked.bind_ok.mp h
  obtain ⟨start, hstart, h⟩ := Checked.bind_ok.mp h
  obtain ⟨length, hlength, h⟩ := Checked.bind_ok.mp h
  obtain rfl := Checked.pure_ok.mp h
  exact .substring (textArgument_ok htext) (startArgument_ok hstart) (wholeArgument_ok hlength)

theorem joinFunction_ok (h : s.joinFunction f [x, y] = .ok z) : s.Calls .concat [x, y] z := by
  rw [joinFunction_pair] at h
  obtain ⟨left, hleft, h⟩ := Checked.bind_ok.mp h
  obtain ⟨right, hright, h⟩ := Checked.bind_ok.mp h
  obtain rfl := Checked.pure_ok.mp h
  exact .concat (textArgument_ok hleft) (textArgument_ok hright)

theorem castTo_ok (h : s.castTo f [x, y] = .ok z) : s.Calls .cast [x, y] z := by
  rw [castTo_pair] at h
  obtain ⟨t, ht, h⟩ := Checked.bind_ok.mp h
  obtain ⟨o, ho, h⟩ := Checked.bind_ok.mp h
  obtain rfl := Checked.pure_ok.mp h
  obtain ⟨rfl, htype⟩ := castTarget_ok ht
  exact .cast ho htype

/-- **What `callBuiltIn` has done** if it has not failed. -/
theorem callBuiltIn_ok (h : s.callBuiltIn f args = .ok z) : s.Calls f.family args z := by
  -- A function is told by its family, and the number of its arguments by its arity.
  cases f with
  | contains | startsWith | endsWith =>
      obtain ⟨x, y, rfl, hz⟩ := (callBuiltIn_two rfl).mp h
      exact matching_ok hz
  | length | toLower | toUpper | trim =>
      obtain ⟨x, rfl, hz⟩ := (callBuiltIn_one rfl).mp h
      exact textFunction_ok hz
  | year | month | day =>
      obtain ⟨x, rfl, hz⟩ := (callBuiltIn_one rfl).mp h
      exact fieldFunction_ok (fun _ _ => dayArgument_ok) hz
  | hour | minute | second =>
      obtain ⟨x, rfl, hz⟩ := (callBuiltIn_one rfl).mp h
      exact fieldFunction_ok (fun _ _ => clockArgument_ok) hz
  | date =>
      obtain ⟨x, rfl, hz⟩ := (callBuiltIn_one rfl).mp h
      exact castFunction_ok (by simp [Sql.castTypes]) (fun _ _ => dayArgument_ok) hz
  | time =>
      obtain ⟨x, rfl, hz⟩ := (callBuiltIn_one rfl).mp h
      exact castFunction_ok (by simp [Sql.castTypes]) (fun _ _ => clockArgument_ok) hz
  | round | floor | ceiling =>
      obtain ⟨x, rfl, hz⟩ := (callBuiltIn_one rfl).mp h
      exact roundingFunction_ok hz
  | indexOf =>
      obtain ⟨x, y, rfl, hz⟩ := (callBuiltIn_two rfl).mp h
      exact positionFunction_ok hz
  | concat =>
      obtain ⟨x, y, rfl, hz⟩ := (callBuiltIn_two rfl).mp h
      exact joinFunction_ok hz
  | cast =>
      obtain ⟨x, y, rfl, hz⟩ := (callBuiltIn_two rfl).mp h
      exact castTo_ok hz
  | substring =>
      obtain ⟨x, y, rfl, hz⟩ | ⟨x, y, w, rfl, hz⟩ := callBuiltIn_substring.mp h
      · exact partFunction_rest_ok hz
      · exact partFunction_ok hz
  | now =>
      obtain ⟨hcount, hz⟩ := callBuiltIn_counted.mp h
      obtain rfl := List.eq_nil_of_length_eq_zero (Nat.le_zero.mp hcount.2)
      obtain rfl := Except.ok.inj hz
      exact .now
  | isOf =>
      obtain ⟨-, hz⟩ := callBuiltIn_counted.mp h
      cases hz

/-! ## Functions of the schema

A call binds its arguments by name (`bindArguments_ok`) and then passes them in the order of the
parameters (`Passes`). Each is taken out when it is passed, so none is used twice. -/

/-- `Passes s bound ps es`: `es` are the arguments for the parameters `ps`, in their order, from
`bound`. -/
inductive Passes (s : Schema) : List (String × Compiled) → List Parameter → List Expr → Prop where
  | nil (bound : List (String × Compiled)) : Passes s bound [] []
  | cons {bound : List (String × Compiled)} {p : Parameter} {ps : List Parameter} {x : Compiled}
      {o : Operand} {es : List Expr} (hx : bound.lookup p.name = some x)
      (ho : s.operand x (some (.ofParameter p)) = .ok o)
      (hes : Passes s (bound.filter (·.1 ≠ p.name)) ps es) : Passes s bound (p :: ps) (o.expr :: es)

theorem passArguments_ok {called : String} {bound : List (String × Compiled)} {ps : List Parameter}
    {es : List Expr} (h : s.passArguments called bound ps = .ok es) : s.Passes bound ps es := by
  induction ps generalizing bound es with
  | nil =>
      obtain rfl := Except.ok.inj h
      exact .nil bound
  | cons p ps ih =>
      rw [passArguments] at h
      cases hx : bound.lookup p.name with
      | none => simp [hx, Checked.throw_ok] at h
      | some x =>
          rw [hx] at h
          obtain ⟨o, ho, h⟩ := Checked.bind_ok.mp h
          obtain ⟨rest, hrest, h⟩ := Checked.bind_ok.mp h
          obtain rfl := Checked.pure_ok.mp h
          exact .cons hx ho (ih hrest)

/-- The arguments that are given by name, each under its name. -/
def givenNames (args : List (Option String × Compiled)) : List (String × Compiled) :=
  args.map fun arg => (arg.1.getD "", arg.2)

/-- `lookup` finds nothing only where nothing is `bound`. -/
theorem not_bound_of_lookup {bound : List (String × Compiled)} {name : String}
    (h : bound.lookup name = none) :
    name ∉ bound.map (·.1) := by
  intro hin
  obtain ⟨pair, hpair, rfl⟩ := List.mem_map.mp hin
  have hne := List.lookup_eq_none_iff.mp h pair hpair
  simp at hne

/-- `bindArguments` binds the arguments under the names that they are given, which are names of
parameters and all different. -/
theorem bindArguments_ok {called : String} {g : Function} {index : Nat}
    {bound bound' : List (String × Compiled)} {args : List (Option String × Compiled)}
    (h : bindArguments called g index bound args = .ok bound') (hnodup : (bound.map (·.1)).Nodup) :
    bound' = bound ++ givenNames args ∧ (bound'.map (·.1)).Nodup ∧
      ∀ arg ∈ args, ∃ name, arg.1 = some name ∧ ∃ p ∈ g.parameters, p.name = name := by
  -- By induction on the arguments. What has been bound so far has different names, and stays so.
  induction args generalizing index bound with
  | nil =>
      obtain rfl := Except.ok.inj h
      simpa [givenNames] using hnodup
  | cons arg args ih =>
      obtain ⟨label, x⟩ := arg
      cases label with
      | none => simp [bindArguments] at h
      | some name =>
          rw [bindArguments] at h
          cases hp : g.parameter? name with
          | none => simp [hp] at h
          | some p =>
              rw [hp] at h
              have hname : p.name = name := by simpa using List.find?_some hp
              have hmem : p ∈ g.parameters := List.mem_of_find?_eq_some hp
              cases hlookup : bound.lookup p.name with
              | some y => simp [hlookup] at h
              | none =>
                  simp only [hlookup, Option.isSome_none, Bool.false_eq_true, if_false] at h
                  have hextended : ((bound ++ [(p.name, x)]).map (·.1)).Nodup := by
                    rw [List.map_append]
                    apply List.nodup_append.mpr
                    refine ⟨hnodup, by simp, ?_⟩
                    rintro _ hin _ hname rfl
                    obtain rfl := List.mem_singleton.mp hname
                    exact not_bound_of_lookup hlookup hin
                  obtain ⟨hbound, hnodup', hargs⟩ := ih h hextended
                  refine ⟨?_, hnodup', ?_⟩
                  · rw [hbound, hname]
                    simp [givenNames]
                  · intro arg harg
                    rcases List.mem_cons.mp harg with rfl | harg
                    · exact ⟨name, rfl, p, hmem, hname⟩
                    · exact hargs arg harg

theorem calledFunction_mem {name : String} {g : Function} (h : s.calledFunction name = .ok g) :
    g ∈ s.functions := by
  rw [calledFunction] at h
  split at h
  · obtain rfl := Except.ok.inj h
    exact List.mem_of_find?_eq_some ‹_›
  · obtain rfl := Except.ok.inj h
    obtain ⟨_, -, hfound⟩ := Option.bind_eq_some_iff.mp ‹_›
    exact List.mem_of_find?_eq_some hfound
  · cases h

/-- **What `callCustom` has done** if it has not failed. -/
theorem callCustom_ok {called : String} {args : List (Option String × Compiled)}
    (h : s.callCustom called args = .ok z) :
    ∃ g type es, s.calledFunction called = .ok g ∧ returnedType g = .ok type ∧
      ((givenNames args).map (·.1)).Nodup ∧
      (∀ arg ∈ args, ∃ name, arg.1 = some name ∧ ∃ p ∈ g.parameters, p.name = name) ∧
      s.Passes (givenNames args) g.parameters es ∧
      .ofType (.function g.sqlName es) type = z := by
  obtain ⟨g, hg, h⟩ := Checked.bind_ok.mp h
  obtain ⟨type, htype, h⟩ := Checked.bind_ok.mp h
  obtain ⟨bound, hbound, h⟩ := Checked.bind_ok.mp h
  obtain ⟨es, hes, hz⟩ := Checked.bind_ok.mp h
  obtain ⟨rfl, hnodup, hnames⟩ := bindArguments_ok hbound List.nodup_nil
  exact ⟨g, type, es, hg, htype, hnodup, hnames, passArguments_ok hes, Checked.pure_ok.mp hz⟩

/-- What `lookup` finds may be moved to the front. -/
theorem perm_of_lookup {bound : List (String × Compiled)} {name : String}
    (hnodup : (bound.map (·.1)).Nodup) (hx : bound.lookup name = some x) :
    bound.Perm ((name, x) :: bound.filter (·.1 ≠ name)) := by
  induction bound with
  | nil => cases hx
  | cons first rest ih =>
      obtain ⟨given, y⟩ := first
      rw [List.map_cons, List.nodup_cons] at hnodup
      obtain ⟨hfresh, hrest⟩ := hnodup
      by_cases hname : name = given
      · subst hname
        rw [List.lookup_cons_self] at hx
        obtain rfl := Option.some.inj hx
        have hall : rest.filter (·.1 ≠ name) = rest := by
          rw [List.filter_eq_self]
          intro other hother
          have hne : other.1 ≠ name := fun heq => hfresh (List.mem_map.mpr ⟨other, hother, heq⟩)
          simpa using hne
        rw [List.filter_cons_of_neg (by simp), hall]
      · rw [List.lookup_cons, beq_false_of_ne hname] at hx
        rw [List.filter_cons_of_pos (by simpa using Ne.symm hname)]
        exact ((ih hrest hx).cons _).trans (.swap _ _ _)

/-- **No argument is left out and none is used twice.** The values that `Passes` takes are those of
the arguments, in another order. -/
theorem Passes.used {bound : List (String × Compiled)} {ps : List Parameter} {es : List Expr}
    (h : s.Passes bound ps es) (hnodup : (bound.map (·.1)).Nodup)
    (hnames : ∀ arg ∈ bound, ∃ p ∈ ps, p.name = arg.1) :
    ∃ used : List (Compiled × Expr), (used.map (·.1)).Perm (bound.map (·.2)) ∧ used.map (·.2) = es ∧
      ∀ arg ∈ used, ∃ p o, s.operand arg.1 (some (.ofParameter p)) = .ok o ∧ o.expr = arg.2 := by
  induction h with
  | nil bound =>
      have hempty : bound = [] := List.eq_nil_iff_forall_not_mem.mpr fun arg harg => by
        simpa using hnames arg harg
      subst hempty
      exact ⟨[], .nil, rfl, by simp⟩
  | @cons bound p ps x o es hx ho hes ih =>
      have hleft : ∀ arg ∈ bound.filter (·.1 ≠ p.name), ∃ q ∈ ps, q.name = arg.1 := by
        intro arg harg
        obtain ⟨hin, hne⟩ := List.mem_filter.mp harg
        obtain ⟨q, hq, hname⟩ := hnames arg hin
        rcases List.mem_cons.mp hq with rfl | hq
        · simp [hname] at hne
        · exact ⟨q, hq, hname⟩
      obtain ⟨used, hperm, rfl, hused⟩ := ih (hnodup.sublist (List.filter_sublist.map _)) hleft
      refine ⟨(x, o.expr) :: used, ?_, rfl, ?_⟩
      · have hfirst := (perm_of_lookup hnodup hx).map (·.2)
        exact (hperm.cons x).trans hfirst.symm
      · intro arg harg
        rcases List.mem_cons.mp harg with rfl | harg
        · exact ⟨p, o, ho, rfl⟩
        · exact hused arg harg

/-- `callCustom` uses each of its arguments once. -/
theorem callCustom_used {called : String} {names : List (Option String)} {xs : List Compiled}
    (hlength : names.length = xs.length) (h : s.callCustom called (names.zip xs) = .ok z) :
    ∃ g type, ∃ used : List (Compiled × Expr), s.calledFunction called = .ok g ∧
      (used.map (·.1)).Perm xs ∧
      (∀ arg ∈ used, ∃ p o, s.operand arg.1 (some (.ofParameter p)) = .ok o ∧ o.expr = arg.2) ∧
      .ofType (.function g.sqlName (used.map (·.2))) type = z := by
  obtain ⟨g, type, es, hg, -, hnodup, hnames, hpasses, rfl⟩ := callCustom_ok h
  have hbound : ∀ arg ∈ givenNames (names.zip xs), ∃ p ∈ g.parameters, p.name = arg.1 := by
    intro arg harg
    obtain ⟨given, hgiven, rfl⟩ := List.mem_map.mp harg
    obtain ⟨name, hname, p, hp, rfl⟩ := hnames given hgiven
    exact ⟨p, hp, by rw [hname]; rfl⟩
  have hvalues : (givenNames (names.zip xs)).map (·.2) = xs := by
    rw [givenNames, List.map_map]
    exact List.map_snd_zip (by omega)
  obtain ⟨used, hperm, rfl, hused⟩ := hpasses.used hnodup hbound
  exact ⟨g, type, used, hg, hvalues ▸ hperm, hused, rfl⟩

end Schema

end FilterSql
