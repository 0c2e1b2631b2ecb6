import FilterSql.Proofs.Compile.Reentry
import FilterSql.Proofs.Compile.Sorts

/-!
# Compiled filters are well-sorted

A `Compiled` carries the type of a value beside its expression, and nothing in the compiler makes
the two agree. `Compiled.Sorted` says that they do: an expression is of the sort that its type
promises. Columns and bound values start that way (`ofPath_sorted`, `operand_sorted`), each
operator and each function keeps it (`compose_sorted`, `callBuiltIn_sorted`), and a query inherits
it from its condition (`Hop.ask_sorted`). So all operands in a compiled filter are of the sorts
that `Sql.Expr.Sorted` asks for (`Schema.compile_wellSorted`).
-/

namespace FilterSql

open Sql (Expr Select)

/-! ## Values of literals

The reader of a numeric literal is chosen by the type that is asked for, and gives a value of that
type (`readInteger_ok`, `readFloat_ok`). The literal `null` is left out: it is a value of every
type. -/

namespace Literal

variable {text : String} {type : DataType} {v : Value}

theorem readInteger_ok {low high : Int} {make : Int → Value}
    (h : readInteger text type low high make = .ok v) :
    ∃ n, v = make n := by
  unfold readInteger at h
  split at h
  · split at h
    · obtain rfl := Except.ok.inj h
      exact ⟨_, rfl⟩
    · cases h
  · cases h

theorem readFloat_ok (h : readFloat text = .ok v) : ∃ x, v = .float x := by
  unfold readFloat at h
  split at h
  · obtain rfl := Except.ok.inj h
    exact ⟨_, rfl⟩
  · cases h

end Literal

namespace Schema

variable {s : Schema} {l : Literal} {type : ValueType} {v : Value}

/-- A literal that `coerceTo` reads as a value of a numeric type is a number. -/
theorem coerceTo_isNumeric (h : s.coerceTo l type = .ok v)
    (htype : type.dataType.isNumeric = true) :
    v.dataType.isNumeric = true := by
  unfold coerceTo at h
  cases hdata : type.dataType with
  | byte | short | int | long =>
      simp only [hdata] at h
      split at h
      · obtain ⟨n, rfl⟩ := Literal.readInteger_ok h
        rfl
      · cases h
  | float | double =>
      simp only [hdata] at h
      split at h
      · obtain ⟨x, rfl⟩ := Literal.readFloat_ok h
        rfl
      · cases h
  | decimal =>
      simp only [hdata] at h
      split at h
      · obtain ⟨d, -, h⟩ := Checked.bind_ok.mp h
        split at h
        · cases h
        · obtain rfl := Checked.pure_ok.mp h
          rfl
      · cases h
  | _ =>
      rw [hdata] at htype
      cases htype

/-- A literal that `coerceTo` reads as a value of a textual type is a `Value.string`. -/
theorem coerceTo_isTextual (h : s.coerceTo l type = .ok v)
    (htype : type.dataType.isTextual = true) :
    ∃ text, v = .string text := by
  unfold coerceTo at h
  cases hdata : type.dataType with
  | string | char =>
      simp only [hdata] at h
      split at h
      · split at h
        · split at h
          · cases h
          · obtain rfl := Except.ok.inj h
            exact ⟨_, rfl⟩
        · obtain rfl := Except.ok.inj h
          exact ⟨_, rfl⟩
      · cases h
  | _ =>
      rw [hdata] at htype
      cases htype

end Schema

namespace Schema

/-- What `coerceMember` gives has the type of an enum, however the member is stored. -/
theorem coerceMember_type {s : Schema} {type member : String} {v : Value} {t : ValueType}
    (h : s.coerceMember type member none = .ok (v, t)) : t.dataType = .enum := by
  unfold coerceMember at h
  cases hfound : s.enumType? type with
  | none =>
      rw [hfound] at h
      cases h
  | some declared =>
      rw [hfound] at h
      have hvalue : (do return (← declared.value member, ValueType.enumeration declared.name)) =
        Except.ok (v, t) := h
      obtain ⟨value, -, hvalue⟩ := Checked.bind_ok.mp hvalue
      obtain ⟨-, rfl⟩ := Prod.mk.inj (Checked.pure_ok.mp hvalue)
      rfl

end Schema

/-! ## Compiled expressions

What is known of an expression beside its type: `Fits` for a value, and `Compiled.Sorted` for
whatever a part of a filter may be compiled to. A boolean value has to be a condition too, since
the compiler takes it for one wherever a predicate is asked for. -/

/-- `Fits s tables e t`: `e` is well-sorted, and a number or a text if values of the type `t`
are. -/
structure Fits (s : Schema) (tables : List (String × TableName)) (e : Expr)
    (t : DataType) : Prop where
  sorted : e.Sorted s tables
  number : t.isNumeric = true → IsNumber s tables e
  text : t.isTextual = true → IsText s tables e

/-- `x.Sorted s tables`: the expression of `x` is well-sorted, and of the sort that the type of `x`
promises. -/
def Compiled.Sorted (s : Schema) (tables : List (String × TableName)) : Compiled → Prop
  | .predicate e | .subquery e => e.SortedCondition s tables
  | .value e type => Fits s tables e type.dataType ∧
      (type.dataType = .boolean → IsCondition s tables e)
  | .member e path => Fits s tables e path.type.dataType ∧
      (path.type.dataType = .boolean → IsCondition s tables e)
  | .literal _ | .typeName _ => True

section

variable {s : Schema} {tables : List (String × TableName)} {x y z : Compiled} {e : Expr}

theorem Compiled.Sorted.condition (hx : x.Sorted s tables) (h : x.predicate? = some e) :
    e.SortedCondition s tables := by
  cases x with
  | predicate e' | subquery e' =>
      obtain rfl := Option.some.inj h
      exact hx
  | value e' type =>
      by_cases htype : type.dataType = .boolean
      · rw [predicate?, if_pos htype] at h
        obtain rfl := Option.some.inj h
        exact ⟨hx.1.sorted, hx.2 htype⟩
      · rw [predicate?, if_neg htype] at h
        cases h
  | member e' path =>
      by_cases htype : path.type.dataType = .boolean
      · rw [predicate?, if_pos htype] at h
        obtain rfl := Option.some.inj h
        exact ⟨hx.1.sorted, hx.2 htype⟩
      · rw [predicate?, if_neg htype] at h
        cases h
  | literal | typeName => cases h

/-- A bound value fits its own `dataType`. -/
theorem fits_of_dataType (v : Value) : Fits s tables (.parameter v) v.dataType := by
  refine ⟨trivial, .parameter, ?_⟩
  intro htext
  cases v with
  | string text => exact .parameter text
  | _ => cases htext

theorem fits_of_coerce {l : Literal} {beside : Option ValueType} {v : Value}
    (h : s.coerce l beside = .ok v) (hnull : l.isNull = false) :
    Fits s tables (.parameter v)
      ((beside.filter (·.dataType ≠ .null)).getD (.of v.dataType)).dataType := by
  simp only [Schema.coerce, hnull, Bool.false_eq_true, if_false] at h
  cases beside with
  | none => exact fits_of_dataType v
  | some type =>
      by_cases htype : type.dataType = .null
      · simp only [htype, ne_eq, not_true_eq_false, decide_false, Option.filter]
        exact fits_of_dataType v
      · simp only [htype, if_false] at h
        simp only [htype, ne_eq, not_false_eq_true, decide_true, Option.filter, if_true,
          Option.getD]
        refine ⟨trivial, fun hnumeric => .parameter (Schema.coerceTo_isNumeric h hnumeric), ?_⟩
        intro htext
        obtain ⟨text, rfl⟩ := Schema.coerceTo_isTextual h htext
        exact .parameter text

/-- An operand fits its type, unless it is the literal `null`, which takes the type beside it. -/
theorem operand_sorted (hx : x.Sorted s tables) {beside : Option ValueType} {o : Operand}
    (h : s.operand x beside = .ok o) :
    o.expr.Sorted s tables ∧ (o.isNull = false → Fits s tables o.expr o.type.dataType) := by
  cases x with
  | literal l =>
      rcases Schema.literalOperand_ok h with ⟨-, rfl⟩ | ⟨hnull, v, hv, rfl⟩
      · exact ⟨trivial, by simp⟩
      · exact ⟨trivial, fun _ => fits_of_coerce hv hnull⟩
  | value e type =>
      obtain rfl := Except.ok.inj h
      exact ⟨hx.1.sorted, fun _ => hx.1⟩
  | member e path =>
      obtain rfl := Except.ok.inj h
      exact ⟨hx.1.sorted, fun _ => hx.1⟩
  | predicate e | subquery e =>
      obtain rfl := Except.ok.inj h
      exact ⟨hx.1, fun _ => ⟨hx.1, by rintro ⟨⟩, by rintro ⟨⟩⟩⟩
  | typeName t => cases h

/-! ## Operators

One lemma for each group of operators. What goes in is `Compiled.Sorted`, and so is what comes out.
`combine` and `compareCondition` take conditions; `compare` takes operands of any sort, and
`calculate` only numbers, which is what `widen?` checks. -/

theorem combine_sorted {op : Sql.Operator} (hop : op = .and ∨ op = .or) (hx : x.Sorted s tables)
    (hy : y.Sorted s tables) (h : Compiled.combine op x y = .ok z) : z.Sorted s tables := by
  obtain ⟨l, r, hl, hr, rfl⟩ := Compiled.combine_ok.mp h
  have hl := hx.condition hl
  have hr := hy.condition hr
  rcases hop with rfl | rfl
  · exact ⟨⟨hl.1, hr.1, hl.2, hr.2⟩, .and l r⟩
  · exact ⟨⟨hl.1, hr.1, hl.2, hr.2⟩, .or l r⟩

theorem compareCondition_sorted {op : Comparison} {expected : Bool} (hx : x.Sorted s tables)
    (h : x.compareCondition op (some expected) = .ok z) : z.Sorted s tables := by
  obtain ⟨e, kept, he, -, rfl⟩ := Compiled.compareCondition_ok.mp h
  have he := hx.condition he
  cases kept with
  | true => exact he
  | false => exact ⟨he, .not e⟩

theorem compareNull_sorted {op : Comparison} (he : e.Sorted s tables)
    (h : compareNull op e = .ok z) :
    z.Sorted s tables := by
  rcases Schema.compareNull_ok.mp h with ⟨-, rfl⟩ | ⟨-, rfl⟩
  · exact ⟨he, .isNull e⟩
  · exact ⟨he, .isNotNull e⟩

theorem compare_sorted {op : Comparison} (hx : x.Sorted s tables) (hy : y.Sorted s tables)
    (h : s.compare op x y = .ok z) : z.Sorted s tables := by
  rcases Schema.compare_ok h with ⟨_, -, -, h⟩ | ⟨_, -, -, h⟩ | ⟨-, h⟩
  · exact compareCondition_sorted hx h
  · exact compareCondition_sorted hy h
  · obtain ⟨l, r, hlr, h⟩ := Schema.compareValues_ok h
    obtain ⟨hl, hr⟩ := Schema.operands_ok.mp hlr
    have hl := (operand_sorted hx hl).1
    have hr := (operand_sorted hy hr).1
    split at h
    · exact compareNull_sorted hr h
    · split at h
      · exact compareNull_sorted hl h
      · obtain ⟨-, rfl⟩ := h
        exact ⟨⟨hl, hr, trivial, trivial⟩, .compare l.expr op r.expr⟩

/-- `widen?` finds a type only for two numeric ones. -/
theorem widen?_operands {a b type : DataType} (h : a.widen? b = some type) :
    a.isNumeric = true ∧ b.isNumeric = true := by
  rw [DataType.widen?] at h
  split at h
  · rename_i l r hl hr
    exact ⟨by rw [DataType.isNumeric, hl]; rfl, by rw [DataType.isNumeric, hr]; rfl⟩
  · cases h

theorem not_textual_of_numeric {t : DataType} (h : t.isNumeric = true) :
    t.isTextual = false ∧ t ≠ .boolean := by
  cases t <;> simp_all [DataType.isNumeric, DataType.rank?, DataType.isTextual]

/-- A number may be given any numeric type. -/
theorem number_sorted {type : ValueType} (htype : type.dataType.isNumeric = true)
    (he : e.Sorted s tables) (hnumber : IsNumber s tables e) :
    (Compiled.value e type).Sorted s tables := by
  obtain ⟨htext, hboolean⟩ := not_textual_of_numeric htype
  exact ⟨⟨he, fun _ => hnumber, by simp [htext]⟩, fun h => absurd h hboolean⟩

theorem calculate_sorted {op : Arithmetic} (hx : x.Sorted s tables) (hy : y.Sorted s tables)
    (h : s.calculate op x y = .ok z) : z.Sorted s tables := by
  obtain ⟨l, r, type, hl, hr, hlnull, hrnull, hwiden, rfl⟩ := Schema.calculate_ok h
  obtain ⟨hltype, hrtype⟩ := widen?_operands hwiden
  have hl := (operand_sorted hx hl).2 hlnull
  have hr := (operand_sorted hy hr).2 hrnull
  apply number_sorted (Schema.widen?_isNumeric hwiden)
  · exact ⟨hl.sorted, hr.sorted, hl.number hltype, hr.number hrtype⟩
  · exact .arith l.expr op r.expr

theorem compose_sorted {op : BinaryOperator} (hx : x.Sorted s tables) (hy : y.Sorted s tables)
    (h : s.compose op x y = .ok z) : z.Sorted s tables := by
  cases op with
  | compare op => exact compare_sorted hx hy h
  | arith op => exact calculate_sorted hx hy h
  | and => exact combine_sorted (.inl rfl) hx hy h
  | or => exact combine_sorted (.inr rfl) hx hy h
  | has => cases h

theorem composeUnary_sorted {op : UnaryOperator} (hx : x.Sorted s tables)
    (h : x.composeUnary op = .ok z) :
    z.Sorted s tables := by
  cases op with
  | not =>
      obtain ⟨e, he, rfl⟩ := Compiled.negateCondition_ok.mp h
      exact ⟨hx.condition he, .not e⟩
  | minus =>
      obtain ⟨l, l', -, rfl, -⟩ := Compiled.negate_ok h
      trivial

/-! ## Functions

The functions that read an argument check its type before they take its expression
(`argument_sorted`), so each argument is of the sort that the function of SQL takes. A lemma for
each reader of arguments, then one for each family of functions. -/

variable {f : BuiltIn}

theorem argument_sorted {accepts : DataType → Bool} {beside : Option ValueType} {o : Operand}
    (hx : x.Sorted s tables) (h : s.argument f accepts beside x = .ok o) :
    Fits s tables o.expr o.type.dataType ∧ accepts o.type.dataType = true := by
  obtain ⟨ho, hnull, haccepts⟩ := Schema.argument_ok.mp h
  exact ⟨(operand_sorted hx ho).2 hnull, haccepts⟩

theorem textArgument_sorted (hx : x.Sorted s tables) (h : s.textArgument f x = .ok e) :
    e.Sorted s tables ∧ IsText s tables e := by
  obtain ⟨o, ho, he⟩ := Checked.bind_ok.mp h
  obtain rfl := Checked.pure_ok.mp he
  obtain ⟨hfits, htype⟩ := argument_sorted hx ho
  exact ⟨hfits.sorted, hfits.text htype⟩

theorem wholeArgument_sorted (hx : x.Sorted s tables) (h : s.wholeArgument f x = .ok e) :
    e.Sorted s tables ∧ IsNumber s tables e := by
  obtain ⟨o, ho, he⟩ := Checked.bind_ok.mp h
  obtain rfl := Checked.pure_ok.mp he
  obtain ⟨hfits, htype⟩ := argument_sorted hx ho
  have hnumeric : o.type.dataType.isNumeric = true := by
    revert htype
    cases o.type.dataType <;> decide
  exact ⟨hfits.sorted, hfits.number hnumeric⟩

/-- An argument that is only read (`Schema.Reads`) is well-sorted, of whichever sort. -/
theorem reads_sorted {beside : Option ValueType} (hx : x.Sorted s tables) (h : s.Reads x beside e) :
    e.Sorted s tables := by
  obtain ⟨o, ho, -, rfl⟩ := h
  exact (operand_sorted hx ho).1

theorem startArgument_sorted (hx : x.Sorted s tables) (h : s.startArgument f x = .ok e) :
    e.Sorted s tables ∧ IsNumber s tables e := by
  have hcomputed (h : (do
      let e ← s.wholeArgument f x
      return (Expr.binary e (.arith .add) (.constant (.int 1)))) = .ok e) : e.Sorted s tables ∧
      IsNumber s tables e := by
    obtain ⟨whole, hwhole, he⟩ := Checked.bind_ok.mp h
    obtain rfl := Checked.pure_ok.mp he
    obtain ⟨hsorted, hnumber⟩ := wholeArgument_sorted hx hwhole
    exact ⟨⟨hsorted, trivial, hnumber, .one⟩, .arith _ _ _⟩
  unfold Schema.startArgument at h
  split at h
  · split at h
    · split at h
      · split at h
        · obtain rfl := Except.ok.inj h
          exact ⟨trivial, .parameter rfl⟩
        · cases h
      · cases h
    · exact hcomputed h
  · exact hcomputed h

/-- A text may be given the type `string`. -/
theorem text_sorted (he : e.Sorted s tables) (htext : IsText s tables e) :
    (Compiled.ofType e .string).Sorted s tables :=
  ⟨⟨he, nofun, fun _ => htext⟩, nofun⟩

/-- An expression may be given any type that is neither numeric nor textual nor `boolean`. -/
theorem other_sorted {type : ValueType} (he : e.Sorted s tables)
    (hnumeric : type.dataType.isNumeric = false) (htextual : type.dataType.isTextual = false)
    (hboolean : type.dataType ≠ .boolean) :
    (Compiled.value e type).Sorted s tables :=
  ⟨⟨he, by simp [hnumeric], by simp [htextual]⟩, fun h => absurd h hboolean⟩

/-- The pattern that `CONCAT` puts together in the database is put together of texts. -/
theorem around_sorted {m : Sql.Like.Margins} (he : e.Sorted s tables) (htext : IsText s tables e) :
    (Expr.function "CONCAT" (m.around (.constant (.string "%")) [e])).Sorted s tables := by
  have hmem {x : Expr} (hx : x ∈ m.around (.constant (.string "%")) [e]) :
    x = .constant (.string "%") ∨ x = e := by
    obtain ⟨before, after⟩ := m
    cases before <;> cases after <;> simp_all [Sql.Like.Margins.around] <;> grind
  refine ⟨Sql.listSorted_iff.mpr ?_, .inl (.concat ?_)⟩
  · intro x hx
    rcases hmem hx with rfl | rfl
    · trivial
    · exact he
  · intro x hx
    rcases hmem hx with rfl | rfl
    · exact .wildcard
    · exact htext

theorem likePattern_sorted {m : Sql.Like.Margins} {escape : Option Char} (hx : x.Sorted s tables)
    (h : s.likePattern f m x = .ok (e, escape)) : e.Sorted s tables := by
  have hcomputed (h : (do
      let e ← s.textArgument f x
      return (Expr.function "CONCAT" (m.around (.constant (.string "%")) [e]), none)) = .ok (e,
      escape)) :
      e.Sorted s tables := by
    obtain ⟨text, htext, hpair⟩ := Checked.bind_ok.mp h
    obtain ⟨rfl, -⟩ := Prod.mk.inj (Checked.pure_ok.mp hpair)
    obtain ⟨hsorted, htext⟩ := textArgument_sorted hx htext
    exact around_sorted hsorted htext
  unfold Schema.likePattern at h
  dsimp only at h
  split at h
  · split at h
    · obtain ⟨rfl, -⟩ := Prod.mk.inj (Except.ok.inj h)
      trivial
    · exact hcomputed h
  · exact hcomputed h

theorem matching_sorted {m : Sql.Like.Margins} (hx : x.Sorted s tables) (hy : y.Sorted s tables)
    (h : s.matching f m [x, y] = .ok z) : z.Sorted s tables := by
  rw [Schema.matching_pair] at h
  obtain ⟨text, htext, h⟩ := Checked.bind_ok.mp h
  obtain ⟨⟨pattern, escape⟩, hpattern, h⟩ := Checked.bind_ok.mp h
  obtain rfl := Checked.pure_ok.mp h
  obtain ⟨hsorted, htext⟩ := textArgument_sorted hx htext
  exact ⟨⟨hsorted, likePattern_sorted hy hpattern, htext⟩, .like text pattern escape⟩

theorem textFunction_sorted {name : String} (hname : name ∈ ["LOWER", "UPPER", "TRIM"])
    (hx : x.Sorted s tables) (h : s.textFunction f name .string [x] = .ok z) :
    z.Sorted s tables := by
  rw [Schema.textFunction_singleton] at h
  obtain ⟨text, htext, h⟩ := Checked.bind_ok.mp h
  obtain rfl := Checked.pure_ok.mp h
  obtain ⟨hsorted, htext⟩ := textArgument_sorted hx htext
  apply text_sorted
  · exact ⟨⟨hsorted, trivial⟩, .inl (.text (List.mem_cons_of_mem _ hname) htext)⟩
  · exact .standard _ (List.mem_cons_of_mem _ (List.mem_cons_of_mem _ hname))

theorem fieldFunction_sorted {field : Sql.DateField} {read : Compiled → Except FilterError Expr}
    (hread : ∀ x e, read x = .ok e → s.Reads x none e) (hx : x.Sorted s tables)
    (h : Schema.fieldFunction f field read [x] = .ok z) : z.Sorted s tables := by
  rw [Schema.fieldFunction_singleton] at h
  obtain ⟨e, he, h⟩ := Checked.bind_ok.mp h
  obtain rfl := Checked.pure_ok.mp h
  have he := reads_sorted hx (hread x e he)
  exact number_sorted rfl he (.extract field e)

theorem castFunction_sorted {t : DataType} {read : Compiled → Except FilterError Expr}
    (ht : t = .date ∨ t = .time) (hread : ∀ x e, read x = .ok e → s.Reads x none e)
    (hx : x.Sorted s tables) (h : Schema.castFunction f t read [x] = .ok z) :
    z.Sorted s tables := by
  rw [Schema.castFunction_singleton] at h
  obtain ⟨e, he, h⟩ := Checked.bind_ok.mp h
  obtain rfl := Checked.pure_ok.mp h
  have he := reads_sorted hx (hread x e he)
  rcases ht with rfl | rfl
  · exact other_sorted he rfl rfl (by decide)
  · exact other_sorted he rfl rfl (by decide)

theorem roundingFunction_sorted {name : String} (hname : name ∈ ["ROUND", "FLOOR", "CEILING"])
    (hx : x.Sorted s tables) (h : s.roundingFunction f name [x] = .ok z) :
    z.Sorted s tables := by
  rw [Schema.roundingFunction_singleton] at h
  obtain ⟨o, ho, h⟩ := Checked.bind_ok.mp h
  obtain rfl := Checked.pure_ok.mp h
  obtain ⟨hfits, htype⟩ := argument_sorted hx ho
  apply number_sorted htype
  · exact ⟨⟨hfits.sorted, trivial⟩, .inl (.rounding hname (hfits.number htype))⟩
  · exact .standard _ (List.mem_cons_of_mem _ hname)

/-- `castTarget` leads to the type of strings or to that of dates. -/
theorem castTarget_type {t : DataType} (h : Schema.castTarget x = .ok t) :
    t = .string ∨ t = .date := by
  unfold Schema.castTarget at h
  split at h
  · split at h
    · obtain rfl := Except.ok.inj h
      assumption
    · cases h
  · cases h

theorem length_sorted (hx : x.Sorted s tables)
    (h : s.textFunction f "CHAR_LENGTH" .long [x] = .ok z) : z.Sorted s tables := by
  rw [Schema.textFunction_singleton] at h
  obtain ⟨text, htext, h⟩ := Checked.bind_ok.mp h
  obtain rfl := Checked.pure_ok.mp h
  obtain ⟨hsorted, htext⟩ := textArgument_sorted hx htext
  apply number_sorted rfl
  · exact ⟨⟨hsorted, trivial⟩, .inl (.text (by simp) htext)⟩
  · exact .standard _ (by simp)

/-- `indexOf` counts from zero, so one is subtracted from the position that the database gives. -/
theorem indexOf_sorted (hx : x.Sorted s tables) (hy : y.Sorted s tables)
    (h : s.positionFunction f [x, y] = .ok z) : z.Sorted s tables := by
  rw [Schema.positionFunction_pair] at h
  obtain ⟨text, htext, h⟩ := Checked.bind_ok.mp h
  obtain ⟨part, hpart, h⟩ := Checked.bind_ok.mp h
  obtain rfl := Checked.pure_ok.mp h
  obtain ⟨hsorted, htext⟩ := textArgument_sorted hx htext
  obtain ⟨hsorted', hpart⟩ := textArgument_sorted hy hpart
  apply number_sorted rfl
  · exact ⟨⟨hsorted', hsorted, hpart, htext⟩, trivial, .position part text, .one⟩
  · exact .arith _ _ _

/-- `substring` gives a text, with its length given or without. -/
theorem substring_sorted (hx : x.Sorted s tables) (hy : y.Sorted s tables)
    (h : s.partFunction f [x, y] = .ok z) : z.Sorted s tables := by
  rw [Schema.partFunction_pair] at h
  obtain ⟨text, htext, h⟩ := Checked.bind_ok.mp h
  obtain ⟨start, hstart, h⟩ := Checked.bind_ok.mp h
  obtain rfl := Checked.pure_ok.mp h
  obtain ⟨hsorted, htext⟩ := textArgument_sorted hx htext
  obtain ⟨hsorted', hstart⟩ := startArgument_sorted hy hstart
  apply text_sorted
  · exact ⟨⟨hsorted, hsorted', trivial⟩, .inl (.substring htext (by simpa using hstart))⟩
  · exact .standard _ (by simp)

theorem substring_length_sorted (hx : x.Sorted s tables) (hy : y.Sorted s tables)
    (hw : w.Sorted s tables) (h : s.partFunction f [x, y, w] = .ok z) : z.Sorted s tables := by
  rw [Schema.partFunction_triple] at h
  obtain ⟨text, htext, h⟩ := Checked.bind_ok.mp h
  obtain ⟨start, hstart, h⟩ := Checked.bind_ok.mp h
  obtain ⟨length, hlength, h⟩ := Checked.bind_ok.mp h
  obtain rfl := Checked.pure_ok.mp h
  obtain ⟨hsorted, htext⟩ := textArgument_sorted hx htext
  obtain ⟨hsorted', hstart⟩ := startArgument_sorted hy hstart
  obtain ⟨hsorted'', hlength⟩ := wholeArgument_sorted hw hlength
  apply text_sorted
  · refine ⟨⟨hsorted, hsorted', hsorted'', trivial⟩, .inl (.substring htext ?_)⟩
    simpa using ⟨hstart, hlength⟩
  · exact .standard _ (by simp)

theorem concat_sorted (hx : x.Sorted s tables) (hy : y.Sorted s tables)
    (h : s.joinFunction f [x, y] = .ok z) : z.Sorted s tables := by
  rw [Schema.joinFunction_pair] at h
  obtain ⟨left, hleft, h⟩ := Checked.bind_ok.mp h
  obtain ⟨right, hright, h⟩ := Checked.bind_ok.mp h
  obtain rfl := Checked.pure_ok.mp h
  obtain ⟨hsorted, hleft⟩ := textArgument_sorted hx hleft
  obtain ⟨hsorted', hright⟩ := textArgument_sorted hy hright
  apply text_sorted
  · exact ⟨⟨hsorted, hsorted', trivial⟩, .inl (.concat (by simpa using ⟨hleft, hright⟩))⟩
  · exact .standard _ (by simp)

theorem cast_sorted (hx : x.Sorted s tables) (h : s.castTo f [x, y] = .ok z) :
    z.Sorted s tables := by
  rw [Schema.castTo_pair] at h
  obtain ⟨t, ht, h⟩ := Checked.bind_ok.mp h
  obtain ⟨o, ho, h⟩ := Checked.bind_ok.mp h
  obtain rfl := Checked.pure_ok.mp h
  have hsorted := (operand_sorted hx ho).1
  rcases castTarget_type ht with rfl | rfl
  · exact text_sorted hsorted (.cast o.expr)
  · exact other_sorted hsorted rfl rfl (by decide)

/-- **Calls of built-in functions are well-sorted** if their arguments are. -/
theorem callBuiltIn_sorted {args : List Compiled} (hargs : ∀ x ∈ args, x.Sorted s tables)
    (h : s.callBuiltIn f args = .ok z) : z.Sorted s tables := by
  cases f with
  | contains | startsWith | endsWith =>
      obtain ⟨x, y, rfl, hz⟩ := (Schema.callBuiltIn_two rfl).mp h
      exact matching_sorted (hargs x (by simp)) (hargs y (by simp)) hz
  | length =>
      obtain ⟨x, rfl, hz⟩ := (Schema.callBuiltIn_one rfl).mp h
      exact length_sorted (hargs x (by simp)) hz
  | toLower | toUpper | trim =>
      obtain ⟨x, rfl, hz⟩ := (Schema.callBuiltIn_one rfl).mp h
      exact textFunction_sorted (by simp) (hargs x (by simp)) hz
  | year | month | day =>
      obtain ⟨x, rfl, hz⟩ := (Schema.callBuiltIn_one rfl).mp h
      exact fieldFunction_sorted (fun _ _ => Schema.dayArgument_ok) (hargs x (by simp)) hz
  | hour | minute | second =>
      obtain ⟨x, rfl, hz⟩ := (Schema.callBuiltIn_one rfl).mp h
      exact fieldFunction_sorted (fun _ _ => Schema.clockArgument_ok) (hargs x (by simp)) hz
  | date =>
      obtain ⟨x, rfl, hz⟩ := (Schema.callBuiltIn_one rfl).mp h
      exact castFunction_sorted (.inl rfl) (fun _ _ => Schema.dayArgument_ok)
        (hargs x (by simp)) hz
  | time =>
      obtain ⟨x, rfl, hz⟩ := (Schema.callBuiltIn_one rfl).mp h
      exact castFunction_sorted (.inr rfl) (fun _ _ => Schema.clockArgument_ok)
        (hargs x (by simp)) hz
  | round | floor | ceiling =>
      obtain ⟨x, rfl, hz⟩ := (Schema.callBuiltIn_one rfl).mp h
      exact roundingFunction_sorted (by simp) (hargs x (by simp)) hz
  | indexOf =>
      obtain ⟨x, y, rfl, hz⟩ := (Schema.callBuiltIn_two rfl).mp h
      exact indexOf_sorted (hargs x (by simp)) (hargs y (by simp)) hz
  | concat =>
      obtain ⟨x, y, rfl, hz⟩ := (Schema.callBuiltIn_two rfl).mp h
      exact concat_sorted (hargs x (by simp)) (hargs y (by simp)) hz
  | cast =>
      obtain ⟨x, y, rfl, hz⟩ := (Schema.callBuiltIn_two rfl).mp h
      exact cast_sorted (hargs x (by simp)) hz
  | substring =>
      obtain ⟨x, y, rfl, hz⟩ | ⟨x, y, w, rfl, hz⟩ := Schema.callBuiltIn_substring.mp h
      · exact substring_sorted (hargs x (by simp)) (hargs y (by simp)) hz
      · exact substring_length_sorted (hargs x (by simp)) (hargs y (by simp)) (hargs w (by simp)) hz
  | now =>
      obtain ⟨-, hz⟩ := Schema.callBuiltIn_counted.mp h
      obtain rfl := Except.ok.inj hz
      exact other_sorted trivial rfl rfl (by decide)
  | isOf =>
      obtain ⟨-, hz⟩ := Schema.callBuiltIn_counted.mp h
      cases hz

/-! ## Functions of the schema

Arguments of these are passed as they are, since the schema does not constrain their sorts. The
call is of the sort of the declared return type, which `Sql.Expr.Sorted` looks up again
(`Schema.Returns`). -/

theorem passes_sorted {bound : List (String × Compiled)} {ps : List Parameter} {es : List Expr}
    (h : s.Passes bound ps es) (hbound : ∀ arg ∈ bound, arg.2.Sorted s tables) :
    Sql.ListSorted s tables es := by
  induction h with
  | nil => trivial
  | @cons bound p ps x o es hx ho _ ih =>
      refine ⟨?_, ih fun arg harg => hbound arg (List.mem_filter.mp harg).1⟩
      obtain ⟨before, after, hsplit, -⟩ := List.lookup_eq_some_iff.mp hx
      have hmem : (p.name, x) ∈ bound := by simp [hsplit]
      exact (operand_sorted (hbound _ hmem) ho).1

/-- `returnedType` is the declared type, unless this is that of an enum or of a shape. -/
theorem returnedType_declared {g : Function} {t : DataType} (h : Schema.returnedType g = .ok t) :
    g.returnType.collection = false ∧
    (g.returnType.dataType = some t ∨ t = .enum ∨ t = .geometry) := by
  unfold Schema.returnedType at h
  split at h
  · cases h
  · rename_i hcollection
    refine ⟨by simpa using hcollection, ?_⟩
    split at h
    · cases h
    · split at h
      · obtain rfl := Except.ok.inj h
        exact .inl ‹_›
      · obtain rfl := Except.ok.inj h
        exact .inr (.inl rfl)
      · obtain rfl := Except.ok.inj h
        exact .inr (.inr rfl)
      · cases h

theorem callCustom_sorted {called : String} {args : List (Option String × Compiled)}
    (hargs : ∀ arg ∈ args, arg.2.Sorted s tables) (h : s.callCustom called args = .ok z) :
    z.Sorted s tables := by
  obtain ⟨g, t, es, hg, ht, -, -, hpasses, rfl⟩ := Schema.callCustom_ok h
  have hmem := Schema.calledFunction_mem hg
  have hes : Sql.ListSorted s tables es := by
    apply passes_sorted hpasses
    intro given hgiven
    obtain ⟨arg, harg, rfl⟩ := List.mem_map.mp hgiven
    exact hargs arg harg
  have hsorted : (Expr.function g.sqlName es).Sorted s tables := ⟨hes, .inr ⟨g, hmem, rfl⟩⟩
  obtain ⟨hcollection, hdeclared | rfl | rfl⟩ := returnedType_declared ht
  · have hreturns : s.Returns g.sqlName t := ⟨g, hmem, rfl, hcollection, hdeclared⟩
    refine ⟨⟨hsorted, .function es hreturns, .function es hreturns⟩, ?_⟩
    rintro rfl
    exact .function es hreturns
  · exact other_sorted hsorted rfl rfl (by decide)
  · exact other_sorted hsorted rfl rfl (by decide)

end

/-! ## Columns

A column is of the sort that the schema declares for it, in the rows of the table that its alias
stands for (`Schema.Types`). Resolution keeps to what is declared: from a scope that the schema
`Stores` every hop leads to another one, and the leaf is among the columns of the rows that it
starts at. -/

namespace Schema

variable {s : Schema}

theorem stores_of_step {owner : StructuredType} {name : String} {target : Scope} {kind : HopKind}
    (howner : owner ∈ s.structuredTypes) (h : s.HopsTo owner name target kind) :
    s.Stores target := by
  cases h with
  | @collection a table columns element target ha hkind htarget =>
      have hmem := attribute_mem howner ha
      cases element with
      | primitive column type =>
          obtain rfl := Except.ok.inj htarget
          exact .primitives hmem hkind
      | complex type =>
          obtain ⟨c, hc, htarget⟩ := Checked.bind_ok.mp htarget
          obtain rfl := Checked.pure_ok.mp htarget
          exact .complexes hmem hkind (complexTypeOf_some hc)
  | association _ ha htarget =>
      rw [associationScope] at htarget
      split at htarget
      · obtain rfl := Except.ok.inj htarget
        exact .entity (List.mem_of_find?_eq_some ‹_›)
      · cases htarget

/-- **What names resolve to is declared**: the rows that each hop leads to, and if there is none,
the column of the leaf with its type. -/
theorem resolves_typed {p : Place} {index : Nat} {names : List String} {r : Resolution}
    (h : s.Resolves p index names r) (hp : s.HasPlace p)
    (howner : ∀ t ∈ p.owner?, s.Embeds p.scope t p.columnLead) :
    (∀ hop ∈ r.hops, s.Stores hop.target) ∧
      ∀ leaf ∈ r.leaf?, r.hops = [] → s.HasColumn p.scope leaf.column leaf.type.dataType := by
  induction h with
  | nil => simp
  | column ht ha htype =>
      refine ⟨by simp, ?_⟩
      rintro _ ⟨⟩ -
      obtain ⟨_, hdata, rfl⟩ := attributeType_ok.mp htype
      exact .member (howner _ ht) ha hdata
  | enter ht ha hkind hc _ ih =>
      apply ih (hasPlace_enter hp (attribute_mem (hp.owner _ ht) ha) hkind (complexTypeOf_mem hc))
      rintro _ ⟨⟩
      exact .enter (howner _ ht) ha hkind (complexTypeOf_some hc)
  | hop ht hstep _ ih =>
      have hstores := stores_of_step (hp.owner _ ht) hstep
      obtain ⟨hhops, -⟩ := ih (hasPlace_start hstores.hasScope) fun t ht => .rows ht
      refine ⟨?_, by simp [Resolution.behind]⟩
      intro hop hmem
      rcases List.mem_cons.mp hmem with rfl | hmem
      · exact hstores
      · exact hhops hop hmem

theorem resolve_typed {scope : Scope} {names : List String} {r : Resolution}
    (hscope : s.Stores scope) (h : s.resolve scope names = .ok r) :
    (∀ hop ∈ r.hops, s.Stores hop.target) ∧
      ∀ leaf ∈ r.leaf?, r.hops = [] → s.HasColumn scope leaf.column leaf.type.dataType :=
  resolves_typed (resolve_ok.mp h).2 (hasPlace_start hscope.hasScope) fun _ ht => .rows ht

/-- `s.Ranges tables c`: every level of `c` ranges over rows that the schema `Stores`, and `tables`
has its label beside its table. -/
def Ranges (s : Schema) (tables : List (String × TableName)) (c : Context) : Prop :=
  ∀ l ∈ c.levels, s.Stores l.scope ∧ (l.label, l.scope.table) ∈ tables

variable {tables : List (String × TableName)} {c : Context} {a : Address} {path : Path}
    {anchor : Level}

/-- The hops that `denote` finds lead to rows that the schema `Stores`. -/
theorem denote_stores {t : Target} (hc : s.Ranges tables c)
    (h : s.denote c a path = .ok (anchor, t)) :
    ∀ hop ∈ t.hops, s.Stores hop.target := by
  obtain ⟨start, names, tail, hanchor, -, hdenotes⟩ := denote_ok.mp h
  have hscope := (hc anchor (Context.mem_of_anchor hanchor)).1
  cases hdenotes with
  | element | leaf | function => simp [Target.hops]
  | navigation hr | count hr | nonempty hr | any hr | all hr => exact (resolve_typed hscope hr).1
  | countBehind hr =>
      obtain ⟨hstores, -⟩ := resolve_typed hscope hr
      intro hop hmem
      apply hstores hop
      simp only [Target.hops, List.mem_append, List.mem_singleton] at hmem
      rcases hmem with hmem | rfl <;> simp [*]

/-- The attribute that `denote` finds is declared with its type for the table of the level. -/
theorem denote_types {p : AttributePath} (hc : s.Ranges tables c)
    (h : s.denote c a path = .ok (anchor, .attribute p)) :
    s.Types tables anchor.label p.column p.type.dataType := by
  obtain ⟨start, names, tail, hanchor, -, hdenotes⟩ := denote_ok.mp h
  obtain ⟨hscope, htable⟩ := hc anchor (Context.mem_of_anchor hanchor)
  cases hdenotes with
  | leaf hr => exact ⟨anchor.scope, hscope, htable, (resolve_typed hscope hr).2 p rfl rfl⟩

theorem element_types {p : AttributePath} (hscope : s.Stores anchor.scope)
    (htable : (anchor.label, anchor.scope.table) ∈ tables)
    (h : anchor.scope.elementPath? = some p) :
    s.Types tables anchor.label p.column p.type.dataType := by
  refine ⟨anchor.scope, hscope, htable, ?_⟩
  cases hkind : anchor.scope with
  | entity | complexCollection => simp [hkind, Scope.elementPath?] at h
  | primitiveCollection table column type =>
      rw [hkind] at h
      obtain rfl := Option.some.inj h
      exact .element

end Schema

/-! ## Queries

Conditions of joins compare columns, so they are well-sorted whatever the columns are. The
condition that narrows a query is judged where the table of the query has its alias as well. -/

section

variable {s : Schema} {tables : List (String × TableName)} {c : Context} {h : Hop}
    {source own : String} {n m : Nat}

theorem joinCondition_sorted {columns : List JoinColumn} {l r : String}
    {left right : JoinColumn → String} {e : Expr} (he : Expr.conjunction? (columns.map fun j =>
      (Expr.qualified l (left j)).equal (.qualified r (right j))) = some e) :
      e.SortedCondition s tables := by
  apply Sql.conjunction?_sorted he
  intro x hx
  obtain ⟨j, -, rfl⟩ := List.mem_map.mp hx
  exact ⟨⟨trivial, trivial, trivial, trivial⟩, .compare _ _ _⟩

/-- The query of a hop is well-sorted if its `narrowed` condition is so wherever `own` stands for
the target. -/
theorem Hop.Selects.selection_sorted {joins : List Sql.Join} {on : Expr} {columns : List Expr}
    {narrowed : Option Expr} {k : Nat} (hs : h.Selects source own n joins on k)
    (hcolumns : ∀ tables, Sql.ListSorted s tables columns)
    (hnarrowed : ∀ x ∈ narrowed, ∀ inner, (own, h.target.table) ∈ inner → tables ⊆ inner →
      x.SortedCondition s inner) :
    (h.selection columns own joins on narrowed).Sorted s tables := by
  have hcondition {inner : List (String × TableName)} (hown : (own, h.target.table) ∈ inner)
      (htables : tables ⊆ inner) (hon : on.SortedCondition s inner) :
      (asked on narrowed).SortedCondition s inner := by
    cases narrowed with
    | none => exact hon
    | some x =>
        have hx := hnarrowed x rfl inner hown htables
        exact ⟨⟨hon.1, hx.1, hon.2, hx.2⟩, .and on x⟩
  have htables (front : List (String × TableName)) :
    tables ⊆ (own, h.target.table) :: front ++ tables :=
    List.subset_append_right _ _
  cases hs with
  | direct hlink he =>
      refine ⟨hcolumns _, trivial, hcondition (by simp [Sql.Select.tables]) (htables []) ?_⟩
      exact joinCondition_sorted he
  | linked hlink hon he =>
      refine ⟨hcolumns _, ⟨?_, trivial⟩, hcondition (by simp [Sql.Select.tables]) (htables [_]) ?_⟩
      · exact joinCondition_sorted hon
      · exact joinCondition_sorted he

end

/-! ## Runs

`x.Ensures P`: whatever a run of `x` gives satisfies `P`. Nothing is said of the counter, so a
sequence is judged step by step (`Ensures.bind`, `Ensures.bind_lift`). -/

/-- `P` holds of whatever `x` gives, with any count of aliases. -/
def Numbered.Ensures {α : Type} (x : Numbered α) (P : α → Prop) : Prop :=
  ∀ n a m, x.run n = .ok (a, m) → P a

namespace Numbered

variable {α β : Type} {P : α → Prop} {Q : β → Prop}

theorem ensures_pure {a : α} (h : P a) : (pure a : Numbered α).Ensures P := by
  intro n b m hb
  obtain ⟨rfl, -⟩ := pure_ok.mp hb
  exact h

theorem ensures_lift {x : Except FilterError α} (h : ∀ a, x = .ok a → P a) :
    (liftM x : Numbered α).Ensures P := by
  intro n a m ha
  exact h a (lift_ok.mp ha).1

theorem ensures_throw {err : FilterError} : (throw err : Numbered α).Ensures P := by
  intro n a m ha
  exact (throw_ok.mp ha).elim

theorem Ensures.bind {x : Numbered α} {f : α → Numbered β} (hx : x.Ensures P)
    (hf : ∀ a, P a → (f a).Ensures Q) :
    (x >>= f).Ensures Q := by
  intro n b m hb
  obtain ⟨a, k, ha, hb⟩ := bind_ok.mp hb
  exact hf a (hx n a k ha) k b m hb

theorem Ensures.bind_pure {x : Numbered α} {f : α → β} (hx : x.Ensures P)
    (hf : ∀ a, P a → Q (f a)) :
    (x >>= fun a => pure (f a)).Ensures Q :=
  hx.bind fun a ha => ensures_pure (hf a ha)

theorem Ensures.bind_lift {x : Numbered α} {f : α → Except FilterError β} (hx : x.Ensures P)
    (hf : ∀ a b, P a → f a = .ok b → Q b) : (x >>= fun a => liftM (f a)).Ensures Q :=
  hx.bind fun a ha => ensures_lift fun b hb => hf a b ha hb

end Numbered

open Numbered (ensures_pure ensures_lift ensures_throw)

section

variable {s : Schema} {tables : List (String × TableName)} {c : Context} {a : Address}
    {source : String} {binding : Binding}

theorem conditionOf_sorted {x : Numbered Compiled} (hx : x.Ensures (·.Sorted s tables)) :
    (conditionOf x).Ensures (·.SortedCondition s tables) := by
  refine hx.bind_lift ?_
  intro y e hy he
  exact hy.condition (Compiled.condition_ok.mp he)

theorem Schema.Ranges.inside {h : Hop} {inner : List (String × TableName)} {n : Nat}
    (hc : s.Ranges tables c) (hh : s.Stores h.target)
    (hown : (tableAlias n, h.target.table) ∈ inner) (htables : tables ⊆ inner) :
    s.Ranges inner (.inside ⟨h.target, n, binding⟩ c) := by
  intro l hl
  rcases List.mem_cons.mp hl with rfl | hl
  · exact ⟨hh, hown⟩
  · exact ⟨(hc l hl).1, htables (hc l hl).2⟩

namespace Hop

/-- A question is well-sorted if its condition is so on the level that `someRow` opens. -/
theorem someRow_sorted {h : Hop} {condition : Context → Numbered (Option Expr)}
    (hc : s.Ranges tables c) (hh : s.Stores h.target)
    (hcondition : ∀ n inner, s.Ranges inner (.inside ⟨h.target, n, binding⟩ c) →
      (condition (.inside ⟨h.target, n, binding⟩ c)).Ensures fun e? =>
        ∀ e ∈ e?, e.SortedCondition s inner) :
    (someRow binding condition c source h).Ensures (·.SortedCondition s tables) := by
  intro n e m he
  obtain ⟨joins, on, k, narrowed, hselects, hnarrowed, rfl⟩ := someRow_ok.mp he
  refine ⟨hselects.selection_sorted (fun _ => ⟨trivial, trivial⟩) ?_, .hasRows _⟩
  intro x hx inner hown htables
  exact hcondition n inner (hc.inside hh hown htables) k narrowed m hnarrowed x hx

/-- **A question behind hops is well-sorted** if its condition is so in every context that the hops
open. -/
theorem ask_sorted {hops : List Hop} {condition : Context → Numbered (Option Expr)}
    (hc : s.Ranges tables c) (hhops : ∀ h ∈ hops, s.Stores h.target)
    (hcondition : ∀ inner tables, c.Opened binding hops inner →
      s.Ranges tables inner → (condition inner).Ensures fun e? =>
        ∀ e ∈ e?, e.SortedCondition s tables) :
    (ask (someRow binding condition) c source hops).Ensures (·.SortedCondition s tables) := by
  induction hops generalizing c source tables with
  | nil => exact ensures_throw
  | cons h rest ih =>
      have hh := hhops h List.mem_cons_self
      cases rest with
      | nil =>
          apply someRow_sorted hc hh
          intro n inner hinner
          exact hcondition _ inner (.last c h n) hinner
      | cons next rest =>
          apply someRow_sorted hc hh
          intro n inner hinner
          refine (ih hinner (fun h hmem => hhops h (List.mem_cons_of_mem _ hmem)) ?_).bind_pure ?_
          · intro c' tables hopened
            exact hcondition c' tables (.step n hopened)
          · rintro e he _ ⟨⟩
            exact he

/-- The form of `ask_sorted` for a question that is narrowed by a condition, as `any` has it. -/
theorem askNarrowed_sorted {hops : List Hop} {condition : Context → Numbered Expr}
    (hc : s.Ranges tables c) (hhops : ∀ h ∈ hops, s.Stores h.target)
    (hcondition : ∀ inner tables, c.Opened binding hops inner →
      s.Ranges tables inner → (condition inner).Ensures (·.SortedCondition s tables)) :
    (ask (someRow binding fun inner => do return some (← condition inner)) c source hops).Ensures
      (·.SortedCondition s tables) := by
  apply ask_sorted hc hhops
  intro inner tables hopened hinner
  refine (hcondition inner tables hopened hinner).bind_pure ?_
  rintro e he _ ⟨⟩
  exact he

theorem countRows_sorted {h : Hop} :
    (countRows c source h).Ensures fun e => e.Sorted s tables ∧ IsNumber s tables e := by
  intro n e m he
  obtain ⟨joins, on, hselects, rfl⟩ := countRows_ok.mp he
  exact ⟨hselects.selection_sorted (fun _ => ⟨trivial, trivial⟩) (by simp), .count _ _ _⟩

end Hop

/-! ## Filters

By induction on the filter. The hypothesis holds in all contexts that `Ranges` allows, as hops and
variables open further levels with further tables. -/

theorem Context.within_sorted {nav : Navigating} {compile : Context → Numbered Compiled}
    (hc : s.Ranges tables c) (hhops : ∀ h ∈ nav.hops, s.Stores h.target)
    (hcompile : ∀ inner tables, nav.Enters c inner →
      s.Ranges tables inner → (compile inner).Ensures (·.Sorted s tables)) :
    (c.within (some nav) compile).Ensures (·.Sorted s tables) := by
  refine (Hop.askNarrowed_sorted hc hhops ?_).bind_pure fun e he => he
  intro inner tables hopened hinner
  exact conditionOf_sorted (hcompile inner tables hopened hinner)

theorem operandsBy_sorted {operand : Context → Address → Filter → Numbered Compiled}
    {fs : List Filter} {i : Nat} (h : ∀ f ∈ fs, ∀ a, (operand c a f).Ensures (·.Sorted s tables)) :
    (operandsBy operand c a i fs).Ensures fun xs => ∀ x ∈ xs, x.Sorted s tables := by
  induction fs generalizing i with
  | nil => exact ensures_pure (by simp)
  | cons f fs ih =>
      refine (h f List.mem_cons_self _).bind ?_
      intro x hx
      refine (ih fun g hg => h g (List.mem_cons_of_mem f hg)).bind_pure ?_
      intro xs hxs y hy
      rcases List.mem_cons.mp hy with rfl | hy
      · exact hx
      · exact hxs y hy

/-- The column of `p` is of the sort that `p.type` promises if the schema declares it with this
type. -/
theorem ofPath_sorted {label : String} {p : AttributePath}
    (h : s.Types tables label p.column p.type.dataType) :
    (Compiled.ofPath label p).Sorted s tables := by
  refine ⟨⟨trivial, .column h, .column h⟩, ?_⟩
  intro htype
  rw [htype] at h
  exact .column h

/-- The form of `ask_sorted` for the question whether a row violates a condition, as `all` has
it. -/
theorem Hop.askViolated_sorted {hops : List Hop} {condition : Context → Numbered Expr}
    (hc : s.Ranges tables c) (hhops : ∀ h ∈ hops, s.Stores h.target)
    (hcondition : ∀ inner tables, s.Ranges tables inner →
      (condition inner).Ensures (·.SortedCondition s tables)) :
    (ask (someRow binding fun inner => do
      return some (.not (← condition inner))) c source hops).Ensures
      (·.SortedCondition s tables) := by
  apply ask_sorted hc hhops
  intro inner tables _ hinner
  refine (hcondition inner tables hinner).bind_pure ?_
  rintro x hx _ ⟨⟩
  exact ⟨hx, .not x⟩

/-- What a member denotes is well-sorted if its body and its arguments are. -/
theorem Target.compile_sorted {path : Path} {anchor : Level} {target : Target}
    (hc : s.Ranges tables c) (hfound : s.denote c a path = .ok (anchor, target))
    {body : Context → Numbered Compiled}
    {arguments : Context → Numbered (List (Option String × Compiled))}
    (hbody : ∀ inner tables, s.Ranges tables inner → (body inner).Ensures (·.Sorted s tables))
    (harguments : (arguments c).Ensures fun args => ∀ arg ∈ args, arg.2.Sorted s tables) :
    (target.compile s c path anchor body (fun _ => return []) arguments).Ensures
      (·.Sorted s tables) := by
  have hhops := Schema.denote_stores hc hfound
  obtain ⟨start, -, -, hanchor, -⟩ := Schema.denote_ok.mp hfound
  obtain ⟨hscope, htable⟩ := hc anchor (Context.mem_of_anchor hanchor)
  have hcondition (inner : Context) (tables : List (String × TableName))
      (hinner : s.Ranges tables inner) :
      (conditionOf (body inner)).Ensures (·.SortedCondition s tables) :=
        conditionOf_sorted (hbody inner tables hinner)
  cases target with
  | element =>
      rw [Target.compile]
      split
      · exact ensures_pure (ofPath_sorted (Schema.element_types hscope htable ‹_›))
      · exact ensures_throw
  | navigation hops offset => exact ensures_throw
  | count hops =>
      obtain ⟨last, rfl⟩ := Schema.denote_count hfound
      have hcount : (Hop.countRows c anchor.label last).Ensures fun e =>
        e.Sorted s tables ∧ IsNumber s tables e :=
        Hop.countRows_sorted
      exact hcount.bind_pure fun e he => number_sorted rfl he.1 he.2
  | nonempty hops =>
      refine (Hop.ask_sorted hc hhops ?_).bind_pure fun e he => he
      intro inner tables _ _
      apply ensures_pure
      rintro _ ⟨⟩
  | any hops name =>
      refine (Hop.askNarrowed_sorted hc hhops ?_).bind_pure fun e he => he
      intro inner tables _ hinner
      exact hcondition inner tables hinner
  | all hops name =>
      refine (Hop.askNarrowed_sorted hc hhops fun inner tables _ => hcondition inner tables).bind ?_
      intro e he
      refine (Hop.askViolated_sorted hc hhops hcondition).bind_pure ?_
      intro e' he'
      exact ⟨⟨he.1, ⟨he'.1, he'.2⟩, he.2, .not e'⟩, .and e (.not e')⟩
  | function name =>
      show (arguments c >>= fun args => liftM (s.callCustom name args)).Ensures _
      exact harguments.bind_lift fun args x hargs hx => callCustom_sorted hargs hx
  | _ => exact ensures_pure (ofPath_sorted (Schema.denote_types hc hfound))

/-- What `assemble` puts together of well-sorted parts is well-sorted. -/
theorem Filter.assemble_sorted {f : Filter}
    {operand : Context → Address → Filter → Numbered Compiled} (hc : s.Ranges tables c)
    (hparts : ∀ g ∈ f.parts, ∀ c a tables, s.Ranges tables c →
      (operand c a g).Ensures (·.Sorted s tables)) :
      (f.assemble s operand a c).Ensures (·.Sorted s tables) := by
  cases f with
  | binary l op r =>
      rw [assemble]
      split
      · exact ensures_throw
      · refine (hparts l (by simp [parts]) c _ tables hc).bind ?_
        intro x hx
        refine (hparts r (by simp [parts]) c _ tables hc).bind_lift ?_
        intro y z hy hz
        exact compose_sorted hx hy hz
  | unary op f =>
      refine (hparts f (by simp [parts]) c _ tables hc).bind_lift ?_
      intro x z hx hz
      exact composeUnary_sorted hx hz
  | member path =>
      -- What a member denotes is known from the run, as it is checked before anything is compiled.
      intro n x m hx
      obtain ⟨⟨anchor, target⟩, k, hfound, hx⟩ := Numbered.bind_ok.mp hx
      obtain ⟨hfound, -⟩ := Numbered.lift_ok.mp hfound
      refine Target.compile_sorted hc hfound ?_ ?_ k x m hx
      · intro inner tables hinner
        cases hbody : Path.body? path with
        | none => exact ensures_throw
        | some body => exact hparts body (Path.body?_mem hbody) inner _ tables hinner
      · have hvalues : (operandsBy operand c a 0 ((Path.arguments path).map Argument.value)).Ensures
            fun xs => ∀ x ∈ xs, x.Sorted s tables := by
          apply operandsBy_sorted
          intro f hf a
          obtain ⟨arg, harg, rfl⟩ := List.mem_map.mp hf
          exact hparts _ (Path.arguments_mem harg) c a tables hc
        refine hvalues.bind_pure ?_
        intro xs hxs arg harg
        exact hxs arg.2 (List.of_mem_zip harg).2
  | call g args =>
      refine (operandsBy_sorted fun f hf a => hparts f hf c a tables hc).bind_lift ?_
      intro xs z hxs hz
      exact callBuiltIn_sorted hxs hz
  | literal l => exact ensures_pure trivial
  | enumMember type member =>
      intro n x m hx
      have hx : ((enumMember type member).compile s c a).run n = .ok (x, m) := hx
      obtain ⟨v, t, ht, rfl, -⟩ := compile_enumMember_ok hx
      have htype := Schema.coerceMember_type ht
      exact other_sorted trivial (by rw [htype]; rfl) (by rw [htype]; rfl) (by rw [htype]; decide)
  | typeName name =>
      intro n x m hx
      have hx : ((typeName name).compile s c a).run n = .ok (x, m) := hx
      obtain ⟨t, -, rfl, -⟩ := compile_typeName_ok hx
      trivial
  | parameterAlias name => exact ensures_throw

/-- **A filter is compiled to something well-sorted** in every context of declared levels. -/
theorem Filter.compile_sorted (f : Filter) (hc : s.Ranges tables c) :
    (f.compile s c a).Ensures (·.Sorted s tables) := by
  induction f using Filter.induction generalizing c a tables with
  | step f ih =>
      have hparts (g : Filter) (hg : g ∈ f.parts) (c : Context) (a : Address)
          (tables : List (String × TableName)) (hc : s.Ranges tables c) :
          (s.compiling c a g).Ensures (·.Sorted s tables) := ih g hg hc
      cases hleading : f.leading s c a with
      | error err =>
          rw [compile_failed hleading]
          exact ensures_throw
      | ok nav? =>
          cases nav? with
          | none =>
              rw [compile_here hleading]
              exact assemble_sorted hc hparts
          | some nav =>
              rw [compile_again hleading]
              apply Context.within_sorted hc
              · exact Schema.denote_stores hc (leading_denote hleading)
              · intro inner tables hinner hranges
                rw [compile_here (leading_opened hleading hinner)]
                exact assemble_sorted hranges hparts

end

/-! ## Whole filters

The root level ranges over the rows of the entity type, under the alias `tableAlias 0`. -/

/-- **Compiled filters are well-sorted.** The condition of a filter is `Sorted`, with the root table
under `tableAlias 0`, and so is the query that `select` gives: operands of logic and conditions of
queries are conditions, numbers are what is calculated with and rounded, and texts what the
functions of texts take. The condition itself is one (`IsCondition`). -/
theorem Schema.compile_wellSorted {s : Schema} {entity : String} {f : Filter} {e : Expr}
    (h : s.compile entity f = .ok e) :
    ∃ type q, s.entityType? entity = some type ∧ s.select entity f = .ok q ∧
      e.Sorted s [(tableAlias 0, type.table)] ∧ IsCondition s [(tableAlias 0, type.table)] e ∧
      q.Sorted s [] := by
  obtain ⟨type, htype, hon⟩ := compile_ok.mp h
  obtain ⟨x, m, hx, he⟩ := compileOn_ok.mp hon
  have hranges : s.Ranges [(tableAlias 0, type.table)] (.ofEntity type) := by
    intro l hl
    obtain rfl := List.mem_singleton.mp hl
    exact ⟨.entity (List.mem_of_find?_eq_some htype), List.mem_singleton.mpr rfl⟩
  obtain ⟨hsorted, hcondition⟩ := (f.compile_sorted hranges 1 x m hx).condition he
  exact ⟨type, _, htype, select_ok.mpr ⟨type, e, htype, hon, rfl⟩, hsorted, hcondition,
    ⟨trivial, trivial⟩, trivial, hsorted, hcondition⟩

theorem Schema.sorted_roleLike : ∃ e type q, sample.compile "User" (.roleLike "x") = .ok e ∧
    sample.entityType? "User" = some type ∧ sample.select "User" (.roleLike "x") = .ok q ∧
    e.Sorted sample [(tableAlias 0, type.table)] ∧
    IsCondition sample [(tableAlias 0, type.table)] e ∧ q.Sorted sample [] := by
  have hcompiled : ∃ e, sample.compile "User" (.roleLike "x") = .ok e := ⟨_, rfl⟩
  obtain ⟨e, he⟩ := hcompiled
  obtain ⟨type, q, htype, hq, hsorted, hcondition, hquery⟩ := compile_wellSorted he
  exact ⟨e, type, q, he, htype, hq, hsorted, hcondition, hquery⟩

end FilterSql
