import FilterSql.Proofs.Compile.Skeleton
import FilterSql.Proofs.Sql.Standard

/-!
# Expressions of one form

Composing operands and calling functions looks at the types of the operands and at literals, but
never at expressions: each of them is put once into a larger one. This is said of two runs at a
time. Operands that differ in their expressions and in the texts of string literals become results
of one form over the expressions that they were given (`Schema.compose_alike`,
`Schema.callBuiltIn_alike`, `Schema.callCustom_alike`). What a result is made of is read off its
form, for two runs that correspond, and for a single run as the case in which both are the same.
-/

namespace FilterSql

open Sql (Expr)

/-! ## Literals and names of functions

`Sql.standardFunctions` and the functions that a schema declares are all that a query may call. A
literal is of a type that its `skeleton` tells, whatever its text is. -/

/-- The names of functions that a query may call: the standard ones, and the `sqlName` of each
declared one. -/
def Schema.functionNames (s : Schema) : List String :=
  Sql.standardFunctions ++ s.functions.map (·.sqlName)

theorem Schema.standard_subset (s : Schema) : Sql.standardFunctions ⊆ s.functionNames :=
  List.subset_append_left _ _

theorem Schema.sqlName_mem (s : Schema) : ∀ g ∈ s.functions, g.sqlName ∈ s.functionNames :=
  fun _ hg => List.mem_append_right _ (List.mem_map_of_mem hg)

/-- By itself a literal of one `skeleton` is of one type, as a string literal is a string whatever
its text. -/
theorem Literal.dataType_alone {p : Bool} {l l' : Literal} {v v' : Value}
    (h : l.skeleton p = l'.skeleton p) (hv : l.alone = .ok v) (hv' : l'.alone = .ok v') :
    v.dataType = v'.dataType := by
  by_cases hkind : l.kind = .string
  · have hkind' : l'.kind = .string := Literal.kind_eq_of_skeleton h ▸ hkind
    simp only [Literal.alone, hkind, Except.ok.injEq] at hv
    simp only [Literal.alone, hkind', Except.ok.injEq] at hv'
    subst hv hv'
    rfl
  · obtain rfl := Literal.eq_of_skeleton h hkind
    obtain rfl := Except.ok.inj (hv.symm.trans hv')
    rfl

/-! ## Forms

A form is given by what it is made of. `Alike` lists the pairs of parts, so that parts can be
counted and not only compared. -/

/-- `Alike functions ps e e'`: the expressions are built in one way from the pairs of parts `ps`,
each of which is used once. The values that they bind may differ. -/
inductive Sql.Expr.Alike (functions : List String) : List (Expr × Expr) → Expr → Expr → Prop where
  | part (e e' : Expr) : Alike functions [(e, e')] e e'
  | parameter (v v' : Value) : Alike functions [] (.parameter v) (.parameter v')
  | constant {v : Value} (hv : v ∈ Sql.standardConstants) :
      Alike functions [] (.constant v) (.constant v)
  | now : Alike functions [] .now .now
  | binary {ps qs : List (Expr × Expr)} {l l' r r' : Expr} (op : Sql.Operator)
      (hl : Alike functions ps l l') (hr : Alike functions qs r r') :
      Alike functions (ps ++ qs) (.binary l op r) (.binary l' op r')
  | not {ps : List (Expr × Expr)} {e e' : Expr} (h : Alike functions ps e e') :
      Alike functions ps (.not e) (.not e')
  | isNull {ps : List (Expr × Expr)} {e e' : Expr} (h : Alike functions ps e e') :
      Alike functions ps (.isNull e) (.isNull e')
  | isNotNull {ps : List (Expr × Expr)} {e e' : Expr} (h : Alike functions ps e e') :
      Alike functions ps (.isNotNull e) (.isNotNull e')
  | like {ps qs : List (Expr × Expr)} {e e' pattern pattern' : Expr} {escape : Option Char}
      (hescape : ∀ c ∈ escape, c = Sql.Like.escapeMark) (he : Alike functions ps e e')
      (hp : Alike functions qs pattern pattern') :
      Alike functions (ps ++ qs) (.like e pattern escape) (.like e' pattern' escape)
  | function {name : String} (hname : name ∈ functions)
      (args : List (List (Expr × Expr) × Expr × Expr))
      (hargs : ∀ arg ∈ args, Alike functions arg.1 arg.2.1 arg.2.2) :
      Alike functions (args.flatMap (·.1)) (.function name (args.map (·.2.1)))
        (.function name (args.map (·.2.2)))
  | position {ps qs : List (Expr × Expr)} {l l' r r' : Expr} (hl : Alike functions ps l l')
      (hr : Alike functions qs r r') : Alike functions (ps ++ qs) (.position l r) (.position l' r')
  | extract {ps : List (Expr × Expr)} {e e' : Expr} (field : Sql.DateField)
      (h : Alike functions ps e e') :
      Alike functions ps (.extract field e) (.extract field e')
  | cast {ps : List (Expr × Expr)} {e e' : Expr} {type : DataType} (htype : type ∈ Sql.castTypes)
      (h : Alike functions ps e e') :
      Alike functions ps (.cast e type) (.cast e' type)
  | reorder {ps qs : List (Expr × Expr)} {e e' : Expr} (hperm : ps.Perm qs)
      (h : Alike functions ps e e') :
      Alike functions qs e e'

/-- Two compiled operands of one kind, type and form. If `p`, string literals also agree in whether
they have special characters, since a pattern declares its escape character only then. -/
inductive Compiled.Alike (functions : List String) (p : Bool) :
    List (Expr × Expr) → Compiled → Compiled → Prop where
  | predicate {ps : List (Expr × Expr)} {e e' : Expr} (h : e.Alike functions ps e') :
      Alike functions p ps (.predicate e) (.predicate e')
  | subquery {ps : List (Expr × Expr)} {e e' : Expr} (h : e.Alike functions ps e') :
      Alike functions p ps (.subquery e) (.subquery e')
  | value {ps : List (Expr × Expr)} {e e' : Expr} (type : ValueType) (h : e.Alike functions ps e') :
      Alike functions p ps (.value e type) (.value e' type)
  | member {ps : List (Expr × Expr)} {e e' : Expr} (path : AttributePath)
      (h : e.Alike functions ps e') :
      Alike functions p ps (.member e path) (.member e' path)
  | literal {l l' : Literal} (h : l.skeleton p = l'.skeleton p) :
      Alike functions p [] (.literal l) (.literal l')
  | typeName (t : DataType) : Alike functions p [] (.typeName t) (.typeName t)

/-- Rows of operands that are alike one by one. Special characters count in the first operand if
`p` says so, and in the others if `q` does. -/
inductive Compiled.AlikeAll (functions : List String) (q : Bool) :
    Bool → List (Expr × Expr) → List Compiled → List Compiled → Prop where
  | nil (p : Bool) : AlikeAll functions q p [] [] []
  | cons {p : Bool} {ps qs : List (Expr × Expr)} {x x' : Compiled} {xs xs' : List Compiled}
      (hx : x.Alike functions p ps x') (hxs : AlikeAll functions q q qs xs xs') :
      AlikeAll functions q p (ps ++ qs) (x :: xs) (x' :: xs')

/-- Two operands of one type whose expressions are `Alike`. -/
structure Operand.Alike (functions : List String) (ps : List (Expr × Expr))
    (o o' : Operand) : Prop where
  expr : o.expr.Alike functions ps o'.expr
  type : o.type = o'.type
  isNull : o.isNull = o'.isNull

section

variable {functions : List String} {p q : Bool} {ps qs : List (Expr × Expr)}
    {x x' y y' z z' : Compiled}

namespace Compiled.Alike

theorem type?_eq (h : x.Alike functions p ps x') : x.type? = x'.type? := by
  cases h <;> rfl

theorem isCondition_eq (h : x.Alike functions p ps x') : x.isCondition = x'.isCondition := by
  cases h <;> rfl

theorem boolean?_eq (h : x.Alike functions p ps x') : x.boolean? = x'.boolean? := by
  cases h with
  | @literal l l' h =>
      by_cases hkind : l.kind = .string
      · have hkind' : l'.kind = .string := Literal.kind_eq_of_skeleton h ▸ hkind
        simp [boolean?, hkind, hkind']
      · rw [Literal.eq_of_skeleton h hkind]
  | predicate | subquery | value | member | typeName => rfl

/-- What is `Alike` to a boolean literal has no parts. -/
theorem boolean_parts {b : Bool} (h : x.Alike functions p ps x') (hb : x.boolean? = some b) :
    ps = [] := by
  cases h with
  | literal => rfl
  | predicate | subquery | value | member | typeName => simp [boolean?] at hb

theorem arithmeticType_eq (h : x.Alike functions p ps x') (t : Option ValueType) :
    x.arithmeticType t = x'.arithmeticType t := by
  cases h with
  | literal h => simp only [arithmeticType, Literal.kind_eq_of_skeleton h]
  | predicate | subquery | value | member | typeName => rfl

theorem predicate?_alike {e e' : Expr} (h : x.Alike functions p ps x') (he : x.predicate? = some e)
    (he' : x'.predicate? = some e') : e.Alike functions ps e' := by
  cases h with
  | predicate h | subquery h =>
      obtain rfl := Option.some.inj he
      obtain rfl := Option.some.inj he'
      exact h
  | value type h =>
      by_cases htype : type.dataType = .boolean <;> simp_all [predicate?]
  | member path h =>
      by_cases htype : path.type.dataType = .boolean <;> simp_all [predicate?]
  | literal | typeName => simp [predicate?] at he

theorem plain (h : x.Alike functions p ps x') : x.Alike functions false ps x' := by
  cases h with
  | predicate h => exact .predicate h
  | subquery h => exact .subquery h
  | value type h => exact .value type h
  | member path h => exact .member path h
  | literal h => exact .literal (Literal.skeleton_plain h)
  | typeName t => exact .typeName t

end Compiled.Alike

namespace Compiled.AlikeAll

variable {w w' : Compiled} {xs xs' : List Compiled}

theorem length_eq (h : AlikeAll functions q p ps xs xs') : xs.length = xs'.length := by
  induction h with
  | nil => rfl
  | cons _ _ ih => simp [ih]

theorem one (h : AlikeAll functions q p ps [x] [x']) : x.Alike functions p ps x' := by
  obtain _ | ⟨hx, _ | _⟩ := h
  rwa [List.append_nil]

theorem two (h : AlikeAll functions q p ps [x, y] [x', y']) :
    ∃ qs rs, x.Alike functions p qs x' ∧ y.Alike functions q rs y' ∧ ps = qs ++ rs := by
  obtain _ | ⟨hx, hrest⟩ := h
  exact ⟨_, _, hx, hrest.one, rfl⟩

theorem three (h : AlikeAll functions q p ps [x, y, w] [x', y', w']) :
    ∃ qs rs ts, x.Alike functions p qs x' ∧ y.Alike functions q rs y' ∧ w.Alike functions q ts w' ∧
      ps = qs ++ (rs ++ ts) := by
  obtain _ | ⟨hx, hrest⟩ := h
  obtain ⟨_, _, hy, hw, rfl⟩ := hrest.two
  exact ⟨_, _, _, hx, hy, hw, rfl⟩

end Compiled.AlikeAll

/-! ## Constants and functions of SQL

The forms without parts, and the functions with one, two or three of them. Both expressions call
the same function, so only the parts may differ. -/

namespace Sql.Expr.Alike

theorem one : (Expr.constant (.int 1)).Alike functions [] (.constant (.int 1)) :=
  .constant (by simp [Sql.standardConstants])

theorem wildcard : (Expr.constant (.string "%")).Alike functions [] (.constant (.string "%")) :=
  .constant (by simp [Sql.standardConstants])

theorem null : (Expr.constant .null).Alike functions [] (.constant .null) :=
  .constant (by simp [Sql.standardConstants])

variable {name : String} {e₁ e₁' e₂ e₂' e₃ e₃' : Expr} {rs : List (Expr × Expr)}

theorem function₁ (hname : name ∈ functions) (h₁ : e₁.Alike functions ps e₁') :
    (Expr.function name [e₁]).Alike functions ps (.function name [e₁']) := by
  have h := Alike.function hname [(ps, e₁, e₁')] (by simpa using h₁)
  simpa using h

theorem function₂ (hname : name ∈ functions) (h₁ : e₁.Alike functions ps e₁')
    (h₂ : e₂.Alike functions qs e₂') :
    (Expr.function name [e₁, e₂]).Alike functions (ps ++ qs) (.function name [e₁', e₂']) := by
  have h := Alike.function hname [(ps, e₁, e₁'), (qs, e₂, e₂')] (by simpa using ⟨h₁, h₂⟩)
  simpa using h

theorem function₃ (hname : name ∈ functions) (h₁ : e₁.Alike functions ps e₁')
    (h₂ : e₂.Alike functions qs e₂') (h₃ : e₃.Alike functions rs e₃') :
    (Expr.function name [e₁, e₂, e₃]).Alike functions (ps ++ (qs ++ rs))
      (.function name [e₁', e₂', e₃']) := by
  have h :=
    Alike.function hname [(ps, e₁, e₁'), (qs, e₂, e₂'), (rs, e₃, e₃')] (by simpa using ⟨h₁, h₂, h₃⟩)
  simpa using h

end Sql.Expr.Alike

namespace Schema

variable {s : Schema}

/-! ## Operands

What `operand` does to a compiled part keeps its form: a literal becomes a parameter, which has no
parts, and everything else is passed as it is. -/

/-- If there is no type `beside` a literal, `coerce` reads it by itself. -/
theorem coerce_alone {l : Literal} {beside : Option ValueType} (hl : l.isNull = false)
    (hbeside : beside.filter (·.dataType ≠ .null) = none) : s.coerce l beside = l.alone := by
  cases beside with
  | none => simp [coerce, hl]
  | some type =>
      have htype : type.dataType = .null := by simpa [Option.filter] using hbeside
      simp [coerce, hl, htype]

theorem operand_alike {beside : Option ValueType} {o o' : Operand} (hx : x.Alike functions p ps x')
    (ho : s.operand x beside = .ok o) (ho' : s.operand x' beside = .ok o') :
    o.Alike functions ps o' := by
  cases hx with
  | predicate h | subquery h | value _ h | member _ h =>
      obtain rfl := Except.ok.inj ho
      obtain rfl := Except.ok.inj ho'
      exact ⟨h, rfl, rfl⟩
  | typeName t => simp [operand] at ho
  | @literal l l' h =>
      have hnull := Literal.isNull_eq_of_skeleton h
      cases hl : l.isNull with
      | true =>
          simp only [operand, hl, if_true, Except.ok.injEq] at ho
          simp only [operand, ← hnull, hl, if_true, Except.ok.injEq] at ho'
          subst ho ho'
          exact ⟨.null, rfl, rfl⟩
      | false =>
          have hl' : l'.isNull = false := hnull ▸ hl
          simp only [operand, hl, hl', Bool.false_eq_true, if_false] at ho ho'
          obtain ⟨v, hv, ho⟩ := Checked.bind_ok.mp ho
          obtain ⟨v', hv', ho'⟩ := Checked.bind_ok.mp ho'
          obtain rfl := Checked.pure_ok.mp ho
          obtain rfl := Checked.pure_ok.mp ho'
          refine ⟨.parameter v v', ?_, rfl⟩
          -- Without a type beside it the literal shows its own, which no text of a string changes.
          cases hbeside : beside.filter (·.dataType ≠ .null) with
          | some type => rfl
          | none =>
              rw [coerce_alone hl hbeside] at hv
              rw [coerce_alone hl' hbeside] at hv'
              show ValueType.of v.dataType = ValueType.of v'.dataType
              rw [Literal.dataType_alone h hv hv']

/-- The literal `null` has no parts. -/
theorem operand_null_parts {beside : Option ValueType} {o : Operand}
    (hx : x.Alike functions p ps x') (ho : s.operand x beside = .ok o) (hnull : o.isNull = true) :
    ps = [] := by
  cases hx with
  | literal | typeName => rfl
  | predicate | subquery | value | member =>
      obtain rfl := Except.ok.inj ho
      simp at hnull

theorem operands_alike {l l' r r' : Operand} (hx : x.Alike functions p ps x')
    (hy : y.Alike functions q qs y') (h : s.operands x y = .ok (l, r))
    (h' : s.operands x' y' = .ok (l', r')) :
    l.Alike functions ps l' ∧ r.Alike functions qs r' := by
  obtain ⟨hl, hr⟩ := operands_ok.mp h
  obtain ⟨hl', hr'⟩ := operands_ok.mp h'
  rw [← hy.type?_eq] at hl'
  have hleft := operand_alike hx hl hl'
  rw [← hleft.isNull, ← hleft.type] at hr'
  exact ⟨hleft, operand_alike hy hr hr'⟩

theorem reads_alike {beside : Option ValueType} {e e' : Expr} (hx : x.Alike functions p ps x')
    (h : s.Reads x beside e) (h' : s.Reads x' beside e') : e.Alike functions ps e' := by
  obtain ⟨o, ho, -, rfl⟩ := h
  obtain ⟨o', ho', -, rfl⟩ := h'
  exact (operand_alike hx ho ho').expr

/-! ## Operators

Each operator makes one form of the forms of its operands. The proofs follow the two runs through
the same cases, since these depend on types and kinds only. -/

theorem compareNull_alike {op : Comparison} {e e' : Expr} (he : e.Alike functions ps e')
    (h : compareNull op e = .ok z) (h' : compareNull op e' = .ok z') :
    z.Alike functions p ps z' := by
  rcases compareNull_ok.mp h with ⟨rfl, rfl⟩ | ⟨rfl, rfl⟩
  · rcases compareNull_ok.mp h' with ⟨-, rfl⟩ | ⟨⟨⟩, -⟩
    exact .predicate he.isNull
  · rcases compareNull_ok.mp h' with ⟨⟨⟩, -⟩ | ⟨-, rfl⟩
    exact .predicate he.isNotNull

theorem compareValues_alike {t : Bool} {op : Comparison} (hx : x.Alike functions p ps x')
    (hy : y.Alike functions q qs y') (h : s.compareValues op x y = .ok z)
    (h' : s.compareValues op x' y' = .ok z') : z.Alike functions t (ps ++ qs) z' := by
  obtain ⟨l, r, hlr, h⟩ := compareValues_ok h
  obtain ⟨l', r', hlr', h'⟩ := compareValues_ok h'
  obtain ⟨hl, hr⟩ := operands_alike hx hy hlr hlr'
  rw [← hl.isNull, ← hr.isNull] at h'
  cases hlnull : l.isNull with
  | true =>
      -- The literal `null` stands for itself on one side, and no part comes from there.
      rw [if_pos hlnull] at h h'
      obtain rfl := operand_null_parts hx (operands_ok.mp hlr).1 hlnull
      exact compareNull_alike hr.expr h h'
  | false =>
      rw [if_neg (by simp [hlnull])] at h h'
      cases hrnull : r.isNull with
      | true =>
          rw [if_pos hrnull] at h h'
          obtain rfl := operand_null_parts hy (operands_ok.mp hlr).2 hrnull
          rw [List.append_nil]
          exact compareNull_alike hl.expr h h'
      | false =>
          rw [if_neg (by simp [hrnull])] at h h'
          obtain ⟨-, rfl⟩ := h
          obtain ⟨-, rfl⟩ := h'
          exact .predicate (.binary _ hl.expr hr.expr)

theorem compareCondition_alike {t expected : Bool} {op : Comparison}
    (hx : x.Alike functions p ps x') (h : x.compareCondition op (some expected) = .ok z)
    (h' : x'.compareCondition op (some expected) = .ok z') :
    z.Alike functions t ps z' := by
  obtain ⟨e, kept, he, hkept, rfl⟩ := Compiled.compareCondition_ok.mp h
  obtain ⟨e', kept', he', hkept', rfl⟩ := Compiled.compareCondition_ok.mp h'
  have hsame : kept = kept' := by
    rcases hkept with ⟨rfl, rfl⟩ | ⟨rfl, rfl⟩ <;> rcases hkept' with ⟨hop, rfl⟩ | ⟨hop,
      rfl⟩ <;> simp_all
  subst hsame
  cases kept with
  | true => exact .predicate (hx.predicate?_alike he he')
  | false => exact .predicate (hx.predicate?_alike he he').not

theorem compare_alike {t : Bool} {op : Comparison} (hx : x.Alike functions p ps x')
    (hy : y.Alike functions q qs y') (h : s.compare op x y = .ok z)
    (h' : s.compare op x' y' = .ok z') :
    z.Alike functions t (ps ++ qs) z' := by
  -- Which side is a boolean and which one a condition, both runs see alike.
  rcases compare_ok h with
    ⟨b, hcondition, hboolean, h⟩ | ⟨b, hboolean, hcondition, h⟩ | ⟨hvalues, h⟩
  · rw [compare_left (hx.isCondition_eq ▸ hcondition) (hy.boolean?_eq ▸ hboolean)] at h'
    rw [hy.boolean_parts hboolean, List.append_nil]
    exact compareCondition_alike hx h h'
  · rw [compare_right (hx.boolean?_eq ▸ hboolean) (hy.isCondition_eq ▸ hcondition)] at h'
    rw [hx.boolean_parts hboolean, List.nil_append]
    exact compareCondition_alike hy h h'
  · rw [hx.isCondition_eq, hx.boolean?_eq, hy.isCondition_eq, hy.boolean?_eq] at hvalues
    rw [compare_values hvalues.1 hvalues.2] at h'
    exact compareValues_alike hx hy h h'

theorem combine_alike {t : Bool} {op : Sql.Operator} (hx : x.Alike functions p ps x')
    (hy : y.Alike functions q qs y') (h : Compiled.combine op x y = .ok z)
    (h' : Compiled.combine op x' y' = .ok z') : z.Alike functions t (ps ++ qs) z' := by
  obtain ⟨l, r, hl, hr, rfl⟩ := Compiled.combine_ok.mp h
  obtain ⟨l', r', hl', hr', rfl⟩ := Compiled.combine_ok.mp h'
  exact .predicate (.binary op (hx.predicate?_alike hl hl') (hy.predicate?_alike hr hr'))

theorem calculate_alike {t : Bool} {op : Arithmetic} (hx : x.Alike functions p ps x')
    (hy : y.Alike functions q qs y') (h : s.calculate op x y = .ok z)
    (h' : s.calculate op x' y' = .ok z') :
    z.Alike functions t (ps ++ qs) z' := by
  obtain ⟨l, r, type, hl, hr, -, -, htype, rfl⟩ := calculate_ok h
  obtain ⟨l', r', type', hl', hr', -, -, htype', rfl⟩ := calculate_ok h'
  rw [← hy.type?_eq, ← hx.arithmeticType_eq] at hl'
  have hleft := operand_alike hx hl hl'
  rw [← hleft.isNull, ← hleft.type, ← hy.arithmeticType_eq] at hr'
  have hright := operand_alike hy hr hr'
  rw [← hleft.type, ← hright.type, htype] at htype'
  obtain rfl := Option.some.inj htype'
  exact .value _ (.binary _ hleft.expr hright.expr)

theorem compose_alike {t : Bool} {op : BinaryOperator} (hx : x.Alike functions p ps x')
    (hy : y.Alike functions q qs y') (h : s.compose op x y = .ok z)
    (h' : s.compose op x' y' = .ok z') :
    z.Alike functions t (ps ++ qs) z' := by
  cases op with
  | compare op => exact compare_alike hx hy h h'
  | arith op => exact calculate_alike hx hy h h'
  | and => exact combine_alike hx hy h h'
  | or => exact combine_alike hx hy h h'
  | has => simp [compose] at h

theorem composeUnary_alike {t : Bool} {op : UnaryOperator} (hx : x.Alike functions p ps x')
    (h : x.composeUnary op = .ok z) (h' : x'.composeUnary op = .ok z') :
    z.Alike functions t ps z' := by
  cases op with
  | not =>
      obtain ⟨e, he, rfl⟩ := Compiled.negateCondition_ok.mp h
      obtain ⟨e', he', rfl⟩ := Compiled.negateCondition_ok.mp h'
      exact .predicate (hx.predicate?_alike he he').not
  | minus =>
      -- Only a number is negated, and the two numbers are the same.
      obtain ⟨l, k, rfl, rfl, hnumeric, -⟩ := Compiled.negate_ok h
      cases hx with
      | literal hskeleton =>
          have hkind : l.kind ≠ .string := by
            intro hstring
            simp [hstring, LiteralKind.isNumeric] at hnumeric
          obtain rfl := Literal.eq_of_skeleton hskeleton hkind
          obtain rfl := Except.ok.inj (h.symm.trans h')
          exact .literal rfl

/-! ## Functions

A lemma for each of the two kinds of arguments that a function turns into something else, patterns
and starts, and then one for all functions by their families. -/

theorem pattern_alike {m : Sql.Like.Margins} {e e' : Expr} {escape escape' : Option Char}
    (hname : "CONCAT" ∈ functions) (hx : x.Alike functions true ps x')
    (h : s.Pattern m x e escape) (h' : s.Pattern m x' e' escape') :
    e.Alike functions ps e' ∧ escape = escape' ∧ ∀ c ∈ escape, c = Sql.Like.escapeMark := by
  cases h with
  | written hkind =>
      cases hx with
      | literal hskeleton =>
          cases h' with
          | written hkind' =>
              refine ⟨.parameter _ _, Literal.escapeOf_eq_of_skeleton hskeleton hkind, ?_⟩
              intro c hc
              rw [Sql.Like.escapeOf] at hc
              split at hc <;> simp_all
          | computed hx' => exact absurd (Literal.kind_eq_of_skeleton hskeleton ▸ hkind) (hx' _ rfl)
  | computed hplain he =>
      cases h' with
      | written hkind' =>
          cases hx with
          | literal hskeleton =>
              exact absurd (Literal.kind_eq_of_skeleton hskeleton ▸ hkind') (hplain _ rfl)
      | computed hplain' he' =>
          refine ⟨?_, rfl, by simp⟩
          have hargs := reads_alike hx he he'
          obtain ⟨before, after⟩ := m
          cases before <;> cases after
          · exact .function₁ hname hargs
          · simpa [Sql.Like.Margins.around] using Sql.Expr.Alike.function₂ hname hargs .wildcard
          · exact .function₂ hname .wildcard hargs
          · simpa [Sql.Like.Margins.around]
              using Sql.Expr.Alike.function₃ hname .wildcard hargs .wildcard

theorem start_alike {e e' : Expr} (hx : x.Alike functions p ps x') (h : s.Start x e)
    (h' : s.Start x' e') :
    e.Alike functions ps e' := by
  cases h with
  | written hkind hi =>
      cases hx with
      | literal hskeleton =>
          cases h' with
          | written hkind' hi' => exact .parameter _ _
          | computed hx' => exact absurd (Literal.kind_eq_of_skeleton hskeleton ▸ hkind) (hx' _ rfl)
  | computed hplain he =>
      cases h' with
      | written hkind' hi' =>
          cases hx with
          | literal hskeleton =>
              exact absurd (Literal.kind_eq_of_skeleton hskeleton ▸ hkind') (hplain _ rfl)
      | computed hplain' he' =>
          simpa using Sql.Expr.Alike.binary (.arith .add) (reads_alike hx he he') .one

/-- What `Calls` makes of arguments that are alike is alike, for each family. -/
theorem calls_alike {t : Bool} {family : BuiltIn.Family} {args args' : List Compiled}
    (hnames : family.sqlNames ⊆ functions)
    (hargs : Compiled.AlikeAll functions family.isMatching false ps args args')
    (h : s.Calls family args z) (h' : s.Calls family args' z') : z.Alike functions t ps z' := by
  cases h with
  | matching htext hpattern =>
      cases h' with
      | matching htext' hpattern' =>
          obtain ⟨_, _, hx, hy, rfl⟩ := hargs.two
          obtain ⟨hform, rfl, hescape⟩ :=
            pattern_alike (hnames (by simp [BuiltIn.Family.sqlNames])) hy
            hpattern hpattern'
          exact .predicate (.like hescape (reads_alike hx htext htext') hform)
  | ofText htext =>
      cases h' with
      | ofText htext' =>
          have hform := reads_alike hargs.one htext htext'
          exact .value _ (.function₁ (hnames (by simp [BuiltIn.Family.sqlNames])) hform)
  | indexOf htext hpart =>
      cases h' with
      | indexOf htext' hpart' =>
          obtain ⟨_, _, hx, hy, rfl⟩ := hargs.two
          -- The part to look for comes first in SQL.
          have hposition :=
            Sql.Expr.Alike.position (reads_alike hy hpart hpart') (reads_alike hx htext htext')
          have hform := Sql.Expr.Alike.binary (.arith .sub) hposition .one
          rw [List.append_nil] at hform
          exact .value _ (.reorder List.perm_append_comm hform)
  | rest htext hstart =>
      -- A family may take two arguments or three, and it takes as many in both runs.
      cases h' with
      | substring => cases hargs.length_eq
      | rest htext' hstart' =>
          obtain ⟨_, _, hx, hy, rfl⟩ := hargs.two
          exact .value _ (.function₂ (hnames (by simp [BuiltIn.Family.sqlNames]))
            (reads_alike hx htext htext')
            (start_alike hy hstart hstart'))
  | substring htext hstart hlength =>
      cases h' with
      | rest => cases hargs.length_eq
      | substring htext' hstart' hlength' =>
          obtain ⟨_, _, _, hx, hy, hw, rfl⟩ := hargs.three
          exact .value _ (.function₃ (hnames (by simp [BuiltIn.Family.sqlNames]))
            (reads_alike hx htext htext')
            (start_alike hy hstart hstart') (reads_alike hw hlength hlength'))
  | concat hleft hright =>
      cases h' with
      | concat hleft' hright' =>
          obtain ⟨_, _, hx, hy, rfl⟩ := hargs.two
          exact .value _ (.function₂ (hnames (by simp [BuiltIn.Family.sqlNames]))
            (reads_alike hx hleft hleft')
            (reads_alike hy hright hright'))
  | field he =>
      cases h' with
      | field he' => exact .value _ (.extract _ (reads_alike hargs.one he he'))
  | instantPart he htype =>
      cases h' with
      | instantPart he' _ => exact .value _ (.cast htype (reads_alike hargs.one he he'))
  | now =>
      cases h' with
      | now =>
          cases hargs
          exact .value _ .now
  | rounding ho =>
      cases h' with
      | rounding ho' =>
          have hoperand := operand_alike hargs.one ho ho'
          rw [hoperand.type]
          exact .value _ (.function₁ (hnames (by simp [BuiltIn.Family.sqlNames])) hoperand.expr)
  | cast ho htype =>
      cases h' with
      | cast ho' _ =>
          obtain ⟨_, _, hx, hy, rfl⟩ := hargs.two
          cases hy with
          | typeName =>
              rw [List.append_nil]
              exact .value _ (.cast htype (operand_alike hx ho ho').expr)

theorem callBuiltIn_alike {t : Bool} {f : BuiltIn} {args args' : List Compiled}
    (hfunctions : Sql.standardFunctions ⊆ functions)
    (hargs : Compiled.AlikeAll functions f.isMatching false ps args args')
    (h : s.callBuiltIn f args = .ok z) (h' : s.callBuiltIn f args' = .ok z') :
    z.Alike functions t ps z' := by
  have hstandard : f.family.sqlNames ⊆ Sql.standardFunctions := by
    cases f <;> simp [BuiltIn.family, BuiltIn.Family.sqlNames, Sql.standardFunctions]
  have hmatching : f.isMatching = f.family.isMatching := by cases f <;> rfl
  rw [hmatching] at hargs
  exact calls_alike (List.Subset.trans hstandard hfunctions) hargs (callBuiltIn_ok h)
    (callBuiltIn_ok h')

/-! ## Functions of the schema

Arguments are passed in the order of the parameters, so parts are permuted. -/

/-- Two arguments under one `name`, with the parts that they are made of. -/
structure ArgumentPair where
  name : String
  parts : List (Expr × Expr)
  left : Compiled
  right : Compiled

/-- What the name is bound to in the first run, by `bindArguments`. -/
def ArgumentPair.first (arg : ArgumentPair) : String × Compiled :=
  (arg.name, arg.left)

def ArgumentPair.second (arg : ArgumentPair) : String × Compiled :=
  (arg.name, arg.right)

theorem argumentPairs_of_alike {names : List (Option String)} {xs xs' : List Compiled}
    (h : Compiled.AlikeAll functions q p ps xs xs') (hlength : names.length = xs.length) :
    ∃ args : List ArgumentPair, (∀ arg ∈ args, arg.left.Alike functions false arg.parts arg.right) ∧
      givenNames (names.zip xs) = args.map (·.first) ∧
      givenNames (names.zip xs') = args.map (·.second) ∧
      ps = args.flatMap (·.parts) := by
  induction h generalizing names with
  | nil => exact ⟨[], by simp, by simp [givenNames], by simp [givenNames], rfl⟩
  | @cons p ps qs x x' xs xs' hx hxs ih =>
      cases names with
      | nil => simp at hlength
      | cons name names =>
          obtain ⟨args, hargs, hfirst, hsecond, rfl⟩ := ih (by simpa using hlength)
          refine ⟨⟨name.getD "", ps, x, x'⟩ :: args, ?_, ?_, ?_, rfl⟩
          · intro arg harg
            rcases List.mem_cons.mp harg with rfl | harg
            · exact hx.plain
            · exact hargs arg harg
          · simpa [givenNames, ArgumentPair.first] using hfirst
          · simpa [givenNames, ArgumentPair.second] using hsecond

/-- The argument with a `name` may be moved to the front. -/
theorem perm_filter_name {args : List ArgumentPair} {arg : ArgumentPair}
    (hnodup : (args.map (·.name)).Nodup) (harg : arg ∈ args) :
    args.Perm (arg :: args.filter (·.name ≠ arg.name)) := by
  induction args with
  | nil => simp at harg
  | cons first rest ih =>
      rw [List.map_cons, List.nodup_cons] at hnodup
      obtain ⟨hfresh, hrest⟩ := hnodup
      rcases List.mem_cons.mp harg with rfl | hmem
      · have hall : rest.filter (·.name ≠ arg.name) = rest := by
          rw [List.filter_eq_self]
          intro other hother
          have hne : other.name ≠ arg.name := fun heq => hfresh (heq ▸ List.mem_map_of_mem hother)
          simpa using hne
        rw [List.filter_cons_of_neg (by simp), hall]
      · have hne : first.name ≠ arg.name := fun heq => hfresh (heq ▸ List.mem_map_of_mem hmem)
        rw [List.filter_cons_of_pos (by simpa using hne)]
        exact (List.Perm.cons first (ih hrest hmem)).trans (List.Perm.swap arg first _)

/-- There is only one argument with each `name`. -/
theorem argument_unique {args : List ArgumentPair} {arg other : ArgumentPair}
    (hnodup : (args.map (·.name)).Nodup) (harg : arg ∈ args) (hother : other ∈ args)
    (hname : other.name = arg.name) : other = arg := by
  have hperm := perm_filter_name hnodup harg
  rcases List.mem_cons.mp (hperm.mem_iff.mp hother) with heq | hin
  · exact heq
  · simp [hname] at hin

theorem lookup_argument {args : List ArgumentPair} {side : ArgumentPair → String × Compiled}
    {name : String} (hside : ∀ arg, (side arg).1 = arg.name)
    (h : (args.map side).lookup name = some x) :
    ∃ arg ∈ args, arg.name = name ∧ (side arg).2 = x := by
  obtain ⟨l₁, l₂, hsplit, -⟩ := List.lookup_eq_some_iff.mp h
  have hmem : (name, x) ∈ args.map side := by simp [hsplit]
  obtain ⟨arg, harg, heq⟩ := List.mem_map.mp hmem
  exact ⟨arg, harg, by rw [← hside, heq], by rw [heq]⟩

theorem filter_side {args : List ArgumentPair} {side : ArgumentPair → String × Compiled}
    {name : String} (hside : ∀ arg, (side arg).1 = arg.name) :
    (args.map side).filter (·.1 ≠ name) = (args.filter (·.name ≠ name)).map side := by
  rw [List.filter_map]
  congr 1
  exact List.filter_congr fun arg _ => by simp [hside]

theorem passes_alike {args : List ArgumentPair} {parameters : List Parameter} {es es' : List Expr}
    (hargs : ∀ arg ∈ args, arg.left.Alike functions false arg.parts arg.right)
    (hnodup : (args.map (·.name)).Nodup) (hnames : ∀ arg ∈ args, arg.name ∈ parameters.map (·.name))
    (h : s.Passes (args.map (·.first)) parameters es)
    (h' : s.Passes (args.map (·.second)) parameters es') :
    ∃ passed : List (List (Expr × Expr) × Expr × Expr), es = passed.map (·.2.1) ∧
      es' = passed.map (·.2.2) ∧
      (∀ e ∈ passed, e.2.1.Alike functions e.1 e.2.2) ∧
      (passed.flatMap (·.1)).Perm (args.flatMap (·.parts)) := by
  induction parameters generalizing args es es' with
  | nil =>
      cases h
      cases h'
      have hempty : args = [] := List.eq_nil_iff_forall_not_mem.mpr fun arg harg => by
        simpa using hnames arg harg
      subst hempty
      exact ⟨[], rfl, rfl, by simp, .nil⟩
  | cons p parameters ih =>
      cases h with
      | cons hx ho hes =>
          cases h' with
          | cons hx' ho' hes' =>
              obtain ⟨arg, harg, hname, rfl⟩ := lookup_argument (fun _ => rfl) hx
              obtain ⟨other, hother, hname', rfl⟩ := lookup_argument (fun _ => rfl) hx'
              -- Both runs find the same argument, which is used up.
              obtain rfl : other = arg :=
                argument_unique hnodup harg hother (hname'.trans hname.symm)
              have hperm := perm_filter_name hnodup hother
              rw [hname] at hperm
              rw [filter_side fun _ => rfl] at hes hes'
              have hleft : ∀ arg ∈ args.filter (·.name ≠ p.name),
                arg.name ∈ parameters.map (·.name) := by
                intro arg harg
                obtain ⟨hin, hne⟩ := List.mem_filter.mp harg
                rcases List.mem_cons.mp (hnames arg hin) with heq | hrest
                · simp [heq] at hne
                · exact hrest
              obtain ⟨passed, rfl, rfl, hpassed, hparts⟩ := ih
                (fun arg harg => hargs arg ((List.mem_filter.mp harg).1))
                (hnodup.sublist (List.filter_sublist.map _)) hleft hes hes'
              refine ⟨(other.parts, _, _) :: passed, rfl, rfl, ?_, ?_⟩
              · intro e he
                rcases List.mem_cons.mp he with rfl | he
                · exact (operand_alike (hargs other hother) ho ho').expr
                · exact hpassed e he
              · apply List.Perm.trans _ (hperm.flatMap_right _).symm
                rw [List.flatMap_cons, List.flatMap_cons]
                exact hparts.append_left _

/-- What `callCustom` makes of arguments that are alike is alike, in the order of the parameters. -/
theorem callCustom_alike {t : Bool} {called : String} {names : List (Option String)}
    {xs xs' : List Compiled} (hfunctions : ∀ g ∈ s.functions, g.sqlName ∈ functions)
    (hargs : Compiled.AlikeAll functions false false ps xs xs') (hlength : names.length = xs.length)
    (h : s.callCustom called (names.zip xs) = .ok z)
    (h' : s.callCustom called (names.zip xs') = .ok z') :
    z.Alike functions t ps z' := by
  obtain ⟨args, hpairs, hfirst, hsecond, rfl⟩ := argumentPairs_of_alike hargs hlength
  obtain ⟨g, type, es, hg, htype, hnodup, hbound, hpasses, rfl⟩ := callCustom_ok h
  obtain ⟨g', type', es', hg', htype', -, -, hpasses', rfl⟩ := callCustom_ok h'
  obtain rfl := Except.ok.inj (hg.symm.trans hg')
  obtain rfl := Except.ok.inj (htype.symm.trans htype')
  have hnames : ∀ arg ∈ args, arg.name ∈ g.parameters.map (·.name) := by
    intro arg harg
    have hmem : arg.first ∈ givenNames (names.zip xs) := hfirst ▸ List.mem_map_of_mem harg
    obtain ⟨given, hgiven, heq⟩ := List.mem_map.mp hmem
    obtain ⟨name, hname, p, hp, rfl⟩ := hbound given hgiven
    have harg : p.name = arg.name := by
      simpa [hname, ArgumentPair.first] using congrArg Prod.fst heq
    exact harg ▸ List.mem_map_of_mem hp
  rw [hfirst] at hnodup hpasses
  rw [hsecond] at hpasses'
  obtain ⟨passed, rfl, rfl, hpassed, hparts⟩ := passes_alike hpairs
    (by simpa [Function.comp_def, ArgumentPair.first] using hnodup) hnames hpasses hpasses'
  exact .value _ (.reorder hparts (.function (hfunctions g (calledFunction_mem hg)) passed hpassed))

end Schema

end

end FilterSql
