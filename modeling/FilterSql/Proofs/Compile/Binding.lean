import FilterSql.Proofs.Compile.Assembly
import FilterSql.Proofs.Sql.Rendering
import Mathlib.Algebra.GroupWithZero.Nat
import Mathlib.Logic.Function.Iterate

/-!
# What is bound

The compiler looks into operands before it compiles them, compiles them again behind their members,
compiles the body of `all` twice, and passes arguments in another order. The number of bound values
shows that no literal is lost on the way and none is repeated otherwise: a literal is bound once
for each of the two copies that every `all` around it makes (`Schema.compile_bindings`). Literals
that are null are not bound, and neither are booleans that a condition is compared with.
-/

namespace FilterSql

open Sql (Expr Select)

/-! ## The literals of a filter

`Filter.depths` counts without a look at the compiler. Minus signs are collected, since they may
turn the text of a literal into `null`. -/

/-- The literal with a `minus` in front of it, or without the one that it has. -/
def Literal.opposite (l : Literal) : Literal :=
  ⟨match l.text.toList with
    | '-' :: rest => String.ofList rest
    | text => String.ofList ('-' :: text), l.kind⟩

/-- Whether the literal is null with `signs` minus signs in front of it. -/
def Literal.isNullBehind (signs : Nat) (l : Literal) : Bool :=
  (Literal.opposite^[signs] l).isNull

theorem toLower_eq_n {c : Char} (h : c.toLower = 'n') : c = 'n' ∨ c = 'N' := by
  unfold Char.toLower at h
  split at h
  · right
    have hval : c.val + 32 = 110 := congrArg Char.val h
    apply Char.ext
    show c.val = 78
    grind
  · exact .inl h

/-- The word `null` begins with the letter `n`, in upper or lower case. -/
theorem Literal.isNull_of_head {l : Literal} {c : Char} {r : List Char}
    (htext : l.text.toList = c :: r) (hc : c ≠ 'n' ∧ c ≠ 'N') : l.isNull = false := by
  cases hnull : l.isNull with
  | false => rfl
  | true =>
      simp only [isNull, Bool.and_eq_true, beq_iff_eq] at hnull
      have hword : l.text.toList.map Char.toLower = ['n', 'u', 'l', 'l'] := hnull.2
      rw [htext, List.map_cons, List.cons.injEq] at hword
      rcases toLower_eq_n hword.1 with h | h
      · exact absurd h hc.1
      · exact absurd h hc.2

/-- The word `null` is no integer. -/
theorem Literal.isNull_of_int {l : Literal} {bits : Nat} {i : Int}
    (hi : Text.intOfBits? bits l.text.toList = .ok i) :
    l.isNull = false := by
  cases htext : l.text.toList with
  | nil => simp [htext, Text.intOfBits?] at hi
  | cons first rest =>
      rw [htext] at hi
      apply isNull_of_head htext
      constructor
      · rintro rfl
        cases hi
      · rintro rfl
        cases hi

def BinaryOperator.isEquality : BinaryOperator → Bool
  | .compare .eq | .compare .ne => true
  | _ => false

namespace Filter

/-- Whether the filter is a `boolean` literal. -/
def isBoolean : Filter → Bool
  | .literal l => l.kind == .boolean
  | _ => false

/-- Whether the operand `f` is a boolean that the condition `other` is tested for. -/
def isTested (op : BinaryOperator) (f other : Filter) : Bool :=
  op.isEquality && f.isBoolean && other.isCondition

end Filter

mutual

/-- For each literal of a filter, the number of bodies of `all` that it stands in. Literals that
are null behind their minus signs are left out, and so are booleans that a condition is tested
for. -/
def Filter.depths (isNull : Nat → Literal → Bool) (signs : Nat) : Filter → List Nat
  | .binary l op r =>
      (if l.isTested op r then [] else l.depths isNull 0) ++
        (if r.isTested op l then [] else r.depths isNull 0)
  | .unary .minus operand => operand.depths isNull (signs + 1)
  | .unary .not operand => operand.depths isNull 0
  | .member path => depthsPath isNull path
  | .literal l => if isNull signs l then [] else [0]
  | .enumMember .. => [0]
  | .call _ args => depthsAll isNull args
  | .typeName _ | .parameterAlias _ => []

def depthsAll (isNull : Nat → Literal → Bool) : List Filter → List Nat
  | [] => []
  | f :: fs => f.depths isNull 0 ++ depthsAll isNull fs

def depthsPath (isNull : Nat → Literal → Bool) : Path → List Nat
  | [] => []
  | segment :: rest => segment.depths isNull ++ depthsPath isNull rest

def Segment.depths (isNull : Nat → Literal → Bool) : Segment → List Nat
  | .any _ body => body.depths isNull 0
  | .all _ body => (body.depths isNull 0).map (· + 1)
  | .function _ args => depthsArguments isNull args
  | .property _ | .count | .nonempty => []

def depthsArguments (isNull : Nat → Literal → Bool) : List Argument → List Nat
  | [] => []
  | .mk _ f :: rest => f.depths isNull 0 ++ depthsArguments isNull rest

end

/-- How often literals are bound that stand in so many bodies of `all`, each of which is compiled
twice. -/
def copies (depths : List Nat) : Nat :=
  (depths.map (2 ^ ·)).sum

@[simp] theorem copies_nil : copies [] = 0 := rfl

@[simp] theorem copies_zero : copies [0] = 1 := rfl

@[simp] theorem copies_append (ds ds' : List Nat) :
    copies (ds ++ ds') = copies ds + copies ds' := by
  simp [copies]

/-- One more body around all of the literals doubles their `copies`. -/
theorem copies_succ (ds : List Nat) : copies (ds.map (· + 1)) = 2 * copies ds := by
  induction ds with
  | nil => rfl
  | cons d ds ih =>
      simp only [copies, List.map_cons, List.sum_cons] at ih ⊢
      rw [ih, Nat.pow_succ]
      omega

section

variable (isNull : Nat → Literal → Bool)

theorem depthsAll_eq (fs : List Filter) :
    depthsAll isNull fs = fs.flatMap (Filter.depths isNull 0) := by
  induction fs with
  | nil => rfl
  | cons f fs ih => rw [depthsAll, ih, List.flatMap_cons]

theorem depthsArguments_eq (args : List Argument) :
    depthsArguments isNull args = (args.map Argument.value).flatMap (Filter.depths isNull 0) := by
  induction args with
  | nil => rfl
  | cons arg rest ih =>
      obtain ⟨name, f⟩ := arg
      rw [depthsArguments, ih, List.map_cons, List.flatMap_cons, Argument.value]

/-- Names have no literals, so `depthsPath` looks behind them. -/
theorem depthsPath_names (names : List String) (tail : Path) :
    depthsPath isNull (names.map Segment.property ++ tail) = depthsPath isNull tail := by
  induction names with
  | nil => rfl
  | cons name names ih =>
      rw [List.map_cons, List.cons_append, depthsPath, ih]
      rfl

theorem Path.IsDirect.depths {path : Path} (h : path.IsDirect) : depthsPath isNull path = [] := by
  obtain ⟨names, tail, rfl, rfl | rfl⟩ := h
  · exact depthsPath_names isNull names []
  · exact depthsPath_names isNull names [.count]

end

/-! ## The values of queries

A query binds values in its columns and in its conditions. The columns are constants or a count,
and the equations of joins compare columns, so only the condition that narrows it is left. -/

namespace Sql

/-- The parameters of a `statement` are the values that the expression binds. -/
theorem Expr.statement_params (d : Dialect) (e : Expr) : (e.statement d).params = e.bound :=
  (e.rendered d).bound

/-- `listBound` collects what each expression binds. -/
theorem listBound_length (es : List Expr) :
    (listBound es).length = (es.map fun e => e.bound.length).sum := by
  induction es with
  | nil => rfl
  | cons e es ih => rw [listBound, List.length_append, ih, List.map_cons, List.sum_cons]

end Sql

namespace Hop

theorem joinCondition_bound {columns : List JoinColumn} {l r : String}
    {left right : JoinColumn → String} {e : Expr} (he : Expr.conjunction? (columns.map fun j =>
      (Expr.qualified l (left j)).equal (.qualified r (right j))) = some e) : e.bound = [] := by
  refine Sql.conjunction?_of (P := fun e => e.bound = []) ?_ he ?_
  · intro a b ha hb
    rw [Expr.and, Expr.bound, ha, hb]
    rfl
  · intro x hx
    obtain ⟨j, -, rfl⟩ := List.mem_map.mp hx
    rfl

/-- The query of a hop binds what it is `narrowed` by. The equations that join its rows bind
nothing. -/
theorem Selects.selection_bound {h : Hop} {source own : String} {n k : Nat} {joins : List Sql.Join}
    {on : Expr} {columns : List Expr} {narrowed : Option Expr}
    (hs : h.Selects source own n joins on k) (hcolumns : Sql.listBound columns = []) :
    (h.selection columns own joins on narrowed).bound = (narrowed.map Expr.bound).getD [] := by
  have hcondition (hon : on.bound = []) : (asked on narrowed).bound =
    (narrowed.map Expr.bound).getD [] := by
    cases narrowed with
    | none => exact hon
    | some x =>
        show on.bound ++ x.bound = x.bound
        rw [hon, List.nil_append]
  cases hs with
  | direct hlink he =>
      rw [selection, Select.bound, hcolumns]
      exact hcondition (joinCondition_bound he)
  | linked hlink hon he =>
      rw [selection, Select.bound, hcolumns, Sql.joinsBound, joinCondition_bound hon]
      exact hcondition (joinCondition_bound he)

/-- What `Encloses` a condition binds what the condition binds. -/
theorem Encloses.bound {hops : List Hop} {narrowed : Option Expr} {e : Expr}
    (h : Encloses hops narrowed e) :
    e.bound = (narrowed.map Expr.bound).getD [] := by
  induction h with
  | last _ hselects => exact hselects.selection_bound rfl
  | step hselects _ ih =>
      rw [Expr.bound, hselects.selection_bound rfl]
      exact ih

end Hop

/-! ## The values of what is compiled

One lemma for each operator and each function: what it gives has the `bindings` of what it takes.
Literals are counted before they are bound, since an operator decides beside which type they are
read. -/

namespace Compiled

variable {x y z : Compiled} {e : Expr}

/-- The number of values that are bound. A literal is bound where it becomes an operand, unless it
is null. -/
def bindings : Compiled → Nat
  | predicate e | value e _ | member e _ | subquery e => e.bound.length
  | literal l => if l.isNull then 0 else 1
  | typeName _ => 0

theorem bindings_of_predicate (h : x.predicate? = some e) : e.bound.length = x.bindings := by
  cases x with
  | predicate | subquery =>
      obtain rfl := Option.some.inj h
      rfl
  | value | member =>
      obtain ⟨-, rfl⟩ := Option.ite_some_none_eq_some.mp h
      rfl
  | literal | typeName => cases h

theorem boolean?_of_condition (h : x.isCondition = true) : x.boolean? = none := by
  cases x with
  | predicate | subquery => rfl
  | value | member | literal | typeName => cases h

theorem negate_opposite (h : x.negate = .ok z) :
    ∃ l, x = .literal l ∧ z = .literal l.opposite ∧ l.kind.isNumeric = true := by
  obtain ⟨l, l', rfl, rfl, hl, -⟩ := negate_ok h
  rw [negate, if_pos hl] at h
  obtain rfl := literal.inj (Except.ok.inj h)
  exact ⟨l, rfl, rfl, hl⟩

end Compiled

namespace Schema

variable {s : Schema} {x y z : Compiled} {e : Expr}

open Compiled (bindings_of_predicate boolean?_of_condition)

/-- An operand binds what `bindings` counts for it. -/
theorem operand_bindings {beside : Option ValueType} {o : Operand}
    (h : s.operand x beside = .ok o) :
    o.expr.bound.length = x.bindings := by
  cases x with
  | literal l =>
      rcases literalOperand_ok h with ⟨hnull, rfl⟩ | ⟨hnull, v, -, rfl⟩
      · rw [Compiled.bindings, if_pos hnull]
        rfl
      · rw [Compiled.bindings, if_neg (by simp [hnull])]
        rfl
  | predicate | value | member | subquery =>
      obtain rfl := Except.ok.inj h
      rfl
  | typeName => cases h

/-- The literal `null` binds nothing. -/
theorem operand_isNull {beside : Option ValueType} {o : Operand} (h : s.operand x beside = .ok o)
    (hnull : o.isNull = true) : x.bindings = 0 := by
  cases x with
  | literal l =>
      rcases literalOperand_ok h with ⟨hl, -⟩ | ⟨-, v, -, rfl⟩
      · rw [Compiled.bindings, if_pos hl]
      · cases hnull
  | predicate | value | member | subquery =>
      obtain rfl := Except.ok.inj h
      cases hnull
  | typeName => rfl

theorem compareNull_bindings {op : Comparison} (h : compareNull op e = .ok z) :
    z.bindings = e.bound.length := by
  rcases compareNull_ok.mp h with ⟨-, rfl⟩ | ⟨-, rfl⟩ <;> rfl

theorem compareValues_bindings {op : Comparison} (h : s.compareValues op x y = .ok z) :
    z.bindings = x.bindings + y.bindings := by
  obtain ⟨l, r, hlr, h⟩ := compareValues_ok h
  obtain ⟨hl, hr⟩ := operands_ok.mp hlr
  split at h
  · rw [compareNull_bindings h, operand_bindings hr, operand_isNull hl ‹_›, Nat.zero_add]
  · split at h
    · rw [compareNull_bindings h, operand_bindings hl, operand_isNull hr ‹_›, Nat.add_zero]
    · obtain ⟨-, rfl⟩ := h
      show (l.expr.bound ++ r.expr.bound).length = _
      rw [List.length_append, operand_bindings hl, operand_bindings hr]

/-- Whether the compiled operand `x` is a boolean that the condition `other` is tested for. -/
def isTested (op : BinaryOperator) (x other : Compiled) : Bool :=
  op.isEquality && x.boolean?.isSome && other.isCondition

theorem compareCondition_bindings {op : Comparison} {expected : Bool}
    (h : x.compareCondition op (some expected) = .ok z) :
    z.bindings = x.bindings ∧ (BinaryOperator.compare op).isEquality = true := by
  obtain ⟨e, kept, he, hkept, rfl⟩ := Compiled.compareCondition_ok.mp h
  constructor
  · rw [← bindings_of_predicate he]
    cases kept <;> rfl
  · rcases hkept with ⟨rfl, -⟩ | ⟨rfl, -⟩ <;> rfl

/-- `compare` binds what its operands bind, without a boolean literal that a condition is tested
for. -/
theorem compare_bindings {op : Comparison} (h : s.compare op x y = .ok z) :
    z.bindings = (if isTested (.compare op) x y then 0 else x.bindings) +
      (if isTested (.compare op) y x then 0 else y.bindings) := by
  rcases compare_ok h with ⟨expected, hx, hy, h⟩ | ⟨expected, hx, hy, h⟩ | ⟨⟨hleft, hright⟩, h⟩
  · obtain ⟨hz, hop⟩ := compareCondition_bindings h
    simp [isTested, hop, hx, hy, boolean?_of_condition hx, hz]
  · obtain ⟨hz, hop⟩ := compareCondition_bindings h
    simp [isTested, hop, hx, hy, boolean?_of_condition hy, hz]
  · have hx : isTested (.compare op) x y = false := by
      rcases hright with hright | hright <;> simp [isTested, hright]
    have hy : isTested (.compare op) y x = false := by
      rcases hleft with hleft | hleft <;> simp [isTested, hleft]
    simp [hx, hy, compareValues_bindings h]

/-- **No operator loses or repeats a value**, the boolean literals apart that a condition is tested
for. -/
theorem compose_bindings {op : BinaryOperator} (h : s.compose op x y = .ok z) :
    z.bindings = (if isTested op x y then 0 else x.bindings) +
      (if isTested op y x then 0 else y.bindings) := by
  cases op with
  | compare op => exact compare_bindings h
  | arith op =>
      obtain ⟨l, r, type, hl, hr, -, -, -, rfl⟩ := calculate_ok h
      show (l.expr.bound ++ r.expr.bound).length = x.bindings + y.bindings
      rw [List.length_append, operand_bindings hl, operand_bindings hr]
  | and | or =>
      obtain ⟨l, r, hl, hr, rfl⟩ := Compiled.combine_ok.mp h
      show (l.bound ++ r.bound).length = x.bindings + y.bindings
      rw [List.length_append, bindings_of_predicate hl, bindings_of_predicate hr]
  | has => cases h

theorem Reads.bindings {beside : Option ValueType} (h : s.Reads x beside e) :
    e.bound.length = x.bindings := by
  obtain ⟨o, ho, -, rfl⟩ := h
  exact operand_bindings ho

theorem Pattern.bindings {m : Sql.Like.Margins} {escape : Option Char}
    (h : s.Pattern m x e escape) :
    e.bound.length = x.bindings := by
  cases h with
  | @written l hkind => simp [Compiled.bindings, Literal.isNull, hkind, Expr.bound]
  | @computed x text _ he =>
      obtain ⟨left, right⟩ := m
      rw [← he.bindings]
      cases left <;> cases right <;> simp [Expr.bound, Sql.Like.Margins.around, Sql.listBound]

theorem Start.bindings (h : s.Start x e) : e.bound.length = x.bindings := by
  cases h with
  | @written l i _ hi =>
      rw [Compiled.bindings, Literal.isNull_of_int hi]
      rfl
  | @computed x whole _ he =>
      rw [← he.bindings]
      simp [Expr.bound]

/-- **No built-in function loses or repeats a value**: a call has the `bindings` of its
arguments. -/
theorem Calls.bindings {family : BuiltIn.Family} {xs : List Compiled} (h : s.Calls family xs z) :
    z.bindings = (xs.map Compiled.bindings).sum := by
  cases h with
  | matching htext hpattern =>
      simp [Compiled.bindings, Expr.bound, htext.bindings, hpattern.bindings]
  | ofText htext =>
      simp [Compiled.bindings, Compiled.ofType, Expr.bound, Sql.listBound, htext.bindings]
  | indexOf htext hpart =>
      simp [Compiled.bindings, Compiled.ofType, Expr.bound, htext.bindings, hpart.bindings,
        Nat.add_comm]
  | rest htext hstart =>
      simp [Compiled.bindings, Compiled.ofType, Expr.bound, Sql.listBound, htext.bindings,
        hstart.bindings]
  | substring htext hstart hlength =>
      simp [Compiled.bindings, Compiled.ofType, Expr.bound, Sql.listBound, htext.bindings,
        hstart.bindings, hlength.bindings]
  | concat hleft hright =>
      simp [Compiled.bindings, Compiled.ofType, Expr.bound, Sql.listBound, hleft.bindings,
        hright.bindings]
  | field he => simp [Compiled.bindings, Compiled.ofType, Expr.bound, he.bindings]
  | instantPart he => simp [Compiled.bindings, Compiled.ofType, Expr.bound, he.bindings]
  | now => rfl
  | rounding ho => simp [Compiled.bindings, Expr.bound, Sql.listBound, operand_bindings ho]
  | cast ho => simp [Compiled.bindings, Compiled.ofType, Expr.bound, operand_bindings ho]

/-- **No function of the schema loses or repeats a value**, in whatever order it takes its
arguments. -/
theorem callCustom_bindings {called : String} {names : List (Option String)} {xs : List Compiled}
    (hlength : names.length = xs.length) (h : s.callCustom called (names.zip xs) = .ok z) :
    z.bindings = (xs.map Compiled.bindings).sum := by
  obtain ⟨g, type, used, -, hperm, hused, rfl⟩ := callCustom_used hlength h
  show (Sql.listBound (used.map (·.2))).length = _
  rw [Sql.listBound_length, ← (hperm.map Compiled.bindings).sum_nat, List.map_map, List.map_map]
  congr 1
  apply List.map_congr_left
  intro arg harg
  obtain ⟨p, o, ho, heq⟩ := hused arg harg
  show arg.2.bound.length = arg.1.bindings
  rw [← heq, operand_bindings ho]

end Schema

/-! ## The values of filters

`Filter.Binds` says that a compiled filter has as many bindings as there are literals in it, each
counted as often as the bodies around it are written (`copies`). The proof is by
`Filter.Assembled`. -/

namespace Filter

/-- What the induction carries: how many values `x` binds, which literal it is if it is still one,
and whether it is a boolean. -/
structure Binds (f : Filter) (x : Compiled) : Prop where
  count : x.bindings = copies (f.depths Literal.isNullBehind 0)
  literal : ∀ l, x = .literal l →
    ∀ signs, f.depths Literal.isNullBehind signs = if l.isNullBehind signs then [] else [0]
  boolean : x.boolean?.isSome = f.isBoolean

variable {s : Schema} {type : EntityType} {f : Filter} {c : Context} {a : Address} {x : Compiled}

/-- Operands that `Binds` holds of bind what `depths` counts in them, one after the other. -/
theorem binds_all {fs : List Filter} {xs : List Compiled} (h : List.Forall₂ Binds fs xs) :
    (xs.map Compiled.bindings).sum = copies (fs.flatMap (depths Literal.isNullBehind 0)) := by
  induction h with
  | nil => rfl
  | cons hx _ ih =>
      rw [List.map_cons, List.sum_cons, List.flatMap_cons, copies_append, hx.count, ih]

/-- Whether a literal behind `minus` signs is null depends on the literal and on the number of the
signs. -/
theorem Assembled.binds_literal (h : f.Assembled s (fun f x => f.Binds x) c a x) (l : Literal)
    (hl : x = .literal l) (signs : Nat) :
    f.depths Literal.isNullBehind signs = if l.isNullBehind signs then [] else [0] := by
  subst hl
  obtain rfl | ⟨operand, l', rfl, hoperand, hnegate⟩ := h.of_literal
  · rfl
  · obtain ⟨_, ⟨⟩, ⟨⟩, -⟩ := Compiled.negate_opposite hnegate
    -- One sign is taken off the filter and put on the literal.
    exact hoperand.literal l' rfl (signs + 1)

theorem Assembled.binds_boolean (h : f.Assembled s (fun f x => f.Binds x) c a x) :
    x.boolean?.isSome = f.isBoolean := by
  by_cases hx : ∃ l, x = .literal l
  · obtain ⟨l, rfl⟩ := hx
    obtain rfl | ⟨operand, l', rfl, -, hnegate⟩ := h.of_literal
    · by_cases hl : l.kind = .boolean <;> simp [Compiled.boolean?, isBoolean, hl]
    · -- What has a sign is a number.
      obtain ⟨_, ⟨⟩, ⟨⟩, hnumeric⟩ := Compiled.negate_opposite hnegate
      have hkind : l'.opposite.kind ≠ .boolean := by
        intro hkind
        rw [show l'.kind = .boolean from hkind] at hnumeric
        cases hnumeric
      simp [Compiled.boolean?, isBoolean, hkind]
  · have hnone : x.boolean? = none := by
      cases x with
      | literal l => exact absurd ⟨l, rfl⟩ hx
      | predicate | value | member | subquery | typeName => rfl
    have hfalse : f.isBoolean = false := by
      cases h with
      | literal l => exact absurd ⟨l, rfl⟩ hx
      | binary | unary | element | leaf | count | nonempty | any | all | function | call
      | enumMember | typeName => rfl
    rw [hnone, hfalse]
    rfl

theorem binary_count {l r : Filter} {op : BinaryOperator} {y z : Compiled} (hy : l.Binds y)
    (hz : r.Binds z) (hform : op.isComparison = true → y.isCondition = l.isCondition ∧
      z.isCondition = r.isCondition)
    (hx : s.compose op y z = .ok x) :
    x.bindings = copies ((Filter.binary l op r).depths Literal.isNullBehind 0) := by
  have htested : Schema.isTested op y z = l.isTested op r ∧
    Schema.isTested op z y = r.isTested op l := by
    cases hop : op.isEquality with
    | false => simp [Schema.isTested, isTested, hop]
    | true =>
        have hcomparison : op.isComparison = true := by
          cases op with
          | compare => rfl
          | arith | and | or | has => cases hop
        obtain ⟨hl, hr⟩ := hform hcomparison
        simp [Schema.isTested, isTested, hl, hr, hy.boolean, hz.boolean]
  rw [s.compose_bindings hx, htested.1, htested.2, depths, copies_append, hy.count, hz.count]
  congr 1 <;> split <;> rfl

theorem unary_count {operand : Filter} {op : UnaryOperator} {y : Compiled} (hy : operand.Binds y)
    (hx : y.composeUnary op = .ok x) :
    x.bindings = copies ((Filter.unary op operand).depths Literal.isNullBehind 0) := by
  cases op with
  | not =>
      obtain ⟨e, he, rfl⟩ := Compiled.negateCondition_ok.mp hx
      rw [depths, ← hy.count]
      show e.bound.length = y.bindings
      exact Compiled.bindings_of_predicate he
  | minus =>
      obtain ⟨l, rfl, rfl, -⟩ := Compiled.negate_opposite hx
      rw [depths, hy.literal l rfl 1]
      show (if l.opposite.isNull then 0 else 1) = copies (if l.opposite.isNull then [] else [0])
      split <;> rfl

/-- The queries around the body of a quantifier bind what the body binds. -/
theorem body_bound {body : Filter} {hops : List Hop} {y : Compiled} {e e' : Expr}
    (hy : body.Binds y) (he : y.predicate? = some e) (h : Hop.Encloses hops (some e) e') :
    e'.bound.length = copies (body.depths Literal.isNullBehind 0) := by
  rw [h.bound, ← hy.count]
  exact Compiled.bindings_of_predicate he

/-- **What is put together binds what its parts bind**, and an `all` twice as much. -/
theorem Assembled.binds_count (h : f.Assembled s (fun f x => f.Binds x) c a x) :
    x.bindings = copies (f.depths Literal.isNullBehind 0) := by
  have hlast (names : List String) (last : Segment) :
      (Filter.member (names.map Segment.property ++ [last])).depths Literal.isNullBehind 0 =
        last.depths Literal.isNullBehind := by
    rw [depths, depthsPath_names, depthsPath, depthsPath, List.append_nil]
  cases h with
  | binary _ hy hz hform hx => exact binary_count hy hz hform hx
  | unary hy hx => exact unary_count hy hx
  | element hpath | leaf hpath =>
      rw [depths, hpath.depths]
      rfl
  | count hpath _ hselects =>
      rw [depths, hpath.depths]
      show (Select.bound _).length = 0
      rw [hselects.selection_bound rfl]
      rfl
  | nonempty _ hencloses =>
      rw [hlast]
      show (Expr.bound _).length = 0
      rw [hencloses.bound]
      rfl
  | any _ hy he hencloses =>
      rw [hlast]
      exact body_bound hy he hencloses
  | all _ hy he hencloses hy' he' hencloses' =>
      -- The body is compiled for both questions, and binds as much in each.
      have hsome := body_bound hy he hencloses
      have hother : (Expr.bound _).length = _ := congrArg List.length hencloses'.bound
      rw [hlast, Segment.depths, copies_succ, Nat.two_mul]
      show (Expr.bound _ ++ Expr.bound _).length = _
      rw [List.length_append, hsome]
      congr 1
      exact hother.trans ((Compiled.bindings_of_predicate he').trans hy'.count)
  | @function name args xs _ hxs hx =>
      have hlength : (args.map Argument.name).length = xs.length := by
        rw [← hxs.length_eq, List.length_map, List.length_map]
      rw [s.callCustom_bindings hlength hx, binds_all hxs, depths, depthsPath, Segment.depths,
        depthsArguments_eq, depthsPath, List.append_nil]
  | call hxs hx => rw [(s.callBuiltIn_ok hx).bindings, binds_all hxs, depths, depthsAll_eq]
  | literal l =>
      show (if l.isNull then 0 else 1) = copies (if l.isNull then [] else [0])
      split <;> rfl
  | enumMember | typeName => rfl

end Filter

namespace Schema

variable {s : Schema} {entity : String} {f : Filter} {e : Expr}

/-- **No literal is lost or repeated.** A statement has one parameter for each literal of the
filter and each of the copies that the bodies of `all` around it make: `2 ^ d` of them below `d`
bodies, as `Filter.depths` lists them. Literals that are null behind their `minus` signs are
excepted, and booleans that a condition is tested for by `eq` or `ne`. Which operands of
comparisons are conditions shows in their form: those with `Filter.isCondition`, and no others, are
compiled to one. -/
theorem compile_bindings (h : s.compile entity f = .ok e) (d : Dialect) :
    (e.statement d).params.length = ((f.depths Literal.isNullBehind 0).map (2 ^ ·)).sum ∧
    ∃ type, s.entityType? entity = some type ∧
      ∀ {c : Context} {a : Address} {l r : Filter} {op : Comparison},
        f.Reaches s type c a (.binary l (.compare op) r) →
        (Filter.binary l (.compare op) r).leading s c a = .ok none →
        ∀ (i : Nat) (g : Filter) (n m : Nat) (x : Compiled), [l, r][i]? = some g →
          (g.compile s c (i :: a)).run n = .ok (x, m) → x.isCondition = g.isCondition := by
  obtain ⟨type, htype, hon⟩ := compile_ok.mp h
  obtain ⟨x, m, hx, he⟩ := compileOn_ok.mp hon
  have hbinds : f.Binds x := by
    have hreaches : f.Reaches s type (.ofEntity type) [] f := .whole
    refine Filter.Reaches.induction (P := fun f x => f.Binds x) ?_ ?_ hreaches hx
    · intro f c a x _ h
      exact ⟨h.binds_count, h.binds_literal, h.binds_boolean⟩
    · intro f c a nav x e e' _ hleading hx he hencloses
      refine ⟨?_, nofun, ?_⟩
      · rw [← hx.count, ← Compiled.bindings_of_predicate he]
        exact congrArg List.length hencloses.bound
      · -- No literal is compiled behind a member.
        cases f with
        | literal => cases hleading
        | binary | unary | member | enumMember | call | typeName | parameterAlias => rfl
  refine ⟨?_, type, htype, ?_⟩
  · rw [Sql.Expr.statement_params, Compiled.bindings_of_predicate he, hbinds.count]
    rfl
  · intro c a l r op hreaches hleading i g n m x hg hx
    exact hreaches.operand_isCondition hleading hg hx

/-- A text in the body of `all` is bound twice. -/
theorem bindings_rolesNamed : ∃ e, sample.compile "User" (.rolesNamed "x") = .ok e ∧
    (e.statement .postgres).params.length = 2 :=
  ⟨_, rfl, (compile_bindings (show sample.compile "User" (.rolesNamed "x") = .ok _
    from rfl) .postgres).1⟩

/-- If literals were counted as they are written, `-null` would not be null. Behind a minus sign it
is, and nothing is bound. -/
theorem unbound_behind_sign : ∃ e,
    sample.compile "User" (.binary (.member [.property "Name"]) (.compare .eq)
      (.unary .minus (.literal ⟨"-null", .integer⟩))) = .ok e ∧
    (e.statement .postgres).params.length ≠
      (((Filter.binary (.member [.property "Name"]) (.compare .eq)
        (.unary .minus (.literal ⟨"-null", .integer⟩))).depths (fun _ =>
          Literal.isNull) 0).map (2 ^ ·)).sum :=
  ⟨_, rfl, by decide⟩

end Schema

end FilterSql
