import FilterSql.Proofs.Compile.Operation
import FilterSql.Proofs.Sql.Relabeling

/-!
# Operations look at no alias

What operators and functions do with their operands, and for what they refuse them, has nothing to
do with the names that tables have in these. With other aliases in the operands they do the same,
and refuse for the same reason (`Schema.compose_relabel`, `Schema.callBuiltIn_relabel`,
`Schema.callCustom_relabel`).
-/

namespace FilterSql

open Sql (Expr)

/-! ## Checks that are carried along

`Carries` compares the outcomes of two checks. A chain of checks is carried along if each link is
(`Carries.bind`), since the first one that fails is the same in both. -/

namespace Checked

variable {ε α β γ δ : Type} {g : α → γ} {h : β → δ}

/-- The check `y` refuses what `x` refuses, for the same reason, and otherwise passes with the
image of what `x` gives. -/
def Carries (g : α → γ) (x : Except ε α) (y : Except ε γ) : Prop :=
  y = x.map g

theorem carries_ok (a : α) : Carries g (.ok a : Except ε α) (.ok (g a)) := rfl

theorem carries_error (err : ε) : Carries g (.error err) (.error err) := rfl

/-- A chain of checks is carried along if each step is. -/
theorem Carries.bind {x : Except ε α} {y : Except ε γ} {f : α → Except ε β} {f' : γ → Except ε δ}
    (hx : Carries g x y) (hf : ∀ a, Carries h (f a) (f' (g a))) :
    Carries h (x >>= f) (y >>= f') := by
  subst hx
  cases x with
  | error err => rfl
  | ok a => exact hf a

/-- A check that is made in both chains. -/
theorem carries_bind (x : Except ε α) {f : α → Except ε β} {f' : α → Except ε δ}
    (hf : ∀ a, Carries h (f a) (f' a)) :
    Carries h (x >>= f) (x >>= f') := by
  cases x with
  | error err => rfl
  | ok a => exact hf a

theorem carries_ite {p : Prop} [Decidable p] {x x' : Except ε α} {y y' : Except ε γ}
    (hx : Carries g x y) (hx' : Carries g x' y') :
    Carries g (if p then x else x') (if p then y else y') := by
  split
  · exact hx
  · exact hx'

end Checked

open Checked (Carries carries_ok carries_error carries_bind carries_ite)

/-! ## Compiled operands

Another label changes the expression of an operand, and neither its type nor what kind of an
operand it is. So each test that the compiler makes has the same outcome. -/

namespace Compiled

/-- The operand with each alias changed by `ρ`. -/
def relabel (ρ : String → String) : Compiled → Compiled
  | predicate e => predicate (e.relabel ρ)
  | value e type => value (e.relabel ρ) type
  | member e path => member (e.relabel ρ) path
  | subquery e => subquery (e.relabel ρ)
  | literal l => literal l
  | typeName t => typeName t

variable {ρ : String → String} (x y : Compiled)

@[simp] theorem type?_relabel : (x.relabel ρ).type? = x.type? := by cases x <;> rfl

@[simp] theorem isCondition_relabel :
    (x.relabel ρ).isCondition = x.isCondition := by cases x <;> rfl

@[simp] theorem boolean?_relabel : (x.relabel ρ).boolean? = x.boolean? := by cases x <;> rfl

@[simp] theorem describe_relabel : (x.relabel ρ).describe = x.describe := by cases x <;> rfl

@[simp] theorem arithmeticType_relabel (other : Option ValueType) :
    (x.relabel ρ).arithmeticType other = x.arithmeticType other := by cases x <;> rfl

theorem predicate?_relabel : (x.relabel ρ).predicate? = x.predicate?.map (Expr.relabel ρ) := by
  cases x with
  | predicate | subquery | literal | typeName => rfl
  | value | member =>
      simp only [relabel, predicate?]
      split <;> rfl

theorem condition_relabel : Carries (Expr.relabel ρ) x.condition (x.relabel ρ).condition := by
  rw [condition_eq, condition_eq, predicate?_relabel, describe_relabel]
  cases x.predicate? <;> rfl

theorem compareCondition_relabel (op : Comparison) (literal : Option Bool) :
    Carries (relabel ρ) (x.compareCondition op literal)
      ((x.relabel ρ).compareCondition op literal) := by
  have htest (kept : Bool) : Carries (relabel ρ)
      (do let e ← x.condition; return predicate (if kept then e else .not e))
      (do let e ← (x.relabel ρ).condition; return predicate (if kept then e else .not e)) := by
    apply x.condition_relabel.bind
    intro e
    cases kept <;> rfl
  cases literal with
  | none => rfl
  | some expected =>
      cases op with
      | eq => exact htest expected
      | ne => exact htest !expected
      | lt | le | gt | ge => rfl

theorem combine_relabel (op : Sql.Operator) :
    Carries (relabel ρ) (combine op x y) (combine op (x.relabel ρ) (y.relabel ρ)) := by
  apply x.condition_relabel.bind
  intro l
  apply y.condition_relabel.bind
  intro r
  rfl

theorem negateCondition_relabel :
    Carries (relabel ρ) x.negateCondition (x.relabel ρ).negateCondition := by
  rw [negateCondition, negateCondition, isPredicate_eq, isPredicate_eq, condition_eq, condition_eq,
    predicate?_relabel, describe_relabel]
  cases x.predicate? <;> rfl

theorem negate_relabel : Carries (relabel ρ) x.negate (x.relabel ρ).negate := by
  cases x with
  | literal l => exact carries_ite (carries_ok _) (carries_error _)
  | predicate | value | member | subquery | typeName => rfl

theorem composeUnary_relabel (op : UnaryOperator) :
    Carries (relabel ρ) (x.composeUnary op) ((x.relabel ρ).composeUnary op) := by
  cases op with
  | not => exact x.negateCondition_relabel
  | minus => exact x.negate_relabel

end Compiled

/-- The operand with each alias changed by `ρ`. -/
def Operand.relabel (ρ : String → String) (o : Operand) : Operand :=
  { o with expr := o.expr.relabel ρ }

/-! ## Operators

A lemma for each operator: it fails with the same error, or what it gives is relabeled. The
literals among the operands have no labels, and are bound as the same values. -/

namespace Schema

variable {ρ : String → String} (s : Schema) (x y : Compiled)

theorem operand_relabel (beside : Option ValueType) :
    Carries (Operand.relabel ρ) (s.operand x beside) (s.operand (x.relabel ρ) beside) := by
  cases x with
  | literal l =>
      apply carries_ite (carries_ok _)
      apply carries_bind
      intro v
      rfl
  | predicate | value | member | subquery | typeName => rfl

theorem operands_relabel :
    Carries (fun (l, r) => (Operand.relabel ρ l, Operand.relabel ρ r)) (s.operands x y)
    (s.operands (x.relabel ρ) (y.relabel ρ)) := by
  unfold operands
  rw [Compiled.type?_relabel]
  apply (s.operand_relabel x y.type?).bind
  intro l
  apply (s.operand_relabel y _).bind
  intro r
  rfl

theorem compareNull_relabel (op : Comparison) (e : Expr) :
    Carries (Compiled.relabel ρ) (compareNull op e) (compareNull op (e.relabel ρ)) := by
  cases op <;> rfl

theorem compareValues_relabel (op : Comparison) :
    Carries (Compiled.relabel ρ) (s.compareValues op x y)
      (s.compareValues op (x.relabel ρ) (y.relabel ρ)) := by
  apply (s.operands_relabel x y).bind
  rintro ⟨l, r⟩
  apply carries_ite (compareNull_relabel op r.expr)
  apply carries_ite (compareNull_relabel op l.expr)
  apply carries_bind
  intro _
  rfl

theorem compare_relabel (op : Comparison) :
    Carries (Compiled.relabel ρ) (s.compare op x y) (s.compare op (x.relabel ρ) (y.relabel ρ)) := by
  have hvalues := s.compareValues_relabel (ρ := ρ) x y op
  have htest (x : Compiled) := x.compareCondition_relabel (ρ := ρ) op
  unfold compare
  simp only [Compiled.isCondition_relabel, Compiled.boolean?_relabel]
  exact carries_ite (htest x y.boolean?) (carries_ite (htest y x.boolean?) hvalues)

theorem calculate_relabel (op : Arithmetic) :
    Carries (Compiled.relabel ρ) (s.calculate op x y)
      (s.calculate op (x.relabel ρ) (y.relabel ρ)) := by
  unfold calculate
  rw [Compiled.type?_relabel, Compiled.arithmeticType_relabel]
  apply (s.operand_relabel x _).bind
  intro l
  rw [Compiled.arithmeticType_relabel]
  apply (s.operand_relabel y _).bind
  intro r
  apply carries_ite (carries_error _)
  dsimp only [Operand.relabel]
  cases l.type.dataType.widen? r.type.dataType <;> rfl

/-- **An operator does the same with other aliases in its operands.** -/
theorem compose_relabel (op : BinaryOperator) :
    Carries (Compiled.relabel ρ) (s.compose op x y) (s.compose op (x.relabel ρ) (y.relabel ρ)) := by
  cases op with
  | compare op => exact s.compare_relabel x y op
  | arith op => exact s.calculate_relabel x y op
  | and => exact x.combine_relabel y .and
  | or => exact x.combine_relabel y .or
  | has => rfl

end Schema

/-! ## Built-in functions

The readers of arguments come first, then the families of functions, and then the dispatch on the
function. The type of an argument, by which functions check it, has not changed. -/

namespace BuiltIn

theorem next_relabel {ρ : String → String} (g : BuiltIn) (args : List Compiled) :
    Carries (Prod.map (Compiled.relabel ρ) (List.map (Compiled.relabel ρ))) (g.next args)
      (g.next (args.map (Compiled.relabel ρ))) := by
  cases args <;> rfl

end BuiltIn

namespace Schema

variable {ρ : String → String} (s : Schema) (g : BuiltIn) (x : Compiled)

open BuiltIn (next_relabel)

theorem argument_relabel (accepts : DataType → Bool) (beside : Option ValueType) :
    Carries (Operand.relabel ρ) (s.argument g accepts beside x)
      (s.argument g accepts beside (x.relabel ρ)) := by
  apply (s.operand_relabel x beside).bind
  intro o
  apply carries_ite (carries_error _)
  exact carries_ite (carries_error _) (carries_ok o)

/-- An argument that is put into an expression. -/
theorem read_relabel (accepts : DataType → Bool) (beside : Option ValueType) :
    Carries (Expr.relabel ρ) (do return (← s.argument g accepts beside x).expr)
      (do return (← s.argument g accepts beside (x.relabel ρ)).expr) := by
  apply (s.argument_relabel g x accepts beside).bind
  intro o
  rfl

theorem textArgument_relabel :
    Carries (Expr.relabel ρ) (s.textArgument g x) (s.textArgument g (x.relabel ρ)) :=
  s.read_relabel g x _ _

theorem wholeArgument_relabel :
    Carries (Expr.relabel ρ) (s.wholeArgument g x) (s.wholeArgument g (x.relabel ρ)) :=
  s.read_relabel g x _ _

theorem dayArgument_relabel :
    Carries (Expr.relabel ρ) (s.dayArgument g x) (s.dayArgument g (x.relabel ρ)) :=
  s.read_relabel g x _ _

theorem clockArgument_relabel :
    Carries (Expr.relabel ρ) (s.clockArgument g x) (s.clockArgument g (x.relabel ρ)) :=
  s.read_relabel g x _ _

theorem likePattern_relabel (m : Sql.Like.Margins) :
    Carries (Prod.map (Expr.relabel ρ) id) (s.likePattern g m x)
      (s.likePattern g m (x.relabel ρ)) := by
  have hcomputed : Carries (Prod.map (Expr.relabel ρ) (id : Option Char → Option Char))
      (do
        let e ← s.textArgument g x
        return (Expr.function "CONCAT" (m.around (.constant (.string "%")) [e]), none))
      (do
        let e ← s.textArgument g (x.relabel ρ)
        return (Expr.function "CONCAT" (m.around (.constant (.string "%")) [e]), none)) := by
    apply (s.textArgument_relabel g x).bind
    intro e
    obtain ⟨left, right⟩ := m
    cases left <;> cases right <;> rfl
  cases x with
  | literal l => exact carries_ite (carries_ok _) hcomputed
  | predicate | value | member | subquery | typeName => exact hcomputed

theorem matching_relabel (m : Sql.Like.Margins) (args : List Compiled) :
    Carries (Compiled.relabel ρ) (s.matching g m args)
      (s.matching g m (args.map (Compiled.relabel ρ))) := by
  apply (next_relabel g args).bind
  rintro ⟨x, args⟩
  apply (s.textArgument_relabel g x).bind
  intro text
  apply (next_relabel g args).bind
  rintro ⟨y, -⟩
  apply (s.likePattern_relabel g y m).bind
  rintro ⟨pattern, escape⟩
  rfl

theorem startArgument_relabel :
    Carries (Expr.relabel ρ) (s.startArgument g x) (s.startArgument g (x.relabel ρ)) := by
  have hcomputed : Carries (Expr.relabel ρ)
      (do
        let e ← s.wholeArgument g x
        return (Expr.binary e (.arith .add) (.constant (.int 1))))
      (do
        let e ← s.wholeArgument g (x.relabel ρ)
        return (Expr.binary e (.arith .add) (.constant (.int 1)))) := by
    apply (s.wholeArgument_relabel g x).bind
    intro e
    rfl
  cases x with
  | literal l =>
      apply carries_ite _ hcomputed
      cases Text.intOfBits? 32 l.text.toList with
      | error => rfl
      | ok i => exact carries_ite (carries_ok _) (carries_error _)
  | predicate | value | member | subquery | typeName => exact hcomputed

/-- A function of one argument, from reading it with `read` and making the result of it with
`make`. -/
theorem readFunction_relabel {read : Compiled → Except FilterError Expr} {make : Expr → Expr}
    {type : DataType} (args : List Compiled)
    (hread : ∀ x, Carries (Expr.relabel ρ) (read x) (read (x.relabel ρ)))
    (hmake : ∀ e, make (e.relabel ρ) = (make e).relabel ρ) :
    Carries (Compiled.relabel ρ)
      (do
        let (x, _) ← g.next args
        return .ofType (make (← read x)) type)
      (do
        let (x, _) ← g.next (args.map (Compiled.relabel ρ))
        return .ofType (make (← read x)) type) := by
  apply (next_relabel g args).bind
  rintro ⟨x, -⟩
  apply (hread x).bind
  intro e
  rw [hmake]
  rfl

theorem roundingFunction_relabel (name : String) (args : List Compiled) :
    Carries (Compiled.relabel ρ) (s.roundingFunction g name args)
      (s.roundingFunction g name (args.map (Compiled.relabel ρ))) := by
  apply (next_relabel g args).bind
  rintro ⟨x, -⟩
  apply (s.argument_relabel g x _ _).bind
  intro o
  rfl

theorem castTarget_relabel : castTarget (x.relabel ρ) = castTarget x := by
  cases x <;> rfl

theorem positionFunction_relabel (args : List Compiled) :
    Carries (Compiled.relabel ρ) (s.positionFunction g args)
      (s.positionFunction g (args.map (Compiled.relabel ρ))) := by
  apply (next_relabel g args).bind
  rintro ⟨x, args⟩
  apply (s.textArgument_relabel g x).bind
  intro text
  apply (next_relabel g args).bind
  rintro ⟨y, -⟩
  apply (s.textArgument_relabel g y).bind
  intro part
  rfl

theorem partFunction_relabel (args : List Compiled) :
    Carries (Compiled.relabel ρ) (s.partFunction g args)
      (s.partFunction g (args.map (Compiled.relabel ρ))) := by
  apply (next_relabel g args).bind
  rintro ⟨x, args⟩
  apply (s.textArgument_relabel g x).bind
  intro text
  apply (next_relabel g args).bind
  rintro ⟨y, args⟩
  apply (s.startArgument_relabel g y).bind
  intro start
  cases args with
  | nil => rfl
  | cons z rest =>
      apply (s.wholeArgument_relabel g z).bind
      intro length
      rfl

theorem joinFunction_relabel (args : List Compiled) :
    Carries (Compiled.relabel ρ) (s.joinFunction g args)
      (s.joinFunction g (args.map (Compiled.relabel ρ))) := by
  apply (next_relabel g args).bind
  rintro ⟨x, args⟩
  apply (s.textArgument_relabel g x).bind
  intro left
  apply (next_relabel g args).bind
  rintro ⟨y, -⟩
  apply (s.textArgument_relabel g y).bind
  intro right
  rfl

theorem castTo_relabel (args : List Compiled) :
    Carries (Compiled.relabel ρ) (s.castTo g args)
      (s.castTo g (args.map (Compiled.relabel ρ))) := by
  apply (next_relabel g args).bind
  rintro ⟨x, args⟩
  apply (next_relabel g args).bind
  rintro ⟨y, -⟩
  show Carries _ (castTarget y >>= _) (castTarget (y.relabel ρ) >>= _)
  rw [castTarget_relabel]
  apply carries_bind
  intro target
  apply (s.operand_relabel x none).bind
  intro o
  rfl

/-- **A built-in function does the same with other aliases in its arguments.** -/
theorem callBuiltIn_relabel (args : List Compiled) :
    Carries (Compiled.relabel ρ) (s.callBuiltIn g args)
      (s.callBuiltIn g (args.map (Compiled.relabel ρ))) := by
  rw [callBuiltIn, callBuiltIn, List.length_map]
  apply carries_bind
  rintro ⟨⟩
  cases g with
  | contains | startsWith | endsWith => exact s.matching_relabel _ _ args
  | length | toLower | toUpper | trim =>
      exact readFunction_relabel _ args (s.textArgument_relabel _) fun _ => rfl
  | year | month | day | date =>
      exact readFunction_relabel _ args (s.dayArgument_relabel _) fun _ => rfl
  | hour | minute | second | time =>
      exact readFunction_relabel _ args (s.clockArgument_relabel _) fun _ => rfl
  | round | floor | ceiling => exact s.roundingFunction_relabel _ _ args
  | indexOf => exact s.positionFunction_relabel _ args
  | substring => exact s.partFunction_relabel _ args
  | concat => exact s.joinFunction_relabel _ args
  | cast => exact s.castTo_relabel _ args
  | now | isOf => rfl

/-! ## Functions of a schema

Arguments are relabeled under their names (`relabelArguments`), so the same ones are found for each
parameter, and the same one is missing. -/

/-- The arguments with each alias changed by `ρ`, under the same names. -/
def relabelArguments {κ : Type} (ρ : String → String) (args : List (κ × Compiled)) :
    List (κ × Compiled) :=
  args.map fun (name, x) => (name, x.relabel ρ)

theorem lookup_relabel (name : String) (bound : List (String × Compiled)) :
    (relabelArguments ρ bound).lookup name = (bound.lookup name).map (Compiled.relabel ρ) := by
  induction bound with
  | nil => rfl
  | cons first rest ih =>
      obtain ⟨given, x⟩ := first
      show List.lookup name ((given, x.relabel ρ) :: relabelArguments ρ rest) = _
      rw [List.lookup_cons, List.lookup_cons, ih]
      cases name == given <;> rfl

theorem bindArguments_relabel (called : String) (f : Function) (index : Nat)
    (bound : List (String × Compiled)) (args : List (Option String × Compiled)) :
    Carries (relabelArguments ρ) (bindArguments called f index bound args)
      (bindArguments called f index (relabelArguments ρ bound) (relabelArguments ρ args)) := by
  induction args generalizing index bound with
  | nil => rfl
  | cons arg args ih =>
      obtain ⟨name | name, x⟩ := arg
      · rfl
      · show Carries _ _ (bindArguments called f index (relabelArguments ρ bound)
          ((some name, x.relabel ρ) :: relabelArguments ρ args))
        rw [bindArguments, bindArguments]
        cases f.parameter? name with
        | none => rfl
        | some p =>
            have hbound := ih (index + 1) (bound ++ [(p.name, x)])
            rw [relabelArguments, List.map_append] at hbound
            dsimp only
            rw [lookup_relabel, Option.isSome_map]
            exact carries_ite (carries_error _) hbound

theorem passArguments_relabel (called : String) (bound : List (String × Compiled))
    (ps : List Parameter) :
    Carries (Sql.listRelabel ρ) (s.passArguments called bound ps)
      (s.passArguments called (relabelArguments ρ bound) ps) := by
  induction ps generalizing bound with
  | nil => rfl
  | cons p ps ih =>
      rw [passArguments, passArguments, lookup_relabel]
      cases bound.lookup p.name with
      | none => rfl
      | some x =>
          apply (s.operand_relabel x _).bind
          intro o
          have hfilter : (relabelArguments ρ bound).filter (·.1 ≠ p.name) =
              relabelArguments ρ (bound.filter (·.1 ≠ p.name)) := List.filter_map
          rw [hfilter]
          apply (ih _).bind
          intro es
          rfl

/-- **A function of the schema does the same with other aliases in its arguments.** -/
theorem callCustom_relabel (called : String) (args : List (Option String × Compiled)) :
    Carries (Compiled.relabel ρ) (s.callCustom called args)
      (s.callCustom called (relabelArguments ρ args)) := by
  apply carries_bind
  intro f
  apply carries_bind
  intro type
  apply (bindArguments_relabel called f 0 [] args).bind
  intro bound
  apply (s.passArguments_relabel called bound f.parameters).bind
  intro es
  rfl

end Schema

end FilterSql
