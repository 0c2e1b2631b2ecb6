import FilterSql.Proofs.Compile.Assembly
import FilterSql.Proofs.Sql.Parts

/-!
# The comparisons of a compiled filter

The comparisons in a compiled filter are those that the filter makes
(`Filter.Assembled.comparing`). Other operators and functions bring in none. For the rows of hops
there are the equations by which they are joined, which `Expr.Comparisons` tells apart from the
comparisons of the filter.
-/

namespace FilterSql

open Sql (Expr)

/-! ## Comparisons in an expression

The equations of joins are part of the queries that hops come to, so a query has a rule of its own
in `Sql.Expr.Comparisons`. An operator adds at most one comparison to those of its parts. -/

/-- Whether an expression is put together of its parts without comparing them and without a
query. -/
def Sql.Expr.isNeutral : Expr → Bool
  | .binary _ (.compare _) _ | .hasRows _ | .scalar _ => false
  | _ => true

/-- All comparisons in the expression, at any depth, satisfy `P`. The equations by which the rows
of hops are joined are not among them. -/
inductive Sql.Expr.Comparisons (P : Operand → Comparison → Operand → Prop) : Expr → Prop where
  | compared {l r : Operand} {op : Comparison} (h : P l op r) (hl : Comparisons P l.expr)
      (hr : Comparisons P r.expr) :
      Comparisons P (.binary l.expr (.compare op) r.expr)
  | neutral {e : Expr} (hneutral : e.isNeutral = true)
      (hparts : ∀ part ∈ e.parts, Comparisons P part) :
      Comparisons P e
  | rows {hops : List Hop} {narrowed : Option Expr} {e : Expr} (he : Hop.Encloses hops narrowed e)
      (hnarrowed : ∀ x, narrowed = some x → Comparisons P x) : Comparisons P e
  | counted {h : Hop} {source own : String} {n k : Nat} {joins : List Sql.Join} {on : Expr}
      (hselects : h.Selects source own n joins on k) :
      Comparisons P (.scalar (h.selection [.countAll] own joins on none))

/-- All comparisons in what is compiled satisfy `P`. -/
def Compiled.Comparing (P : Operand → Comparison → Operand → Prop) (x : Compiled) : Prop :=
  ∀ e, x.expr? = some e → e.Comparisons P

namespace Sql.Expr.Comparisons

variable {P : Operand → Comparison → Operand → Prop} {e : Expr}

theorem of_parts (hneutral : e.isNeutral = true) (h : e.parts.Forall (Comparisons P)) :
    e.Comparisons P :=
  .neutral hneutral (List.forall_iff_forall_mem.mp h)

/-- Queries around a condition have the comparisons of that condition. -/
theorem of_encloses {hops : List Hop} {x : Expr} (hx : Hop.Encloses hops (some e) x)
    (he : e.Comparisons P) :
    x.Comparisons P := by
  apply Comparisons.rows hx
  rintro _ ⟨⟩
  exact he

end Sql.Expr.Comparisons

namespace Compiled

variable {P : Operand → Comparison → Operand → Prop} {x : Compiled} {e : Expr}

theorem comparing_of (hx : x.expr? = some e) (he : e.Comparisons P) : x.Comparing P := by
  intro e' he'
  obtain rfl := Option.some.inj (hx.symm.trans he')
  exact he

theorem comparing_of_parts (hx : x.expr? = some e) (hneutral : e.isNeutral = true)
    (h : e.parts.Forall (Sql.Expr.Comparisons P)) : x.Comparing P :=
  comparing_of hx (.of_parts hneutral h)

end Compiled

namespace Schema

variable {s : Schema} {P : Operand → Comparison → Operand → Prop} {x y z : Compiled} {e : Expr}

open Sql.Expr (Comparisons)
open Compiled (comparing_of comparing_of_parts)

theorem operand_comparing {beside : Option ValueType} {o : Operand} (hx : x.Comparing P)
    (h : s.operand x beside = .ok o) : o.expr.Comparisons P := by
  cases x with
  | literal l =>
      rcases literalOperand_ok h with ⟨-, rfl⟩ | ⟨-, v, -, rfl⟩
      · exact .of_parts rfl trivial
      · exact .of_parts rfl trivial
  | predicate e | value e | member e | subquery e =>
      obtain rfl := Except.ok.inj h
      exact hx e rfl
  | typeName => cases h

theorem Reads.comparing {beside : Option ValueType} (hx : x.Comparing P) (h : s.Reads x beside e) :
    e.Comparisons P := by
  obtain ⟨o, ho, -, rfl⟩ := h
  exact operand_comparing hx ho

theorem compareCondition_comparing {op : Comparison} {expected : Bool} (hx : x.Comparing P)
    (h : x.compareCondition op (some expected) = .ok z) : z.Comparing P := by
  obtain ⟨e, kept, he, -, rfl⟩ := Compiled.compareCondition_ok.mp h
  have he := hx e (Compiled.expr?_of_predicate he)
  cases kept with
  | true => exact comparing_of rfl he
  | false => exact comparing_of_parts rfl rfl he

theorem compareNull_comparing {op : Comparison} (he : e.Comparisons P)
    (h : compareNull op e = .ok z) :
    z.Comparing P := by
  rcases compareNull_ok.mp h with ⟨-, rfl⟩ | ⟨-, rfl⟩ <;> exact comparing_of_parts rfl rfl he

/-- Comparing values compares the operands that stand for them, unless one is the literal `null`. -/
theorem compareValues_comparing {op : Comparison} (hx : x.Comparing P) (hy : y.Comparing P)
    (hpair : ∀ l r, s.operands x y = .ok (l, r) → l.isNull = false → r.isNull = false →
      l.type.checkComparable r.type = .ok () → P l op r)
    (h : s.compareValues op x y = .ok z) : z.Comparing P := by
  obtain ⟨l, r, hlr, h⟩ := compareValues_ok h
  obtain ⟨hl, hr⟩ := operands_ok.mp hlr
  have hleft := operand_comparing hx hl
  have hright := operand_comparing hy hr
  cases hlnull : l.isNull with
  | true =>
      rw [if_pos hlnull] at h
      exact compareNull_comparing hright h
  | false =>
      rw [if_neg (by simp [hlnull])] at h
      cases hrnull : r.isNull with
      | true =>
          rw [if_pos hrnull] at h
          exact compareNull_comparing hleft h
      | false =>
          rw [if_neg (by simp [hrnull])] at h
          obtain ⟨hcheck, rfl⟩ := h
          have hcompared := hpair l r hlr hlnull hrnull hcheck
          exact comparing_of rfl (.compared hcompared hleft hright)

/-- An operator brings in no comparison but that of its operands. -/
theorem compose_comparing {op : BinaryOperator} (hx : x.Comparing P) (hy : y.Comparing P)
    (hpair : ∀ cmp l r, op = .compare cmp → s.operands x y = .ok (l, r) → l.isNull = false →
      r.isNull = false →
      l.type.checkComparable r.type = .ok () → P l cmp r)
    (h : s.compose op x y = .ok z) : z.Comparing P := by
  cases op with
  | compare cmp =>
      -- A condition beside a boolean literal is taken as it is, or denied.
      rcases compare_ok h with ⟨_, -, -, h⟩ | ⟨_, -, -, h⟩ | ⟨-, h⟩
      · exact compareCondition_comparing hx h
      · exact compareCondition_comparing hy h
      · exact compareValues_comparing hx hy (fun l r => hpair cmp l r rfl) h
  | arith op =>
      obtain ⟨l, r, type, hl, hr, -, -, -, rfl⟩ := calculate_ok h
      exact comparing_of_parts rfl rfl ⟨operand_comparing hx hl, operand_comparing hy hr⟩
  | and | or =>
      obtain ⟨l, r, hl, hr, rfl⟩ := Compiled.combine_ok.mp h
      have hleft := hx l (Compiled.expr?_of_predicate hl)
      have hright := hy r (Compiled.expr?_of_predicate hr)
      exact comparing_of_parts rfl rfl ⟨hleft, hright⟩
  | has => cases h

theorem composeUnary_comparing {op : UnaryOperator} (hx : x.Comparing P)
    (h : x.composeUnary op = .ok z) :
    z.Comparing P := by
  cases op with
  | not =>
      obtain ⟨e, he, rfl⟩ := Compiled.negateCondition_ok.mp h
      exact comparing_of_parts rfl rfl (hx e (Compiled.expr?_of_predicate he))
  | minus =>
      obtain ⟨l, l', rfl, rfl, -⟩ := Compiled.negate_ok h
      exact nofun

theorem Pattern.comparing {m : Sql.Like.Margins} {escape : Option Char} (hx : x.Comparing P)
    (h : s.Pattern m x e escape) : e.Comparisons P := by
  have hconstant : (Expr.constant (.string "%")).Comparisons P := .of_parts rfl trivial
  cases h with
  | written => exact .of_parts rfl trivial
  | computed _ he =>
      have he := he.comparing hx
      obtain ⟨left, right⟩ := m
      apply Comparisons.of_parts rfl
      match left, right with
      | false, false => exact he
      | true, false => exact ⟨hconstant, he⟩
      | false, true => exact ⟨he, hconstant⟩
      | true, true => exact ⟨hconstant, he, hconstant⟩

theorem Start.comparing (hx : x.Comparing P) (h : s.Start x e) : e.Comparisons P := by
  cases h with
  | written => exact .of_parts rfl trivial
  | computed _ he => exact .of_parts rfl ⟨he.comparing hx, .of_parts rfl trivial⟩

/-- A built-in function brings in no comparison. -/
theorem Calls.comparing {family : BuiltIn.Family} {xs : List Compiled} (h : s.Calls family xs z)
    (hxs : ∀ x ∈ xs, x.Comparing P) : z.Comparing P := by
  cases h with
  | matching htext hpattern =>
      have htext := htext.comparing (hxs _ (by simp))
      have hpattern := hpattern.comparing (hxs _ (by simp))
      exact comparing_of_parts rfl rfl ⟨htext, hpattern⟩
  | ofText htext =>
      exact comparing_of_parts rfl rfl (htext.comparing (hxs _ (by simp)))
  | indexOf htext hpart =>
      have htext := htext.comparing (hxs _ (by simp))
      have hpart := hpart.comparing (hxs _ (by simp))
      exact comparing_of_parts rfl rfl ⟨.of_parts rfl ⟨hpart, htext⟩, .of_parts rfl trivial⟩
  | rest htext hstart =>
      have htext := htext.comparing (hxs _ (by simp))
      have hstart := hstart.comparing (hxs _ (by simp))
      exact comparing_of_parts rfl rfl ⟨htext, hstart⟩
  | substring htext hstart hlength =>
      have htext := htext.comparing (hxs _ (by simp))
      have hstart := hstart.comparing (hxs _ (by simp))
      have hlength := hlength.comparing (hxs _ (by simp))
      exact comparing_of_parts rfl rfl ⟨htext, hstart, hlength⟩
  | concat hleft hright =>
      have hleft := hleft.comparing (hxs _ (by simp))
      have hright := hright.comparing (hxs _ (by simp))
      exact comparing_of_parts rfl rfl ⟨hleft, hright⟩
  | field he | instantPart he =>
      exact comparing_of_parts rfl rfl (he.comparing (hxs _ (by simp)))
  | now => exact comparing_of_parts rfl rfl trivial
  | rounding ho | cast ho =>
      exact comparing_of_parts rfl rfl (operand_comparing (hxs _ (by simp)) ho)

/-- A function of the schema brings in no comparison either. -/
theorem callCustom_comparing {called : String} {names : List (Option String)} {xs : List Compiled}
    (hlength : names.length = xs.length) (hxs : ∀ x ∈ xs, x.Comparing P)
    (h : s.callCustom called (names.zip xs) = .ok z) : z.Comparing P := by
  obtain ⟨g, type, used, -, hperm, hused, rfl⟩ := callCustom_used hlength h
  refine comparing_of rfl (.neutral rfl ?_)
  intro part hpart
  obtain ⟨arg, harg, rfl⟩ := List.mem_map.mp hpart
  obtain ⟨p, o, ho, heq⟩ := hused arg harg
  rw [← heq]
  exact operand_comparing (hxs _ (hperm.mem_iff.mp (List.mem_map_of_mem harg))) ho

end Schema

/-! ## Filters

Along `Filter.Assembled`: what holds of the operands that a comparison in the filter comes to holds
of all comparisons in the compiled filter, at every depth and inside queries. -/

namespace Filter

variable {s : Schema} {Q : Filter → Compiled → Prop} {P : Operand → Comparison → Operand → Prop}
    {f : Filter} {c : Context} {a : Address} {x : Compiled}

/-- What operands are compiled to, place by place, applies to each of the results. -/
theorem compiled_mem {fs : List Filter} {xs : List Compiled} (hxs : List.Forall₂ Q fs xs)
    (hx : x ∈ xs) :
    ∃ f ∈ fs, Q f x := by
  induction hxs with
  | nil => cases hx
  | cons hfirst _ ih =>
      rcases List.mem_cons.mp hx with rfl | hx
      · exact ⟨_, List.mem_cons_self, hfirst⟩
      · obtain ⟨f, hf, hQ⟩ := ih hx
        exact ⟨f, List.mem_cons_of_mem _ hf, hQ⟩

/-- **Comparisons come of comparisons only**: what is put together of parts has the ones of these
and, if it is one, the one of its operands. -/
theorem Assembled.comparing (h : f.Assembled s Q c a x) (hparts : ∀ {g y}, Q g y → y.Comparing P)
    (hpair : ∀ {left right op y z l r}, f = .binary left (.compare op) right → Q left y →
      Q right z →
      s.operands y z = .ok (l, r) → l.isNull = false → r.isNull = false →
        l.type.checkComparable r.type = .ok () →
      P l op r) : x.Comparing P := by
  have harguments {fs : List Filter} {xs : List Compiled} (hxs : List.Forall₂ Q fs xs) : ∀ y ∈ xs,
    y.Comparing P := by
    intro y hy
    obtain ⟨g, -, hQ⟩ := compiled_mem hxs hy
    exact hparts hQ
  cases h with
  | binary _ hx hy _ hz =>
      apply Schema.compose_comparing (hparts hx) (hparts hy) _ hz
      rintro cmp l r rfl
      exact hpair rfl hx hy
  | unary hx hz => exact Schema.composeUnary_comparing (hparts hx) hz
  | element | leaf | enumMember => exact Compiled.comparing_of_parts rfl rfl trivial
  | count _ _ hselects => exact Compiled.comparing_of rfl (.counted hselects)
  | nonempty _ he => exact Compiled.comparing_of rfl (.rows he nofun)
  | any _ hx he he' =>
      have he := hparts hx _ (Compiled.expr?_of_predicate he)
      exact Compiled.comparing_of rfl (.of_encloses he' he)
  | all _ hx he hsome hy he' hother =>
      have he := hparts hx _ (Compiled.expr?_of_predicate he)
      have he' := hparts hy _ (Compiled.expr?_of_predicate he')
      have hdenied : Sql.Expr.Comparisons P (.not _) :=
        .of_parts rfl (.of_encloses hother (.of_parts rfl he'))
      exact Compiled.comparing_of_parts rfl rfl ⟨.of_encloses hsome he, hdenied⟩
  | @function _ args xs _ hxs hz =>
      have hlength : (args.map Argument.name).length = xs.length := by
        simpa using hxs.length_eq
      exact Schema.callCustom_comparing hlength (harguments hxs) hz
  | call hxs hz => exact (s.callBuiltIn_ok hz).comparing (harguments hxs)
  | literal | typeName => nofun

end Filter

end FilterSql
