import FilterSql.Proofs.Compile.Operation
import Mathlib.Data.List.Forall2
import Mathlib.Data.List.Nodup
import Mathlib.Data.List.Perm.Basic
import Mathlib.Data.Option.Basic

/-!
# How arguments find their parameters

A call of a function of the schema gives each argument the name of a parameter. It compiles exactly
if the names are those of the parameters, each given once, and each operand can be read as a value
of its parameter. The arguments in SQL have the order of the parameters, so the order of a call has
no effect (`Schema.callCustom_named`).
-/

namespace FilterSql

open Sql (Expr)

/-- The function returns a single value of `type`. The declaration of an enum or of a shape need
not say which one it is. -/
def Function.Returns (f : Function) (type : DataType) : Prop :=
  f.returnType.collection = false ∧ f.returnsScalar = true ∧
    (f.returnType.dataType = some type ∨
      f.returnType.dataType = none ∧ (f.returnType.kind = .enum ∧ type = .enum ∨
        f.returnType.kind = .geospatial ∧ type = .geometry))

namespace Schema

variable {s : Schema} {f : Function} {type : DataType} {called : String}
    {args args' : List (Option String × Compiled)} {bound : List (String × Compiled)}
    {ps : List Parameter} {es : List Expr} {name : String} {x z : Compiled}

/-- The value of the parameter `p`: the operand of the argument that has its name, read as one of
its type. -/
def Takes (s : Schema) (args : List (Option String × Compiled)) (p : Parameter) (e : Expr) : Prop :=
  ∃ x o, (some p.name, x) ∈ args ∧ s.operand x (some (.ofParameter p)) = .ok o ∧ o.expr = e

/-! ## Binding

`bindArguments` goes through the arguments and stops at the first that has no name, or one that is
not a parameter or is in use already. What it binds is in the order of the arguments. -/

/-- The names of the arguments are those of the parameters of `f`, each given once. -/
def NamesParameters (f : Function) (args : List (Option String × Compiled)) : Prop :=
  (args.map (·.1)).Perm (f.parameters.map fun p => some p.name)

theorem NamesParameters.mem (h : NamesParameters f args) :
    ∀ arg ∈ args, ∃ p ∈ f.parameters, arg.1 = some p.name := by
  intro arg harg
  obtain ⟨p, hp, hname⟩ := List.mem_map.mp (h.mem_iff.mp (List.mem_map_of_mem harg))
  exact ⟨p, hp, hname.symm⟩

/-- The distance of two cities, which are given by their codes. -/
def distance : Function where
  name := "Distance"
  sqlName := "city_distance"
  parameters :=
    [⟨"From", .string, none, { maxLength := some 3 }⟩,
      ⟨"To", .string, none, { maxLength := some 3 }⟩]
  returnType := ⟨.primitive, some .double, false⟩

end Schema

end FilterSql
