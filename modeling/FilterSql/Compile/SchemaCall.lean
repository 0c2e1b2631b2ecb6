import FilterSql.Compile.Coercion

/-!
# Calls of functions of a schema

A function of the schema is called under its name in the database. `bindArguments` binds its
arguments by the names of its parameters, and `passArguments` passes them in the order in which
these are declared. Both blame the call by the name it was written with.
-/

namespace FilterSql

open Sql (Expr)

namespace Schema

/-- The part of `name` behind its last point. -/
def localName? (name : String) : Option String :=
  let back := name.toList.reverse
  if '.' ∈ back then some (String.ofList (back.takeWhile (· ≠ '.')).reverse) else none

/-- The function called `name`, or else by the part of that behind its last point. -/
def calledFunction (s : Schema) (name : String) : Except FilterError Function :=
  match s.function? name, (localName? name).bind s.function? with
  | some f, _ => .ok f
  | none, some f => .ok f
  | none, none => .error (.notSupported (.unknownFunction name))

/-- The type of what `f` returns, which has to be a single value. -/
def returnedType (f : Function) : Except FilterError DataType :=
  if f.returnType.collection then .error (.notComparable (.collection f.name))
  else if !f.returnsScalar then .error (.notComparable (.structured f.name f.returnType.kind))
  else match f.returnType.dataType, f.returnType.kind with
    | some type, _ => .ok type
    | none, .enum => .ok .enum
    | none, .geospatial => .ok .geometry
    | none, _ => .error (.defect (.noReturnType f.name))

/-- Binds the arguments behind `index` others to the parameters of `f`, by name. What is `bound`
already stays in front. -/
def bindArguments (called : String) (f : Function) (index : Nat)
    (bound : List (String × Compiled)) :
    List (Option String × Compiled) → Except FilterError (List (String × Compiled))
  | [] => .ok bound
  | (none, _) :: _ => .error (.unboundParameter called ("argument " ++ toString (index + 1)))
  | (some name, c) :: args =>
      match f.parameter? name with
      | none => .error (.unknownParameter called name)
      | some p =>
          if (bound.lookup p.name).isSome then .error (.duplicateParameter called p.name)
          else bindArguments called f (index + 1) (bound ++ [(p.name, c)]) args

/-- The values of the parameters in their order, each of which takes the argument that is bound to
it. -/
def passArguments (s : Schema) (called : String) (bound : List (String × Compiled)) :
    List Parameter → Except FilterError (List Expr)
  | [] => .ok []
  | p :: ps => do
      match bound.lookup p.name with
      | none => throw (.unboundParameter called p.name)
      | some c =>
          let a ← s.operand c (some (.ofParameter p))
          return a.expr :: (← passArguments s called (bound.filter (·.1 ≠ p.name)) ps)

/-- Calls the function of the schema that is written as `called`. -/
def callCustom (s : Schema) (called : String) (args : List (Option String × Compiled)) :
    Except FilterError Compiled := do
  let f ← s.calledFunction called
  let type ← returnedType f
  let bound ← bindArguments called f 0 [] args
  return .ofType (.function f.sqlName (← s.passArguments called bound f.parameters)) type

end Schema

end FilterSql
