import FilterSql.Compile.BuiltInCall
import FilterSql.Compile.Navigation
import FilterSql.Compile.Operator
import FilterSql.Compile.SchemaCall
import FilterSql.Compile.Search

/-!
# Compiling filters

A filter on the entities of a type becomes a condition on the rows of its table, under the alias
`t0`. Operands are compiled in order. What has a navigating member in it is compiled on the level
that this leads to, where the member goes on from the end of its hops, and becomes the question
whether there is a row there for which it holds: that is `Context.within`.

`Filter.compile` follows the tree. `Schema.compile` and `Schema.select` are the two ways in, for a
condition by itself and for the whole query.
-/

namespace FilterSql

open Sql (Expr Select)

/-- Compiles a condition into what a question asks of a row. -/
def conditionOf (compiled : Numbered Compiled) : Numbered Expr := do
  (← compiled).condition

/-- Compiles on the level that a member navigates to, or right here without one. -/
def Context.within (c : Context) (n? : Option Navigating) (compile : Context → Numbered Compiled) :
    Numbered Compiled :=
  match n? with
  | none => compile c
  | some n => do
      let question := Hop.someRow (.navigation (some n.pin)) fun inner => do
        return some (← conditionOf (compile inner))
      return .subquery (← Hop.ask question c n.anchor.label n.hops)

/-- Compiles what a member denotes. The `body` of a quantifier and the `arguments` of a function
are compiled in a context that is given, as is the search for members that are `navigating`
there. -/
def Target.compile (s : Schema) (c : Context) (path : Path) (anchor : Level)
    (body : Context → Numbered Compiled)
    (navigating : Context → Except FilterError (List Navigating))
    (arguments : Context → Numbered (List (Option String × Compiled))) : Target → Numbered Compiled
  | .element =>
      match anchor.scope.elementPath? with
      | some p => return .ofPath anchor.label p
      | none => throw (.notSupported (.asValue path.shown))
  | .attribute p => return .ofPath anchor.label p
  | .navigation .. => throw (.defect (.navigatesTwice path.shown))
  | .count hops => do
      let rows ← Hop.ask Hop.countRows c anchor.label hops
      return .value rows { dataType := .long, nullable := false }
  | .nonempty hops => do
      let present := Hop.anyElement none fun inner => conditionOf (body inner)
      return .subquery (← Hop.ask present c anchor.label hops)
  | .any hops name => do
      let matching := Hop.anyElement (some name) fun inner => conditionOf (body inner)
      return .subquery (← Hop.ask matching c anchor.label hops)
  | .all hops name => do
      let matching := Hop.someRow (.element name) fun inner => do
        return some (← conditionOf (body inner))
      let violating := Hop.someRow (.element name) fun inner => do
        return some (.not (← conditionOf (body inner)))
      let some ← Hop.ask matching c anchor.label hops
      let other ← Hop.ask violating c anchor.label hops
      return .subquery (some.and (.not other))
  | .function name => do
      c.within (← Navigating.only? (← navigating c)) fun c => do
        s.callCustom name (← arguments c)

mutual

/-- Compiles a filter that stands at the address `a`. -/
def Filter.compile (s : Schema) (c : Context) (a : Address) : Filter → Numbered Compiled
  | .binary l op r =>
      if op = .has then throw (.notSupported .has)
      else do
        let n? ←
          if op.isComparison then do
            Navigating.only? ((← l.navigating s c (0 :: a)) ++ (← r.navigating s c (1 :: a)))
          else pure none
        c.within n? fun c => do
          let x ← l.compile s c (0 :: a)
          let y ← r.compile s c (1 :: a)
          s.compose op x y
  | .unary op operand => do
      (← operand.compile s c (0 :: a)).composeUnary op
  | .member path => do
      let compile (c : Context) (found : Level × Target) : Numbered Compiled :=
        found.2.compile s c path found.1 (fun inner => compileBody s inner a path)
          (fun inner => navigatingPath s inner a path) (fun inner => compilePath s inner a path)
      match ← s.denote c a path with
      | (anchor, .navigation hops offset) =>
          c.within (some ⟨a, path, anchor, hops, offset⟩) fun inner => do
            compile inner (← s.denote inner a path)
      | found => compile c found
  | .literal l => return .literal l
  | .enumMember type member => do
      let (v, t) ← s.coerceMember type member none
      return .value (.parameter v) t
  | .call f args => do
      c.within (← Navigating.only? (← navigatingAll s c a 0 args)) fun c => do
        s.callBuiltIn f (← compileAll s c a 0 args)
  | .typeName name =>
      match DataType.ofName? name with
      | some t => return .typeName t
      | none => throw (.notSupported (.typeName name))
  | .parameterAlias name => throw (.notSupported (.parameterAlias name))

/-- Compiles the operands from place `i` on below the address `a`. -/
def compileAll (s : Schema) (c : Context) (a : Address) (i : Nat) :
    List Filter → Numbered (List Compiled)
  | [] => return []
  | f :: fs => do
      let x ← f.compile s c (i :: a)
      return x :: (← compileAll s c a (i + 1) fs)

/-- Compiles the body of the quantifier that ends a path. A path that ends otherwise has none, and
is not given here. -/
def compileBody (s : Schema) (c : Context) (a : Address) : Path → Numbered Compiled
  | .any _ body :: _ => body.compile s c (0 :: a)
  | .all _ body :: _ => body.compile s c (0 :: a)
  | _ :: rest => compileBody s c a rest
  | [] => throw (.defect .noBody)

/-- Compiles the arguments of the function that a path calls. -/
def compilePath (s : Schema) (c : Context) (a : Address) :
    Path → Numbered (List (Option String × Compiled))
  | .function _ args :: _ => compileArguments s c a 0 args
  | _ => return []

def compileArguments (s : Schema) (c : Context) (a : Address) (i : Nat) :
    List Argument → Numbered (List (Option String × Compiled))
  | [] => return []
  | .mk name f :: rest => do
      let x ← f.compile s c (i :: a)
      return (name, x) :: (← compileArguments s c a (i + 1) rest)

end

namespace Schema

/-- The condition of the filter `f` on the rows of an entity type. A literal is no filter by
itself, not even a boolean one. -/
def compileOn (s : Schema) (type : EntityType) (f : Filter) : Except FilterError Expr := do
  let (compiled, _) ← (f.compile s (.ofEntity type) []).run 1
  match compiled with
  | .literal l => throw (.notSupported (.literalAsFilter l))
  | _ => compiled.condition

/-- The entity type called `entity`, which a filter is about. -/
def filtered (s : Schema) (entity : String) : Except FilterError EntityType :=
  match s.entityType? entity with
  | some type => .ok type
  | none => .error (.invalidPath entity "schema")

/-- The condition of the filter `f` on the entities of a type. -/
def compile (s : Schema) (entity : String) (f : Filter) : Except FilterError Expr := do
  s.compileOn (← s.filtered entity) f

/-- The query of the entities of a type that pass the filter `f`. -/
def select (s : Schema) (entity : String) (f : Filter) : Except FilterError Select := do
  let type ← s.filtered entity
  let e ← s.compileOn type f
  return (Select.ofTable [.wildcard (some (tableAlias 0))] type.table
    (some (tableAlias 0))).filter e

end Schema

end FilterSql
