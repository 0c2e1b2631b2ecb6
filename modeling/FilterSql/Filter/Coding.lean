import FilterSql.Filter.Basic
import FilterSql.Json.Basic

/-!
# Filters in JSON

A filter tree as a JSON value: each node is an object with one member, named for the kind of the
node. `Filter.ofJson?` reads a tree as strictly as a schema is read, unknown members being ignored.
What a node itself is made of is given by name; a literal, a path, a quantifier or an argument may
also be an array of its parts. Reading goes as deep as the value is nested, which bounds its
recursion.
-/

namespace FilterSql

open Json

/-! ### Literals

The kind of a literal is written by its name in `LiteralKind.names`. -/

def Literal.ofJson? (j : Json) : Option Literal := do
  let field ← j.record? ["text", "kind"]
  return ⟨← required string? (field "text"),
    ← required (·.unit?.bind LiteralKind.ofName?) (field "kind")⟩

def Literal.toJson (l : Literal) : Json :=
  .object [("text", .string l.text), ("kind", .string l.kind.name)]

/-! ### Writing

The three writers follow the mutual definition of `Filter`, `Segment` and `Argument`. -/

mutual

def Filter.toJson : Filter → Json
  | .binary left op right =>
      .object [("Binary", .object [("left", left.toJson), ("operator", .string op.name),
        ("right", right.toJson)])]
  | .unary op operand =>
      .object [("Unary", .object [("operator", .string op.name), ("operand", operand.toJson)])]
  | .member path => .object [("Member", .object [("segments", .array (segmentsToJson path))])]
  | .literal l => .object [("Literal", l.toJson)]
  | .enumMember type member =>
      .object [("TypedLiteral", .object [("enum_type", .string type), ("value", .string member)])]
  | .call f args =>
      .object [("FunctionCall",
        .object [("kind", .string f.name), ("args", .array (filtersToJson args))])]
  | .typeName name => .object [("TypeCheck", .object [("type_name", .string name)])]
  | .parameterAlias name => .object [("Alias", .string name)]

def filtersToJson : List Filter → List Json
  | [] => []
  | f :: fs => f.toJson :: filtersToJson fs

def segmentsToJson : List Segment → List Json
  | [] => []
  | .property name :: rest => .object [("Property", .string name)] :: segmentsToJson rest
  | .count :: rest => .string "Count" :: segmentsToJson rest
  | .nonempty :: rest => .object [("Any", .null)] :: segmentsToJson rest
  | .any x body :: rest =>
      .object [("Any", .object [("variable", .string x), ("body", body.toJson)])] ::
        segmentsToJson rest
  | .all x body :: rest =>
      .object [("All", .object [("variable", .string x), ("body", body.toJson)])] ::
        segmentsToJson rest
  | .function name args :: rest =>
      .object [("Function",
        .object [("name", .string name), ("args", .array (argumentsToJson args))])]
        :: segmentsToJson rest

def argumentsToJson : List Argument → List Json
  | [] => []
  | .mk name value :: rest =>
      .object [("name", ofOption .string name), ("value", value.toJson)] :: argumentsToJson rest

end

/-! ### Reading

The readers are given the `depth` they may go to. `Json.depth` of the value is always enough, since
each of them looks further inside the value at every step. -/

mutual

/-- Reads a tree that is nested at most `depth` deep. -/
def Filter.ofJsonWithin? (depth : Nat) (j : Json) : Option Filter :=
  match depth with
  | 0 => none
  | depth + 1 => do
      let (tag, content) ← j.tagged?
      let content ← content
      match tag with
      | "Binary" => do
          let field ← content.members? ["left", "operator", "right"]
          return .binary (← required (Filter.ofJsonWithin? depth) (field "left"))
            (← required (·.unit?.bind BinaryOperator.ofName?) (field "operator"))
            (← required (Filter.ofJsonWithin? depth) (field "right"))
      | "Unary" => do
          let field ← content.members? ["operator", "operand"]
          return .unary (← required (·.unit?.bind UnaryOperator.ofName?) (field "operator"))
            (← required (Filter.ofJsonWithin? depth) (field "operand"))
      | "Member" => do
          let field ← content.record? ["segments"]
          return .member (← required (list? (Segment.ofJsonWithin? depth)) (field "segments"))
      | "Literal" => (Literal.ofJson? content).map .literal
      | "TypedLiteral" => do
          let field ← content.members? ["enum_type", "value"]
          return .enumMember (← required string? (field "enum_type"))
            (← required string? (field "value"))
      | "FunctionCall" => do
          let field ← content.members? ["kind", "args"]
          return .call (← required (·.unit?.bind BuiltIn.ofName?) (field "kind"))
            (← required (list? (Filter.ofJsonWithin? depth)) (field "args"))
      | "TypeCheck" => do
          let field ← content.members? ["type_name"]
          return .typeName (← required string? (field "type_name"))
      | "Alias" => content.string?.map .parameterAlias
      | _ => none

def Segment.ofJsonWithin? (depth : Nat) (j : Json) : Option Segment :=
  match depth with
  | 0 => none
  | depth + 1 =>
      if j.unit? = some "Count" then some .count
      else do
        let (tag, content) ← j.tagged?
        let content ← content
        let quantified (make : String → Filter → Segment) : Option Segment := do
          let field ← content.record? ["variable", "body"]
          return make (← required string? (field "variable"))
            (← required (Filter.ofJsonWithin? depth) (field "body"))
        match tag with
        | "Property" => content.string?.map .property
        | "Any" => match content with
            | .null => some .nonempty
            | _ => quantified .any
        | "All" => quantified .all
        | "Function" => do
            let field ← content.members? ["name", "args"]
            return .function (← required string? (field "name"))
              (← required (list? (Argument.ofJsonWithin? depth)) (field "args"))
        | _ => none

def Argument.ofJsonWithin? (depth : Nat) (j : Json) : Option Argument :=
  match depth with
  | 0 => none
  | depth + 1 => do
      let field ← j.record? ["name", "value"]
      return .mk (← optional string? (field "name"))
        (← required (Filter.ofJsonWithin? depth) (field "value"))

end

def Filter.ofJson? (j : Json) : Option Filter :=
  Filter.ofJsonWithin? (j.depth + 1) j

end FilterSql
