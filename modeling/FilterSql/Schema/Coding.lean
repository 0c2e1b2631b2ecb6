import FilterSql.Json.Number
import FilterSql.Json.Reader
import FilterSql.Schema.Validity

/-!
# Schemas in JSON

The document that declares a schema. Everything but names, tables, join columns and kinds may be
left out; unknown members are ignored. The kind of an attribute and what belongs to it stand beside
the attribute's own members. Each type has a reader `ofJson?` and a writer `toJson`, which name the
same members; `Schema.read?` loads a document and refuses one whose schema is not valid.
-/

namespace FilterSql

namespace Json

def dataType? (j : Json) : Option DataType :=
  j.string?.bind DataType.ofName?

def tableName? (j : Json) : Option TableName :=
  j.string?.map TableName.ofString

def ofDataType (t : DataType) : Json :=
  .string t.edmName

def ofTableName (t : TableName) : Json :=
  .string (toString t)

def ofNat? (n : Option Nat) : Json :=
  ofOption (fun n => .int n) n

def ofString? (s : Option String) : Json :=
  ofOption .string s

def ofList (item : α → Json) (items : List α) : Json :=
  .array (items.map item)

/-- One of the `words`, each of which stands for a value. -/
def word? (words : List (String × α)) (j : Json) : Option α :=
  j.unit?.bind fun w => words.lookup w

/-- The first of the `words` that stands for `a`. -/
def ofWord [BEq α] (words : List (String × α)) (a : α) : Json :=
  .string (((words.find? (·.2 == a)).map (·.1)).getD "")

end Json

open Json

/-! ### Joins and associations

The writers leave nothing out: a value that is missing is written as `null`. -/

def JoinColumn.ofJson? (j : Json) : Option JoinColumn := do
  let field ← j.record? ["source", "target"]
  return ⟨← required string? (field "source"), ← required string? (field "target")⟩

def JoinColumn.toJson (c : JoinColumn) : Json :=
  .object [("source", .string c.source), ("target", .string c.target)]

def LinkTable.ofJson? (j : Json) : Option LinkTable := do
  let field ← j.record? ["table", "inverse_columns"]
  return ⟨← required tableName? (field "table"),
    ← required (list? JoinColumn.ofJson?) (field "inverse_columns")⟩

def LinkTable.toJson (t : LinkTable) : Json :=
  .object [("table", ofTableName t.table), ("inverse_columns", ofList JoinColumn.toJson t.columns)]

def Cardinality.words : List (String × Cardinality) :=
  [("to_one", .toOne), ("to_many", .toMany)]

def Association.ofJson? (j : Json) : Option Association := do
  let field ← j.record? ["name", "target", "cardinality", "join_columns", "join_table"]
  return {
    name := ← required string? (field "name")
    target := ← required string? (field "target")
    cardinality := ← orElse .toOne (word? Cardinality.words) (field "cardinality")
    joinColumns := ← required (list? JoinColumn.ofJson?) (field "join_columns")
    linkTable := ← optional LinkTable.ofJson? (field "join_table") }

def Association.toJson (a : Association) : Json :=
  .object [("name", .string a.name), ("target", .string a.target),
    ("cardinality", ofWord Cardinality.words a.cardinality),
    ("join_columns", ofList JoinColumn.toJson a.joinColumns),
    ("join_table", ofOption LinkTable.toJson a.linkTable)]

/-! ### Attributes

The members of an attribute are its own, those of its facets and those of its kind, all in one
object. `AttributeKind.ofJson?` is given only the last of these. -/

def Element.ofJson? (j : Json) : Option Element := do
  let (tag, content) ← j.tagged?
  let content ← content
  match tag with
  | "primitive" => do
      let field ← content.record? ["column", "type"]
      return .primitive (← required string? (field "column")) (← required dataType? (field "type"))
  | "complex" => do
      let field ← content.record? ["complex_type"]
      return .complex (← required string? (field "complex_type"))
  | _ => none

def Element.toJson : Element → Json
  | .primitive column type =>
      .object [("primitive", .object [("column", .string column), ("type", ofDataType type)])]
  | .complex type => .object [("complex", .object [("complex_type", .string type)])]

/-- The tag of a kind of attribute, which may also be its place in the list of kinds. -/
def AttributeKind.tag? : Json → Option String
  | .string tag => some tag
  | .int 0 => some "primitive"
  | .int 1 => some "enum"
  | .int 2 => some "complex"
  | .int 3 => some "element_collection"
  | _ => none

/-- Reads the kind of an attribute from the members that are not the attribute's own. -/
def AttributeKind.ofJson? (j : Json) : Option AttributeKind := do
  let field ← j.record? ["kind"]
  match ← required AttributeKind.tag? (field "kind") with
  | "primitive" => do
      let field ← j.record? ["type"]
      return .primitive (← required dataType? (field "type"))
  | "enum" => do
      let field ← j.record? ["enum_type"]
      return .enum (← required string? (field "enum_type"))
  | "complex" => do
      let field ← j.record? ["complex_type", "column_prefix"]
      return .complex (← required string? (field "complex_type"))
        (← optional string? (field "column_prefix"))
  | "element_collection" => do
      let field ← j.record? ["table", "join_columns", "element"]
      return .collection (← required tableName? (field "table"))
        (← required (list? JoinColumn.ofJson?) (field "join_columns"))
        (← required Element.ofJson? (field "element"))
  | _ => none

def AttributeKind.members : AttributeKind → List (String × Json)
  | .primitive type => [("kind", .string "primitive"), ("type", ofDataType type)]
  | .enum type => [("kind", .string "enum"), ("enum_type", .string type)]
  | .complex type lead =>
      [("kind", .string "complex"), ("complex_type", .string type),
        ("column_prefix", ofString? lead)]
  | .collection table columns element =>
      [("kind", .string "element_collection"), ("table", ofTableName table),
       ("join_columns", ofList JoinColumn.toJson columns), ("element", element.toJson)]

def Facets.members (f : Facets) : List (String × Json) :=
  [("max_length", ofNat? f.maxLength), ("precision", ofNat? f.precision), ("scale", ofNat? f.scale)]

/-- Reads the facets from among the members of what they belong to. -/
def Facets.ofFields? (field : String → Option Json) : Option Facets := do
  return {
    maxLength := ← optional nat32? (field "max_length")
    precision := ← optional nat32? (field "precision")
    scale := ← optional nat32? (field "scale") }

/-- The members of an attribute that do not depend on its kind. -/
def Attribute.ownNames : List String :=
  ["name", "column", "nullable", "max_length", "precision", "scale"]

/-- How deep the members of an attribute may be nested, the attribute included. A document may be
nested 127 deep, and its attributes stand on the fifth level. -/
def Attribute.maxDepth : Nat := 123

/-- Reads an attribute, which is an object: its kind could not be told from the place of an array's
items. Which members belong to the kind shows only when all have been read, so every member that is
not in `Attribute.ownNames` must have a value. -/
def Attribute.ofJson? (j : Json) : Option Attribute :=
  match j with
  | .object members => do
      let field ← j.members? Attribute.ownNames
      let others := Json.object (members.filter fun (name, _) => name ∉ Attribute.ownNames)
      if others.wellFormed ∧ others.depth ≤ Attribute.maxDepth then
        return {
          name := ← required string? (field "name")
          columnName := ← optional string? (field "column")
          nullable := ← orElse true bool? (field "nullable")
          facets := ← Facets.ofFields? field
          kind := ← AttributeKind.ofJson? others }
      else none
  | _ => none

def Attribute.toJson (a : Attribute) : Json :=
  .object ([("name", .string a.name), ("column", ofString? a.columnName),
    ("nullable", .bool a.nullable)] ++ a.facets.members ++ a.kind.members)

/-! ### Types

A list that is missing is empty, except for the members of an enum type, which must be given. -/

def EntityType.ofJson? (j : Json) : Option EntityType := do
  let field ← j.record? ["name", "table", "keys", "attributes", "associations"]
  return {
    name := ← required string? (field "name")
    table := ← required tableName? (field "table")
    keys := ← orElse [] (list? string?) (field "keys")
    attributes := ← orElse [] (list? Attribute.ofJson?) (field "attributes")
    associations := ← orElse [] (list? Association.ofJson?) (field "associations") }

def EntityType.toJson (t : EntityType) : Json :=
  .object [("name", .string t.name), ("table", ofTableName t.table),
    ("keys", ofList .string t.keys), ("attributes", ofList Attribute.toJson t.attributes),
    ("associations", ofList Association.toJson t.associations)]

def ComplexType.ofJson? (j : Json) : Option ComplexType := do
  let field ← j.record? ["name", "attributes", "associations"]
  return {
    name := ← required string? (field "name")
    attributes := ← orElse [] (list? Attribute.ofJson?) (field "attributes")
    associations := ← orElse [] (list? Association.ofJson?) (field "associations") }

def ComplexType.toJson (t : ComplexType) : Json :=
  .object [("name", .string t.name), ("attributes", ofList Attribute.toJson t.attributes),
    ("associations", ofList Association.toJson t.associations)]

def EnumStorage.words : List (String × EnumStorage) :=
  [("name", .name), ("ordinal", .ordinal)]

def EnumMember.ofJson? (j : Json) : Option EnumMember := do
  let field ← j.record? ["name", "value"]
  return ⟨← required string? (field "name"), ← optional int64? (field "value")⟩

def EnumMember.toJson (m : EnumMember) : Json :=
  .object [("name", .string m.name), ("value", ofOption .int m.value)]

def EnumType.ofJson? (j : Json) : Option EnumType := do
  let field ← j.record? ["name", "members", "storage"]
  return {
    name := ← required string? (field "name")
    members := ← required (list? EnumMember.ofJson?) (field "members")
    storage := ← orElse .name (word? EnumStorage.words) (field "storage") }

def EnumType.toJson (t : EnumType) : Json :=
  .object [("name", .string t.name), ("members", ofList EnumMember.toJson t.members),
    ("storage", ofWord EnumStorage.words t.storage)]

/-! ### Functions

A parameter has the facets of an attribute among its own members. -/

def ReturnKind.words : List (String × ReturnKind) :=
  [("primitive", .primitive), ("enum", .enum), ("geospatial", .geospatial), ("complex", .complex),
   ("entity", .entity)]

def ReturnType.ofJson? (j : Json) : Option ReturnType := do
  let field ← j.record? ["kind", "type", "collection"]
  return {
    kind := ← required (word? ReturnKind.words) (field "kind")
    dataType := ← optional dataType? (field "type")
    collection := ← orElse false bool? (field "collection") }

def ReturnType.toJson (t : ReturnType) : Json :=
  .object [("kind", ofWord ReturnKind.words t.kind), ("type", ofOption ofDataType t.dataType),
    ("collection", .bool t.collection)]

def Parameter.ofJson? (j : Json) : Option Parameter := do
  let field ← j.record? ["name", "type", "enum_type", "max_length", "precision", "scale"]
  return {
    name := ← required string? (field "name")
    dataType := ← required dataType? (field "type")
    enumType := ← optional string? (field "enum_type")
    facets := ← Facets.ofFields? field }

def Parameter.toJson (p : Parameter) : Json :=
  .object ([("name", .string p.name), ("type", ofDataType p.dataType),
    ("enum_type", ofString? p.enumType)] ++ p.facets.members)

def Function.ofJson? (j : Json) : Option Function := do
  let field ← j.record? ["name", "db_name", "parameters", "return_type"]
  return {
    name := ← required string? (field "name")
    sqlName := ← required string? (field "db_name")
    parameters := ← orElse [] (list? Parameter.ofJson?) (field "parameters")
    returnType := ← required ReturnType.ofJson? (field "return_type") }

def Function.toJson (f : Function) : Json :=
  .object [("name", .string f.name), ("db_name", .string f.sqlName),
    ("parameters", ofList Parameter.toJson f.parameters), ("return_type", f.returnType.toJson)]

/-! ### The schema

`load?` checks what has been read with `Schema.fault?`, so a schema it returns is valid. -/

namespace Schema

def ofJson? (j : Json) : Option Schema := do
  let field ← j.record? ["namespace", "entity_types", "complex_types", "enum_types", "functions"]
  return {
    namespaceName := ← optional string? (field "namespace")
    entityTypes := ← orElse [] (list? EntityType.ofJson?) (field "entity_types")
    complexTypes := ← orElse [] (list? ComplexType.ofJson?) (field "complex_types")
    enumTypes := ← orElse [] (list? EnumType.ofJson?) (field "enum_types")
    functions := ← orElse [] (list? Function.ofJson?) (field "functions") }

def toJson (s : Schema) : Json :=
  .object [("namespace", ofString? s.namespaceName),
    ("entity_types", ofList EntityType.toJson s.entityTypes),
    ("complex_types", ofList ComplexType.toJson s.complexTypes),
    ("enum_types", ofList EnumType.toJson s.enumTypes),
    ("functions", ofList Function.toJson s.functions)]

/-- Loads the valid schema that a JSON value declares. -/
def load? (j : Json) : Except Fault Schema :=
  match ofJson? j with
  | none => .error .document
  | some s =>
      match s.fault? with
      | some fault => .error fault
      | none => .ok s

/-- Loads the valid schema that the text of a document declares. -/
def read? (document : String) : Except Fault Schema :=
  match Json.read? document with
  | none => .error .document
  | some j => load? j

end Schema

end FilterSql
