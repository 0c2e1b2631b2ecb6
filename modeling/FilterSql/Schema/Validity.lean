import FilterSql.Schema.Basic

/-!
# Valid schemas

A schema is valid when no two of its types have one name and every reference to a type leads to
one. `Schema.fault?` is the first fault in the order of the document: repeated names first, which
`firstRepeated?` finds in `typeNames`, then the `references` of entity types, complex types and
functions. Names are compared as they are declared, while references are looked up as in a filter.
-/

namespace FilterSql

/-- The kinds of types that a schema refers to. -/
inductive TypeKind where
  | entity | complex | enum
deriving DecidableEq, Repr

/-- The words for a kind in the message of a fault. -/
def TypeKind.words : TypeKind → String
  | .entity => "entity type"
  | .complex => "complex type"
  | .enum => "enum type"

namespace Schema

/-- Why a schema cannot be used. -/
inductive Fault where
  /-- The document is no JSON or has not the form of a schema. -/
  | document
  | duplicateType (name : String)
  | unknownReference (owner : String) (kind : TypeKind) (reference : String)
deriving DecidableEq, Repr

/-- The message of a fault; `document` stands for the account of what is wrong with the document. -/
def Fault.message (document : String) : Fault → String
  | .document => "failed to parse schema: " ++ document
  | .duplicateType name => "type '" ++ name ++ "' is declared more than once"
  | .unknownReference owner kind reference =>
      "'" ++ owner ++ "' references unknown " ++ kind.words ++ " '" ++ reference ++ "'"

/-- The names of all types, in the order of the document. -/
def typeNames (s : Schema) : List String :=
  s.entityTypes.map (·.name) ++ s.complexTypes.map (·.name) ++ s.enumTypes.map (·.name)

/-- The first name in the list that is among those `seen` or stands in front of itself. -/
def firstRepeated? (seen : List String) : List String → Option String
  | [] => none
  | n :: ns => if seen.contains n then some n else firstRepeated? (n :: seen) ns

/-- Whether the schema has a type of the kind with this name. -/
def declares (s : Schema) : TypeKind → String → Bool
  | .entity, name => (s.entityType? name).isSome
  | .complex, name => (s.complexType? name).isSome
  | .enum, name => (s.enumType? name).isSome

end Schema

/-- The type that the attribute `a` refers to. -/
def Attribute.reference? (a : Attribute) : Option (TypeKind × String) :=
  match a.kind with
  | .primitive _ => none
  | .enum type => some (.enum, type)
  | .complex type _ => some (.complex, type)
  | .collection _ _ (.primitive _ _) => none
  | .collection _ _ (.complex type) => some (.complex, type)

namespace Schema

/-- The references of a structured type: those of its `attributes`, then those of its
`associations`. -/
def memberReferences (attributes : List Attribute) (associations : List Association) :
    List (TypeKind × String) :=
  attributes.filterMap (·.reference?) ++ associations.map fun a => (.entity, a.target)

/-- All references of the schema with the names of their owners, in the order of the document. -/
def references (s : Schema) : List (String × TypeKind × String) :=
  s.entityTypes.flatMap (fun t => (memberReferences t.attributes t.associations).map (t.name, ·)) ++
  s.complexTypes.flatMap (fun t =>
    (memberReferences t.attributes t.associations).map (t.name, ·)) ++
  s.functions.flatMap fun f =>
    (f.parameters.filterMap (·.enumType)).map fun type => (f.name, .enum, type)

/-- The first fault of the schema, none if it is valid. -/
def fault? (s : Schema) : Option Fault :=
  match firstRepeated? [] s.typeNames with
  | some name => some (.duplicateType name)
  | none =>
      (s.references.find? fun (_, kind, name) => !s.declares kind name).map
        fun (owner, kind, name) => .unknownReference owner kind name

end Schema

end FilterSql
