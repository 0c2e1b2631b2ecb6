import FilterSql.DataType
import FilterSql.TableName

/-!
# Schemas

What a filter may speak about: entity types with their tables, complex types that are embedded in
them, enum types, and functions of the database. A structured type has attributes, which hold
values, and associations, which lead to entities. `Schema.entityType?` and its siblings look a
declaration up by name, with or without the namespace of the schema; which name means which
declaration is decided by `Schema.names`.
-/

namespace FilterSql

/-- Limits of a type: `maxLength` for a text, `precision` and `scale` for a decimal. -/
structure Facets where
  maxLength : Option Nat := none
  precision : Option Nat := none
  scale : Option Nat := none
deriving DecidableEq, Repr, Inhabited

/-- One equation of a join: the `source` is a column of the side that is left, and the `target` one
of the side that is reached. -/
structure JoinColumn where
  source : String
  target : String
deriving DecidableEq, Repr, Inhabited

/-! ### Associations

An association leads from the rows of a structured type to rows of an entity type, by equations
between columns. -/

inductive Cardinality where
  | toOne
  | toMany
deriving DecidableEq, Repr

/-- The table between the two sides of an association. Its `columns` join it with the far side,
where `JoinColumn.source` is a column of this table. -/
structure LinkTable where
  table : TableName
  columns : List JoinColumn
deriving DecidableEq, Repr

/-- A way from a structured type to an entity type. Without a `linkTable` the `joinColumns` reach
the far side; with one they reach the link table. -/
structure Association where
  name : String
  target : String
  cardinality : Cardinality
  joinColumns : List JoinColumn
  linkTable : Option LinkTable
deriving DecidableEq, Repr

def Association.isCollection (a : Association) : Bool :=
  a.cardinality == .toMany

/-! ### Attributes

An attribute holds a single value, a value of a complex type, whose parts are columns of the same
table, or a collection in a table of its own. -/

/-- What a collection stored in a side table is made of. -/
inductive Element where
  | primitive (column : String) (type : DataType)
  | complex (type : String)
deriving DecidableEq, Repr

inductive AttributeKind where
  | primitive (type : DataType)
  | enum (type : String)
  /-- A value of a complex type, whose columns get the text in front of their names. -/
  | complex (type : String) (columnLead : Option String)
  /-- A collection in a table that no entity type describes. -/
  | collection (table : TableName) (joinColumns : List JoinColumn) (element : Element)
deriving DecidableEq, Repr

structure Attribute where
  name : String
  columnName : Option String
  nullable : Bool
  facets : Facets
  kind : AttributeKind
deriving DecidableEq, Repr

namespace Attribute

/-- The column behind the attribute `a`, which has its name unless another is declared. -/
def column (a : Attribute) : String :=
  a.columnName.getD a.name

/-- The type of the value of `a`, none for complex values and collections. -/
def dataType? (a : Attribute) : Option DataType :=
  match a.kind with
  | .primitive type => some type
  | .enum _ => some .enum
  | .complex .. | .collection .. => none

def enumType? (a : Attribute) : Option String :=
  match a.kind with
  | .enum type => some type
  | _ => none

def isCollection (a : Attribute) : Bool :=
  match a.kind with
  | .collection .. => true
  | _ => false

end Attribute

/-! ### Types

Entity types and complex types have the same kinds of members, so a path is resolved in a
`StructuredType`, which is either of them. -/

/-- A type with a table of its own. -/
structure EntityType where
  name : String
  table : TableName
  keys : List String
  attributes : List Attribute
  associations : List Association
deriving DecidableEq, Repr

/-- A type whose columns live in the tables of the types that embed it. -/
structure ComplexType where
  name : String
  attributes : List Attribute
  associations : List Association
deriving DecidableEq, Repr

inductive StructuredType where
  | entity (type : EntityType)
  | complex (type : ComplexType)
deriving DecidableEq, Repr

namespace StructuredType

def name : StructuredType → String
  | entity t => t.name
  | complex t => t.name

def attributes : StructuredType → List Attribute
  | entity t => t.attributes
  | complex t => t.attributes

def associations : StructuredType → List Association
  | entity t => t.associations
  | complex t => t.associations

/-- The first attribute called `name`. -/
def attribute? (t : StructuredType) (name : String) : Option Attribute :=
  t.attributes.find? (·.name == name)

/-- The first association called `name`. -/
def association? (t : StructuredType) (name : String) : Option Association :=
  t.associations.find? (·.name == name)

end StructuredType

/-! ### Enum types

A member is compared in the form it is stored in, which `EnumType.storage` tells. -/

/-- Whether a member is stored by its `name` or by its number. -/
inductive EnumStorage where
  | name
  | ordinal
deriving DecidableEq, Repr

/-- A member of an enum type, whose `value` is its number if one is declared. -/
structure EnumMember where
  name : String
  value : Option Int
deriving DecidableEq, Repr

structure EnumType where
  name : String
  members : List EnumMember
  storage : EnumStorage
deriving DecidableEq, Repr

namespace EnumType

def hasMember (t : EnumType) (name : String) : Bool :=
  t.members.any (·.name == name)

/-- The number of the member called `name`: the declared one, or else its position. -/
def ordinal? (t : EnumType) (name : String) : Option Int :=
  (t.members.zipIdx.find? (·.1.name == name)).map fun (m, i) => m.value.getD i

end EnumType

/-! ### Functions

A function is called with named arguments. Its return type says whether a filter can use the
result. -/

inductive ReturnKind where
  | primitive | enum | geospatial | complex | entity
deriving DecidableEq, Repr

structure ReturnType where
  kind : ReturnKind
  dataType : Option DataType
  collection : Bool
deriving DecidableEq, Repr

structure Parameter where
  name : String
  dataType : DataType
  enumType : Option String
  facets : Facets
deriving DecidableEq, Repr

/-- A function of the database: `name` is its name in filters, `sqlName` the one there. -/
structure Function where
  name : String
  sqlName : String
  parameters : List Parameter
  returnType : ReturnType
deriving DecidableEq, Repr

namespace Function

/-- The first parameter called `name`. -/
def parameter? (f : Function) (name : String) : Option Parameter :=
  f.parameters.find? (·.name == name)

/-- Whether a single value comes back, provided that `ReturnType.collection` does not hold. -/
def returnsScalar (f : Function) : Bool :=
  match f.returnType.kind with
  | .primitive | .enum | .geospatial => true
  | .complex | .entity => false

end Function

/-! ### The schema

Lookup goes through the declarations in order, and the first that matches is taken. -/

structure Schema where
  /-- Names may be given with this in front. -/
  namespaceName : Option String
  entityTypes : List EntityType
  complexTypes : List ComplexType
  enumTypes : List EnumType
  functions : List Function
deriving DecidableEq, Repr

namespace Schema

instance : Inhabited Schema :=
  ⟨⟨none, [], [], [], []⟩⟩

/-- What follows `lead` in `text`, if that starts with it. -/
def dropLead? (lead : String) (text : String) : Option String :=
  if lead.toList.isPrefixOf text.toList then
    some (String.ofList (text.toList.drop lead.length)) else none

/-- Whether `name` means the thing declared as `declared`: by that name, or by it behind the
namespace and a point. -/
def names (s : Schema) (declared name : String) : Bool :=
  declared == name ||
    match s.namespaceName with
    | some ns => dropLead? (ns ++ ".") name == some declared
    | none => false

def entityType? (s : Schema) (name : String) : Option EntityType :=
  s.entityTypes.find? fun t => s.names t.name name

def complexType? (s : Schema) (name : String) : Option ComplexType :=
  s.complexTypes.find? fun t => s.names t.name name

def enumType? (s : Schema) (name : String) : Option EnumType :=
  s.enumTypes.find? fun t => s.names t.name name

def function? (s : Schema) (name : String) : Option Function :=
  s.functions.find? fun f => s.names f.name name

/-- The entity type called `name`, or else the complex type. -/
def structuredType? (s : Schema) (name : String) : Option StructuredType :=
  match s.entityType? name with
  | some t => some (.entity t)
  | none => (s.complexType? name).map .complex

end Schema

end FilterSql
