import FilterSql.Compile.Error
import FilterSql.Compile.ValueType

/-!
# Resolving member paths

A path of names is followed from the rows of one table. Names of complex attributes stay in the
table and lead to columns with a longer name; names of associations and of stored collections hop
to the rows of another table. What is left behind the last hop is the column of an attribute, or
nothing.

`Schema.resolve` gives the hops and that column. Nothing is remembered across a hop but the rows it
leads to, so a path may be resolved in two parts that meet at one.
-/

namespace FilterSql

/-! ### Rows

The rows of an entity type have its members, those of a collection of complex values have the
members of the complex type, and single values have none. -/

/-- The rows that a query ranges over. -/
inductive Scope where
  | entity (type : EntityType)
  /-- The table of a collection of complex values. -/
  | complexCollection (table : TableName) (element : ComplexType)
  /-- The table of a collection of single values. -/
  | primitiveCollection (table : TableName) (column : String) (type : DataType)
deriving DecidableEq, Repr

namespace Scope

def table : Scope → TableName
  | entity type => type.table
  | complexCollection table _ => table
  | primitiveCollection table _ _ => table

/-- The type whose members the rows of a scope have. Single values have none. -/
def structured? : Scope → Option StructuredType
  | entity type => some (.entity type)
  | complexCollection _ element => some (.complex element)
  | primitiveCollection .. => none

/-- The name of the type of a scope, or of the `table` if its rows are single values. -/
def name : Scope → String
  | entity type => type.name
  | complexCollection _ element => element.name
  | primitiveCollection table _ _ => toString table

end Scope

/-! ### Resolved paths

A hop keeps what is needed to join its two sides, and how many names of the path it takes to get
there. -/

/-- An attribute of the rows at hand. Its `column` is in their table, whatever `elements` it is
inside. -/
structure AttributePath where
  /-- The names that lead to it, those of complex attributes among them. -/
  elements : List String
  column : String
  type : ValueType
deriving DecidableEq, Repr

instance : ToString AttributePath :=
  ⟨fun p => "/".intercalate p.elements⟩

/-- The value of a row that holds a single one, `none` if it has members. -/
def Scope.elementPath? : Scope → Option AttributePath
  | primitiveCollection _ column type => some ⟨[], column, .of type⟩
  | _ => none

inductive HopKind where
  | association (a : Association)
  | collection (joinColumns : List JoinColumn)
deriving DecidableEq, Repr

/-- The way from the rows of one table to those of another, by an association or a stored
collection. -/
structure Hop where
  name : String
  target : Scope
  kind : HopKind
  /-- What stands in front of the join columns on the side that is left. -/
  columnLead : String
  /-- The number of names up to the hop, its own among them. -/
  stop : Nat
deriving DecidableEq, Repr

def Hop.isCollection (h : Hop) : Bool :=
  match h.kind with
  | .association a => a.isCollection
  | .collection _ => true

structure Resolution where
  hops : List Hop
  /-- The attribute behind the last hop, none if the path ends with that. -/
  leaf? : Option AttributePath
deriving DecidableEq, Repr

/-- The resolution `r` with the hop `h` in front. -/
def Resolution.behind (h : Hop) (r : Resolution) : Resolution :=
  ⟨h :: r.hops, r.leaf?⟩

/-! ### Resolving

`resolveFrom` goes through the names one by one. Its place within the current rows starts anew at
every hop. -/

/-- A place in the rows of one table, which attributes of complex types may have led into. -/
structure Place where
  scope : Scope
  /-- The type whose members may come next, `none` for a single value. -/
  owner? : Option StructuredType
  /-- What the complex attributes crossed so far put in front of a column. -/
  columnLead : String
  /-- The names of these attributes. -/
  elements : List String

/-- The place of the rows of `scope` as a whole. -/
def Place.start (scope : Scope) : Place :=
  ⟨scope, scope.structured?, "", []⟩

/-- The place inside the complex attribute called `name`. -/
def Place.enter (p : Place) (name : String) (lead : Option String) (type : ComplexType) : Place :=
  ⟨p.scope, some (.complex type), p.columnLead ++ lead.getD "", p.elements ++ [name]⟩

namespace Schema

/-- The name under which an enum type is declared, or else `name` itself. -/
def enumName (s : Schema) (name : String) : String :=
  ((s.enumType? name).map (·.name)).getD name

/-- The type of an attribute that holds a single value, as `ValueType.ofAttribute?` has it, with
the declared name of an enum type. -/
def attributeType (s : Schema) (a : Attribute) : Except FilterError ValueType :=
  match ValueType.ofAttribute? a with
  | some type => .ok { type with enumType := type.enumType.map s.enumName }
  | none => .error (.defect (.noScalarType a.name))

theorem attributeType_ok {s : Schema} {a : Attribute} {type : ValueType} :
    s.attributeType a = .ok type ↔ ∃ dataType, a.dataType? = some dataType ∧
      type = ⟨dataType, a.facets, a.nullable, a.enumType?.map s.enumName⟩ := by
  cases h : a.dataType? <;> simp [attributeType, ValueType.ofAttribute?, h, eq_comm]

def complexTypeOf (s : Schema) (owner type : String) : Except FilterError ComplexType :=
  match s.complexType? type with
  | some c => .ok c
  | none => .error (.invalidPath type owner)

/-- The rows of a collection that is stored in `table`. -/
def elementScope (s : Schema) (owner : String) (table : TableName) :
    Element → Except FilterError Scope
  | .primitive column type => .ok (.primitiveCollection table column type)
  | .complex type => do return .complexCollection table (← s.complexTypeOf owner type)

/-- The rows that the association `a` leads to. -/
def associationScope (s : Schema) (owner : String) (a : Association) : Except FilterError Scope :=
  match s.entityType? a.target with
  | some type => .ok (.entity type)
  | none => .error (.invalidPath a.target owner)

/-- Follows the names from the place `p`, which is `index` names behind the start. -/
def resolveFrom (s : Schema) (p : Place) (index : Nat) : List String → Except FilterError Resolution
  | [] => .ok ⟨[], none⟩
  | name :: rest =>
      match p.owner? with
      | none => .error (.invalidPath name p.scope.name)
      | some owner =>
          let single (a : Attribute) : Except FilterError Resolution :=
            match rest with
            | [] => do
                let type ← s.attributeType a
                return ⟨[], some ⟨p.elements ++ [name], p.columnLead ++ a.column, type⟩⟩
            | next :: _ => .error (.invalidPath next (owner.name ++ "/" ++ name))
          let hop (target : Scope) (kind : HopKind) : Except FilterError Resolution := do
            let r ← resolveFrom s (.start target) (index + 1) rest
            return r.behind ⟨name, target, kind, p.columnLead, index + 1⟩
          match owner.attribute? name, owner.association? name with
          | some a, _ =>
              match a.kind with
              | .primitive _ | .enum _ => single a
              | .complex type lead =>
                  match rest with
                  | [] => .error (.notSupported (.complexAsValue name))
                  | _ :: _ => do
                      let c ← s.complexTypeOf owner.name type
                      resolveFrom s (p.enter name lead c) (index + 1) rest
              | .collection table joinColumns element => do
                  hop (← s.elementScope owner.name table element) (.collection joinColumns)
          | none, some a => do hop (← s.associationScope owner.name a) (.association a)
          | none, none => .error (.invalidPath name owner.name)

/-- Resolves the `names` from the rows of `scope`. Fails at the first that is no member of the type
it is looked up in. -/
def resolve (s : Schema) (scope : Scope) (names : List String) : Except FilterError Resolution :=
  match names with
  | [] => .error (.defect (.emptyPath scope.name))
  | _ :: _ => s.resolveFrom (.start scope) 0 names

end Schema

end FilterSql
