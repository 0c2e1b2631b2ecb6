import FilterSql.Schema.Basic

/-!
# Types of values

What is known about the value of an expression: its data type, with the limits of a declaration
where there is one. The type of one operand tells how a literal beside it is to be read.
`ofAttribute?` and `ofParameter` take it from a declaration, while a result of arithmetic only has
a data type, with `of`; `loose` forgets the limits where they do not carry over.
-/

namespace FilterSql

structure ValueType where
  dataType : DataType
  facets : Facets := {}
  nullable : Bool := true
  enumType : Option String := none
deriving DecidableEq, Repr

namespace ValueType

/-- A data type about which nothing else is known. -/
def of (type : DataType) : ValueType :=
  { dataType := type }

/-- The type of members of the enum type called `type`. -/
def enumeration (type : String) : ValueType :=
  { dataType := .enum, enumType := some type }

/-- The type of the value of the attribute `a`. The values of complex attributes and of collections
have none. -/
def ofAttribute? (a : Attribute) : Option ValueType :=
  a.dataType?.map fun type => ⟨type, a.facets, a.nullable, a.enumType?⟩

/-- The type of the parameter `p`, which may always be null. -/
def ofParameter (p : Parameter) : ValueType :=
  { dataType := p.dataType, facets := p.facets, enumType := p.enumType }

/-- The type `t` without the limits of its declaration. -/
def loose (t : ValueType) : ValueType :=
  { dataType := t.dataType, enumType := t.enumType }

end ValueType

end FilterSql
