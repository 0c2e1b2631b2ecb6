import FilterSql.Proofs.Compile.Run
import FilterSql.Proofs.Schema.Names
import FilterSql.Proofs.Sql.Parts

/-!
# Sorts of expressions

A database takes conditions, numbers and texts in different places. An expression is of a sort by
its outermost form (`IsCondition`, `IsNumber`, `IsText`); a column and a function of the schema are
of the sort that the schema declares. In a tree that is well-sorted (`Sql.Expr.Sorted`), every
operator, every function of SQL and every query has operands of the sort that it takes. The
arguments of functions of the schema are not constrained.
-/

namespace FilterSql

open Sql (Expr Select Join)

/-! ## Declared columns

Which columns the rows of a scope have, and of which types. Attributes of complex types have theirs
in the rows of the type that embeds them (`Schema.Embeds`), behind what they put in front of
columns. -/

namespace Schema

/-- `Embeds scope t lead`: the members of the type `t` live in the rows of `scope`, with `lead` in
front of their columns. -/
inductive Embeds (s : Schema) (scope : Scope) : StructuredType → String → Prop where
  | rows {t : StructuredType} (ht : scope.structured? = some t) : Embeds s scope t ""
  | enter {t : StructuredType} {lead name type : String} {next : Option String} {a : Attribute}
      {c : ComplexType} (ht : Embeds s scope t lead) (ha : t.attribute? name = some a)
      (hkind : a.kind = .complex type next) (hc : s.complexType? type = some c) :
      Embeds s scope (.complex c) (lead ++ next.getD "")

/-- The rows of an entity type of the schema, or those of a collection that one of its attributes
stores. -/
inductive Stores (s : Schema) : Scope → Prop where
  | entity {type : EntityType} (h : type ∈ s.entityTypes) : Stores s (.entity type)
  | primitives {a : Attribute} {table : TableName} {columns : List JoinColumn} {column : String}
      {type : DataType} (ha : a ∈ s.attributes)
      (hkind : a.kind = .collection table columns (.primitive column type)) :
      Stores s (.primitiveCollection table column type)
  | complexes {a : Attribute} {table : TableName} {columns : List JoinColumn} {type : String}
      {c : ComplexType} (ha : a ∈ s.attributes)
      (hkind : a.kind = .collection table columns (.complex type))
      (hc : s.complexType? type = some c) : Stores s (.complexCollection table c)

/-- The schema declares the column for the rows of the scope, with this type. -/
inductive HasColumn (s : Schema) : Scope → String → DataType → Prop where
  | member {scope : Scope} {t : StructuredType} {lead name : String} {a : Attribute}
      {type : DataType} (ht : s.Embeds scope t lead) (ha : t.attribute? name = some a)
      (htype : a.dataType? = some type) :
      HasColumn s scope (lead ++ a.column) type
  | element {table : TableName} {column : String} {type : DataType} :
      HasColumn s (.primitiveCollection table column type) column type

/-- The schema declares the column with this type for the table that has the alias `label`. -/
def Types (s : Schema) (tables : List (String × TableName)) (label column : String)
    (type : DataType) : Prop :=
  ∃ scope, s.Stores scope ∧ (label, scope.table) ∈ tables ∧ s.HasColumn scope column type

/-- A function of the schema with this `sqlName` returns a single value of the type. -/
def Returns (s : Schema) (name : String) (type : DataType) : Prop :=
  ∃ g ∈ s.functions, g.sqlName = name ∧ g.returnType.collection = false ∧
    g.returnType.dataType = some type

theorem Stores.hasScope {s : Schema} {scope : Scope} (h : s.Stores scope) : s.HasScope scope := by
  cases h with
  | entity h => exact h
  | @primitives a table columns column type ha hkind =>
      have hscope : s.elementScope "" table (.primitive column type) =
        .ok (.primitiveCollection table column type) := rfl
      exact hasScope_element ha hkind hscope
  | @complexes a table columns type c ha hkind hc =>
      have hscope : s.elementScope "" table (.complex type) = .ok (.complexCollection table c) := by
        rw [elementScope, complexTypeOf, hc]
        rfl
      exact hasScope_element ha hkind hscope

end Schema

/-! ## Sorts

Three sorts that a database tells apart, by the outermost form of an expression. Others are of none
of them, such as a date that is bound, and are taken only where any operand is. -/

section

variable (s : Schema) (tables : List (String × TableName))

/-- A condition: a test of values or rows, or something that the schema declares as `boolean`. -/
inductive IsCondition : Expr → Prop where
  | compare (l : Expr) (op : Comparison) (r : Expr) : IsCondition (.binary l (.compare op) r)
  | and (l r : Expr) : IsCondition (.binary l .and r)
  | or (l r : Expr) : IsCondition (.binary l .or r)
  | not (e : Expr) : IsCondition (.not e)
  | isNull (e : Expr) : IsCondition (.isNull e)
  | isNotNull (e : Expr) : IsCondition (.isNotNull e)
  | like (e pattern : Expr) (escape : Option Char) : IsCondition (.like e pattern escape)
  | hasRows (query : Select) : IsCondition (.hasRows query)
  | column {label name : String} (h : s.Types tables label name .boolean) :
      IsCondition (.column (some label) name)
  | function {name : String} (args : List Expr) (h : s.Returns name .boolean) :
      IsCondition (.function name args)

/-- A number: bound, the constant one, calculated or counted, or something that the schema declares
as a number. -/
inductive IsNumber : Expr → Prop where
  | parameter {v : Value} (hv : v.dataType.isNumeric = true) : IsNumber (.parameter v)
  | one : IsNumber (.constant (.int 1))
  | arith (l : Expr) (op : Arithmetic) (r : Expr) : IsNumber (.binary l (.arith op) r)
  | count (source : Option (TableName × Option String)) (joins : List Join)
      (condition : Option Expr) :
      IsNumber (.scalar (.mk [.countAll] source joins condition))
  | position (needle haystack : Expr) : IsNumber (.position needle haystack)
  | extract (field : Sql.DateField) (e : Expr) : IsNumber (.extract field e)
  | standard {name : String} (args : List Expr)
      (hname : name ∈ ["CHAR_LENGTH", "ROUND", "FLOOR", "CEILING"]) :
      IsNumber (.function name args)
  | column {label name : String} {type : DataType} (h : s.Types tables label name type)
      (htype : type.isNumeric = true) :
      IsNumber (.column (some label) name)
  | function {name : String} {type : DataType} (args : List Expr) (h : s.Returns name type)
      (htype : type.isNumeric = true) : IsNumber (.function name args)

/-- A text: bound, the constant wildcard, given by a function or a cast, or something that the
schema declares as a text. -/
inductive IsText : Expr → Prop where
  | parameter (text : String) : IsText (.parameter (.string text))
  | wildcard : IsText (.constant (.string "%"))
  | cast (e : Expr) : IsText (.cast e .string)
  | standard {name : String} (args : List Expr)
      (hname : name ∈ ["CONCAT", "SUBSTRING", "LOWER", "UPPER", "TRIM"]) :
      IsText (.function name args)
  | column {label name : String} {type : DataType} (h : s.Types tables label name type)
      (htype : type.isTextual = true) :
      IsText (.column (some label) name)
  | function {name : String} {type : DataType} (args : List Expr) (h : s.Returns name type)
      (htype : type.isTextual = true) : IsText (.function name args)

/-- The sorts of the arguments that a function of SQL takes, by its name. -/
inductive Takes : String → List Expr → Prop where
  | text {name : String} {e : Expr} (hname : name ∈ ["CHAR_LENGTH", "LOWER", "UPPER", "TRIM"])
      (he : IsText s tables e) :
      Takes name [e]
  | concat {es : List Expr} (hes : ∀ e ∈ es, IsText s tables e) : Takes "CONCAT" es
  | substring {e : Expr} {es : List Expr} (he : IsText s tables e)
      (hes : ∀ e ∈ es, IsNumber s tables e) :
      Takes "SUBSTRING" (e :: es)
  | rounding {name : String} {e : Expr} (hname : name ∈ ["ROUND", "FLOOR", "CEILING"])
      (he : IsNumber s tables e) :
      Takes name [e]

/-- The sort of operands that an operator takes. With `compare` there is none. -/
def OperandOf : Sql.Operator → Expr → Prop
  | .and | .or => IsCondition s tables
  | .arith _ => IsNumber s tables
  | .compare _ => fun _ => True

end

/-! ## Well-sorted trees

`Sql.Expr.Sorted` asks of each expression in the tree that it is of the sort that is taken where it
stands. Aliases stand for the tables of the queries around them, so these are an argument. -/

namespace Sql

/-- The table of a join with its alias, `none` if it has no alias. -/
def Join.table? : Join → Option (String × TableName)
  | .mk table label _ => label.map (·, table)

/-- The tables of a query with their aliases: that of its source and those of its joins. -/
def Select.tables : Select → List (String × TableName)
  | .mk _ source joins _ =>
      (source.bind fun (table, label) => label.map (·, table)).toList ++ joins.filterMap Join.table?

mutual

/-- Each operand in the tree is of the sort that is taken where it stands, with `tables` around
it. -/
def Expr.Sorted (s : Schema) (tables : List (String × TableName)) : Expr → Prop
  | .column .. | .parameter _ | .constant _ | .functionOfAll _ | .now | .wildcard _ => True
  | .binary left op right =>
      left.Sorted s tables ∧ right.Sorted s tables ∧ OperandOf s tables op left ∧
        OperandOf s tables op right
  | .not e => e.Sorted s tables ∧ IsCondition s tables e
  | .isNull e => e.Sorted s tables
  | .isNotNull e => e.Sorted s tables
  | .like e pattern _ => e.Sorted s tables ∧ pattern.Sorted s tables ∧ IsText s tables e
  | .function name args =>
      ListSorted s tables args ∧ (Takes s tables name args ∨ ∃ g ∈ s.functions, g.sqlName = name)
  | .position needle haystack =>
      needle.Sorted s tables ∧ haystack.Sorted s tables ∧ IsText s tables needle ∧
        IsText s tables haystack
  | .extract _ e => e.Sorted s tables
  | .cast e _ => e.Sorted s tables
  | .hasRows query => query.Sorted s tables
  | .scalar query => query.Sorted s tables

def ListSorted (s : Schema) (tables : List (String × TableName)) : List Expr → Prop
  | [] => True
  | e :: es => e.Sorted s tables ∧ ListSorted s tables es

/-- Inside a query, its own `Select.tables` can be referred to as well. -/
def Select.Sorted (s : Schema) (tables : List (String × TableName)) : Select → Prop
  | .mk columns source joins condition =>
      let inner := Select.tables (.mk columns source joins condition) ++ tables
      ListSorted s inner columns ∧ JoinsSorted s inner joins ∧
      match condition with
      | some e => e.Sorted s inner ∧ IsCondition s inner e
      | none => True

def JoinsSorted (s : Schema) (tables : List (String × TableName)) : List Join → Prop
  | [] => True
  | .mk _ _ on :: joins =>
      (on.Sorted s tables ∧ IsCondition s tables on) ∧ JoinsSorted s tables joins

end

/-- The expression is `Sorted`, and a condition itself. -/
def Expr.SortedCondition (s : Schema) (tables : List (String × TableName)) (e : Expr) : Prop :=
  e.Sorted s tables ∧ IsCondition s tables e

variable {s : Schema} {tables : List (String × TableName)}

theorem listSorted_iff {es : List Expr} : ListSorted s tables es ↔ ∀ e ∈ es, e.Sorted s tables := by
  induction es with
  | nil => simp [ListSorted]
  | cons e es ih => simp [ListSorted, ih]

theorem conjunction?_sorted {es : List Expr} {e : Expr} (h : Expr.conjunction? es = some e)
    (hes : ∀ x ∈ es, x.SortedCondition s tables) : e.SortedCondition s tables :=
  conjunction?_of (fun ha hb => ⟨⟨ha.1, hb.1, ha.2, hb.2⟩, .and _ _⟩) h hes

end Sql

end FilterSql
