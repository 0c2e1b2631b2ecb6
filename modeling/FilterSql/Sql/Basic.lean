import FilterSql.Filter.Word
import FilterSql.TableName
import FilterSql.Value.Basic

/-!
# SQL expressions and queries

The trees that filters become. An expression may hold queries, as `EXISTS` or as a scalar, and a
query holds expressions, so `Expr`, `Select` and `Join` are one mutual definition. A value stands
in a tree as a parameter, to be bound when the query is run, or as a constant, to be written into
its text. Queries are put together with `Select.ofTable`, `Select.join` and `Select.filter`.
-/

namespace FilterSql.Sql

inductive Operator where
  | compare (op : Comparison)
  | and
  | or
  | arith (op : Arithmetic)
deriving DecidableEq, Repr

/-- A part of a date or a time. -/
inductive DateField where
  | year | month | day | hour | minute | second
deriving DecidableEq, Repr

mutual

inductive Expr where
  /-- A column, with the alias of its table or without. -/
  | column (qualifier : Option String) (name : String)
  | parameter (value : Value)
  | constant (value : Value)
  | binary (left : Expr) (op : Operator) (right : Expr)
  | not (e : Expr)
  | isNull (e : Expr)
  | isNotNull (e : Expr)
  /-- A pattern match. The character that takes the meaning from the one behind it may be
  declared. -/
  | like (e pattern : Expr) (escape : Option Char)
  | function (name : String) (arguments : List Expr)
  /-- A function of all columns, such as `COUNT(*)`. -/
  | functionOfAll (name : String)
  /-- The place of one text in another, counted from one. -/
  | position (needle haystack : Expr)
  | extract (field : DateField) (e : Expr)
  | cast (e : Expr) (type : DataType)
  | now
  | hasRows (query : Select)
  | scalar (query : Select)
  /-- All columns of a table, or of all tables. -/
  | wildcard (qualifier : Option String)

inductive Select where
  | mk (columns : List Expr) (source : Option (TableName × Option String)) (joins : List Join)
      (condition : Option Expr)

/-- An inner join with another table. -/
inductive Join where
  | mk (table : TableName) (label : Option String) (on : Expr)

end

instance : Inhabited Expr := ⟨.now⟩

namespace Expr

/-- The column called `name` of the table with the alias `label`. -/
def qualified (label name : String) : Expr :=
  column (some label) name

def and (a b : Expr) : Expr :=
  binary a .and b

def equal (a b : Expr) : Expr :=
  binary a (.compare .eq) b

def countAll : Expr :=
  functionOfAll "COUNT"

/-- Conditions joined by `AND`, grouped to the left; none of no conditions. -/
def conjunction? : List Expr → Option Expr
  | [] => none
  | e :: es => some (es.foldl and e)

end Expr

namespace Select

/-- A query of some `columns` of one table. -/
def ofTable (columns : List Expr) (table : TableName) (label : Option String) : Select :=
  mk columns (some (table, label)) [] none

/-- Joins another table, behind the joins that are there. -/
def join (table : TableName) (label : Option String) (on : Expr) : Select → Select
  | mk columns source joins condition => mk columns source (joins ++ [.mk table label on]) condition

/-- Adds the condition `e`, behind those that are there. -/
def filter (e : Expr) : Select → Select
  | mk columns source joins none => mk columns source joins (some e)
  | mk columns source joins (some c) => mk columns source joins (some (c.and e))

end Select

end FilterSql.Sql
