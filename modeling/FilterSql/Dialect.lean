/-!
# SQL dialects

The two databases that SQL text is written for. What differs between them is said where it is
written: `DataType` has the names of types, `Value` the literals, and `Sql.Text` the identifiers
and the placeholders of expressions.
-/

namespace FilterSql

inductive Dialect where
  | postgres
  | mysql
deriving DecidableEq, Repr

namespace Dialect

/-- The dialect called `postgres` or `mysql`. The name has to be in lower case. -/
def ofName? : String → Option Dialect
  | "postgres" => some .postgres
  | "mysql" => some .mysql
  | _ => none

end Dialect

end FilterSql
