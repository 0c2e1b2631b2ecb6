import FilterSql.Sql.Basic

/-!
# Standard words

The functions, constants and types of SQL itself that the text of a query may name. All other words
of a query come from the schema or are aliases.
-/

namespace FilterSql.Sql

/-- The SQL functions that built-in functions of filters become. -/
def standardFunctions : List String :=
  ["COUNT", "CONCAT", "CHAR_LENGTH", "SUBSTRING", "LOWER", "UPPER", "TRIM", "ROUND", "FLOOR",
    "CEILING"]

/-- The values that stand in the text of a query instead of being bound to a parameter. -/
def standardConstants : List Value :=
  [.int 1, .string "%", .null]

/-- The types that values are cast to, for parts of an instant and for text. -/
def castTypes : List DataType :=
  [.string, .date, .time]

end FilterSql.Sql
