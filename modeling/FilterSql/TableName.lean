/-!
# Names of tables

The name of a table, with the database schema it lives in or without one. As one text the two are
joined by a point. `TableName.ofString` takes such a text apart at its first point, so a table name
may contain points of its own only behind a schema.
-/

namespace FilterSql

structure TableName where
  schema : Option String
  name : String
deriving DecidableEq, Repr, Inhabited

namespace TableName

/-- Divides `text` at its first point; without one there is no schema. -/
def ofString (text : String) : TableName :=
  let lead := text.toList.takeWhile (· ≠ '.')
  match text.toList.dropWhile (· ≠ '.') with
  | [] => ⟨none, text⟩
  | _ :: rest => ⟨some (String.ofList lead), String.ofList rest⟩

instance : ToString TableName where
  toString t := match t.schema with
    | some schema => schema ++ "." ++ t.name
    | none => t.name

end TableName

end FilterSql
