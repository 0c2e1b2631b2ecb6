import FilterSql.Filter.Grammar

/-!
# Reading filters

`Filter.read?` reads a whole text as a filter, with blanks around it. A text that it refuses is
blamed with `SyntaxError.ofAttempts` for what `Grammar.expression` has noted, and for text that is
left over behind an expression.
-/

namespace FilterSql.Filter

open Grammar

/-- Reads `text` as a filter, or tells what is wrong with it. The end of the text counts as a rule
that can fail, like those of the grammar. -/
def read? (text : String) : Except SyntaxError Filter :=
  let s := text.toList
  let e := expression (Token.skipSpace s)
  let refuse (attempts : List Attempt) : Except SyntaxError Filter :=
    .error (.ofAttempts s [.mk .filter s true attempts])
  match e.value with
  | none => refuse e.attempts
  | some (f, q) =>
      let r := (skip q).1
      if r.isEmpty then .ok f else refuse (e.attempts ++ [.mk .endOfInput r true []])

end FilterSql.Filter
