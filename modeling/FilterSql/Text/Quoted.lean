/-!
# Quoted text

A quotation mark inside a quoted text is written twice, which is what `double` does; `quote` puts
the marks around it. This one convention serves the strings of the filter language, the string
literals of SQL and the quoted identifiers of both dialects, each with its own mark.
-/

namespace FilterSql.Text

/-- Writes each `mark` in `s` twice. -/
def double (mark : Char) (s : List Char) : List Char :=
  s.flatMap fun c => if c = mark then [c, c] else [c]

/-- The text `s` between two marks, with the marks in it doubled. -/
def quote (mark : Char) (s : String) : String :=
  String.ofList (mark :: double mark s.toList ++ [mark])

@[simp] theorem double_nil (mark : Char) : double mark [] = [] := rfl

@[simp] theorem double_cons (mark c : Char) (s : List Char) :
    double mark (c :: s) = (if c = mark then [c, c] else [c]) ++ double mark s := rfl

end FilterSql.Text
