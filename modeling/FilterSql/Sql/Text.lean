import FilterSql.Sql.Basic

/-!
# SQL text

Writing a tree down. A tree is first laid out as a row of pieces, each a stretch of text or a
parameter, and the pieces are then joined: a parameter becomes a placeholder, and its value goes to
the list of values that are bound. So the values come in the order of their placeholders whatever
the dialect, and nothing but the spelling of names, constants, types and placeholders depends on
it. `Expr.statement` and `Select.statement` give the text together with the values.
-/

namespace FilterSql

/-! ### Spellings of a dialect

Identifiers are quoted with the mark of the dialect, and placeholders are numbered or not. The
signs of operators and the words for parts of a date are the same in both. -/

namespace Dialect

/-- The mark around identifiers of the dialect. -/
def identifierMark : Dialect → Char
  | postgres => '"'
  | mysql => '\x60'

def identifier (d : Dialect) (name : String) : String :=
  Text.quote d.identifierMark name

/-- The placeholder of the parameter behind `bound` others. -/
def placeholder (d : Dialect) (bound : Nat) : String :=
  match d with
  | postgres => "$" ++ toString (bound + 1)
  | mysql => "?"

end Dialect

namespace Sql

def comparisonSign : Comparison → String
  | .eq => "="
  | .ne => "<>"
  | .lt => "<"
  | .le => "<="
  | .gt => ">"
  | .ge => ">="

def arithmeticSign : Arithmetic → String
  | .add => "+"
  | .sub => "-"
  | .mul => "*"
  | .div => "/"
  | .mod => "%"

def Operator.sign : Operator → String
  | .compare op => comparisonSign op
  | .and => "AND"
  | .or => "OR"
  | .arith op => arithmeticSign op

def DateField.word : DateField → String
  | year => "YEAR"
  | month => "MONTH"
  | day => "DAY"
  | hour => "HOUR"
  | minute => "MINUTE"
  | second => "SECOND"

/-! ### Pieces

The layout follows the mutual definition of expressions and queries. A `Piece` that is a parameter
keeps its value; where it stands among the placeholders is not decided yet. -/

inductive Piece where
  | text (s : String)
  | parameter (value : Value)

/-- The piece of a name behind its `qualifier` and a point. -/
def qualifiedPieces (qualifier : Option String) (name : String) (d : Dialect) : List Piece :=
  match qualifier with
  | some q => [.text (d.identifier q ++ "." ++ name)]
  | none => [.text name]

def tablePieces (d : Dialect) (t : TableName) (label : Option String) : List Piece :=
  qualifiedPieces t.schema (d.identifier t.name) d ++
    match label with
    | some a => [.text (" AS " ++ d.identifier a)]
    | none => []

mutual

/-- The pieces of an expression, in brackets where its parts could be taken for others. -/
def Expr.pieces (d : Dialect) : Expr → List Piece
  | .column qualifier name => qualifiedPieces qualifier (d.identifier name) d
  | .parameter v => [.parameter v]
  | .constant v => [.text (v.sqlLiteral d)]
  | .binary left op right =>
      .text "(" :: left.pieces d ++ .text (" " ++ op.sign ++ " ") :: right.pieces d ++ [.text ")"]
  | .not e => .text "NOT (" :: e.pieces d ++ [.text ")"]
  | .isNull e => .text "(" :: e.pieces d ++ [.text " IS NULL)"]
  | .isNotNull e => .text "(" :: e.pieces d ++ [.text " IS NOT NULL)"]
  | .like e pattern escape =>
      .text "(" :: e.pieces d ++ .text " LIKE " :: pattern.pieces d ++
        match escape with
        | some c => [.text (" ESCAPE " ++ (Value.string c.toString).sqlLiteral d ++ ")")]
        | none => [.text ")"]
  | .function name args => .text (name ++ "(") :: listPieces d args ++ [.text ")"]
  | .functionOfAll name => [.text (name ++ "(*)")]
  | .position needle haystack =>
      .text "POSITION(" :: needle.pieces d ++ .text " IN " :: haystack.pieces d ++ [.text ")"]
  | .extract field e => .text ("EXTRACT(" ++ field.word ++ " FROM ") :: e.pieces d ++ [.text ")"]
  | .cast e type => .text "CAST(" :: e.pieces d ++ [.text (" AS " ++ type.sqlName d ++ ")")]
  | .now => [.text "CURRENT_TIMESTAMP"]
  | .hasRows query => .text "EXISTS (" :: query.pieces d ++ [.text ")"]
  | .scalar query => .text "(" :: query.pieces d ++ [.text ")"]
  | .wildcard qualifier => qualifiedPieces qualifier "*" d

/-- The pieces of expressions with commas between them. -/
def listPieces (d : Dialect) : List Expr → List Piece
  | [] => []
  | [e] => e.pieces d
  | e :: es => e.pieces d ++ .text ", " :: listPieces d es

/-- The pieces of a query: columns, table, joins and condition in this order. -/
def Select.pieces (d : Dialect) : Select → List Piece
  | .mk columns source joins condition =>
      .text "SELECT " :: listPieces d columns ++
      (match source with
        | some (table, label) => .text " FROM " :: tablePieces d table label
        | none => []) ++
      joinPieces d joins ++
      match condition with
      | some e => .text " WHERE " :: e.pieces d
      | none => []

def joinPieces (d : Dialect) : List Join → List Piece
  | [] => []
  | .mk table label on :: joins =>
      .text " INNER JOIN " :: tablePieces d table label ++ .text " ON " :: on.pieces d ++
        joinPieces d joins

end

/-! ### Joining the pieces

Placeholders are numbered here, by counting the parameters in front of them. -/

/-- The text of the pieces behind `bound` parameters, piece by piece. -/
def joinText (d : Dialect) (bound : Nat) : List Piece → List String
  | [] => []
  | .text s :: ps => s :: joinText d bound ps
  | .parameter _ :: ps => d.placeholder bound :: joinText d (bound + 1) ps

/-- The values of the parameters among the pieces, in order. -/
def parameters : List Piece → List Value
  | [] => []
  | .text _ :: ps => parameters ps
  | .parameter v :: ps => v :: parameters ps

theorem parameters_append (ps qs : List Piece) :
    parameters (ps ++ qs) = parameters ps ++ parameters qs := by
  induction ps with
  | nil => rfl
  | cons p ps ih => cases p <;> simp [parameters, ih]

/-- An SQL text with the values to bind to its placeholders. -/
structure Statement where
  sql : String
  params : List Value

def Statement.ofPieces (d : Dialect) (ps : List Piece) : Statement :=
  ⟨String.join (joinText d 0 ps), parameters ps⟩

def Expr.statement (d : Dialect) (e : Expr) : Statement :=
  .ofPieces d (e.pieces d)

def Select.statement (d : Dialect) (s : Select) : Statement :=
  .ofPieces d (s.pieces d)

end Sql

end FilterSql
