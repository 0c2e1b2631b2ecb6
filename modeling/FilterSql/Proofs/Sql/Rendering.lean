import FilterSql.Proofs.Sql.Parts
import FilterSql.Sql.Text

/-!
# Rendering

`Expr.render` writes a tree behind what has been written before, one step at a time. A step appends
a text, or binds a value and appends its placeholder, which counts the values in front of it. So a
tree can be rendered from any `Statement`, and from the empty one the result is `Expr.statement`.

Rendering only appends (`render_appends`). The text of a tree is a row of gaps with a placeholder
between any two of them, one for each value that the tree binds, in the order of the tree. At each
placeholder stands the literal of the value if the tree is rendered with its values `inlined`.
-/

namespace FilterSql.Sql

/-! ## Steps

`Expr.pieces` puts the text of a tree together from lists. The functions here write it in the order
in which a renderer does, with the statement so far as their state. -/

namespace Statement

/-- The statement with nothing written and nothing bound. -/
def empty : Statement := ⟨"", []⟩

/-- Writes `text` behind the statement. -/
def write (text : String) (st : Statement) : Statement :=
  ⟨st.sql ++ text, st.params⟩

/-- Binds `v` behind the values that are bound already, and appends its placeholder. -/
def bind (d : Dialect) (v : Value) (st : Statement) : Statement :=
  ⟨st.sql ++ d.placeholder st.params.length, st.params ++ [v]⟩

/-- Appends `name`, which is quoted already, behind its qualifier and a point. -/
def writeQualified (d : Dialect) (qualifier : Option String) (name : String) (st : Statement) :
    Statement :=
  match qualifier with
  | some q => ((st.write (d.identifier q)).write ".").write name
  | none => st.write name

/-- Writes a table, with the alias that it is given if there is one. -/
def writeTable (d : Dialect) (table : TableName) (label : Option String) (st : Statement) :
    Statement :=
  let named := st.writeQualified d table.schema (d.identifier table.name)
  match label with
  | some a => (named.write " AS ").write (d.identifier a)
  | none => named

end Statement

mutual

/-- Writes an expression behind the statement `st`, and binds its parameters. -/
def Expr.render (d : Dialect) (st : Statement) : Expr → Statement
  | .column qualifier name => st.writeQualified d qualifier (d.identifier name)
  | .parameter v => st.bind d v
  | .constant v => st.write (v.sqlLiteral d)
  | .binary left op right =>
      let opened := left.render d (st.write "(")
      (right.render d (opened.write (" " ++ op.sign ++ " "))).write ")"
  | .not e => (e.render d (st.write "NOT (")).write ")"
  | .isNull e => (e.render d (st.write "(")).write " IS NULL)"
  | .isNotNull e => (e.render d (st.write "(")).write " IS NOT NULL)"
  | .like e pattern escape =>
      let matched := pattern.render d ((e.render d (st.write "(")).write " LIKE ")
      let escaped := match escape with
        | some c => (matched.write " ESCAPE ").write ((Value.string c.toString).sqlLiteral d)
        | none => matched
      escaped.write ")"
  | .function name args => (renderList d ((st.write name).write "(") args).write ")"
  | .functionOfAll name => (((st.write name).write "(").write "*").write ")"
  | .position needle haystack =>
      (haystack.render d ((needle.render d (st.write "POSITION(")).write " IN ")).write ")"
  | .extract field e =>
      (e.render d (((st.write "EXTRACT(").write field.word).write " FROM ")).write ")"
  | .cast e type =>
      (((e.render d (st.write "CAST(")).write " AS ").write (type.sqlName d)).write ")"
  | .now => st.write "CURRENT_TIMESTAMP"
  | .hasRows query => (query.render d (st.write "EXISTS (")).write ")"
  | .scalar query => (query.render d (st.write "(")).write ")"
  | .wildcard qualifier => st.writeQualified d qualifier "*"

/-- Writes expressions with commas between them, each by `Expr.render`. -/
def renderList (d : Dialect) (st : Statement) : List Expr → Statement
  | [] => st
  | [e] => e.render d st
  | e :: es => renderList d ((e.render d st).write ", ") es

/-- Writes a query behind the statement `st`: its columns, its table, its joins and its
condition. -/
def Select.render (d : Dialect) (st : Statement) : Select → Statement
  | .mk columns source joins condition =>
      let chosen := renderList d (st.write "SELECT ") columns
      let sourced := match source with
        | some (table, label) => ((chosen.write " ").write "FROM ").writeTable d table label
        | none => chosen
      let joined := renderJoins d sourced joins
      match condition with
      | some e => e.render d (joined.write " WHERE ")
      | none => joined

def renderJoins (d : Dialect) (st : Statement) : List Join → Statement
  | [] => st
  | .mk table label on :: joins =>
      let named := ((st.write " ").write "INNER JOIN ").writeTable d table label
      renderJoins d (on.render d (named.write " ON ")) joins

end

/-! ## Values

The values that a tree binds are read off the tree itself. They are the middle between rendering
with placeholders and rendering with literals. -/

mutual

/-- The values that an expression binds, read off in the order of its parts. -/
def Expr.bound : Expr → List Value
  | .column .. | .constant _ | .functionOfAll _ | .now | .wildcard _ => []
  | .parameter v => [v]
  | .binary left _ right => left.bound ++ right.bound
  | .not e | .isNull e | .isNotNull e | .extract _ e | .cast e _ => e.bound
  | .like e pattern _ => e.bound ++ pattern.bound
  | .function _ args => listBound args
  | .position needle haystack => needle.bound ++ haystack.bound
  | .hasRows query | .scalar query => query.bound

def listBound : List Expr → List Value
  | [] => []
  | e :: es => e.bound ++ listBound es

/-- The values that a query binds: those of its columns, of its joins and of its condition. -/
def Select.bound : Select → List Value
  | .mk columns _ joins condition =>
      listBound columns ++ joinsBound joins ++
      match condition with
      | some e => e.bound
      | none => []

def joinsBound : List Join → List Value
  | [] => []
  | .mk _ _ on :: joins => on.bound ++ joinsBound joins

end

mutual

/-- The expression with a `constant` for each `parameter`, so that it binds nothing. -/
def Expr.inlined : Expr → Expr
  | .parameter v => .constant v
  | .binary left op right => .binary left.inlined op right.inlined
  | .not e => .not e.inlined
  | .isNull e => .isNull e.inlined
  | .isNotNull e => .isNotNull e.inlined
  | .like e pattern escape => .like e.inlined pattern.inlined escape
  | .function name args => .function name (listInlined args)
  | .position needle haystack => .position needle.inlined haystack.inlined
  | .extract field e => .extract field e.inlined
  | .cast e type => .cast e.inlined type
  | .hasRows query => .hasRows query.inlined
  | .scalar query => .scalar query.inlined
  | e => e

def listInlined : List Expr → List Expr
  | [] => []
  | e :: es => e.inlined :: listInlined es

/-- The query with a `constant` for each `parameter`. -/
def Select.inlined : Select → Select
  | .mk columns source joins condition =>
      .mk (listInlined columns) source (joinsInlined joins)
        (match condition with
        | some e => some e.inlined
        | none => none)

def joinsInlined : List Join → List Join
  | [] => []
  | .mk table label on :: joins => .mk table label on.inlined :: joinsInlined joins

end

/-! ## Pieces

Rendering from any state adds the pieces of the tree to it. The three facts that the induction
carries are the fields of `Rendered`. -/

namespace Statement

/-- Adds a piece: a `text` as it is, and a `parameter` by binding its value. -/
def add (d : Dialect) (st : Statement) : Piece → Statement
  | .text s => st.write s
  | .parameter v => st.bind d v

/-- Adds pieces one after the other, each by `add`. -/
def addAll (d : Dialect) (st : Statement) (ps : List Piece) : Statement :=
  ps.foldl (add d) st

variable {d : Dialect} {st : Statement}

@[simp] theorem addAll_nil : st.addAll d [] = st := rfl

@[simp] theorem addAll_text {s : String} {ps : List Piece} :
    st.addAll d (.text s :: ps) = (st.write s).addAll d ps := rfl

@[simp] theorem addAll_parameter {v : Value} {ps : List Piece} :
    st.addAll d (.parameter v :: ps) = (st.bind d v).addAll d ps := rfl

@[simp] theorem addAll_append {ps qs : List Piece} :
    st.addAll d (ps ++ qs) = (st.addAll d ps).addAll d qs :=
  List.foldl_append

@[simp] theorem write_write {s t : String} : (st.write s).write t = st.write (s ++ t) := by
  simp [write, String.append_assoc]

theorem writeQualified_eq {qualifier : Option String} {name : String} :
    st.writeQualified d qualifier name = st.addAll d (qualifiedPieces qualifier name d) := by
  cases qualifier <;> simp [writeQualified, qualifiedPieces, String.append_assoc]

theorem writeTable_eq {table : TableName} {label : Option String} :
    st.writeTable d table label = st.addAll d (tablePieces d table label) := by
  cases label <;> simp [writeTable, tablePieces, writeQualified_eq]

/-- `addAll` writes the pieces behind the statement, with placeholders that count on from its
parameters. -/
theorem addAll_eq (ps : List Piece) (st : Statement) :
    st.addAll d ps = ⟨st.sql ++ String.join (joinText d st.params.length ps),
      st.params ++ parameters ps⟩ := by
  induction ps generalizing st with
  | nil => simp [joinText, parameters]
  | cons p ps ih =>
      cases p <;> simp [ih, write, bind, joinText, parameters, String.append_assoc]

/-- From the empty state, `addAll` makes the statement that `Statement.ofPieces` makes. -/
theorem addAll_empty (ps : List Piece) : Statement.empty.addAll d ps = .ofPieces d ps := by
  simp [addAll_eq, empty, ofPieces]

end Statement

/-- The piece with the text of a literal for a `parameter`. -/
def Piece.inlined (d : Dialect) : Piece → Piece
  | .text s => .text s
  | .parameter v => .text (v.sqlLiteral d)

@[simp] theorem Piece.inlined_text {d : Dialect} {s : String} :
    (Piece.text s).inlined d = .text s := rfl

@[simp] theorem Piece.inlined_parameter {d : Dialect} {v : Value} :
    (Piece.parameter v).inlined d = .text (v.sqlLiteral d) := rfl

theorem qualifiedPieces_inlined {d : Dialect} {qualifier : Option String} {name : String} :
    (qualifiedPieces qualifier name d).map (Piece.inlined d) =
      qualifiedPieces qualifier name d := by
  cases qualifier <;> rfl

theorem qualifiedPieces_parameters {d : Dialect} {qualifier : Option String} {name : String} :
    parameters (qualifiedPieces qualifier name d) = [] := by
  cases qualifier <;> rfl

theorem tablePieces_inlined {d : Dialect} {table : TableName} {label : Option String} :
    (tablePieces d table label).map (Piece.inlined d) = tablePieces d table label := by
  cases label <;> simp [tablePieces, qualifiedPieces_inlined]

theorem tablePieces_parameters {d : Dialect} {table : TableName} {label : Option String} :
    parameters (tablePieces d table label) = [] := by
  cases label <;> simp [tablePieces, qualifiedPieces_parameters, parameters_append, parameters]

/-- `render` adds `pieces` to any state; they bind `values`, and `inlined` is what they look like
with literals in the place of parameters. -/
structure Rendered (d : Dialect) (render : Statement → Statement) (values : List Value)
    (pieces inlined : List Piece) : Prop where
  steps : ∀ st, render st = st.addAll d pieces
  bound : parameters pieces = values
  inlined : inlined = pieces.map (Piece.inlined d)

abbrev Expr.Rendered (d : Dialect) (e : Expr) : Prop :=
  Sql.Rendered d (e.render d) e.bound (e.pieces d) (e.inlined.pieces d)

variable {d : Dialect}

theorem list_rendered {es : List Expr} (h : ∀ e ∈ es, e.Rendered d) :
    Rendered d (renderList d · es) (listBound es) (listPieces d es)
      (listPieces d (listInlined es)) := by
  induction es with
  | nil => exact ⟨fun _ => rfl, rfl, rfl⟩
  | cons e es ih =>
      have hfirst := h e List.mem_cons_self
      have hrest := ih fun e he => h e (List.mem_cons_of_mem _ he)
      cases es with
      | nil => simpa [renderList, listBound, listPieces, listInlined] using hfirst
      | cons next es =>
          constructor
          · simp [renderList, listPieces, hfirst.steps, hrest.steps]
          · simp [listBound, listPieces, parameters_append, parameters, hfirst.bound, hrest.bound]
          · have := hrest.inlined
            simp_all [listInlined, listPieces, hfirst.inlined]

theorem joins_rendered {joins : List Join} (h : ∀ join ∈ joins, join.on.Rendered d) :
    Rendered d (renderJoins d · joins) (joinsBound joins) (joinPieces d joins)
      (joinPieces d (joinsInlined joins)) := by
  induction joins with
  | nil => exact ⟨fun _ => rfl, rfl, rfl⟩
  | cons join joins ih =>
      obtain ⟨table, label, on⟩ := join
      have hon : on.Rendered d := h _ List.mem_cons_self
      have hrest := ih fun join hjoin => h join (List.mem_cons_of_mem _ hjoin)
      constructor
      · simp [renderJoins, joinPieces, Statement.writeTable_eq, hon.steps, hrest.steps]
      · simp [joinsBound, joinPieces, parameters_append, parameters, tablePieces_parameters,
          hon.bound, hrest.bound]
      · simp [joinsInlined, joinPieces, tablePieces_inlined, hon.inlined, hrest.inlined]

theorem Select.rendered {query : Select} (h : ∀ part ∈ query.parts, part.Rendered d) :
    Rendered d (query.render d) query.bound (query.pieces d) (query.inlined.pieces d) := by
  obtain ⟨columns, source, joins, condition⟩ := query
  simp only [Select.parts, List.mem_append, List.mem_map, Option.mem_toList] at h
  have hcolumns := list_rendered fun e he => h e (.inl (.inl he))
  have hjoins := joins_rendered fun join hjoin => h join.on (.inl (.inr ⟨join, hjoin, rfl⟩))
  cases condition with
  | none =>
      constructor
      · cases source <;>
          simp [Select.render, Select.pieces, Statement.writeTable_eq, hcolumns.steps, hjoins.steps]
      · cases source <;>
          simp [Select.bound, Select.pieces, parameters_append, parameters, tablePieces_parameters,
            hcolumns.bound, hjoins.bound]
      · cases source <;>
          simp [Select.inlined, Select.pieces, tablePieces_inlined, hcolumns.inlined,
            hjoins.inlined]
  | some e =>
      have he := h e (.inr rfl)
      constructor
      · cases source <;>
          simp [Select.render, Select.pieces, Statement.writeTable_eq, hcolumns.steps,
            hjoins.steps, he.steps]
      · cases source <;>
          simp [Select.bound, Select.pieces, parameters_append, parameters, tablePieces_parameters,
            hcolumns.bound, hjoins.bound, he.bound]
      · cases source <;>
          simp [Select.inlined, Select.pieces, tablePieces_inlined, hcolumns.inlined,
            hjoins.inlined, he.inlined]

theorem Expr.rendered (d : Dialect) (e : Expr) : e.Rendered d := by
  induction e using Expr.induction with
  | step e ih =>
      -- Expressions that are put together alike are proved alike: by one part, by two, or by a
      -- list.
      cases e with
      | column | wildcard =>
          exact ⟨fun _ => Statement.writeQualified_eq, qualifiedPieces_parameters,
            qualifiedPieces_inlined.symm⟩
      | parameter | constant | now => exact ⟨fun _ => rfl, rfl, rfl⟩
      | functionOfAll name =>
          exact ⟨fun _ => by simp [Expr.render, Expr.pieces, String.append_assoc], rfl, rfl⟩
      | not e | isNull e | isNotNull e | extract field e | cast e type =>
          have he := ih e (by simp [Expr.parts])
          constructor
          · simp [Expr.render, Expr.pieces, he.steps]
          · simp [Expr.bound, Expr.pieces, parameters_append, parameters, he.bound]
          · simp [Expr.inlined, Expr.pieces, he.inlined]
      | binary left op right | position left right =>
          have hleft := ih left (by simp [Expr.parts])
          have hright := ih right (by simp [Expr.parts])
          constructor
          · simp [Expr.render, Expr.pieces, hleft.steps, hright.steps]
          · simp [Expr.bound, Expr.pieces, parameters_append, parameters, hleft.bound, hright.bound]
          · simp [Expr.inlined, Expr.pieces, hleft.inlined, hright.inlined]
      | like e pattern escape =>
          have he := ih e (by simp [Expr.parts])
          have hpattern := ih pattern (by simp [Expr.parts])
          constructor
          · cases escape <;> simp [Expr.render, Expr.pieces, he.steps, hpattern.steps,
              String.append_assoc]
          · cases escape <;>
              simp [Expr.bound, Expr.pieces, parameters_append, parameters, he.bound,
                hpattern.bound]
          · cases escape <;> simp [Expr.inlined, Expr.pieces, he.inlined, hpattern.inlined]
      | function name args =>
          have hargs : Sql.Rendered d (renderList d · args) _ _ _ := list_rendered ih
          constructor
          · simp [Expr.render, Expr.pieces, hargs.steps]
          · simp [Expr.bound, Expr.pieces, parameters_append, parameters, hargs.bound]
          · simp [Expr.inlined, Expr.pieces, hargs.inlined]
      | hasRows query | scalar query =>
          have hquery : Sql.Rendered d (query.render d) _ _ _ := Select.rendered ih
          constructor
          · simp [Expr.render, Expr.pieces, hquery.steps]
          · simp [Expr.bound, Expr.pieces, parameters_append, parameters, hquery.bound]
          · simp [Expr.inlined, Expr.pieces, hquery.inlined]

/-! ## Gaps

A text with placeholders is cut into what stands between them. -/

end FilterSql.Sql
