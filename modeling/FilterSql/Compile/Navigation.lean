import FilterSql.Compile.Context
import FilterSql.Sql.Basic

/-!
# Navigation

A row of hops becomes queries in one another, one for each hop. `Hop.query` ranges over the rows
that the hop leads to and keeps those that are joined with the row of the level above; the first
one is joined with the level that the path starts from, wherever that is. What is asked of the rows
behind the last hop is a `Question`, which stands in the innermost query. `Hop.ask` asks it.
-/

namespace FilterSql

open Sql (Expr Select)

namespace Hop

def joinColumns (h : Hop) : List JoinColumn :=
  match h.kind with
  | .association a => a.joinColumns
  | .collection columns => columns

def linkTable? (h : Hop) : Option LinkTable :=
  match h.kind with
  | .association a => a.linkTable
  | .collection _ => none

/-- The condition of a join: its equations, of which there has to be one. -/
def joinCondition (columns : List JoinColumn) (equation : JoinColumn → Expr) :
    Except FilterError Expr :=
  match Expr.conjunction? (columns.map equation) with
  | some e => .ok e
  | none => .error (.defect .noJoinColumns)

/-- The query of the rows that `h` leads to, under the alias `own`, from a row with the alias
`source`. A link table has the alias that comes next. -/
def query (h : Hop) (columns : List Expr) (source own : String) : Numbered Select := do
  let rows := Select.ofTable columns h.target.table (some own)
  let left (column : String) : Expr := .qualified source (h.columnLead ++ column)
  match h.linkTable? with
  | none =>
      let e ← joinCondition h.joinColumns fun j =>
        (Expr.qualified own j.target).equal (left j.source)
      return rows.filter e
  | some link =>
      let through := tableAlias (← Numbered.fresh)
      let on ← joinCondition link.columns fun j =>
        (Expr.qualified through j.source).equal (.qualified own j.target)
      let e ← joinCondition h.joinColumns fun j =>
        (Expr.qualified through j.target).equal (left j.source)
      return (rows.join link.table (some through) on).filter e

/-- What is asked of the rows behind the last hop, from a level on which the row with an alias
stands. -/
abbrev Question := Context → String → Hop → Numbered Expr

/-- Asks whether there is a row, for which a `condition` may be given. That is compiled on the
level of these rows, which has the binding given. -/
def someRow (binding : Binding) (condition : Context → Numbered (Option Expr)) : Question :=
  fun c source h => do
    let inner ← c.extend h.target binding
    let rows ← h.query [.constant (.int 1)] source inner.level.label
    match ← condition inner with
    | some e => return .hasRows (rows.filter e)
    | none => return .hasRows rows

/-- Asks how many rows there are. -/
def countRows : Question :=
  fun c source h => do
    let inner ← c.extend h.target (.navigation none)
    return .scalar (← h.query [.countAll] source inner.level.label)

/-- Asks whether there is an element. With the `name` of a variable it is one for which a body
holds, which is compiled under that variable; without one there is no body to compile. -/
def anyElement (name : Option String) (body : Context → Numbered Expr) : Question :=
  match name with
  | some name => someRow (.element name) fun inner => do return some (← body inner)
  | none => someRow (.navigation none) fun _ => return none

/-- The queries of hops in one another, from the row with the alias `source`. The `question` is the
innermost of them. -/
def levels (question : Question) (c : Context) (source : String) : List Hop → Numbered Expr
  | [] => throw (.defect .hopsEnded)
  | [h] => question c source h
  | h :: next :: rest =>
      someRow (.navigation none)
        (fun inner => do return some (← levels question inner inner.level.label (next :: rest)))
        c source h

/-- Asks the `question` of the rows that the hops lead to from the row with the alias `source`. -/
def ask (question : Question) (c : Context) (source : String) (hops : List Hop) : Numbered Expr :=
  match hops with
  | [] => throw (.defect .noHop)
  | h :: rest => levels question c source (h :: rest)

section

variable {question : Question} {c : Context} {source : String} {h next : Hop} {rest : List Hop}

theorem ask_singleton : ask question c source [h] = question c source h := rfl

/-- A question behind more hops than one is asked in a query of the first. -/
theorem ask_cons_cons : ask question c source (h :: next :: rest) =
    someRow (.navigation none)
      (fun inner => do return some (← ask question inner inner.level.label (next :: rest)))
      c source h := rfl

end

end Hop

end FilterSql
