import FilterSql.Proofs.Sql.Standard
import FilterSql.Proofs.Sql.Tokens

/-!
# Trees spelled out

`Expr.tokens` is a tree as a row of tokens. It is spelled as the pieces of the tree are written
(`Expr.spells`), so it has the text and the bound values of the tree. If the tree is `Legible`,
which says that functions and types have names that are words, its row is separated
(`Expr.Legible.separated`), and `Token.eq_of_spelled` applies.
-/

namespace FilterSql.Sql

open Sql.Token (mark word)

/-! ## Tokens of a tree

These follow `Expr.pieces` and `Select.pieces`, with a token for each name, keyword and mark. -/

/-- A name behind its qualifier and a point, if it has a qualifier. -/
def qualifiedTokens (qualifier : Option String) (last : Token) : List Token :=
  match qualifier with
  | some q => [.name q, mark '.', last]
  | none => [last]

def tableTokens (table : TableName) (label : Option String) : List Token :=
  qualifiedTokens table.schema (.name table.name) ++
    match label with
    | some a => [mark ' ', word "AS", mark ' ', .name a]
    | none => []

/-- What a query says behind its columns: the table after `FROM`, if it has one. -/
def sourceTokens : Option (TableName × Option String) → List Token
  | some (table, label) => mark ' ' :: word "FROM" :: mark ' ' :: tableTokens table label
  | none => []

def constantToken (d : Dialect) : Value → Token
  | .string s => .literal s
  | v => word (v.sqlLiteral d)

def Operator.tokens : Operator → List Token
  | .compare op => (comparisonSign op).toList.map mark
  | .and => [word "AND"]
  | .or => [word "OR"]
  | .arith op => (arithmeticSign op).toList.map mark

mutual

/-- The tokens of an expression. -/
def Expr.tokens (d : Dialect) : Expr → List Token
  | .column qualifier name => qualifiedTokens qualifier (.name name)
  | .parameter v => [.parameter v]
  | .constant v => [constantToken d v]
  | .binary left op right =>
      mark '(' :: left.tokens d ++ mark ' ' :: op.tokens ++ mark ' ' :: right.tokens d ++ [mark ')']
  | .not e => word "NOT" :: mark ' ' :: mark '(' :: e.tokens d ++ [mark ')']
  | .isNull e => mark '(' :: e.tokens d ++ [mark ' ', word "IS", mark ' ', word "NULL", mark ')']
  | .isNotNull e =>
      mark '(' :: e.tokens d ++ [mark ' ', word "IS", mark ' ', word "NOT", mark ' ',
        word "NULL", mark ')']
  | .like e pattern escape =>
      mark '(' :: e.tokens d ++ mark ' ' :: word "LIKE" :: mark ' ' :: pattern.tokens d ++
        match escape with
        | some c => [mark ' ', word "ESCAPE", mark ' ', .literal c.toString, mark ')']
        | none => [mark ')']
  | .function name args => word name :: mark '(' :: listTokens d args ++ [mark ')']
  | .functionOfAll name => [word name, mark '(', mark '*', mark ')']
  | .position needle haystack =>
      word "POSITION" :: mark '(' :: needle.tokens d ++ mark ' ' :: word "IN" :: mark ' ' ::
        haystack.tokens d ++
        [mark ')']
  | .extract field e =>
      word "EXTRACT" :: mark '(' :: word field.word :: mark ' ' :: word "FROM" :: mark ' ' ::
        e.tokens d ++ [mark ')']
  | .cast e type =>
      word "CAST" :: mark '(' :: e.tokens d ++
        [mark ' ', word "AS", mark ' ', word (type.sqlName d), mark ')']
  | .now => [word "CURRENT_TIMESTAMP"]
  | .hasRows query => word "EXISTS" :: mark ' ' :: mark '(' :: query.tokens d ++ [mark ')']
  | .scalar query => mark '(' :: query.tokens d ++ [mark ')']
  | .wildcard qualifier => qualifiedTokens qualifier (mark '*')

def listTokens (d : Dialect) : List Expr → List Token
  | [] => []
  | [e] => e.tokens d
  | e :: es => e.tokens d ++ mark ',' :: mark ' ' :: listTokens d es

/-- The tokens of a query. -/
def Select.tokens (d : Dialect) : Select → List Token
  | .mk columns source joins condition =>
      word "SELECT" :: mark ' ' ::
        (listTokens d columns ++ (sourceTokens source ++ (joinTokens d joins ++
        match condition with
        | some e => mark ' ' :: word "WHERE" :: mark ' ' :: e.tokens d
        | none => [])))

def joinTokens (d : Dialect) : List Join → List Token
  | [] => []
  | .mk table label on :: joins =>
      mark ' ' :: word "INNER" :: mark ' ' :: word "JOIN" :: mark ' ' :: tableTokens table label ++
        mark ' ' :: word "ON" :: mark ' ' :: on.tokens d ++ joinTokens d joins

end

/-- The condition of a query behind `WHERE`. -/
def conditionTokens (d : Dialect) : Option Expr → List Token
  | some e => mark ' ' :: word "WHERE" :: mark ' ' :: e.tokens d
  | none => []

theorem Select.tokens_eq (d : Dialect) (columns : List Expr)
    (source : Option (TableName × Option String)) (joins : List Join) (condition : Option Expr) :
    Select.tokens d (.mk columns source joins condition) =
      word "SELECT" :: mark ' ' ::
        (listTokens d columns ++ (sourceTokens source ++ (joinTokens d joins ++
        conditionTokens d condition))) := by
  cases condition <;> rfl

/-- The expressions of a list behind the first, each with its comma. Unlike `listTokens` it needs
no case for the last one. -/
def moreTokens (d : Dialect) : List Expr → List Token
  | [] => []
  | e :: es => mark ',' :: mark ' ' :: (e.tokens d ++ moreTokens d es)

theorem listTokens_cons (d : Dialect) (e : Expr) (es : List Expr) :
    listTokens d (e :: es) = e.tokens d ++ moreTokens d es := by
  induction es generalizing e with
  | nil => simp [listTokens, moreTokens]
  | cons next es ih => simp [listTokens, moreTokens, ih]

theorem length_le_moreTokens (d : Dialect) (es : List Expr) :
    es.length ≤ (moreTokens d es).length := by
  induction es with
  | nil => simp
  | cons e es ih =>
      simp only [moreTokens, List.length_cons, List.length_append]
      omega

theorem length_le_joinTokens (d : Dialect) (joins : List Join) :
    joins.length ≤ (joinTokens d joins).length := by
  induction joins with
  | nil => simp
  | cons join joins ih =>
      obtain ⟨table, label, on⟩ := join
      simp only [joinTokens, List.length_cons, List.length_append]
      omega

/-! ## Pieces

Keywords are written in one piece with the blanks around them and spelled in several tokens, so
pieces and tokens do not correspond one to one. What both add to a statement is the same. -/

namespace Token

/-- Writing the pieces `ps` and spelling the tokens `ts` have the same effect on each statement. -/
def Spells (d : Dialect) (ps : List Piece) (ts : List Token) : Prop :=
  ∀ st : Statement, st.addAll d ps = st.addAll d (ts.map (piece d))

end Token

variable {d : Dialect}

theorem qualified_spells {qualifier : Option String} {name : String} {last : Token}
    (h : last.piece d = .text name) :
    Token.Spells d (qualifiedPieces qualifier name d) (qualifiedTokens qualifier last) := by
  intro st
  cases qualifier <;> simp [qualifiedPieces, qualifiedTokens, h, String.append_assoc]

theorem table_spells {table : TableName} {label : Option String} :
    Token.Spells d (tablePieces d table label) (tableTokens table label) := by
  have hname : Token.Spells d (qualifiedPieces table.schema (d.identifier table.name) d)
      (qualifiedTokens table.schema (.name table.name)) := qualified_spells rfl
  intro st
  cases label <;> simp [tablePieces, tableTokens, hname _]

theorem list_spells {es : List Expr} (h : ∀ e ∈ es, Token.Spells d (e.pieces d) (e.tokens d)) :
    Token.Spells d (listPieces d es) (listTokens d es) := by
  induction es with
  | nil => exact fun _ => rfl
  | cons e es ih =>
      have hfirst := h e List.mem_cons_self
      have hrest := ih fun e he => h e (List.mem_cons_of_mem _ he)
      cases es with
      | nil => exact hfirst
      | cons next es =>
          intro st
          simp [listPieces, listTokens, hfirst _, hrest _]

theorem joins_spells {joins : List Join}
    (h : ∀ join ∈ joins, Token.Spells d (join.on.pieces d) (join.on.tokens d)) :
    Token.Spells d (joinPieces d joins) (joinTokens d joins) := by
  induction joins with
  | nil => exact fun _ => rfl
  | cons join joins ih =>
      obtain ⟨table, label, on⟩ := join
      have hon : Token.Spells d (on.pieces d) (on.tokens d) := h _ List.mem_cons_self
      have hrest := ih fun join hjoin => h join (List.mem_cons_of_mem _ hjoin)
      intro st
      simp [joinPieces, joinTokens, table_spells _, hon _, hrest _]

theorem Select.spells {query : Select}
    (h : ∀ part ∈ query.parts, Token.Spells d (part.pieces d) (part.tokens d)) :
    Token.Spells d (query.pieces d) (query.tokens d) := by
  obtain ⟨columns, source, joins, condition⟩ := query
  simp only [Select.parts, List.mem_append, List.mem_map, Option.mem_toList] at h
  have hcolumns := list_spells fun e he => h e (.inl (.inl he))
  have hjoins := joins_spells fun join hjoin => h join.on (.inl (.inr ⟨join, hjoin, rfl⟩))
  intro st
  cases condition with
  | none =>
      cases source <;> simp [Select.pieces, Select.tokens, sourceTokens, hcolumns _, hjoins _,
        table_spells _]
  | some e =>
      have he := h e (.inr rfl)
      cases source <;> simp [Select.pieces, Select.tokens, sourceTokens, hcolumns _, hjoins _,
        table_spells _, he _]

theorem Operator.spells (op : Operator) (st : Statement) :
    (st.write " ").addAll d (op.tokens.map (Token.piece d)) = st.write (" " ++ op.sign) := by
  rcases op with (_ | _ | _ | _ | _ | _) | _ | _ | (_ | _ | _ | _ | _) <;>
    simp [Operator.tokens, Operator.sign, comparisonSign, arithmeticSign]

theorem Expr.spells (d : Dialect) (e : Expr) : Token.Spells d (e.pieces d) (e.tokens d) := by
  induction e using Expr.induction with
  | step e ih =>
      intro st
      cases e with
      | column qualifier name => exact qualified_spells rfl st
      | wildcard qualifier => exact qualified_spells rfl st
      | parameter | now => rfl
      | constant v => cases v <;> rfl
      | functionOfAll name => simp [Expr.pieces, Expr.tokens, String.append_assoc]
      | not e | isNull e | isNotNull e | extract field e | cast e type =>
          have he := ih e (by simp [Expr.parts])
          simp [Expr.pieces, Expr.tokens, he _, String.append_assoc]
      | binary left op right =>
          have hleft := ih left (by simp [Expr.parts])
          have hright := ih right (by simp [Expr.parts])
          simp [Expr.pieces, Expr.tokens, hleft _, hright _, op.spells, String.append_assoc]
      | position left right =>
          have hleft := ih left (by simp [Expr.parts])
          have hright := ih right (by simp [Expr.parts])
          simp [Expr.pieces, Expr.tokens, hleft _, hright _]
      | like e pattern escape =>
          have he := ih e (by simp [Expr.parts])
          have hpattern := ih pattern (by simp [Expr.parts])
          cases escape <;> simp [Expr.pieces, Expr.tokens, he _, hpattern _, String.append_assoc]
      | function name args =>
          have hargs : Token.Spells d (listPieces d args) (listTokens d args) := list_spells ih
          simp [Expr.pieces, Expr.tokens, hargs _]
      | hasRows query | scalar query =>
          have hquery : Token.Spells d (query.pieces d) (query.tokens d) := Select.spells ih
          simp [Expr.pieces, Expr.tokens, hquery _]

/-! ## Legible trees

Names of functions are written without quotation marks, so they have to be words. -/

/-- What `e` adds to its parts is legible: names of functions are words, constants and types are
standard ones, and a star stands in calls only. -/
def Expr.Plain : Expr → Prop
  | .constant v => v ∈ standardConstants
  | .function name _ | .functionOfAll name => IsWord name
  | .cast _ type => type ∈ castTypes
  | .wildcard _ => False
  | _ => True

/-- The expression and all expressions in it, at any depth, are `Plain`. -/
inductive Expr.Legible : Expr → Prop where
  | of_parts {e : Expr} (hplain : e.Plain) (hparts : ∀ part ∈ e.parts, part.Legible) : e.Legible

theorem Expr.Legible.plain {e : Expr} (h : e.Legible) : e.Plain := by
  cases h with
  | of_parts hplain => exact hplain

theorem Expr.Legible.parts {e : Expr} (h : e.Legible) : ∀ part ∈ e.parts, part.Legible := by
  cases h with
  | of_parts _ hparts => exact hparts

open Sql.Token (Separated Marked)

theorem separated_qualified (qualifier : Option String) (name : String) :
    Separated (qualifiedTokens qualifier (.name name)) := by
  cases qualifier <;> simp +decide [qualifiedTokens, Token.Valid]

theorem separated_table {table : TableName} {label : Option String} :
    Separated (tableTokens table label) := by
  have hname := separated_qualified table.schema table.name
  cases label <;> simp +decide [tableTokens, hname, Token.Valid]

theorem separated_list {es : List Expr} (h : ∀ e ∈ es, Separated (e.tokens d)) :
    Separated (listTokens d es) := by
  induction es with
  | nil => trivial
  | cons e es ih =>
      have hfirst := h e List.mem_cons_self
      have hrest := ih fun e he => h e (List.mem_cons_of_mem _ he)
      cases es with
      | nil => exact hfirst
      | cons next es => simp +decide [listTokens, hfirst, hrest]

theorem marked_joins {joins : List Join} : Marked (joinTokens d joins) := by
  cases joins with
  | nil => simp [joinTokens, Marked]
  | cons join joins =>
      obtain ⟨table, label, on⟩ := join
      exact Token.marked_mark

theorem separated_joins {joins : List Join} (h : ∀ join ∈ joins, Separated (join.on.tokens d)) :
    Separated (joinTokens d joins) := by
  induction joins with
  | nil => trivial
  | cons join joins ih =>
      obtain ⟨table, label, on⟩ := join
      have hon : Separated (on.tokens d) := h _ List.mem_cons_self
      have hrest := ih fun join hjoin => h join (List.mem_cons_of_mem _ hjoin)
      have hbehind := hon.append hrest marked_joins
      simp +decide [joinTokens, separated_table, hbehind, Token.Valid]

theorem Select.separated {query : Select} (h : ∀ part ∈ query.parts, Separated (part.tokens d)) :
    Separated (query.tokens d) := by
  obtain ⟨columns, source, joins, condition⟩ := query
  simp only [Select.parts, List.mem_append, List.mem_map, Option.mem_toList] at h
  have hcolumns := separated_list fun e he => h e (.inl (.inl he))
  have hjoins := separated_joins fun join hjoin => h join.on (.inl (.inr ⟨join, hjoin, rfl⟩))
  have hsource : Separated (sourceTokens source) ∧ Marked (sourceTokens source) := by
    cases source with
    | none => simp [sourceTokens, Marked]
    | some source =>
        refine ⟨?_, Token.marked_mark⟩
        simp +decide [sourceTokens, separated_table, Token.Valid]
  have hcondition : Separated (conditionTokens d condition) ∧
    Marked (conditionTokens d condition) := by
    cases condition with
    | none => simp [conditionTokens, Marked]
    | some e =>
        have he := h e (.inr rfl)
        refine ⟨?_, Token.marked_mark⟩
        simp +decide [conditionTokens, he, Token.Valid]
  -- The clauses behind the columns start with a blank, as far as they are there.
  have hjoined := hjoins.append hcondition.1 hcondition.2
  have hfrom := hsource.1.append hjoined (marked_joins.append hcondition.2)
  have hall := hcolumns.append hfrom (hsource.2.append (marked_joins.append hcondition.2))
  rw [Select.tokens_eq]
  simp +decide [hall, Token.Valid]

theorem Operator.separated (op : Operator) : Separated op.tokens := by
  rcases op with (_ | _ | _ | _ | _ | _) | _ | _ | (_ | _ | _ | _ | _) <;>
    simp +decide [Operator.tokens, comparisonSign, arithmeticSign, Token.Valid]

theorem Expr.Legible.separated {e : Expr} (h : e.Legible) : Separated (e.tokens d) := by
  -- Behind each part of an expression stands a mark, so it does not matter with what the part ends.
  induction h with
  | @of_parts e hplain hparts ih =>
      cases e with
      | column qualifier name => exact separated_qualified qualifier name
      | wildcard qualifier => exact hplain.elim
      | parameter | now => simp +decide [Expr.tokens, Token.Valid]
      | constant v =>
          simp only [Expr.Plain, standardConstants, List.mem_cons, List.not_mem_nil, or_false]
            at hplain
          rcases hplain with rfl | rfl | rfl <;> cases d <;>
            simp +decide [Expr.tokens, constantToken, Token.Valid, Value.sqlLiteral, Value.literal]
      | functionOfAll name =>
          have hname : IsWord name := hplain
          simp +decide [Expr.tokens, hname, Token.Valid]
      | not e | isNull e | isNotNull e =>
          have he := ih e (by simp [Expr.parts])
          simp +decide [Expr.tokens, he, Token.Valid]
      | extract field e =>
          have he := ih e (by simp [Expr.parts])
          cases field <;> simp +decide [Expr.tokens, he, Token.Valid, DateField.word]
      | cast e type =>
          have he := ih e (by simp [Expr.parts])
          simp only [Expr.Plain, castTypes, List.mem_cons, List.not_mem_nil, or_false] at hplain
          rcases hplain with rfl | rfl | rfl <;> cases d <;>
            simp +decide [Expr.tokens, he, Token.Valid, DataType.sqlName]
      | binary left op right =>
          have hleft := ih left (by simp [Expr.parts])
          have hright := ih right (by simp [Expr.parts])
          simp +decide [Expr.tokens, hleft, hright, op.separated]
      | position left right =>
          have hleft := ih left (by simp [Expr.parts])
          have hright := ih right (by simp [Expr.parts])
          simp +decide [Expr.tokens, hleft, hright, Token.Valid]
      | like e pattern escape =>
          have he := ih e (by simp [Expr.parts])
          have hpattern := ih pattern (by simp [Expr.parts])
          cases escape <;> simp +decide [Expr.tokens, he, hpattern, Token.Valid]
      | function name args =>
          have hargs : Separated (listTokens d args) := separated_list ih
          have hname : IsWord name := hplain
          simp +decide [Expr.tokens, hargs, hname, Token.Valid]
      | hasRows query | scalar query =>
          have hquery : Separated (query.tokens d) := Select.separated ih
          simp +decide [Expr.tokens, hquery, Token.Valid]

end FilterSql.Sql
