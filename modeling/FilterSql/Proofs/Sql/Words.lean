import FilterSql.Proofs.Sql.Parts

/-!
# The words of a tree

`Expr.words` is what an expression says beside its bound values: names, aliases and constants in
order, with a word for each query and each join. The aliases that it declares and the numbers of
its queries and joins are read off there. Which aliases a column may have depends on the place:
`Expr.Scoped visible` holds if each column has the alias of a table of a query around it, or one of
the `visible` ones.
-/

namespace FilterSql.Sql

/-! ## Words

The words of a tree are a list, so that what two trees say together is the append of two lists. -/

inductive Word where
  /-- An alias in front of a column or of a star. -/
  | qualifier (label : String)
  | column (name : String)
  | function (name : String)
  | constant (value : Value)
  /-- The character that is declared behind a pattern. -/
  | escape (c : Char)
  /-- The beginning of a query. -/
  | query
  /-- The beginning of a join. -/
  | join
  | table (t : TableName)
  /-- The alias that a query or a join gives to its table. -/
  | label (name : String)
deriving DecidableEq

mutual

/-- The words of an expression, in the order of its text. What is bound to a parameter is none of
them. -/
def Expr.words : Expr → List Word
  | .column qualifier name => qualifier.toList.map .qualifier ++ [.column name]
  | .parameter _ => []
  | .constant v => [.constant v]
  | .binary left _ right => left.words ++ right.words
  | .not e => e.words
  | .isNull e => e.words
  | .isNotNull e => e.words
  | .like e pattern escape => e.words ++ pattern.words ++ escape.toList.map .escape
  | .function name args => .function name :: listWords args
  | .functionOfAll name => [.function name]
  | .position needle haystack => needle.words ++ haystack.words
  | .extract _ e => e.words
  | .cast e _ => e.words
  | .now => []
  | .hasRows query => query.words
  | .scalar query => query.words
  | .wildcard qualifier => qualifier.toList.map .qualifier

def listWords : List Expr → List Word
  | [] => []
  | e :: es => e.words ++ listWords es

/-- The words of a query, in the order of its text. -/
def Select.words : Select → List Word
  | .mk columns source joins condition =>
      .query :: listWords columns ++
      (match source with
        | some (table, label) => .table table :: label.toList.map .label
        | none => []) ++
      joinWords joins ++
      match condition with
      | some e => e.words
      | none => []

def joinWords : List Join → List Word
  | [] => []
  | .mk table label on :: joins =>
      .join :: .table table :: label.toList.map .label ++ on.words ++ joinWords joins

end

/-! ## Declarations and queries

All three are counts and selections of words, so they are additive where `words` is an append. -/

/-- The alias that a word declares, if it declares one. -/
def Word.label? : Word → Option String
  | label name => some name
  | _ => none

/-- The aliases that are declared anywhere in `e`, in order and with repetitions. -/
def Expr.declared (e : Expr) : List String :=
  e.words.filterMap Word.label?

/-- The number of queries that stand in `e`, at any depth. -/
def Expr.queries (e : Expr) : Nat :=
  e.words.count .query

/-- The number of joins that stand in `e`, at any depth. -/
def Expr.joins (e : Expr) : Nat :=
  e.words.count .join

/-! ## Scopes

An alias is seen in the query that declares it and in all queries inside that one. -/

/-- The alias that a join gives to its table. -/
def Join.label? : Join → Option String
  | .mk _ label _ => label

/-- The aliases that the query itself declares: those of its source and of its joins. -/
def Select.labels : Select → List String
  | .mk _ source joins _ => (source.bind (·.2)).toList ++ joins.filterMap Join.label?

mutual

/-- Each column has an alias, and it is one that can be seen where the column stands: a `visible`
one or one declared by a query around it. -/
def Expr.Scoped (visible : List String) : Expr → Prop
  | .column qualifier _ => ∃ label ∈ qualifier, label ∈ visible
  | .parameter _ => True
  | .constant _ => True
  | .binary left _ right => left.Scoped visible ∧ right.Scoped visible
  | .not e => e.Scoped visible
  | .isNull e => e.Scoped visible
  | .isNotNull e => e.Scoped visible
  | .like e pattern _ => e.Scoped visible ∧ pattern.Scoped visible
  | .function _ args => ListScoped visible args
  | .functionOfAll _ => True
  | .position needle haystack => needle.Scoped visible ∧ haystack.Scoped visible
  | .extract _ e => e.Scoped visible
  | .cast e _ => e.Scoped visible
  | .now => True
  | .hasRows query => query.Scoped visible
  | .scalar query => query.Scoped visible
  | .wildcard qualifier => ∃ label ∈ qualifier, label ∈ visible

def ListScoped (visible : List String) : List Expr → Prop
  | [] => True
  | e :: es => e.Scoped visible ∧ ListScoped visible es

/-- Inside a query its own `labels` can be seen as well. -/
def Select.Scoped (visible : List String) : Select → Prop
  | .mk columns source joins condition =>
      let inner := Select.labels (.mk columns source joins condition) ++ visible
      ListScoped inner columns ∧ JoinsScoped inner joins ∧
      match condition with
      | some e => e.Scoped inner
      | none => True

def JoinsScoped (visible : List String) : List Join → Prop
  | [] => True
  | .mk _ _ on :: joins => on.Scoped visible ∧ JoinsScoped visible joins

end

theorem listScoped_iff {visible : List String} {es : List Expr} :
    ListScoped visible es ↔ ∀ e ∈ es, e.Scoped visible := by
  induction es with
  | nil => simp [ListScoped]
  | cons e es ih => simp [ListScoped, ih]

/-! ## Conjunctions

`Expr.conjunction?` adds no words of its own and declares nothing. -/

theorem foldl_and_words (e : Expr) (es : List Expr) :
    (es.foldl Expr.and e).words = (e :: es).flatMap Expr.words := by
  induction es generalizing e with
  | nil => simp
  | cons first rest ih =>
      rw [List.foldl_cons, ih]
      simp [Expr.and, Expr.words]

theorem conjunction?_words {es : List Expr} {e : Expr} (h : Expr.conjunction? es = some e) :
    e.words = es.flatMap Expr.words := by
  cases es with
  | nil => simp [Expr.conjunction?] at h
  | cons first rest =>
      obtain rfl := Option.some.inj h
      exact foldl_and_words first rest

theorem conjunction?_scoped {visible : List String} {es : List Expr} {e : Expr}
    (h : Expr.conjunction? es = some e) (hes : ∀ x ∈ es, x.Scoped visible) : e.Scoped visible :=
  conjunction?_of (fun ha hb => ⟨ha, hb⟩) h hes

end FilterSql.Sql
