import FilterSql.Proofs.Compile.Emission
import FilterSql.Proofs.Sql.Legibility

/-!
# Reading the texts of filters

What filters compile to is legible, provided that the functions of the schema have names that are
words (`Emitted.legible`). So two expressions that come from filters are never written as one text
with one list of values (`Schema.compile_unambiguous`): brackets, negations, patterns, queries and
quoted names are read in one way wherever they stand.
-/

namespace FilterSql

open Sql (Expr Select)

/-! ## Expressions

`Sql.Expr.Legible` asks that names of functions are words, and that constants and types are
standard ones. The compiler adds no others; that the schema declares words is a hypothesis. -/

theorem Schema.functionNames_words {s : Schema} (h : ∀ g ∈ s.functions, Sql.IsWord g.sqlName) :
    ∀ name ∈ s.functionNames, Sql.IsWord name := by
  have hstandard : ∀ name ∈ Sql.standardFunctions, Sql.IsWord name := by decide
  intro name hname
  rcases List.mem_append.mp hname with hname | hname
  · exact hstandard name hname
  · obtain ⟨g, hg, rfl⟩ := List.mem_map.mp hname
    exact h g hg

namespace Sql

theorem Expr.legible_qualified (label name : String) : (Expr.qualified label name).Legible :=
  .of_parts trivial nofun

theorem Expr.legible_binary {l r : Expr} (hl : l.Legible) (op : Operator) (hr : r.Legible) :
    (Expr.binary l op r).Legible :=
  .of_parts trivial (by simp [Expr.parts, hl, hr])

/-- An operator or a function of legible parts is legible. -/
theorem Expr.Alike.legible {functions : List String} {ps : List (Expr × Expr)} {e e' : Expr}
    (hnames : ∀ name ∈ functions, IsWord name) (h : e.Alike functions ps e')
    (hparts : ∀ part ∈ ps, part.1.Legible) : e.Legible := by
  induction h with
  | part e e' => exact hparts _ (List.mem_singleton_self _)
  | parameter | now => exact .of_parts trivial nofun
  | constant hv => exact .of_parts hv nofun
  | binary _ _ _ ihl ihr | position _ _ ihl ihr | like _ _ _ ihl ihr =>
      have hl := ihl fun part hpart => hparts part (List.mem_append_left _ hpart)
      have hr := ihr fun part hpart => hparts part (List.mem_append_right _ hpart)
      exact .of_parts trivial (by simp [Expr.parts, hl, hr])
  | not _ ih | isNull _ ih | isNotNull _ ih | extract _ _ ih =>
      exact .of_parts trivial (by simp [Expr.parts, ih hparts])
  | cast htype _ ih => exact .of_parts htype (by simp [Expr.parts, ih hparts])
  | @function name hname args hargs ih =>
      refine .of_parts (hnames name hname) fun e he => ?_
      obtain ⟨arg, harg, rfl⟩ := List.mem_map.mp he
      exact ih arg harg fun part hpart => hparts part (List.mem_flatMap.mpr ⟨arg, harg, hpart⟩)
  | reorder hperm _ ih => exact ih fun part hpart => hparts part (hperm.mem_iff.mp hpart)

end Sql

/-! ## Queries

A query is legible if its conditions are. Its columns are a constant or a count, and it is never
without a table, so the clauses come in a fixed order. -/

theorem joinCondition_legible {columns : List JoinColumn} {l r : String}
    {left right : JoinColumn → String} {e : Expr} (he : Expr.conjunction? (columns.map fun j =>
      (Expr.qualified l (left j)).equal (.qualified r (right j))) = some e) : e.Legible := by
  apply Sql.conjunction?_of (fun ha hb => Expr.legible_binary ha .and hb) he
  intro x hx
  obtain ⟨j, -, rfl⟩ := List.mem_map.mp hx
  exact Expr.legible_binary (Expr.legible_qualified _ _) _ (Expr.legible_qualified _ _)

/-- The query of a hop is legible, if its columns and what it is narrowed by are. -/
theorem Hop.Selects.selection_legible {h : Hop} {source own : String} {n k : Nat}
    {joins : List Sql.Join} {on : Expr} {columns : List Expr} {narrowed : Option Expr}
    (hs : h.Selects source own n joins on k) (hcolumns : ∀ e ∈ columns, e.Legible)
    (hnarrowed : ∀ x ∈ narrowed, x.Legible) :
    ∀ part ∈ (h.selection columns own joins on narrowed).parts, part.Legible := by
  have hcondition (hon : on.Legible) : (asked on narrowed).Legible := by
    cases narrowed with
    | none => exact hon
    | some x => exact Expr.legible_binary hon .and (hnarrowed x rfl)
  cases hs with
  | direct hlink he =>
      have hasked := hcondition (joinCondition_legible he)
      simpa [selection, Select.parts, or_imp, forall_and, hasked] using hcolumns
  | linked hlink hon he =>
      have hasked := hcondition (joinCondition_legible he)
      have hjoin := joinCondition_legible hon
      simpa [selection, Select.parts, Sql.Join.on, or_imp, forall_and, hasked, hjoin] using hcolumns

/-- What filters are compiled to is legible. -/
theorem Emitted.legible {s : Schema} (hnames : ∀ g ∈ s.functions, Sql.IsWord g.sqlName)
    {c : Context} {ns : List Nat} {e e' : Expr} (h : Emitted s c ns e e') : e.Legible := by
  have hone : (Expr.constant (.int 1)).Legible :=
    .of_parts (by simp [Expr.Plain, Sql.standardConstants]) (by rintro _ ⟨⟩)
  induction h with
  | column => exact Expr.legible_qualified _ _
  | combined parts hform _ ih =>
      apply hform.legible (s.functionNames_words hnames)
      intro pair hpair
      obtain ⟨part, hpart, rfl⟩ := List.mem_map.mp hpair
      exact ih part hpart
  | someRow _ _ hselects _ ih =>
      exact .of_parts trivial (hselects.selection_legible (by simpa using hone) (by simpa using ih))
  | anyRow _ _ hselects =>
      exact .of_parts trivial (hselects.selection_legible (by simpa using hone) (by simp))
  | countRows _ _ hselects =>
      have hcount : Expr.countAll.Legible :=
        .of_parts (by simp +decide [Expr.countAll, Expr.Plain]) (by rintro _ ⟨⟩)
      exact .of_parts trivial (hselects.selection_legible (by simpa using hcount) (by simp))

/-! ## Whole filters

The compiled condition is legible, so the theorem on statements (`Sql.eq_of_statement`) applies to
it. The values of the parameters have to be given as well, as a placeholder does not show them. -/

/-- **Rendering loses no structure.** If the statements of two compiled filters have one text and
one list of values, in either dialect, the two expressions are one. The only assumption is that the
names of functions in the schema are words (`Sql.IsWord`). -/
theorem Schema.compile_unambiguous {s : Schema} (hnames : ∀ g ∈ s.functions, Sql.IsWord g.sqlName)
    {d : Dialect} {entity entity' : String} {f f' : Filter} {e e' : Expr}
    (h : s.compile entity f = .ok e) (h' : s.compile entity' f' = .ok e')
    (htext : (e.statement d).sql = (e'.statement d).sql)
    (hvalues : (e.statement d).params = (e'.statement d).params) : e = e' := by
  obtain ⟨type, m, -, -, hemitted⟩ := compile_emitted rfl h h
  obtain ⟨type', m', -, -, hemitted'⟩ := compile_emitted rfl h' h'
  exact Sql.eq_of_statement (hemitted.legible hnames) (hemitted'.legible hnames) htext hvalues

/-- The sample with a function whose name in SQL is `NOT`. -/
def Schema.sampleDenying : Schema :=
  { sample with functions := [⟨"Denies", "NOT", [⟨"name", .string, none, {}⟩],
    ⟨.primitive, some .boolean, false⟩⟩] }

/-- The function of `sampleDenying`, called on the name that `path` leads to. -/
def Filter.denies (path : Path) : Filter :=
  .member [.function "Denies" [.mk (some "name") (.member path)]]

theorem Schema.unambiguous_denies : ∃ e e', (∀ g ∈ sampleDenying.functions, Sql.IsWord g.sqlName) ∧
    sampleDenying.compile "User" (.denies [.property "Name"]) = .ok e ∧
    sampleDenying.compile "User" (.denies [.property "$it", .property "Name"]) = .ok e' ∧
    (e.statement .mysql).sql = (e'.statement .mysql).sql ∧
    (e.statement .mysql).params = (e'.statement .mysql).params ∧
    e = e' := by
  have hnames : ∀ g ∈ sampleDenying.functions, Sql.IsWord g.sqlName := by decide
  have h : sampleDenying.compile "User" (.denies [.property "Name"]) =
      .ok (.function "NOT" [.qualified "t0" "name"]) := rfl
  have h' : sampleDenying.compile "User" (.denies [.property "$it", .property "Name"]) =
      .ok (.function "NOT" [.qualified "t0" "name"]) := rfl
  exact ⟨_, _, hnames, h, h', rfl, rfl, compile_unambiguous hnames h h' (d := .mysql) rfl rfl⟩

end FilterSql
