import FilterSql.Proofs.Compile.Emission
import FilterSql.Proofs.Sql.Words

/-!
# The vocabulary of compiled filters

Which words there are in an expression follows from how it was built. What an operator or a
function adds is fixed (`Sql.Expr.Alike.words`), and a query adds columns and tables of the schema
under aliases (`Hop.Selects.selection_words`). So a compiled filter has no words but aliases, names
of the schema, and the fixed functions and constants (`Emitted.words_known`).
-/

namespace FilterSql

open Sql (Expr Select Word)

/-! ## Operators and functions

Words are counted up to their order, since a rule may write its parts in another order than it has
them in. `Consists` splits the words into those that the rule adds itself and those of its parts. -/

/-- A word that an operator or a function may add by itself. -/
def Sql.Word.IsFixed (functions : List String) : Word → Prop
  | .function name => name ∈ functions
  | .constant v => v ∈ Sql.standardConstants
  | .escape c => c = Sql.Like.escapeMark
  | .qualifier _ | .column _ | .query | .join | .table _ | .label _ => False

section

variable {functions : List String} {ps qs : List (Expr × Expr)} {e e' : Expr}

/-- The words of the first components of the pairs. -/
def partWords (ps : List (Expr × Expr)) : List Word :=
  ps.flatMap fun part => part.1.words

/-- The words `ws` are fixed ones, and those of the parts `ps`. -/
def Consists (functions : List String) (ps : List (Expr × Expr)) (ws : List Word) : Prop :=
  ∃ own, (∀ w ∈ own, w.IsFixed functions) ∧ ws.Perm (own ++ partWords ps)

namespace Consists

variable {ws ws' : List Word}

theorem fixed {own : List Word} (h : ∀ w ∈ own, w.IsFixed functions) : Consists functions [] own :=
  ⟨own, h, by simp [partWords]⟩

theorem append (h : Consists functions ps ws) (h' : Consists functions qs ws') :
    Consists functions (ps ++ qs) (ws ++ ws') := by
  obtain ⟨own, hown, hperm⟩ := h
  obtain ⟨own', hown', hperm'⟩ := h'
  refine ⟨own ++ own', ?_, ?_⟩
  · intro w hw
    rcases List.mem_append.mp hw with hw | hw
    · exact hown w hw
    · exact hown' w hw
  -- What is fixed on both sides goes to the front.
  have hparts : partWords (ps ++ qs) = partWords ps ++ partWords qs := List.flatMap_append
  rw [hparts, List.append_assoc, ← List.append_assoc own']
  apply (hperm.append hperm').trans
  rw [List.append_assoc, ← List.append_assoc (partWords ps)]
  have hswap : (partWords ps ++ own').Perm (own' ++ partWords ps) := List.perm_append_comm
  exact (hswap.append_right (partWords qs)).append_left own

theorem reorder (hperm : ps.Perm qs) (h : Consists functions ps ws) : Consists functions qs ws := by
  obtain ⟨own, hown, hws⟩ := h
  exact ⟨own, hown, hws.trans ((hperm.flatMap_right _).append_left own)⟩

end Consists

/-- An operator or a function adds fixed words to those of its parts, each of which it uses once. -/
theorem Sql.Expr.Alike.words (h : e.Alike functions ps e') : Consists functions ps e.words := by
  induction h with
  | part e e' => exact ⟨[], by simp, by simp [partWords]⟩
  | parameter | now => exact .fixed (by simp [Expr.words])
  | constant hv => exact .fixed (by simpa [Expr.words, Word.IsFixed] using hv)
  | binary _ _ _ ihl ihr => exact ihl.append ihr
  | position _ _ ihl ihr => exact ihl.append ihr
  | not _ ih | isNull _ ih | isNotNull _ ih | extract _ _ ih | cast _ _ ih => exact ih
  | like hescape _ _ ihe ihp =>
      rename_i escape _ _
      have hfixed : Consists functions [] (escape.toList.map Word.escape) := by
        apply Consists.fixed
        intro w hw
        obtain ⟨c, hc, rfl⟩ := List.mem_map.mp hw
        exact hescape c (by simpa using hc)
      simpa [Expr.words] using (ihe.append ihp).append hfixed
  | @function name hname args hargs ih =>
      have hlist : Consists functions (args.flatMap (·.1)) (Sql.listWords (args.map (·.2.1))) := by
        clear hargs
        induction args with
        | nil => exact .fixed (by simp [Sql.listWords])
        | cons arg rest ihrest =>
            have hfirst := ih arg List.mem_cons_self
            exact hfirst.append (ihrest fun arg harg => ih arg (List.mem_cons_of_mem _ harg))
      have hown : Consists functions [] [.function name] :=
        .fixed (by simpa [Word.IsFixed] using hname)
      exact hown.append hlist
  | reorder hperm _ ih => exact ih.reorder hperm

end

/-! ## Words of the schema

`Sql.Word.Known` lists the vocabulary. Qualifiers and labels are aliases that the compiler numbers;
the names of columns, tables and functions are declared in the schema. -/

/-- A word that is an alias, a name of the schema, or a fixed function or constant. -/
def Sql.Word.Known (s : Schema) : Word → Prop
  | .qualifier name => ∃ n, name = tableAlias n
  | .label name => ∃ n, name = tableAlias n
  | .column name => s.IsColumn name
  | .table t => t ∈ s.tables
  | .function name => name ∈ s.functionNames
  | .constant v => v ∈ Sql.standardConstants
  | .escape c => c = Sql.Like.escapeMark
  | .query | .join => True

theorem Sql.Word.IsFixed.known {s : Schema} {w : Word} (h : w.IsFixed s.functionNames) :
    w.Known s := by
  cases w with
  | function | constant | escape => exact h
  | qualifier | column | query | join | table | label => exact h.elim

/-- The words that a condition of a join may have: aliases in front of columns of the schema. -/
inductive IsReference (s : Schema) : Word → Prop where
  | qualifier (n : Nat) : IsReference s (.qualifier (tableAlias n))
  | column {name : String} (h : s.IsColumn name) : IsReference s (.column name)

theorem IsReference.known {s : Schema} {w : Word} (h : IsReference s w) : w.Known s := by
  cases h with
  | qualifier n => exact ⟨n, rfl⟩
  | column h => exact h

/-! ## Queries

A hop joins on the columns that it declares. A link table takes one more alias, and adds one
join. -/

namespace Hop

variable {s : Schema} {h : Hop} {l n k : Nat} {own : Nat} {joins : List Sql.Join} {on : Expr}

/-- The condition of a join is about columns of the schema. -/
theorem joinCondition_words {columns : List JoinColumn} {left right : JoinColumn → String}
    {l r : Nat} {e : Expr} (hleft : ∀ j ∈ columns, s.IsColumn (left j))
    (hright : ∀ j ∈ columns, s.IsColumn (right j)) (he : Expr.conjunction? (columns.map fun j =>
      (Expr.qualified (tableAlias l) (left j)).equal (.qualified (tableAlias r) (right j))) =
      some e) :
    ∀ w ∈ e.words, IsReference s w := by
  intro w hw
  rw [Sql.conjunction?_words he] at hw
  obtain ⟨equation, hequation, hw⟩ := List.mem_flatMap.mp hw
  obtain ⟨j, hj, rfl⟩ := List.mem_map.mp hequation
  simp only [Expr.equal, Expr.qualified, Expr.words, Option.toList_some, List.map_cons,
    List.map_nil, List.cons_append, List.nil_append, List.mem_cons, List.not_mem_nil,
    or_false] at hw
  rcases hw with rfl | rfl | rfl | rfl
  · exact .qualifier l
  · exact .column (hleft j hj)
  · exact .qualifier r
  · exact .column (hright j hj)

end Hop

namespace Schema

variable {s : Schema} {h : Hop}

theorem hasHop_joinColumns (hh : s.HasHop h) : s.HasJoin h.joinColumns := by
  have hkind := hh.kind
  rw [Hop.joinColumns]
  cases hfound : h.kind with
  | association a =>
      rw [hfound] at hkind
      exact hkind.1
  | collection columns =>
      rw [hfound] at hkind
      exact hkind

theorem hasHop_linkTable {link : LinkTable} (hh : s.HasHop h) (hlink : h.linkTable? = some link) :
    link.table ∈ s.tables ∧ s.HasJoin link.columns := by
  have hkind := hh.kind
  rw [Hop.linkTable?] at hlink
  cases hfound : h.kind with
  | association a =>
      rw [hfound] at hkind hlink
      exact hkind.2 link hlink
  | collection columns => simp [hfound] at hlink

/-- The column that a join leaves from, with the lead of its complex type, is one of the schema. -/
theorem isColumn_left {j : JoinColumn} (hh : s.HasHop h) (hj : j ∈ h.joinColumns) :
    s.IsColumn (h.columnLead ++ j.source) :=
  ⟨h.columnLead, j.source, hh.lead, (hasHop_joinColumns hh j hj).1, rfl⟩

theorem isColumn_right {columns : List JoinColumn} {j : JoinColumn} (hjoin : s.HasJoin columns)
    (hj : j ∈ columns) : s.IsColumn j.source ∧ s.IsColumn j.target :=
  ⟨isColumn_of_mem (hjoin j hj).1, isColumn_of_mem (hjoin j hj).2⟩

end Schema

namespace Hop.Selects

variable {s : Schema} {h : Hop} {l own n k : Nat} {joins : List Sql.Join} {on : Expr}

/-- The condition `on` of the query of a hop is about columns of the schema. -/
theorem on_words (hh : s.HasHop h) (hs : h.Selects (tableAlias l) (tableAlias own) n joins on k) :
    ∀ w ∈ on.words, IsReference s w := by
  cases hs with
  | direct hlink he =>
      exact joinCondition_words
        (fun j hj => (Schema.isColumn_right (Schema.hasHop_joinColumns hh) hj).2)
        (fun j hj => Schema.isColumn_left hh hj) he
  | linked hlink _ he =>
      exact joinCondition_words
        (fun j hj => (Schema.isColumn_right (Schema.hasHop_joinColumns hh) hj).2)
        (fun j hj => Schema.isColumn_left hh hj) he

/-- A link table takes one number, and adds a `join` on columns of the schema. -/
theorem joinWords_eq (hh : s.HasHop h)
    (hs : h.Selects (tableAlias l) (tableAlias own) n joins on k) :
    ∃ (link : Option TableName) (references : List Word), (∀ t ∈ link, t ∈ s.tables) ∧
      k = n + link.toList.length ∧ (∀ w ∈ references, IsReference s w) ∧
      Sql.joinWords joins = link.toList.flatMap (fun t =>
        [.join, .table t, .label (tableAlias n)]) ++ references := by
  cases hs with
  | direct => exact ⟨none, [], by simp, rfl, by simp, rfl⟩
  | @linked link on e hlink hon he =>
      obtain ⟨htable, hcolumns⟩ := Schema.hasHop_linkTable hh hlink
      refine ⟨some link.table, on.words, by simpa using htable, rfl, ?_, by simp [Sql.joinWords]⟩
      exact joinCondition_words
        (fun j hj => (Schema.isColumn_right hcolumns hj).1) (fun j hj =>
          (Schema.isColumn_right hcolumns hj).2) hon

/-- The words of the query of a hop, and behind them those of the condition that narrows it. -/
theorem selection_words (columns : List Expr) (narrowed : Option Expr) (hh : s.HasHop h)
    (hs : h.Selects (tableAlias l) (tableAlias n) (n + 1) joins on k) :
    ∃ (link : Option TableName) (references : List Word), (∀ t ∈ link, t ∈ s.tables) ∧
      k = n + 1 + link.toList.length ∧ (∀ w ∈ references, IsReference s w) ∧
      (h.selection columns (tableAlias n) joins on narrowed).words =
        .query :: Sql.listWords columns ++ [.table h.target.table, .label (tableAlias n)] ++
        link.toList.flatMap (fun t => [.join, .table t, .label (tableAlias (n + 1))]) ++
          references ++
        narrowed.toList.flatMap Expr.words := by
  obtain ⟨link, references, hlink, hk, hreferences, hjoins⟩ := hs.joinWords_eq hh
  refine ⟨link, references ++ on.words, hlink, hk, ?_, ?_⟩
  · intro w hw
    rcases List.mem_append.mp hw with hw | hw
    · exact hreferences w hw
    · exact hs.on_words hh w hw
  · cases narrowed <;> simp [selection, asked, Select.words, hjoins, Expr.and, Expr.words]

/-- A query has known words only, if those of its columns and of its condition are known. -/
theorem selection_known {columns : List Expr} {narrowed : Option Expr} (hh : s.HasHop h)
    (hs : h.Selects (tableAlias l) (tableAlias n) (n + 1) joins on k)
    (hcolumns : ∀ w ∈ Sql.listWords columns, w.Known s)
    (hnarrowed : ∀ w ∈ narrowed.toList.flatMap Expr.words, w.Known s) :
    ∀ w ∈ (h.selection columns (tableAlias n) joins on narrowed).words, w.Known s := by
  obtain ⟨link, references, hlink, -, hreferences, heq⟩ := hs.selection_words columns narrowed hh
  intro w hw
  rw [heq] at hw
  simp only [List.cons_append, List.mem_cons, List.mem_append, List.not_mem_nil, or_false] at hw
  -- The parts of a query in the order in which it is written.
  rcases hw with rfl | ((((hw | rfl | rfl) | hw) | hw) | hw)
  · trivial
  · exact hcolumns w hw
  · exact s.table_mem hh.target
  · exact ⟨n, rfl⟩
  · obtain ⟨t, ht, hw⟩ := List.mem_flatMap.mp hw
    simp only [List.mem_cons, List.not_mem_nil, or_false] at hw
    rcases hw with rfl | rfl | rfl
    · trivial
    · exact hlink t (by simpa using ht)
    · exact ⟨n + 1, rfl⟩
  · exact (hreferences w hw).known
  · exact hnarrowed w hw

end Hop.Selects

/-! ## The vocabulary

By induction on how the expression was emitted, one case for each rule. -/

theorem Emitted.words_known {s : Schema} {c : Context} {ns : List Nat} {e e' : Expr}
    (h : Emitted s c ns e e') : ∀ w ∈ e.words, w.Known s := by
  have hone : ∀ w ∈ Sql.listWords [.constant (.int 1)], w.Known s := by
    simp [Sql.listWords, Expr.words, Word.Known, Sql.standardConstants]
  have hall : ∀ w ∈ Sql.listWords [.countAll], w.Known s := by
    simp [Sql.listWords, Expr.words, Expr.countAll, Word.Known, Schema.functionNames,
      Sql.standardFunctions]
  induction h with
  | column hl hname =>
      intro w hw
      simp only [Expr.qualified, Expr.words, Option.toList_some, List.map_cons, List.map_nil,
        List.cons_append, List.nil_append, List.mem_cons, List.not_mem_nil, or_false] at hw
      rcases hw with rfl | rfl
      · exact ⟨_, rfl⟩
      · exact hname
  | combined parts hform _ ih =>
      obtain ⟨own, hown, hperm⟩ := hform.words
      intro w hw
      -- A word is added by the form, or it is one of a part.
      rcases List.mem_append.mp (hperm.mem_iff.mp hw) with hw | hw
      · exact (hown w hw).known
      · obtain ⟨pair, hpair, hw⟩ := List.mem_flatMap.mp hw
        obtain ⟨part, hpart, rfl⟩ := List.mem_map.mp hpair
        exact ih part hpart w hw
  | someRow hl hh hselects _ ih => exact hselects.selection_known hh hone (by simpa using ih)
  | anyRow hl hh hselects => exact hselects.selection_known hh hone (by simp)
  | countRows hl hh hselects => exact hselects.selection_known hh hall (by simp)

end FilterSql
