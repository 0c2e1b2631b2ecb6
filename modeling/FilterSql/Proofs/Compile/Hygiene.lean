import FilterSql.Proofs.Compile.Vocabulary
import Std.Data.String.ToNat

/-!
# Aliases of compiled filters

Each query and each link table in a compiled filter has an alias of its own, and each column has
the alias of a table that can be seen where the column stands (`Schema.compile_hygienic`). The
aliases of a filter are the numbers from one on, without a gap, and none is that of the root rows.
Both parts are inductions on `Emitted`.
-/

namespace FilterSql

open Sql (Expr Select Word)

/-! ## Aliases

`Declares` counts the aliases among the words of an expression, with one for each table. Only a
query declares any: its own and that of its link table. Equations and fixed words declare none
(`Silent`). -/

theorem tableAlias_injective {n m : Nat} (h : tableAlias n = tableAlias m) : n = m := by
  have hrepr : Nat.repr n = Nat.repr m := by simpa [tableAlias] using h
  exact Nat.repr_injective hrepr

theorem tableAlias_zero : tableAlias 0 = "t0" := rfl

/-- The number of tables that some words bring in. -/
def tableCount (ws : List Word) : Nat :=
  ws.count .query + ws.count .join

/-- Words that declare no alias and bring in no table. -/
def Silent (ws : List Word) : Prop :=
  ws.filterMap Word.label? = [] ∧ tableCount ws = 0

namespace Silent

theorem of_forall {ws : List Word} (h : ∀ w ∈ ws, w.label? = none ∧ w ≠ .query ∧ w ≠ .join) :
    Silent ws := by
  constructor
  · apply List.filterMap_eq_nil_iff.mpr
    intro w hw
    exact (h w hw).1
  · have hqueries : ws.count .query = 0 := List.count_eq_zero.mpr fun hw => (h _ hw).2.1 rfl
    have hjoins : ws.count .join = 0 := List.count_eq_zero.mpr fun hw => (h _ hw).2.2 rfl
    rw [tableCount, hqueries, hjoins]

theorem of_fixed {functions : List String} {ws : List Word} (h : ∀ w ∈ ws, w.IsFixed functions) :
    Silent ws := by
  apply of_forall
  intro w hw
  have hw := h w hw
  cases w <;> simp_all [Word.IsFixed, Word.label?]

theorem of_references {s : Schema} {ws : List Word} (h : ∀ w ∈ ws, IsReference s w) :
    Silent ws := by
  apply of_forall
  intro w hw
  cases h w hw <;> simp [Word.label?]

end Silent

/-- The words declare the aliases of the numbers `ns`, one for each table that they bring in. -/
def Declares (ws : List Word) (ns : List Nat) : Prop :=
  (ws.filterMap Word.label?).Perm (ns.map tableAlias) ∧ tableCount ws = ns.length

namespace Declares

variable {ws ws' : List Word} {ns ns' : List Nat}

theorem silent (h : Silent ws) : Declares ws [] := by
  constructor
  · rw [h.1]
    exact .nil
  · exact h.2

theorem append (h : Declares ws ns) (h' : Declares ws' ns') : Declares (ws ++ ws') (ns ++ ns') := by
  constructor
  · rw [List.filterMap_append, List.map_append]
    exact h.1.append h'.1
  · have hcount := h.2
    have hcount' := h'.2
    simp only [tableCount, List.count_append, List.length_append] at *
    omega

theorem parts {parts : List (List Nat × Expr × Expr)}
    (h : ∀ part ∈ parts, Declares part.2.1.words part.1) :
    Declares (partWords (parts.map (·.2))) (parts.flatMap (·.1)) := by
  induction parts with
  | nil => exact .silent ⟨rfl, rfl⟩
  | cons part rest ih =>
      have hfirst := h part List.mem_cons_self
      have hrest := ih fun part hpart => h part (List.mem_cons_of_mem _ hpart)
      exact hfirst.append hrest

theorem perm (hperm : ws.Perm ws') (h : Declares ws' ns) : Declares ws ns := by
  constructor
  · exact (hperm.filterMap _).trans h.1
  · rw [← h.2]
    rw [tableCount, tableCount, hperm.count_eq, hperm.count_eq]

end Declares

/-- The query of a hop takes the numbers from that of its rows on. -/
theorem Hop.Selects.selection_declares {s : Schema} {h : Hop} {l n k : Nat} {joins : List Sql.Join}
    {on : Expr} {columns : List Expr} {narrowed : Option Expr} {ns : List Nat} (hh : s.HasHop h)
    (hs : h.Selects (tableAlias l) (tableAlias n) (n + 1) joins on k)
    (hcolumns : Silent (Sql.listWords columns))
    (hnarrowed : Declares (narrowed.toList.flatMap Expr.words) ns) :
    Declares (h.selection columns (tableAlias n) joins on narrowed).words
      (List.range' n (k - n) ++ ns) := by
  obtain ⟨link, references, -, rfl, hreferences, heq⟩ := hs.selection_words columns narrowed hh
  -- A link table takes the number that follows the one of the rows.
  have hrange : List.range' n (n + 1 + link.toList.length - n) =
      [] ++ [n] ++ link.toList.map (fun _ => n + 1) ++ [] := by
    cases link with
    | none => simp [show n + 1 - n = 1 by omega]
    | some t => simp [show n + 1 + 1 - n = 2 by omega, List.range'_succ]
  have hquery : Declares
      (.query :: Sql.listWords columns ++ [.table h.target.table, .label (tableAlias n)])
      ([] ++ [n]) := by
    refine ⟨by simp [List.filterMap_cons, Word.label?, hcolumns.1], ?_⟩
    have hcount := hcolumns.2
    simp [tableCount] at hcount ⊢
    omega
  have hlink : Declares (link.toList.flatMap fun t =>
    [.join, .table t, .label (tableAlias (n + 1))])
      (link.toList.map fun _ => n + 1) := by
    cases link <;> simp [Declares, tableCount, List.filterMap_cons, Word.label?]
  rw [heq, hrange]
  exact ((hquery.append hlink).append (.silent (.of_references hreferences))).append hnarrowed

/-- An emitted expression declares the aliases of the numbers that it has taken. -/
theorem Emitted.declares {s : Schema} {c : Context} {ns : List Nat} {e e' : Expr}
    (h : Emitted s c ns e e') :
    Declares e.words ns := by
  have hone : Silent (Sql.listWords [.constant (.int 1)]) := ⟨rfl, rfl⟩
  have hall : Silent (Sql.listWords [.countAll]) := ⟨rfl, rfl⟩
  induction h with
  | column =>
      exact .silent ⟨rfl, rfl⟩
  | combined parts hform _ ih =>
      obtain ⟨own, hown, hperm⟩ := hform.words
      apply Declares.perm hperm
      have hsilent := Declares.silent (.of_fixed hown)
      exact hsilent.append (.parts ih)
  | someRow _ hh hselects _ ih => exact hselects.selection_declares hh hone (by simpa using ih)
  | anyRow _ hh hselects =>
      rw [Expr.words, ← List.append_nil (List.range' _ _)]
      exact hselects.selection_declares hh hone (.silent ⟨rfl, rfl⟩)
  | countRows _ hh hselects =>
      rw [Expr.words, ← List.append_nil (List.range' _ _)]
      exact hselects.selection_declares hh hall (.silent ⟨rfl, rfl⟩)

/-! ## Scopes

Each qualifier refers to an alias that is declared by a query around it, or stands for a level of
the context. Inside a query its own aliases are added to those around it. -/

/-- An operator or a function of scoped parts is scoped. -/
theorem Sql.Expr.Alike.scoped {functions : List String} {ps : List (Expr × Expr)} {e e' : Expr}
    {visible : List String} (h : e.Alike functions ps e')
    (hparts : ∀ part ∈ ps, part.1.Scoped visible) :
    e.Scoped visible := by
  induction h with
  | part e e' => exact hparts _ (List.mem_singleton_self _)
  | parameter | constant | now => trivial
  | binary _ _ _ ihl ihr | position _ _ ihl ihr | like _ _ _ ihl ihr =>
      have hl := ihl fun part hpart => hparts part (List.mem_append_left _ hpart)
      have hr := ihr fun part hpart => hparts part (List.mem_append_right _ hpart)
      exact ⟨hl, hr⟩
  | not _ ih | isNull _ ih | isNotNull _ ih | extract _ _ ih | cast _ _ ih => exact ih hparts
  | function hname args _ ih =>
      apply Sql.listScoped_iff.mpr
      intro e he
      obtain ⟨arg, harg, rfl⟩ := List.mem_map.mp he
      apply ih arg harg
      intro part hpart
      exact hparts part (List.mem_flatMap.mpr ⟨arg, harg, hpart⟩)
  | reorder hperm _ ih => exact ih fun part hpart => hparts part (hperm.mem_iff.mp hpart)

theorem joinCondition_scoped {visible : List String} {columns : List JoinColumn} {l r : String}
    {left right : JoinColumn → String} {e : Expr} (hl : l ∈ visible) (hr : r ∈ visible)
    (he : Expr.conjunction? (columns.map fun j =>
      (Expr.qualified l (left j)).equal (.qualified r (right j))) = some e) : e.Scoped visible := by
  apply Sql.conjunction?_scoped he
  intro x hx
  obtain ⟨j, -, rfl⟩ := List.mem_map.mp hx
  exact ⟨⟨l, rfl, hl⟩, ⟨r, rfl, hr⟩⟩

/-- The query of a hop is scoped where the row that it starts from can be seen, provided that what
it is narrowed by is scoped inside it. -/
theorem Hop.Selects.selection_scoped {h : Hop} {source own : String} {n k : Nat}
    {joins : List Sql.Join} {on : Expr} {columns : List Expr} {narrowed : Option Expr}
    {visible : List String} (hsource : source ∈ visible) (hs : h.Selects source own n joins on k)
    (hcolumns : ∀ visible, Sql.ListScoped visible columns)
    (hnarrowed : ∀ x ∈ narrowed, ∀ inner, own ∈ inner → visible ⊆ inner → x.Scoped inner) :
    (h.selection columns own joins on narrowed).Scoped visible := by
  have hcondition {inner : List String} (hown : own ∈ inner) (hvisible : visible ⊆ inner)
      (hon : on.Scoped inner) : (asked on narrowed).Scoped inner := by
    cases narrowed with
    | none => exact hon
    | some x => exact ⟨hon, hnarrowed x rfl inner hown hvisible⟩
  have hall (labels : List String) : visible ⊆ own :: labels ++ visible :=
    List.subset_append_right _ _
  -- A link table adds its alias to those that are visible inside the query.
  cases hs with
  | direct hlink he =>
      refine ⟨hcolumns _, trivial, hcondition (by simp [Select.labels]) (hall []) ?_⟩
      exact joinCondition_scoped (by simp [Select.labels]) (hall [] hsource) he
  | linked hlink hon he =>
      refine ⟨hcolumns _, ⟨?_, trivial⟩,
        hcondition (by simp [Select.labels]) (hall [tableAlias n]) ?_⟩
      · exact joinCondition_scoped (by simp [Select.labels, Sql.Join.label?])
          (by simp [Select.labels]) hon
      · exact joinCondition_scoped (by simp [Select.labels, Sql.Join.label?])
          (hall [tableAlias n] hsource) he

/-- An emitted expression uses the aliases of its context and its own. -/
theorem Emitted.scoped {s : Schema} {c : Context} {ns : List Nat} {e e' : Expr}
    (h : Emitted s c ns e e') {visible : List String}
    (hvisible : ∀ l ∈ c.levels, l.label ∈ visible) : e.Scoped visible := by
  induction h generalizing visible with
  | column hl _ => exact ⟨_, rfl, hvisible _ hl⟩
  | combined parts hform _ ih =>
      apply hform.scoped
      intro pair hpair
      obtain ⟨part, hpart, rfl⟩ := List.mem_map.mp hpair
      exact ih part hpart hvisible
  | someRow hl _ hselects _ ih =>
      refine hselects.selection_scoped (hvisible _ hl) (fun _ => ⟨trivial, trivial⟩) ?_
      rintro _ ⟨⟩ inner hown hinner
      apply ih
      intro l hl
      rcases List.mem_cons.mp hl with rfl | hl
      · exact hown
      · exact hinner (hvisible l hl)
  | anyRow hl _ hselects | countRows hl _ hselects =>
      exact hselects.selection_scoped (hvisible _ hl) (fun _ => ⟨trivial, trivial⟩) (by simp)

/-! ## Whole filters

The compilation starts at the number one, and the only alias around the condition is that of the
root table, `tableAlias 0`. -/

/-- **Aliases of a compiled filter.** The condition is `Scoped`: each column has the alias of the
root rows, `t0`, or of a query or a join around it. What it has `declared` are the aliases with the
numbers from one to the number of `queries` and `joins`, each of them once, and `t0` is not among
them. So the query that `select` gives is closed. -/
theorem Schema.compile_hygienic {s : Schema} {entity : String} {f : Filter} {e : Expr}
    (h : s.compile entity f = .ok e) :
    e.Scoped ["t0"] ∧ e.declared.Nodup ∧ "t0" ∉ e.declared ∧
      e.declared.Perm ((List.range' 1 (e.queries + e.joins)).map tableAlias) ∧
      ∃ q, s.select entity f = .ok q ∧ q.Scoped [] := by
  obtain ⟨type, m, htype, hle, hemitted⟩ := compile_emitted rfl h h
  obtain ⟨hperm, hcount⟩ := hemitted.declares
  -- The root rows are the only ones that the context of a whole filter knows.
  have hscoped : e.Scoped ["t0"] := by
    apply hemitted.scoped
    intro l hl
    obtain rfl := List.mem_singleton.mp hl
    exact List.mem_singleton.mpr tableAlias_zero
  have hdeclared : e.declared.Perm ((List.range' 1 (e.queries + e.joins)).map tableAlias) := by
    have hlength : e.queries + e.joins = m - 1 := hcount.trans List.length_range'
    rw [hlength]
    exact hperm
  refine ⟨hscoped, ?_, ?_, hdeclared, ?_⟩
  · rw [hdeclared.nodup_iff]
    apply List.Pairwise.map tableAlias _ List.nodup_range'
    intro i j hne heq
    exact hne (tableAlias_injective heq)
  · intro hmem
    obtain ⟨n, hn, hzero⟩ := List.mem_map.mp (hdeclared.mem_iff.mp hmem)
    obtain rfl : n = 0 := tableAlias_injective (hzero.trans tableAlias_zero.symm)
    simp at hn
  · obtain ⟨type, htype, hcompiled⟩ := compile_ok.mp h
    refine ⟨_, select_ok.mpr ⟨type, e, htype, hcompiled, rfl⟩, ⟨⟨_, rfl, ?_⟩, trivial⟩,
      trivial, hscoped⟩
    exact List.mem_cons_self

theorem Schema.hygienic_roleLike :
    ∃ e, sample.compile "User" (.roleLike "x") = .ok e ∧ e.Scoped ["t0"] ∧
    e.declared.Nodup ∧ "t0" ∉ e.declared ∧
    e.declared.Perm ((List.range' 1 (e.queries + e.joins)).map tableAlias) ∧
      ∃ q, sample.select "User" (.roleLike "x") = .ok q ∧ q.Scoped [] :=
  ⟨_, rfl, compile_hygienic rfl⟩

end FilterSql
