import FilterSql.Proofs.Compile.Emission
import FilterSql.Proofs.Compile.Evaluating
import FilterSql.Proofs.Compile.Hygiene
import FilterSql.Proofs.Compile.Rescoping

/-!
# The rows that queries range over

The query of a hop is about the rows that are related with the row it starts from, each as often as
it is related (`Hop.Selects.matches_eq`). So a question behind a row of hops asks for a chain of
related rows (`Hop.ask_evaluates`). The aliases that the queries take belong to no level around
them, so the rows of those levels can still be seen.
-/

namespace FilterSql

open Sql (Expr Row Rows Database Truth)

/-! ## Joins

The equations of a join compare columns of two aliases, and hold of rows that `agree` in them. A
query goes through the rows of its table and of its link table together, and keeps those that pass
its conditions. -/

section

variable {db : Database} {env : Rows}

theorem equation_holds (l r column column' : String) :
    ((Expr.qualified l column).equal (.qualified r column')).holds db env =
      (db.compared .eq (env (some l) column) (env (some r) column')).holds := by
  rw [Expr.holds, Expr.equal, Expr.qualified, Expr.qualified, Expr.eval, Expr.eval, Expr.eval,
    Truth.truth_value]

/-- The condition of a join holds of rows that `agree` in its columns. -/
theorem joinCondition_holds {columns : List JoinColumn} {l r : String}
    {column column' : JoinColumn → String} {e : Expr} (h : Expr.conjunction? (columns.map fun j =>
      (Expr.qualified l (column j)).equal (.qualified r (column' j))) = some e) :
    e.holds db env = db.agree columns (fun j => env (some l) (column j)) fun j =>
      env (some r) (column' j) := by
  rw [Sql.conjunction?_holds h, List.all_map, Sql.Database.agree]
  simp only [Function.comp_def, equation_holds]

/-- Whether the row at hand passes the condition `narrowed`, which every row does if there is
none. -/
def passes (db : Database) (env : Rows) (narrowed : Option Expr) : Bool :=
  narrowed.all fun x => x.holds db env

/-- The query of a hop is about the rows of its tables for which `on` holds, and which pass
`narrowed`. -/
theorem Hop.selection_matches (h : Hop) (columns : List Expr) (own : String) (joins : List Sql.Join)
    (on : Expr) (narrowed : Option Expr) :
    (h.selection columns own joins on narrowed).matches db env =
      (Sql.joinRows db joins ((db.rows h.target.table).map (env.bind (some own)))).filter fun env =>
        on.holds db env && passes db env narrowed := by
  unfold selection
  rw [Sql.Select.matches]
  apply List.filter_congr
  intro env _
  cases narrowed with
  | none => simp [asked, passes, Expr.holds]
  | some x => exact Expr.holds_and on x

/-! ## The query of a hop

With or without a link table, the rows that are left after the join are the `related` ones. The
alias of the query must be a new one, so that it hides none of those around it. -/

/-- **The rows that the query of a hop is about** are those that are `related` and pass what it is
narrowed by. -/
theorem Hop.Selects.matches_eq {h : Hop} {source own : String} {n k : Nat} {joins : List Sql.Join}
    {on : Expr} {columns : List Expr} {narrowed : Option Expr} {P : Row → Bool}
    (hs : h.Selects source own n joins on k) (hown : source ≠ own)
    (hlink : tableAlias n ≠ source ∧ tableAlias n ≠ own)
    (hP : ∀ env' : Rows, (∀ label, label ≠ own → label ≠ tableAlias n →
      env' (some label) = env (some label)) →
      passes db env' narrowed = P (env' (some own))) :
    ((h.selection columns own joins on narrowed).matches db env).map (· (some own)) =
      (h.related db (env (some source))).filter P := by
  have hsource (row : Row) : env.bind (some own) row (some source) = env (some source) :=
    Rows.bind_other (by simpa using hown)
  rw [selection_matches]
  cases hs with
  | direct hnone he =>
      have hpasses (row : Row) : passes db (env.bind (some own) row) narrowed = P row := by
        rw [hP, Rows.bind_self]
        intro label hlabel _
        exact Rows.bind_other (by simpa using hlabel)
      rw [related, hnone]
      simp only [Sql.joinRows, List.filter_map, List.map_map, Function.comp_def, Rows.bind_self,
        List.map_id', joinCondition_holds he, hsource, hpasses, List.filter_filter, Bool.and_comm]
  | @linked link on' _ hsome hon he =>
      have hpasses (row between : Row) :
          passes db ((env.bind (some own) row).bind (some (tableAlias n)) between) narrowed =
            P row := by
        rw [hP, Rows.bind_other (by simpa using hlink.2.symm), Rows.bind_self]
        intro label hlabel hlink
        rw [Rows.bind_other (by simpa using hlink), Rows.bind_other (by simpa using hlabel)]
      have hbetween (row between : Row) :
          (env.bind (some own) row).bind (some (tableAlias n)) between (some own) = row := by
        rw [Rows.bind_other (by simpa using hlink.2.symm), Rows.bind_self]
      have hfar (row between : Row) :
          (env.bind (some own) row).bind (some (tableAlias n)) between (some source) =
            env (some source) := by
        rw [Rows.bind_other (by simpa using hlink.1.symm), hsource]
      have hjoined (row between : Row) : Truth.holds
          (on'.eval db ((env.bind (some own) row).bind (some (tableAlias n)) between)).truth =
            db.agree link.columns (fun j => between j.source) fun j => row j.target := by
        rw [← Expr.holds, joinCondition_holds hon, Rows.bind_self, hbetween]
      rw [related, hsome]
      simp only [Sql.joinRows, List.flatMap_map, List.filter_flatMap, List.map_flatMap,
        List.filter_map, List.map_map, List.filter_filter, Function.comp_def, hjoined, hpasses,
        joinCondition_holds he, Rows.bind_self, hfar, hbetween]
      -- What is left is the order in which the conditions are asked.
      congr 1
      funext row
      congr 2
      funext between
      rw [Bool.and_right_comm, Bool.and_comm, Bool.and_comm (db.agree link.columns _ _)]
end

/-! ## Contexts

A context is `Ready` for a number if its levels have aliases below it. Queries bind new aliases to
rows, and what they bind does not change the rows of the levels (`SameRows`). -/

namespace Context

/-- The levels of the context belong to the schema, and aliases may be taken from `n` on. -/
structure Ready (s : Schema) (c : Context) (n : Nat) : Prop where
  has : s.HasContext c
  below : ∀ l ∈ c.levels, l.number < n

/-- `env` and `env'` have the same rows on all levels of the context. -/
def SameRows (c : Context) (env env' : Rows) : Prop :=
  ∀ l ∈ c.levels, env' (some l.label) = env (some l.label)

variable {s : Schema} {c : Context} {n k : Nat} {env env' : Rows}

theorem Ready.mono (h : c.Ready s n) (hnk : n ≤ k) : c.Ready s k := by
  refine ⟨h.has, ?_⟩
  intro l hl
  exact Nat.lt_of_lt_of_le (h.below l hl) hnk

theorem Ready.inside {scope : Scope} (h : c.Ready s n) (hscope : s.HasScope scope)
    (binding : Binding) :
    (inside ⟨scope, n, binding⟩ c).Ready s (n + 1) := by
  refine ⟨Schema.hasContext_inside hscope h.has, ?_⟩
  intro l hl
  rcases List.mem_cons.mp hl with rfl | hl
  · exact Nat.lt_succ_self n
  · exact Nat.lt_succ_of_lt (h.below l hl)

/-- In a context that is `Ready`, no level has an alias that has not been taken yet. -/
theorem Ready.label_ne {l : Level} (h : c.Ready s n) (hl : l ∈ c.levels) (hnk : n ≤ k) :
    l.label ≠ tableAlias k := by
  intro heq
  have hlt := h.below l hl
  have hnumber : l.number = k := tableAlias_injective heq
  omega

/-- Environments that differ only in aliases not taken yet have the `SameRows` on all levels. -/
theorem Ready.sameRows (h : c.Ready s n)
    (hother : ∀ label, label ≠ tableAlias n → label ≠ tableAlias (n + 1) →
      env' (some label) = env (some label)) :
    c.SameRows env env' := by
  intro l hl
  apply hother
  · exact h.label_ne hl (Nat.le_refl n)
  · exact h.label_ne hl (Nat.le_succ n)

end Context

/-! ## Questions

The questions that end a row of hops: whether there is a row, whether there is one that satisfies a
condition, and how many there are. The value is told in terms of `related` rows alone. -/

section

variable {s : Schema} {db : Database} {c : Context} {env : Rows} {l : Level} {h : Hop} {e : Expr}
    {n m : Nat}

/-- The form of `matches_eq` for a query that starts at a level of the context. -/
theorem Hop.Selects.matches_level {k : Nat} {joins : List Sql.Join} {on : Expr}
    {columns : List Expr} {narrowed : Option Expr} {P : Row → Bool}
    (hs : h.Selects l.label (tableAlias n) (n + 1) joins on k) (hready : c.Ready s n)
    (hl : l ∈ c.levels) (hP : ∀ env', c.SameRows env env' →
      passes db env' narrowed = P (env' (some (tableAlias n)))) :
    ((h.selection columns (tableAlias n) joins on narrowed).matches db env).map
      (· (some (tableAlias n))) =
      (h.related db (env (some l.label))).filter P := by
  refine hs.matches_eq (hready.label_ne hl (Nat.le_refl n))
    ⟨(hready.label_ne hl (Nat.le_succ n)).symm, ?_⟩ ?_
  · intro heq
    have hnumber := tableAlias_injective heq
    omega
  · exact fun env' hother => hP env' (hready.sameRows hother)

/-- `hasRows` is true exactly if `P` holds of one of the rows that the query picks from. -/
theorem hasRows_eval {q : Sql.Select} {label : Option String} {rows : List Row} {P : Row → Bool}
    (hq : (q.matches db env).map (· label) = rows.filter P) :
    (Expr.hasRows q).eval db env = .boolean (rows.any P) := by
  have hempty : (!(rows.filter P).isEmpty) = rows.any P := by
    rw [Bool.eq_iff_iff]
    simp [List.filter_eq_nil_iff]
  rw [Expr.eval, ← List.isEmpty_map (f := (· label)), hq, hempty]

/-- **Whether there is a row behind a hop**: `someRow` evaluates to this, for rows that satisfy
`P`. -/
theorem Hop.someRow_evaluates {binding : Binding} {condition : Context → Numbered (Option Expr)}
    {P : Row → Bool} (hready : c.Ready s n) (hl : l ∈ c.levels) (hh : s.HasHop h)
    (hrun : (someRow binding condition c l.label h).run n = .ok (e, m))
    (hP : ∀ {env' narrowed k m}, c.SameRows env env' → (c.inside ⟨h.target, n, binding⟩).Ready s k →
      (condition (c.inside ⟨h.target, n, binding⟩)).run k = .ok (narrowed, m) →
      passes db env' narrowed = P (env' (some (tableAlias n)))) :
    e.eval db env = .boolean ((h.related db (env (some l.label))).any P) := by
  obtain ⟨joins, on, k, narrowed, hselects, hcondition, rfl⟩ := someRow_ok.mp hrun
  apply hasRows_eval
  apply hselects.matches_level hready hl
  intro env' hsame
  have hinner := (hready.inside hh.target binding).mono hselects.le
  exact hP hsame hinner hcondition

/-- The form of `someRow_evaluates` for a condition that is always there. -/
theorem Hop.narrowedRow_evaluates {binding : Binding} {condition : Context → Numbered Expr}
    {P : Row → Bool} (hready : c.Ready s n) (hl : l ∈ c.levels) (hh : s.HasHop h)
    (hrun : (someRow binding (fun inner => do return some (← condition inner)) c l.label h).run n =
      .ok (e, m))
    (hP : ∀ {env' x k m}, c.SameRows env env' → (c.inside ⟨h.target, n, binding⟩).Ready s k →
      (condition (c.inside ⟨h.target, n, binding⟩)).run k = .ok (x, m) →
      x.holds db env' = P (env' (some (tableAlias n)))) :
    e.eval db env = .boolean ((h.related db (env (some l.label))).any P) := by
  apply someRow_evaluates hready hl hh hrun
  intro env' narrowed k m hsame hinner hcondition
  obtain ⟨x, k, hx, hpure⟩ := Numbered.bind_ok.mp hcondition
  obtain ⟨rfl, rfl⟩ := Numbered.pure_ok.mp hpure
  exact hP hsame hinner hx

/-- **How many rows there are behind a hop**: `countRows` evaluates to this number. -/
theorem Hop.countRows_evaluates (hready : c.Ready s n) (hl : l ∈ c.levels)
    (hrun : (countRows c l.label h).run n = .ok (e, m)) :
    e.eval db env = .long (h.related db (env (some l.label))).length := by
  obtain ⟨joins, on, hselects, rfl⟩ := countRows_ok.mp hrun
  have hrows : ((h.selection [.countAll] (tableAlias n) joins on none).matches db env).map
      (· (some (tableAlias n))) =
        (h.related db (env (some l.label))).filter fun _ => true :=
    hselects.matches_level hready hl fun _ _ => rfl
  rw [List.filter_eq_self.mpr fun _ _ => rfl] at hrows
  rw [Expr.eval, ← hrows, List.length_map]
  rfl

/-! ## Hops

Behind each hop a level is opened for a row that it leads to. `Context.Behind` follows the context
and the rows together, from where the hops start. -/

/-- The context `c'` with the rows `env'` is what `c` with `env` has become after some hops of the
member at the address `a`. -/
structure Context.Behind (a : Address) (c : Context) (env : Rows) (c' : Context)
    (env' : Rows) : Prop where
  agrees : c.AgreesAway a c'
  same : c.SameRows env env'
  levels : ∀ l ∈ c.levels, l ∈ c'.levels

theorem Context.Behind.refl (a : Address) (c : Context) (env : Rows) : c.Behind a env c env :=
  ⟨.refl a c, fun _ _ => rfl, fun _ => id⟩

/-- One more hop leads from a context that is `Behind` to another one. -/
theorem Context.Behind.inside {a : Address} {c₀ : Context} {env₀ env' : Rows}
    (h : c₀.Behind a env₀ c env)
    (hl : l.binding = .navigation none ∨ ∃ offset, l.binding = .navigation (some ⟨a, offset⟩))
    (hsame : c.SameRows env env') : c₀.Behind a env₀ (c.inside l) env' :=
  ⟨h.agrees.inside hl, fun l hl => (hsame l (h.levels l hl)).trans (h.same l hl),
    fun l hl => List.mem_cons_of_mem _ (h.levels l hl)⟩

/-- **Whether there is a chain of related rows.** `ask` evaluates to this behind any hops, if the
question does behind the last one. -/
theorem Hop.ask_evaluates {question : Question} {front : List Hop} {last : Hop} {a : Address}
    {c₀ : Context} {env₀ : Rows} {P : Row → Bool} (hbehind : c₀.Behind a env₀ c env)
    (hready : c.Ready s n) (hl : l ∈ c.levels) (hhops : ∀ h ∈ front ++ [last], s.HasHop h)
    (hlast : ∀ {c env l n e m}, c₀.Behind a env₀ c env → c.Ready s n → l ∈ c.levels →
      (question c l.label last).run n = .ok (e, m) →
      e.eval db env = .boolean ((last.related db (env (some l.label))).any P))
    (hrun : (ask question c l.label (front ++ [last])).run n = .ok (e, m)) :
    e.eval db env = .boolean ((reach db (front ++ [last]) (env (some l.label))).any P) := by
  induction front generalizing c env l n e m with
  | nil =>
      rw [List.nil_append, reach, List.any_flatMap]
      simpa [reach] using hlast hbehind hready hl hrun
  | cons first front ih =>
      obtain ⟨next, rest, hnext⟩ : ∃ next rest, front ++ [last] = next :: rest :=
        List.exists_cons_of_ne_nil (by simp)
      have hfirst := hhops first List.mem_cons_self
      rw [List.cons_append, hnext] at hrun
      obtain ⟨joins, on, k, x, hselects, hx, rfl⟩ := ask_step_ok.mp hrun
      rw [List.cons_append, reach, List.any_flatMap]
      apply hasRows_eval
      apply hselects.matches_level hready hl
      intro env' hsame
      -- Behind the first hop the rest of them starts at the row that the query is at.
      have hbehind' : c₀.Behind a env₀ (c.inside ⟨first.target, n, .navigation none⟩) env' :=
        hbehind.inside (.inl rfl) hsame
      have hready' := (hready.inside hfirst.target (.navigation none)).mono hselects.le
      have hhops' : ∀ h ∈ front ++ [last], s.HasHop h :=
        fun h hh => hhops h (List.mem_cons_of_mem _ hh)
      rw [← hnext] at hx
      have heval := ih hbehind' hready' List.mem_cons_self hhops' hx
      rw [passes, Option.all_some, Expr.holds, heval]
      rfl

end

end FilterSql
