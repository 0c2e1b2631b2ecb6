import FilterSql.Proofs.Compile.Checks

/-!
# Hops as nested queries

What is asked behind a row of hops, in closed form. `Hop.laid` puts each hop in its place: with the
alias of the rows that it leaves, the number of its own alias, and the binding of the level that it
opens. `Hop.enclosed` builds the queries of such a row from the inside to the outside. The compiler
arrives at just this (`Hop.ask_nested`), by induction on the hops from the last one. Each hop takes
one number, and a second one if it has a link table.
-/

namespace FilterSql

open Sql (Expr Select)

namespace Hop

/-! ## Hops in their places

`laid` numbers the hops from the first alias on: each takes one number for the rows that it
reaches, and one more for a link table. `numberAt` and `sourceAt` tell the place of a single hop in
the row. -/

/-- Whether a `linkTable?` is joined, which takes one more alias. -/
def isLinked (h : Hop) : Bool :=
  h.linkTable?.isSome

/-- How many numbers the queries of the hops take: one each, and one for each link table. -/
def numbers (hops : List Hop) : Nat :=
  hops.length + hops.countP isLinked

/-- A hop with the alias that it starts at and the number that it takes. -/
structure Laid where
  hop : Hop
  /-- The alias of the rows that the hop leaves. -/
  source : String
  /-- The number of the alias of the rows that the hop reaches. -/
  number : Nat
  binding : Binding

/-- The number of the hop in place `i`, if the first one has the number `n`: the hops in front of
it and their link tables have taken the numbers in between. -/
def numberAt (hops : List Hop) (n i : Nat) : Nat :=
  n + i + (hops.take i).countP isLinked

/-- The alias of the rows that the `i`-th hop leaves: those that the hop in front reaches, or
`source`. -/
def sourceAt (hops : List Hop) (source : String) (n : Nat) : Nat → String
  | 0 => source
  | i + 1 => tableAlias (numberAt hops n i)

/-- The hops in their places, starting from the rows with the alias `source`. The last one has the
`binding`, and the others are navigated. -/
def laid (binding : Binding) (source : String) (n : Nat) (hops : List Hop) : List Laid :=
  hops.mapIdx fun i h =>
    ⟨h, sourceAt hops source n i, numberAt hops n i,
      if i + 1 = hops.length then binding else .navigation none⟩

variable {h last : Hop} {rest init hops : List Hop} {binding : Binding} {source : String} {n : Nat}

theorem numbers_cons : numbers (h :: rest) = numbers [h] + numbers rest := by
  simp only [numbers, List.countP_cons, List.countP_nil, List.length_cons, List.length_nil]
  omega

theorem numbers_concat : numbers (init ++ [last]) = numbers init + numbers [last] := by
  simp only [numbers, List.countP_append, List.length_append]
  omega

theorem numberAt_cons (i : Nat) :
    numberAt (h :: rest) n (i + 1) = numberAt rest (n + numbers [h]) i := by
  simp only [numberAt, numbers, List.take_succ_cons, List.countP_cons, List.countP_nil,
    List.length_cons, List.length_nil]
  omega

theorem numberAt_length : numberAt (init ++ rest) n init.length = n + numbers init := by
  rw [numberAt, numbers, List.take_left, Nat.add_assoc]

theorem sourceAt_cons (i : Nat) :
    sourceAt (h :: rest) source n (i + 1) = sourceAt rest (tableAlias n) (n + numbers [h]) i := by
  cases i with
  | zero => rfl
  | succ i => exact congrArg tableAlias (numberAt_cons i)

/-- Behind the first hop, the others are `laid` as if they started from the rows that it reaches. -/
theorem laid_cons : laid (.navigation none) source n (h :: rest) =
    ⟨h, source, n, .navigation none⟩ ::
      laid (.navigation none) (tableAlias n) (n + numbers [h]) rest := by
  simp only [laid, List.mapIdx_cons, numberAt_cons, sourceAt_cons, ite_self]
  rfl

/-- In front of the last hop, the others are `laid` as they would be without it. -/
theorem laid_concat :
    laid binding source n (init ++ [last]) = laid (.navigation none) source n init ++
    [⟨last, sourceAt (init ++ [last]) source n init.length, n + numbers init, binding⟩] := by
  -- A hop is numbered behind those in front of it, so one more at the end changes no number.
  have hnumber (i : Nat) (hi : i ≤ init.length) : numberAt (init ++ [last]) n i =
    numberAt init n i := by
    rw [numberAt, numberAt, List.take_append_of_le_length hi]
  have hsource (i : Nat) (hi : i < init.length) :
      sourceAt (init ++ [last]) source n i = sourceAt init source n i := by
    cases i with
    | zero => rfl
    | succ i => exact congrArg tableAlias (hnumber i (by omega))
  rw [laid, laid, List.mapIdx_append]
  congr 1
  · apply List.mapIdx_eq_mapIdx_iff.mpr
    intro i hi
    have hfront : ¬ i + 1 = (init ++ [last]).length := by
      rw [List.length_append, List.length_singleton]
      omega
    rw [hnumber i (Nat.le_of_lt hi), hsource i hi, if_neg hfront, ite_self]
  · simp [numberAt_length]

/-! ## Their queries

`Laid.query` writes down the query of a hop without reference to the compiler: the table that is
reached with its alias, the join of the link table, and the equations with the rows that are
left. -/

namespace Laid

/-- The level that the hop opens, under its `number`. -/
def level (p : Laid) : Level :=
  ⟨p.hop.target, p.number, p.binding⟩

/-- The equations that join the query with the rows under `source`. If there is a link table, the
rows of that table are the ones that are joined. -/
def equations (p : Laid) : List Expr :=
  let near := if p.hop.isLinked then p.number + 1 else p.number
  p.hop.joinColumns.map fun j =>
    (Expr.qualified (tableAlias near) j.target).equal
      (.qualified p.source (p.hop.columnLead ++ j.source))

/-- The equations that join the rows of `link` with those that are reached. -/
def linkEquations (p : Laid) (link : LinkTable) : List Expr :=
  link.columns.map fun j =>
    (Expr.qualified (tableAlias (p.number + 1)) j.source).equal
      (.qualified (tableAlias p.number) j.target)

def joins (p : Laid) : List Sql.Join :=
  match p.hop.linkTable? with
  | none => []
  | some link =>
      (Expr.conjunction? (p.linkEquations link)).toList.map
        (.mk link.table (some (tableAlias (p.number + 1))))

/-- The query of the rows that are reached, with the `condition` on them if there is one. -/
def query (p : Laid) (columns : List Expr) (condition : Option Expr) : Select :=
  .mk columns (some (p.hop.target.table, some (tableAlias p.number))) p.joins
    (Expr.conjunction? (p.equations ++ condition.toList))

/-- Whether there is a row that satisfies the `condition`, or any row if there is none. -/
def exist (p : Laid) (condition : Option Expr) : Expr :=
  .hasRows (p.query [.constant (.int 1)] condition)

end Laid

/-- Nested queries, each of which is the condition of the one around it. The `condition` is that of
the innermost one. -/
def enclosed (row : List Laid) (condition : Option Expr) : Option Expr :=
  row.foldr (fun p inside => some (p.exist inside)) condition

end Hop

/-- The context with `levels` opened in it, one inside the other. -/
def Context.deepened (c : Context) (levels : List Level) : Context :=
  levels.foldl (fun outer l => .inside l outer) c

/-- A run goes on with `f` behind a step that has not failed. -/
theorem Numbered.run_bind_of {α β : Type} {x : Numbered α} {a : α} {n m : Nat}
    (h : x.run n = .ok (a, m)) (f : α → Numbered β) : (x >>= f).run n = (f a).run m := by
  rw [StateT.run_bind, h]
  rfl

/-- Runs that are the same have the same results after `f`. -/
theorem Numbered.run_map_congr {α β : Type} {x y : Numbered α} {n m : Nat} (h : x.run n = y.run m)
    (f : α → β) :
    (f <$> x).run n = (f <$> y).run m := by
  rw [StateT.run_map, h, StateT.run_map]

/-! ## What is asked behind them

The runs of the compiler against the closed form. The queries in front of the last hop fail for no
numbers, so a run of `ask` succeeds as soon as its `residual` does. -/

namespace Hop

theorem conjunction?_of_ne_nil (es : List Expr) (hne : es ≠ []) :
    ∃ e, Expr.conjunction? es = some e := by
  cases es with
  | nil => exact absurd rfl hne
  | cons e es => exact ⟨_, rfl⟩

theorem conjunction?_concat {es : List Expr} {e : Expr} (he : Expr.conjunction? es = some e)
    (more : Expr) :
    Expr.conjunction? (es ++ [more]) = some (e.and more) := by
  cases es with
  | nil => cases he
  | cons first es =>
      obtain rfl := Option.some.inj he
      simp [Expr.conjunction?]

variable {p : Laid} {c : Context} {columns : List Expr} {question : Question}
    {residual : Context → Numbered (Option Expr)}

theorem extend_run :
    (c.extend p.hop.target p.binding).run p.number = .ok (.inside p.level c, p.number + 1) := rfl

namespace Joined

theorem selects (hj : p.hop.Joined) : ∃ on, Expr.conjunction? p.equations = some on ∧
    p.hop.Selects p.source (tableAlias p.number) (p.number + 1) p.joins on
      (p.number + numbers [p.hop]) := by
  obtain ⟨on, hon⟩ :=
    conjunction?_of_ne_nil p.equations (by simpa [Laid.equations] using hj.columns)
  refine ⟨on, hon, ?_⟩
  cases hlink : p.hop.linkTable? with
  | none =>
      have hdirect : p.hop.isLinked = false := by simp [isLinked, hlink]
      have hselects : p.hop.Selects p.source (tableAlias p.number) (p.number + 1) [] on
        (p.number + 1) :=
        .direct hlink (by simpa [Laid.equations, hdirect] using hon)
      simpa [Laid.joins, hlink, numbers, hdirect] using hselects
  | some link =>
      have hlinked : p.hop.isLinked = true := by simp [isLinked, hlink]
      obtain ⟨join, hjoin⟩ := conjunction?_of_ne_nil (p.linkEquations link)
        (by simpa [Laid.linkEquations] using hj.link link hlink)
      have hselects : p.hop.Selects p.source (tableAlias p.number) (p.number + 1)
          [.mk link.table (some (tableAlias (p.number + 1))) join] on (p.number + 1 + 1) :=
        .linked hlink hjoin (by simpa [Laid.equations, hlinked] using hon)
      simpa [Laid.joins, hlink, hjoin, numbers, hlinked] using hselects

/-- The `query` of a hop with columns to join on does not fail. -/
theorem query_run (hj : p.hop.Joined) :
    (p.hop.query columns p.source (tableAlias p.number)).run (p.number + 1) =
      .ok (p.query columns none, p.number + numbers [p.hop]) := by
  obtain ⟨on, hon, hselects⟩ := hj.selects
  refine query_ok.mpr ⟨p.joins, on, hselects, ?_⟩
  simp [Laid.query, selection, asked, hon]

theorem query_filter (hj : p.hop.Joined) (e : Expr) :
    (p.query columns none).filter e = p.query columns (some e) := by
  obtain ⟨on, hon, -⟩ := hj.selects
  simp [Laid.query, Select.filter, hon, conjunction?_concat hon]

/-- `someRow` compiles the `residual` once, after its query has taken its numbers. -/
theorem someRow_run (hj : p.hop.Joined) :
    (someRow p.binding residual c p.source p.hop).run p.number =
      (p.exist <$> residual (.inside p.level c)).run (p.number + numbers [p.hop]) := by
  rw [someRow, Numbered.run_bind_of extend_run]
  rw [show (Context.inside p.level c).level.label = tableAlias p.number from rfl]
  rw [Numbered.run_bind_of hj.query_run, map_eq_pure_bind]
  congr 1
  congr 1
  funext x
  cases x with
  | none => rfl
  | some e => rw [Laid.exist, ← hj.query_filter]

theorem countRows_run (hj : p.hop.Joined) (hp : p.binding = .navigation none) :
    (countRows c p.source p.hop).run p.number =
      .ok (.scalar (p.query [.countAll] none), p.number + numbers [p.hop]) := by
  rw [countRows, ← hp, Numbered.run_bind_of extend_run]
  rw [show (Context.inside p.level c).level.label = tableAlias p.number from rfl]
  rw [Numbered.run_bind_of hj.query_run]
  rfl

end Joined

/-- The hops in front of the last one put queries around what is asked behind it (`enclosed`), and
levels around the context in which it is asked (`deepened`). -/
theorem ask_concat (hjoined : ∀ h ∈ init, h.Joined) :
    (some <$> ask question c source (init ++ [last])).run n =
      ((fun e => enclosed (laid (.navigation none) source n init) (some e)) <$>
        question (c.deepened ((laid (.navigation none) source n init).map (·.level)))
          (sourceAt (init ++ [last]) source n init.length) last).run (n + numbers init) := by
  induction init generalizing c source n with
  | nil => rfl
  | cons h rest ih =>
      have hask : ask question c source (h :: rest ++ [last]) = someRow (.navigation none)
          (fun inner =>
            some <$> ask question inner inner.level.label (rest ++ [last])) c source h := by
        simp only [map_eq_pure_bind]
        cases rest <;> rfl
      -- The other hops begin from the alias of this one, with the numbers that it leaves.
      let p : Laid := ⟨h, source, n, .navigation none⟩
      have hj : p.hop.Joined := hjoined h List.mem_cons_self
      have hrow : laid (.navigation none) source n (h :: rest) =
        p :: laid (.navigation none) (tableAlias n) (n + numbers [h]) rest := laid_cons
      have hnumbers : n + numbers [h] + numbers rest = n + numbers (h :: rest) := by
        rw [Nat.add_assoc, ← numbers_cons]
      calc (some <$> ask question c source (h :: rest ++ [last])).run n
        _ = ((some ∘ p.exist) <$> some <$>
          ask question (.inside p.level c) (tableAlias n) (rest ++ [last])).run
              (n + numbers [h]) := by
            rw [hask, comp_map]
            exact Numbered.run_map_congr hj.someRow_run some
        _ = _ := by
            rw [Numbered.run_map_congr (ih fun g hg => hjoined g (List.mem_cons_of_mem _ hg)),
              ← comp_map, hnumbers, hrow, List.map_cons, List.length_cons, List.cons_append,
              sourceAt_cons]
            rfl

theorem enclosed_concat {row : List Laid} {e? : Option Expr} :
    enclosed (row ++ [p]) e? = enclosed row (some (p.exist e?)) := by
  rw [enclosed, List.foldr_append]
  rfl

theorem deepened_concat {levels : List Level} {l : Level} :
    c.deepened (levels ++ [l]) = .inside l (c.deepened levels) := by
  rw [Context.deepened, List.foldl_append]
  rfl

/-- **Hops become nested queries**, one for each hop. The first is joined with the rows of the
`anchor`, and each other one with the rows of the query around it. The `residual` is compiled once,
in the context of all levels, after each query has taken its numbers. The innermost query has it as
its condition, if there is one, and each other query has the next one as its condition. Where rows
are counted, the innermost query is their number, and nothing else is compiled. -/
theorem ask_nested (parent anchor : Context) (binding : Binding)
    (residual : Context → Numbered (Option Expr)) (hne : hops ≠ []) (hjoined : ∀ h ∈ hops, h.Joined)
    (n : Nat) :
    (some <$> ask (someRow binding residual) parent anchor.level.label hops).run n =
      (enclosed (laid binding anchor.level.label n hops) <$>
        residual (parent.deepened ((laid binding anchor.level.label n hops).map (·.level)))).run
        (n + numbers hops) ∧
    (some <$> ask countRows parent anchor.level.label hops).run n =
      .ok (enclosed (laid (.navigation none) anchor.level.label n hops).dropLast
        ((laid (.navigation none) anchor.level.label n hops).getLast?.map fun p =>
          .scalar (p.query [.countAll] none)), n + numbers hops) := by
  -- The question is put behind the last hop; those in front of it only lead there.
  obtain ⟨init, last, rfl⟩ : ∃ init last, hops = init ++ [last] :=
    ⟨hops.dropLast, hops.getLast hne, (List.dropLast_concat_getLast hne).symm⟩
  have hinit : ∀ h ∈ init, h.Joined := fun h hh => hjoined h (List.mem_append_left _ hh)
  let p (binding : Binding) : Laid :=
    ⟨last, sourceAt (init ++ [last]) anchor.level.label n init.length, n + numbers init, binding⟩
  have hp (binding : Binding) : (p binding).hop.Joined := hjoined last (by simp)
  have hrow (binding : Binding) : laid binding anchor.level.label n (init ++ [last]) =
    laid (.navigation none) anchor.level.label n init ++ [p binding] := laid_concat
  have hnumbers : n + numbers init + numbers [last] = n + numbers (init ++ [last]) := by
    rw [Nat.add_assoc, ← numbers_concat]
  constructor
  · have hlast : enclosed (laid binding anchor.level.label n (init ++ [last])) =
        (fun e => enclosed (laid (.navigation none) anchor.level.label n init) (some e)) ∘
          (p binding).exist := by
      funext e?
      rw [hrow, enclosed_concat, Function.comp_apply]
    rw [ask_concat hinit, hlast, comp_map, hrow, List.map_append, List.map_singleton,
      deepened_concat, ← hnumbers]
    exact Numbered.run_map_congr (hp binding).someRow_run _
  · rw [ask_concat hinit, StateT.run_map, (hp (.navigation none)).countRows_run rfl, hrow,
      List.dropLast_concat, List.getLast?_concat, ← hnumbers]
    rfl

/-- From a team across a link table to its members, and from these by two columns to the keys they
hold. -/
def heldKeys : List Hop :=
  [⟨"Members", .complexCollection ⟨none, "person"⟩ ⟨"Person", [], []⟩,
      .association ⟨"Members", "Person", .toMany, [⟨"id", "team_id"⟩],
        some ⟨⟨none, "membership"⟩, [⟨"person_id", "id"⟩]⟩⟩, "", 1⟩,
    ⟨"Keys", .primitiveCollection ⟨none, "held"⟩ "number" .int,
      .collection [⟨"site", "site"⟩, ⟨"id", "person_id"⟩], "home_", 2⟩]

def team : Context :=
  .root ⟨.complexCollection ⟨none, "team"⟩ ⟨"Team", [], []⟩, 0, .root⟩

/-- Inside the scores of a team, with the alias `t3`. -/
def scored : Context :=
  .inside ⟨.primitiveCollection ⟨none, "score"⟩ "points" .int, 3, .element "s"⟩ team

/-- Asks that a row of `held` has a number. -/
def hasNumber (inner : Context) : Numbered (Option Expr) :=
  return some (.isNotNull (.qualified inner.level.label "number"))

theorem nested_heldKeys : heldKeys ≠ [] ∧ (∀ h ∈ heldKeys, h.Joined) ∧
    (some <$> ask (someRow (.element "k") hasNumber) scored team.level.label heldKeys).run 4 =
      (enclosed (laid (.element "k") team.level.label 4 heldKeys) <$>
        hasNumber (scored.deepened
          ((laid (.element "k") team.level.label 4 heldKeys).map (·.level)))).run
          (4 + numbers heldKeys) ∧
    (some <$> ask countRows scored team.level.label heldKeys).run 4 =
      .ok (enclosed (laid (.navigation none) team.level.label 4 heldKeys).dropLast
        ((laid (.navigation none) team.level.label 4 heldKeys).getLast?.map fun p =>
          .scalar (p.query [.countAll] none)), 4 + numbers heldKeys) := by
  have hne : heldKeys ≠ [] := by decide
  have hjoined : ∀ h ∈ heldKeys, h.Joined := by
    intro h hh
    simp only [heldKeys, List.mem_cons, List.not_mem_nil, or_false] at hh
    rcases hh with rfl | rfl
    · exact ⟨by decide, by decide⟩
    · exact ⟨by decide, by decide⟩
  exact ⟨hne, hjoined, ask_nested scored team (.element "k") hasNumber hne hjoined 4⟩

/-- The link table has the alias next to that of its query, and `columnLead` belongs to the side
that is left. -/
example : (ask (someRow (.element "k") hasNumber) scored "t0" heldKeys).run 4 = .ok (
    .hasRows (.mk [.constant (.int 1)] (some (⟨none, "person"⟩, some "t4"))
      [.mk ⟨none, "membership"⟩ (some "t5")
        ((Expr.qualified "t5" "person_id").equal (.qualified "t4" "id"))]
      (some (((Expr.qualified "t5" "team_id").equal (.qualified "t0" "id")).and
        (.hasRows (.mk [.constant (.int 1)] (some (⟨none, "held"⟩, some "t6")) []
          (some ((((Expr.qualified "t6" "site").equal (.qualified "t4" "home_site")).and
            ((Expr.qualified "t6" "person_id").equal (.qualified "t4" "home_id"))).and
              (.isNotNull (.qualified "t6" "number"))))))))), 7) :=
  rfl

end Hop

end FilterSql
