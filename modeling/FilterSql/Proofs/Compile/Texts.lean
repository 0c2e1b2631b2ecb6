import FilterSql.Proofs.Compile.Vocabulary
import FilterSql.Sql.Text

/-!
# Texts of compiled filters

No text of a filter gets into the text of a query. The words of a query are known beforehand
(`Emitted.words_known`). Two filters with one `Filter.skeleton` are compiled to expressions of one
shape (`Emitted.sameShape`), and these are written as one text in each dialect, with as many
parameters (`Schema.compile_text`).
-/

namespace FilterSql

open Sql (Expr Select Piece)

/-! ## Pieces

An expression is written as a list of pieces, texts and parameters. Its `shape` forgets the values
of the parameters; a statement depends on them for its parameters only, as a placeholder shows its
position and not its value. -/

namespace Sql

/-- The text of a piece, `none` for a parameter. -/
def Piece.text? : Piece → Option String
  | text s => some s
  | parameter _ => none

/-- The texts of the pieces, with gaps for the parameters. -/
def shape (ps : List Piece) : List (Option String) :=
  ps.map Piece.text?

variable {ps qs : List Piece}

/-- Pieces with one `shape` are joined to one text. -/
theorem joinText_eq_of_shape (d : Dialect) (n : Nat) (h : shape ps = shape qs) :
    joinText d n ps = joinText d n qs := by
  induction ps generalizing qs n with
  | nil =>
      obtain rfl : qs = [] := by simpa [shape] using h.symm
      rfl
  | cons p ps ih =>
      cases qs with
      | nil => simp [shape] at h
      | cons q qs =>
          obtain ⟨hfirst, hrest⟩ := List.cons.inj h
          cases p with
          | text t =>
              cases q with
              | text t' =>
                  obtain rfl : t = t' := Option.some.inj hfirst
                  rw [joinText, joinText, ih n hrest]
              | parameter v => cases hfirst
          | parameter v =>
              cases q with
              | text t => cases hfirst
              | parameter w => rw [joinText, joinText, ih (n + 1) hrest]

theorem length_parameters_eq_of_shape (h : shape ps = shape qs) :
    (parameters ps).length = (parameters qs).length := by
  have hcount (ps : List Piece) : (parameters ps).length = (shape ps).count none := by
    induction ps with
    | nil => rfl
    | cons p ps ih =>
        rw [shape] at ih ⊢
        cases p with
        | text t =>
            rw [parameters, ih, List.map_cons, Piece.text?,
              List.count_cons_of_ne (Option.some_ne_none t)]
        | parameter v =>
            rw [parameters, List.length_cons, ih, List.map_cons, Piece.text?, List.count_cons_self]
  rw [hcount, hcount, h]

/-- `SameShape d e e'`: the two expressions are written with one shape in the dialect `d`. -/
def SameShape (d : Dialect) (e e' : Expr) : Prop :=
  shape (e.pieces d) = shape (e'.pieces d)

theorem shape_append : shape (ps ++ qs) = shape ps ++ shape qs :=
  List.map_append

theorem shape_cons (p : Piece) : shape (p :: ps) = p.text? :: shape ps := rfl

theorem listPieces_shape (d : Dialect) (pairs : List (Expr × Expr))
    (h : ∀ pair ∈ pairs, SameShape d pair.1 pair.2) :
    shape (listPieces d (pairs.map (·.1))) = shape (listPieces d (pairs.map (·.2))) := by
  induction pairs with
  | nil => rfl
  | cons pair rest ih =>
      have hfirst := h pair List.mem_cons_self
      have hrest := ih fun pair hpair => h pair (List.mem_cons_of_mem _ hpair)
      cases rest with
      | nil => exact hfirst
      | cons next rest =>
          simp only [List.map_cons, listPieces, shape_append, shape_cons] at hrest ⊢
          rw [hfirst, hrest]

end Sql

open Sql (SameShape)

/-! ## Expressions

What one step builds has one shape if its parts have (`Sql.Expr.Alike`, and `Hop.selection` for a
query), so two expressions that were built alike have one shape at every depth. -/

/-- Two expressions that are `Alike` have one shape if their parts have. -/
theorem Sql.Expr.Alike.sameShape {functions : List String} {ps : List (Expr × Expr)} {e e' : Expr}
    {d : Dialect} (h : e.Alike functions ps e') (hparts : ∀ part ∈ ps, SameShape d part.1 part.2) :
    SameShape d e e' := by
  induction h with
  | part e e' => exact hparts _ (List.mem_singleton_self _)
  | parameter | constant | now => rfl
  | binary _ _ _ ihl ihr | position _ _ ihl ihr | like _ _ _ ihl ihr =>
      have hl := ihl fun part hpart => hparts part (List.mem_append_left _ hpart)
      have hr := ihr fun part hpart => hparts part (List.mem_append_right _ hpart)
      simp only [SameShape, Expr.pieces, shape_append, shape_cons] at hl hr ⊢
      rw [hl, hr]
  | not _ ih | isNull _ ih | isNotNull _ ih | extract _ _ ih | cast _ _ ih =>
      have hsame := ih hparts
      simp only [SameShape, Expr.pieces, shape_append, shape_cons] at hsame ⊢
      rw [hsame]
  | @function name hname args hargs ih =>
      have hlist : Sql.shape (Sql.listPieces d (args.map (·.2.1))) =
        Sql.shape (Sql.listPieces d (args.map (·.2.2))) := by
        have hshape := Sql.listPieces_shape d (args.map (·.2)) (by
          intro pair hpair
          obtain ⟨arg, harg, rfl⟩ := List.mem_map.mp hpair
          exact ih arg harg fun part hpart => hparts part (List.mem_flatMap.mpr ⟨arg, harg, hpart⟩))
        simpa [Function.comp_def] using hshape
      simp only [SameShape, Expr.pieces, shape_append, shape_cons]
      rw [hlist]
  | reorder hperm _ ih => exact ih fun part hpart => hparts part (hperm.mem_iff.mp hpart)

theorem Hop.selection_sameShape {h : Hop} {columns : List Expr} {own : String}
    {joins : List Sql.Join} {on x x' : Expr} {d : Dialect} (hx : SameShape d x x') :
    SameShape d (.hasRows (h.selection columns own joins on (some x)))
      (.hasRows (h.selection columns own joins on (some x'))) := by
  simp only [SameShape] at hx
  simp only [SameShape, selection, asked, Expr.and, Expr.pieces, Select.pieces, Sql.shape_append,
    Sql.shape_cons, hx]

/-- Two expressions that are `Emitted` together have one shape in each dialect. -/
theorem Emitted.sameShape {s : Schema} {c : Context} {ns : List Nat} {e e' : Expr} (d : Dialect)
    (h : Emitted s c ns e e') : SameShape d e e' := by
  induction h with
  | column | anyRow | countRows => rfl
  | combined parts hform _ ih =>
      apply hform.sameShape
      intro pair hpair
      obtain ⟨part, hpart, rfl⟩ := List.mem_map.mp hpair
      exact ih part hpart
  | someRow _ _ _ _ ih => exact Hop.selection_sameShape ih

/-! ## Whole filters

The equal skeletons bring the two compilations together, and the words are those of the first
one. -/

/-- **Texts of a filter stay out of the query**: its words are aliases, names of the schema, and
fixed functions and constants; and a filter with the same `skeleton`, which differs in the texts of
strings alone and has special characters in the same patterns, is written as the same text with as
many parameters. -/
theorem Schema.compile_text {s : Schema} {entity : String} {f : Filter} {e : Expr}
    (h : s.compile entity f = .ok e) :
    (∀ w ∈ e.words, w.Known s) ∧
      ∀ g e', f.skeleton false = g.skeleton false → s.compile entity g = .ok e' →
        ∀ d, (e.statement d).sql = (e'.statement d).sql ∧
          (e.statement d).params.length = (e'.statement d).params.length := by
  constructor
  · -- One run stands beside itself here.
    obtain ⟨type, m, -, -, hemitted⟩ := compile_emitted rfl h h
    exact hemitted.words_known
  · intro g e' hskeleton hg d
    obtain ⟨type, m, -, -, hemitted⟩ := compile_emitted hskeleton h hg
    have hshape := hemitted.sameShape d
    have htext : (e.statement d).sql = (e'.statement d).sql :=
      congrArg String.join (Sql.joinText_eq_of_shape d 0 hshape)
    exact ⟨htext, Sql.length_parameters_eq_of_shape hshape⟩

theorem Schema.text_roleLike : ∃ e e', sample.compile "User" (.roleLike "x") = .ok e ∧
    sample.compile "User" (.roleLike "y") = .ok e' ∧ (∀ w ∈ e.words, w.Known sample) ∧
      ∀ d, (e.statement d).sql = (e'.statement d).sql ∧
        (e.statement d).params.length = (e'.statement d).params.length := by
  refine ⟨_, _, rfl, rfl, ?_⟩
  obtain ⟨hknown, hsame⟩ :=
    compile_text (show sample.compile "User" (.roleLike "x") = .ok _ from rfl)
  exact ⟨hknown, hsame (.roleLike "y") _ rfl rfl⟩

end FilterSql
