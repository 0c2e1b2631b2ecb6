import FilterSql.Proofs.Filter.Levels
import FilterSql.Proofs.Filter.WellFormed

/-!
# Reading what was printed

Each printing of a well-formed filter is read as that filter, whatever blanks it has (`readable`).
A leaf is read by its own alternative, since no earlier one fits its text; a call or a path is read
element by element; and the operators are the matter of `Grammar.Readable`. What `Filter.read?`
gives is well-formed, so it is read again from each of its printings (`Filter.read_printed`).
-/

namespace FilterSql

open Lexeme (mark word separated bracketed)
open Token (skipSpace isSpace stops Whole Free Closed)

namespace Grammar

variable {s t u : List Char} {x : String} {ls rest : List Lexeme} {ds : List Char} {f : Filter}
    {k : Nat}

/-! ## Leaves

A literal is printed as one token. The grammar tries the kinds of literals in a fixed order, so the
tokens of a later kind must not begin with one of an earlier kind (`Token.leading_exclusive`). -/

theorem unquotedAt_read {x : String} {kind : LiteralKind} {p : Token.Pattern}
    {ps : List (LiteralKind × Token.Pattern)}
    (hps : ps.Pairwise fun y z => ∀ s, z.2 s = some s.length → y.2 s = none) (hmem : (kind, p) ∈ ps)
    (hx : Whole p x) (hne : x.toList ≠ []) (hclosed : ∀ y ∈ ps, ∀ d ∈ u.head?, Closed d y.2) :
    unquotedAt (x.toList ++ u) ps = some (.literal ⟨x, kind⟩, u) := by
  induction ps with
  | nil => cases hmem
  | cons y ps ih =>
      obtain ⟨hy, hps⟩ := List.pairwise_cons.mp hps
      obtain ⟨hyclosed, hclosed⟩ := List.forall_mem_cons.mp hclosed
      rw [unquotedAt]
      rcases List.mem_cons.mp hmem with rfl | hmem
      · rw [tokenAt_whole hx hne hyclosed]
        rfl
      · rw [tokenAt_none ((Closed.append hyclosed _).trans (hy _ hmem _ hx)), ih hps hmem hclosed]
        rfl

/-- Directly behind an operand there is a blank or one of `Token.stops`, and no quotation mark. -/
theorem Ends.stops (h : Ends k rest) {l : Lexeme} (hlaid : Laid rest u)
    (hapart : l.apart rest → ∃ c ∈ u.head?, isSpace c) :
    ∀ d ∈ u.head?, d ∈ Token.stops ∧ d ≠ '\'' := by
  intro d hd
  rcases h.follows.behind hlaid hapart d hd with hspace | hmark
  · refine ⟨mem_stops_of_isSpace hspace, ?_⟩
    rintro rfl
    cases hspace
  · have hmarks : ∀ c ∈ [')', ','], c ∈ Token.stops ∧ c ≠ '\'' := by simp [Token.stops]
    exact hmarks d hmark

/-- A string in quotation marks is `Readable`: no alternative in front of the one for strings takes
it. -/
theorem readable_string (x : String) : Readable (.literal ⟨x, .string⟩) := by
  refine .of_primary fun rest t hends hlaid => ?_
  rw [Filter.lexemes, List.singleton_append] at hlaid
  have hfront : (Text.quote '\'' x).toList = '\'' :: (Text.double '\'' x.toList ++ ['\'']) := by
    rw [Text.quote, String.toList_ofList, List.cons_append]
  obtain ⟨u, hu, hapart, hrest⟩ := hlaid.front ⟨'\'', _, hfront, rfl⟩
  have hu : skipSpace t = (Text.quote '\'' x).toList ++ u := hu
  have hquote : u.head? ≠ some '\'' := fun hhead => (hends.stops hrest hapart _ hhead).2 rfl
  have hleading : ∀ a ∈ Token.leading, a (skipSpace t) = none := by
    rw [hu, hfront]
    exact Token.leading_of_mark rfl (by decide) _
  refine ⟨sign_none hleading, u, ?_, hrest⟩
  rw [primary_run, grouped_none (by rw [hu, hfront]; simp), literal_run,
    tokenAt_none (hleading _ (by simp [Token.leading])), unquotedAt_none fun y hy =>
      hleading _ (mem_leading hy), hu, quotedAt_quote hquote]
  rfl

/-- A token of its own kind is `Readable`, as nothing that is tried before takes it
(`leading_exclusive`). -/
theorem readable_token {f : Filter} {x : String} {p : Token.Pattern}
    (hf : f.lexemes = [{ text := x }]) (hp : p ∈ Token.leading.drop 2) (hx : Whole p x)
    (hread : ∀ u, (∀ y ∈ Token.leading, ∀ d ∈ u.head?, Closed d y) →
      (literal (x.toList ++ u)).run = some (f, u)) :
    Readable f := by
  refine .of_primary fun rest t hends hlaid => ?_
  rw [hf, List.singleton_append] at hlaid
  obtain ⟨c, v, hshape, hc⟩ := Token.leading_front (List.mem_of_mem_drop hp) hx
  have hsolid : isSpace c = false := by
    rcases hc with hname | rfl
    · exact Token.isSpace_of_isNameChar hname
    · rfl
  obtain ⟨u, hu, hapart, hrest⟩ := hlaid.front ⟨c, v, hshape, hsolid⟩
  have hclosed : ∀ y ∈ Token.leading, ∀ d ∈ u.head?, Closed d y := fun y hy d hd =>
    Token.closed_leading (hends.stops hrest hapart d hd).1 y hy
  obtain ⟨hnot, hpairwise⟩ := List.pairwise_cons.mp Token.leading_exclusive
  obtain ⟨hminus, -⟩ := List.pairwise_cons.mp hpairwise
  have hu : skipSpace t = x.toList ++ u := hu
  have hopen : (skipSpace t).head? ≠ some '(' := by
    rw [hu, hshape]
    rintro ⟨⟩
    rcases hc with hname | h
    · cases hname
    · cases h
  -- Signs are tried first, and no text of a literal begins with one.
  have hsign : sign (skipSpace t) = none := by
    have hnot : Token.notWord (x.toList ++ u) = none :=
      (Closed.append (hclosed _ (by simp [Token.leading])) _).trans
        (hnot p (List.mem_cons_of_mem _ hp) _ hx)
    have hminus : Token.minusSign (x.toList ++ u) = none :=
      (Closed.append (hclosed _ (by simp [Token.leading])) _).trans (hminus p hp _ hx)
    rw [hu, sign, tokenAt_none hnot, tokenAt_none hminus]
    rfl
  refine ⟨hsign, u, ?_, hrest⟩
  rw [primary_run, grouped_none hopen, hu, hread u hclosed]
  rfl

theorem readable_literal {l : Literal} (hl : l.Spelled) : Readable (.literal l) := by
  rcases hl with hstring | rfl | ⟨p, hp, hx⟩
  · obtain ⟨x, kind⟩ := l
    cases hstring
    exact readable_string x
  · refine readable_token (p := Token.null) (x := "null") rfl (by simp [Token.leading])
      (by decide) fun u hclosed => ?_
    rw [literal_run, tokenAt_whole (by decide) (by decide) (hclosed _ (by simp [Token.leading]))]
    rfl
  · have hwritten : l.written = l.text := by
      obtain ⟨x, kind⟩ := l
      cases kind <;> first | rfl | exact absurd hp (by simp [Token.unquoted])
    have hne : l.text.toList ≠ [] := by
      obtain ⟨c, v, hshape, -⟩ := Token.leading_front (mem_leading hp) hx
      rw [hshape]
      exact List.cons_ne_nil c v
    obtain ⟨hnull, hpairwise⟩ :=
      List.pairwise_cons.mp
        (List.pairwise_cons.mp (List.pairwise_cons.mp Token.leading_exclusive).2).2
    refine readable_token (p := p) (x := l.text) ?_ ?_ hx fun u hclosed => ?_
    · rw [Filter.lexemes, hwritten]
    · exact List.mem_cons_of_mem _ (List.mem_map_of_mem (f := Prod.snd) hp)
    · have hnull : Token.null (l.text.toList ++ u) = none :=
        (Closed.append (hclosed _ (by simp [Token.leading])) _).trans
          (hnull p (List.mem_map_of_mem (f := Prod.snd) hp) _ hx)
      rw [literal_run, tokenAt_none hnull,
        unquotedAt_read (List.pairwise_map.mp hpairwise) hp hx hne
        fun y hy => hclosed _ (mem_leading hy)]
      rfl

/-! ## Names in front

A type, an alias, a member of an enum type, a call and a path all begin with a name. What follows
the name decides between them. -/

/-- At a name that is `Free`, both `sign` and `literal` fail. -/
theorem front_of_name (hx : Whole Token.qualifiedName x) (hfree : Free x.toList)
    (hnext : Follows ds rest) (h : Laid ({ text := x } :: rest) t) :
    ∃ u, skipSpace t = x.toList ++ u ∧ Laid rest u ∧
      tokenAt Token.qualifiedName (x.toList ++ u) = some (x, u) ∧
      (∀ d ∈ u.head?, d ∈ ':' :: stops) ∧ sign (skipSpace t) = none ∧
      (primary (skipSpace t)).run =
        (call (skipSpace t)).run.or
          ((typeName (skipSpace t)).run.or (member (skipSpace t)).run) := by
  obtain ⟨n, hn⟩ := Token.name_of_qualifiedName hx
  obtain ⟨u, hu, hrest, hbehind, hquote⟩ := h.lexeme (Lexeme.solid_name hn) hnext
  have hclosed : ∀ d ∈ u.head?, Closed d Token.qualifiedName :=
    fun d hd => Token.closed_qualifiedName (hbehind d hd)
  obtain ⟨m, hm⟩ := Token.name_of_qualifiedName ((Closed.append hclosed _).trans hx)
  refine ⟨u, hu, hrest, tokenAt_whole hx (name_ne_nil hn) hclosed, hbehind, ?_, ?_⟩
  · rw [hu]
    exact sign_none (Token.leading_of_name hx hfree hbehind)
  · rw [hu, primary_of_name hm, literal_of_name hx hfree hbehind hquote, Option.none_or]

theorem readable_typeName (hx : Whole Token.typeName x) (hfree : Free x.toList) :
    Readable (.typeName x) := by
  refine .of_primary fun rest t hends hlaid => ?_
  rw [Filter.lexemes, List.singleton_append] at hlaid
  have hqualified : Whole Token.qualifiedName x := Token.qualifiedName_of_typeName hx
  obtain ⟨u, hu, hrest, hname, hbehind, hsign, hprimary⟩ :=
    front_of_name hqualified hfree hends.follows hlaid
  obtain ⟨n, hn⟩ := Token.name_of_qualifiedName hqualified
  have hcalled : called (x.toList ++ u) = none :=
    called_none_of_bracket hname (hends.follows.head_ne hrest (by decide) rfl)
  have htype : tokenAt Token.typeName (x.toList ++ u) = some (x, u) :=
    tokenAt_whole hx (name_ne_nil hn) fun d hd => Token.closed_typeName (hbehind d hd)
  refine ⟨hsign, u, ?_, hrest⟩
  rw [hprimary, hu, call_none hcalled, typeName_run, htype]
  rfl

theorem readable_parameterAlias (hx : Whole Token.name x) : Readable (.parameterAlias x) := by
  refine .of_primary fun rest t hends hlaid => ?_
  rw [Filter.lexemes, List.singleton_append] at hlaid
  have hshape : ("@" ++ x).toList = '@' :: x.toList := String.toList_append
  obtain ⟨u, hu, hrest, hbehind, -⟩ := hlaid.lexeme ⟨'@', _, hshape, rfl⟩ hends.follows
  have hclosed : ∀ d ∈ u.head?, Closed d Token.parameterAlias := fun d hd =>
    .seq (.exactly (Token.not_mem_of_stops (by decide) (hbehind d hd)))
      (.seq (Token.closed_name (hbehind d hd)) .nil)
  have hwhole : Whole Token.parameterAlias ("@" ++ x) := by
    rw [Whole, hshape, Token.parameterAlias, Token.row_cons, Token.row_single]
    refine Token.seq_eq_some.mpr ⟨1, Token.exactly_eq_some.mpr ⟨List.prefix_append ['@'] _, rfl⟩,
      _, hx, ?_⟩
    rw [List.length_cons, Nat.add_comm]
  have htoken := tokenAt_whole hwhole (by rw [hshape]; simp) hclosed
  rw [hshape, List.cons_append] at hu htoken
  -- Nothing else begins with the mark, so all the alternatives that are tried before fail.
  have hname : Token.name ('@' :: (x.toList ++ u)) = none := name_none rfl
  have hleading := Token.leading_of_mark (c := '@') rfl (by decide) (x.toList ++ u)
  refine ⟨hu ▸ sign_none hleading, u, ?_, hrest⟩
  rw [hu, primary_run, grouped_none (by simp), literal_unquoted_none hleading (by simp),
    enumMember_none (qualifiedName_none hname), call_none (called_none (qualifiedName_none hname)),
    typeName_run_none (typeName_none hname), parameterAlias_run, htoken]
  show some (Filter.parameterAlias (String.ofList ("@" ++ x).toList.tail), u) = _
  rw [hshape, List.tail_cons, String.ofList_toList]

theorem readable_enumMember {member : String} (hx : Whole Token.qualifiedName x)
    (hfree : Free x.toList) :
    Readable (.enumMember x member) := by
  refine .of_primary fun rest t hends hlaid => ?_
  rw [Filter.lexemes, List.singleton_append] at hlaid
  obtain ⟨n, hn⟩ := Token.name_of_qualifiedName hx
  obtain ⟨c, v, hshape, hc⟩ := Token.name_front hn
  have htext : (x ++ Text.quote '\'' member).toList =
    c :: (v ++ (Text.quote '\'' member).toList) := by
    rw [String.toList_append, hshape, List.cons_append]
  obtain ⟨u, hu, hrest, -, hquote⟩ :=
    hlaid.lexeme ⟨c, _, htext, Token.isSpace_of_isNameStart hc⟩ hends.follows
  rw [String.toList_append, List.append_assoc] at hu
  have hbehind : ∀ d ∈ ((Text.quote '\'' member).toList ++ u).head?, d ∈ ':' :: stops := by
    rw [Text.quote, String.toList_ofList]
    rintro d ⟨⟩
    decide
  have hclosed : ∀ d ∈ ((Text.quote '\'' member).toList ++ u).head?, Closed d Token.qualifiedName :=
    fun d hd =>
    Token.closed_qualifiedName (hbehind d hd)
  have hleading := Token.leading_of_name hx hfree hbehind
  have hfront : (x.toList ++ ((Text.quote '\'' member).toList ++ u)).head? ≠ some '\'' := by
    rw [hshape]
    rintro ⟨⟩
    cases hc
  -- The quote directly behind the name tells the member from a path that starts with the same name.
  obtain ⟨m, hm⟩ := Token.name_of_qualifiedName ((Closed.append hclosed _).trans hx)
  refine ⟨hu ▸ sign_none hleading, u, ?_, hrest⟩
  rw [hu, primary_of_name hm, literal_unquoted_none hleading hfront, enumMember_run,
    tokenAt_whole hx (name_ne_nil hn) hclosed]
  simp only [Option.bind_some, quotedAt_quote hquote, Option.map_some, Option.some_or]

/-! ## Rows of elements

Arguments and segments are read by one scheme, so the induction on a row is made once. -/

/-- If `p` reads one element, and `q` reads the following ones behind the mark `c` by means of `p`,
then `q` reads a row of them. -/
theorem more_reads {α : Type} {p : (s : List Char) → Parsed s α}
    {q : (s : List Char) → Tail s (List α)} {lexemes : α → List Lexeme} {After : List Lexeme → Prop}
    {c : Char} (hc : isSpace c = false)
    (hend : ∀ s : List Char, s.head? ≠ some c → (q s).run = ([], s))
    (hmore : ∀ s a r, (p (skipSpace s)).run = some (a, r) →
      (q (c :: s)).run = (a :: (q (skipSpace r)).run.1, (q (skipSpace r)).run.2))
    (hafter : ∀ ls, After (mark c :: ls)) (hrest : After rest) (hsolid : ∀ l ∈ rest.head?, l.Solid)
    (hother : ∀ t, Laid rest t → (skipSpace t).head? ≠ some c) {as : List α}
    (hitems : ∀ a ∈ as, Reads p After (lexemes a) a)
    (h : Laid (as.flatMap (fun a => mark c :: lexemes a) ++ rest) t) :
    ∃ r, (q (skipSpace t)).run = (as, r) ∧ Laid rest r := by
  -- By induction on the items. Behind each of them stands the mark of the next one, or what is
  -- behind all of them.
  induction as generalizing t with
  | nil => exact ⟨skipSpace t, hend _ (hother t h), h.skipped hsolid⟩
  | cons a as ih =>
      obtain ⟨ha, has⟩ := List.forall_mem_cons.mp hitems
      rw [List.flatMap_cons, List.cons_append, List.cons_append, List.append_assoc] at h
      have hnext : After (as.flatMap (fun a => mark c :: lexemes a) ++ rest) := by
        cases as with
        | nil => exact hrest
        | cons b as => exact hafter _
      obtain ⟨u, hu, hfirst⟩ := h.mark hc
      obtain ⟨v, hv, hlaid⟩ := ha _ u hnext hfirst
      obtain ⟨r, hr, hlast⟩ := ih has hlaid
      refine ⟨r, ?_, hlast⟩
      rw [hu, hmore u a v hv, hr]

theorem moreArguments_none (h : s.head? ≠ some ',') : (moreArguments s).run = ([], s) := by
  rw [moreArguments_run, nextArgument, behind_none h, Option.bind_none]

theorem moreArguments_cons {a : Argument} (h : (argument (skipSpace s)).run = some (a, u)) :
    (moreArguments (',' :: s)).run =
      (a :: (moreArguments (skipSpace u)).run.1, (moreArguments (skipSpace u)).run.2) := by
  rw [moreArguments_run, nextArgument, behind_self, Option.bind_some, h]

theorem moreSegments_cons {a : Segment} (h : (segment (skipSpace s)).run = some (a, u)) :
    (moreSegments ('/' :: s)).run =
      (a :: (moreSegments (skipSpace u)).run.1, (moreSegments (skipSpace u)).run.2) := by
  rw [moreSegments_run, nextSegment, behind_self, Option.bind_some, h]

/-! ## Calls

A name, an opening bracket and arguments. An argument may have the name of its parameter in front,
which is told from a member by the equals sign behind it. -/

/-- An expression with no equals sign behind it does not begin with a `named` argument. -/
theorem named_none (h : (expression s).run = some (f, u))
    (hequals : (skipSpace u).head? ≠ some '=') : named s = none := by
  cases hnamed : named s with
  | none => rfl
  | some v =>
      obtain ⟨⟨x, r⟩, hx, hmap⟩ := Option.bind_eq_some_iff.mp hnamed
      obtain ⟨w, hw, -⟩ := Option.map_eq_some_iff.mp hmap
      have hskip : skipSpace r = '=' :: w := behind_eq_some.mp hw
      obtain ⟨rfl, hname⟩ := tokenAt_eq_some hx bounded_name
      have hwhole : Whole Token.name x := Token.cuts_name _ _ _ hname (Nat.le_refl _)
      -- As an expression the name would be read up to the equals sign, which does not stand there.
      have hend :=
        expression_alone hwhole (stops_of_skipSpace hskip (by decide)) hskip (by decide) h
      rw [hend] at hequals
      exact absurd rfl hequals

theorem reads_argument {a : Argument} (hspelled : a.Spelled) (hvalue : Readable a.value) :
    Reads argument (Ends Level.or.rank) a.lexemes a := by
  intro rest t hends hlaid
  obtain ⟨_ | name, value⟩ := a
  · obtain ⟨r, hr, hrest⟩ := hvalue.expression rest t hends hlaid
    refine ⟨r, ?_, hrest⟩
    rw [argument_run, named_none hr (hends.follows.head_ne hrest (by decide) rfl), hr]
    rfl
  · have hname : Whole Token.name name := hspelled name rfl
    rw [Argument.lexemes, List.cons_append, List.cons_append] at hlaid
    obtain ⟨u, hu, hequals, hbehind, -⟩ :=
      hlaid.lexeme (Lexeme.solid_name hname) (.of_mark (c := '=') (by decide))
    obtain ⟨v, hv, hexpression⟩ := hequals.mark rfl
    obtain ⟨r, hr, hrest⟩ := hvalue.expression rest v hends hexpression
    refine ⟨r, ?_, hrest⟩
    have hnamed : named (skipSpace t) = some (name, v) := by
      rw [named, hu, tokenAt_name hname hbehind]
      show (behind '=' (skipSpace u)).map _ = _
      rw [hv, behind_self, Option.map_some]
    rw [argument_run, hnamed]
    show (expression (skipSpace v)).run.map _ = _
    rw [hr, Option.map_some]
    rfl

/-- `arguments` reads what is printed between the brackets of a call, which may be nothing. -/
theorem arguments_read {args : List Argument} (hargs : ∀ a ∈ args, a.Spelled ∧ Readable a.value)
    (h : Laid (separated ',' (args.map Argument.lexemes) ++ mark ')' :: rest) t) :
    ∃ r, (arguments (skipSpace t)).run = (args, r) ∧ Laid (mark ')' :: rest) r := by
  have hclose : Ends Level.or.rank (mark ')' :: rest) := .mark (by decide)
  cases args with
  | nil =>
      obtain ⟨u, hu, -⟩ := h.mark rfl
      exact ⟨skipSpace t, by rw [hu, arguments_empty], h.skipped hclose.follows.solid⟩
  | cons a args =>
      obtain ⟨⟨hspelled, hvalue⟩, hmore⟩ := List.forall_mem_cons.mp hargs
      rw [List.map_cons, separated, List.append_assoc, List.flatMap_map] at h
      have hnext : Ends Level.or.rank (args.flatMap (fun a => mark ',' :: a.lexemes) ++
        mark ')' :: rest) := by
        cases args with
        | nil => exact hclose
        | cons b args => exact .mark (by decide)
      obtain ⟨u, hu, hrest⟩ := reads_argument hspelled hvalue _ t hnext h
      obtain ⟨r, hr, hlast⟩ :=
        more_reads rfl (fun _ => moreArguments_none) (fun _ _ _ => moreArguments_cons)
        (fun _ => .mark (by decide)) hclose hclose.follows.solid
        (fun _ ht => (Follows.of_mark (by decide)).head_ne ht (by decide) rfl)
        (fun b hb => reads_argument (hmore b hb).1 (hmore b hb).2) hrest
      refine ⟨r, ?_, hlast⟩
      rw [arguments_run, hu]
      show (a :: (moreArguments (skipSpace u)).run.1, (moreArguments (skipSpace u)).run.2) = _
      rw [hr]

/-- A call is `Readable` if its name is `Free` and its arguments are readable. -/
theorem readable_callOf {args : List Argument} (hx : Whole Token.qualifiedName x)
    (hfree : Free x.toList) (hargs : ∀ a ∈ args, a.Spelled ∧ Readable a.value)
    (hlexemes : f.lexemes = { text := x } :: mark '(' ::
      (separated ',' (args.map Argument.lexemes) ++ [mark ')']))
    (hf : callOf x args = f) : Readable f := by
  refine .of_primary fun rest t hends hlaid => ?_
  rw [hlexemes, List.cons_append, List.cons_append, List.append_assoc, List.singleton_append]
    at hlaid
  obtain ⟨u, hu, hopen, hname, -, hsign, hprimary⟩ :=
    front_of_name hx hfree (.of_mark (c := '(') (by decide)) hlaid
  obtain ⟨v, hv, hinner⟩ := hopen.mark rfl
  obtain ⟨w, hw, hclose⟩ := arguments_read hargs hinner
  obtain ⟨r, hr, hrest⟩ := hclose.mark rfl
  refine ⟨hsign, r, ?_, hrest⟩
  have hcalled : called (skipSpace t) = some (x, v) := by
    rw [called, hu, hname]
    show (behind '(' (skipSpace u)).map _ = _
    rw [hv, behind_self, Option.map_some]
  have hcall : (call (skipSpace t)).run = some (f, r) := by
    rw [call_run, hcalled]
    show (behind ')' (skipSpace (arguments (skipSpace v)).run.2)).map _ = _
    rw [hw, hr, behind_self, Option.map_some, hf]
  rw [hprimary, hcall, Option.some_or]

theorem spelled_word (b : BuiltIn) : Whole Token.qualifiedName b.word ∧ Free b.word.toList := by
  have hname : Token.name b.word.toList = some b.word.toList.length := by cases b <;> decide
  refine ⟨Token.qualifiedName_of_name hname, ?_, ?_, ?_⟩ <;> cases b <;> decide

theorem readable_call {b : BuiltIn} {args : List Filter} (hargs : ∀ a ∈ args, Readable a) :
    Readable (.call b args) := by
  obtain ⟨hname, hfree⟩ := spelled_word b
  have harguments : ∀ a ∈ args.map (Argument.mk none), a.Spelled ∧ Readable a.value := by
    intro a ha
    obtain ⟨value, hvalue, rfl⟩ := List.mem_map.mp ha
    exact ⟨nofun, hargs value hvalue⟩
  refine readable_callOf hname hfree harguments ?_ ?_
  · rw [Filter.lexemes, operandLexemes_eq, List.map_map]
    rfl
  · have hall : (args.map (Argument.mk none)).all (·.name.isNone) := by simp [Argument.name]
    have hvalues : (args.map (Argument.mk none)).map Argument.value = args := by
      rw [List.map_map]
      exact List.map_id args
    rw [callOf, BuiltIn.ofWord?_word, hall, hvalues]

/-! ## Paths

A path is read segment by segment. Quantifiers and functions look alike up to the bracket, so a
segment that begins like a quantifier is no call only because of the colon behind its variable. -/

theorem quantified_read (hx : Whole Token.name x) (h : Laid ({ text := x } :: mark '(' :: rest) t) :
    ∃ r, quantified x (skipSpace t) = some r ∧ Laid rest r := by
  obtain ⟨u, hu, hopen, -⟩ := h.lexeme (Lexeme.solid_name hx) (.of_mark (c := '(') (by decide))
  obtain ⟨v, hv, hrest⟩ := hopen.mark rfl
  refine ⟨v, ?_, hrest⟩
  rw [quantified, hu, tokenAt_self (name_ne_nil hx)]
  show behind '(' (skipSpace u) = _
  rw [hv, behind_self]

theorem abstraction_read (hx : Whole Token.name x) (hf : Readable f)
    (h : Laid ({ text := x } :: mark ':' :: (f.lexemes ++ mark ')' :: rest)) t) :
    ∃ r, abstraction (skipSpace t) = some ((x, f), r) ∧ Laid (mark ')' :: rest) r := by
  obtain ⟨u, hu, hcolon, hbehind, -⟩ :=
    h.lexeme (Lexeme.solid_name hx) (.of_mark (c := ':') (by decide))
  obtain ⟨v, hv, hbody⟩ := hcolon.mark rfl
  obtain ⟨r, hr, hclose⟩ := hf.expression _ v (.mark (by decide)) hbody
  refine ⟨r, ?_, hclose⟩
  have hbound : bound (skipSpace t) = some (x, v) := by
    rw [bound, hu, tokenAt_name hx hbehind]
    show (behind ':' (skipSpace u)).map _ = _
    rw [hv, behind_self, Option.map_some]
  rw [abstraction, hbound]
  show (expression (skipSpace v)).run.map _ = _
  rw [hr, Option.map_some]

/-- The marks that may stand behind a segment, all of them known to `Laid`. -/
theorem marks_behind : ∀ c ∈ ['/', ')', ','], c ∈ marks := by
  simp [marks]

theorem reads_segment {a : Segment} (hspelled : a.Spelled)
    (hparts : ∀ part ∈ a.parts, Readable part) :
    Reads segment (Follows ['/', ')', ',']) a.lexemes a := by
  intro rest t hnext hlaid
  cases a with
  | property name =>
      obtain ⟨hname, hcount⟩ := hspelled
      obtain ⟨u, hu, hrest, hbehind, -⟩ := hlaid.lexeme (Lexeme.solid_name hname) hnext
      refine ⟨u, ?_, hrest⟩
      rw [hu, segment_name hname hbehind (hnext.head_ne hrest (by decide) rfl), if_pos hcount]
  | count =>
      have hname : Whole Token.name "$count" := by decide
      obtain ⟨u, hu, hrest, hbehind, -⟩ := hlaid.lexeme (Lexeme.solid_name hname) hnext
      refine ⟨u, ?_, hrest⟩
      rw [hu, segment_name hname hbehind (hnext.head_ne hrest (by decide) rfl), if_neg (by decide)]
  | nonempty =>
      obtain ⟨u, hu, hclose⟩ := quantified_read (x := "any") (by decide) hlaid
      obtain ⟨v, hv, hrest⟩ := hclose.mark rfl
      refine ⟨v, ?_, hrest⟩
      -- Between the brackets no variable is found, so it is `any()`.
      have habstraction : abstraction (')' :: v) = none := by
        rw [abstraction, bound, tokenAt_none (name_none rfl), Option.bind_none, Option.bind_none]
      rw [segment_run, anySegment, hu, Option.bind_some, hv, habstraction]
      show ((behind ')' (skipSpace (')' :: v))).map _).or _ = _
      rw [skipSpace_cons rfl, behind_self]
      rfl
  | any x body =>
      rw [Segment.lexemes] at hlaid
      simp only [List.cons_append, List.append_assoc, List.nil_append] at hlaid
      obtain ⟨u, hu, hinner⟩ := quantified_read (x := "any") (by decide) hlaid
      obtain ⟨v, hv, hclose⟩ := abstraction_read hspelled (hparts body List.mem_cons_self) hinner
      obtain ⟨r, hr, hrest⟩ := hclose.mark rfl
      refine ⟨r, ?_, hrest⟩
      rw [segment_run, anySegment, hu, Option.bind_some, hv]
      show ((behind ')' (skipSpace v)).map _).or _ = _
      rw [hr, behind_self]
      rfl
  | all x body =>
      rw [Segment.lexemes] at hlaid
      simp only [List.cons_append, List.append_assoc, List.nil_append] at hlaid
      obtain ⟨w, hw, -⟩ := hlaid.front (Lexeme.solid_name (x := "all") (n := 3) (by decide))
      -- The alternatives are tried in order, so `any` has to fail before `all` is read.
      have hany : quantified "any" (skipSpace t) = none := by
        rw [hw]
        exact quantified_none rfl
      obtain ⟨u, hu, hinner⟩ := quantified_read (x := "all") (by decide) hlaid
      obtain ⟨v, hv, hclose⟩ := abstraction_read hspelled (hparts body List.mem_cons_self) hinner
      obtain ⟨r, hr, hrest⟩ := hclose.mark rfl
      refine ⟨r, ?_, hrest⟩
      rw [segment_run, anySegment, hany, Option.bind_none, Option.none_or, allSegment, hu,
        Option.bind_some, hv, Option.bind_some]
      show ((behind ')' (skipSpace v)).map _).or _ = _
      rw [hr, behind_self]
      rfl
  | function => cases hspelled

/-- A quantifier is no `call`: its variable would be the first argument, and a colon follows
that. -/
theorem call_none_of_bound {w : String} (hw : Whole Token.name w) (hx : Whole Token.name x)
    (h : Laid ({ text := w } :: mark '(' :: { text := x } :: mark ':' :: rest) t) :
    (call (skipSpace t)).run = none := by
  obtain ⟨u, hu, hopen, hbehind, -⟩ :=
    h.lexeme (Lexeme.solid_name hw) (.of_mark (c := '(') (by decide))
  obtain ⟨v, hv, hname⟩ := hopen.mark rfl
  obtain ⟨r, hr, hcolon, hrbehind, -⟩ :=
    hname.lexeme (Lexeme.solid_name hx) (.of_mark (c := ':') (by decide))
  obtain ⟨y, hy, -⟩ := hcolon.mark rfl
  have hcalled : called (skipSpace t) = some (w, v) := by
    rw [called, hu, tokenAt_qualifiedName hw hbehind]
    show (behind '(' (skipSpace u)).map _ = _
    rw [hv, behind_self, Option.map_some]
  have hnamed : named (x.toList ++ r) = none := by
    rw [named, tokenAt_name hx hrbehind]
    show (behind '=' (skipSpace r)).map _ = none
    rw [hy, behind_none (by simp), Option.map_none]
  -- The variable is read as an argument or not at all. Either way, what stands next does not close
  -- the brackets.
  have hend : (skipSpace (arguments (x.toList ++ r)).run.2).head? ≠ some ')' := by
    rw [arguments_run, argument_run, hnamed]
    cases hexpression : (expression (x.toList ++ r)).run with
    | none =>
        obtain ⟨c, z, hshape, hc, -⟩ := name_shape hx
        show (skipSpace (x.toList ++ r)).head? ≠ some ')'
        rw [hshape, List.cons_append, skipSpace_cons (Token.isSpace_of_isNameStart hc)]
        rintro ⟨⟩
        cases hc
    | some v =>
        obtain ⟨f, z⟩ := v
        have hz : skipSpace z = ':' :: y := expression_alone hx hrbehind hy (by decide) hexpression
        show (skipSpace (moreArguments (skipSpace z)).run.2).head? ≠ some ')'
        rw [hz, moreArguments_none (by simp), skipSpace_cons rfl]
        simp
  rw [call_run, hcalled]
  show (behind ')' (skipSpace (arguments (skipSpace v)).run.2)).map _ = none
  rw [hr, behind_none hend, Option.map_none]

/-- A name that begins no `call` begins a path. -/
theorem path_of_name (hx : Whole Token.name x) (hfree : Free x.toList) (hnext : Follows ds rest)
    (h : Laid ({ text := x } :: rest) t) (hcall : (call (skipSpace t)).run = none) :
    sign (skipSpace t) = none ∧ (primary (skipSpace t)).run = (member (skipSpace t)).run := by
  obtain ⟨u, hu, -, -, hbehind, hsign, hprimary⟩ :=
    front_of_name (Token.qualifiedName_of_name hx) hfree hnext h
  have htype : Token.typeName (x.toList ++ u) = none :=
    (Closed.append (fun d hd => Token.closed_typeName (hbehind d hd)) _).trans
      (Token.typeName_of_name hx)
  refine ⟨hsign, ?_⟩
  rw [hprimary, hcall, hu, typeName_run_none htype, Option.none_or, Option.none_or]

/-- A segment that `Leads` begins a path. -/
theorem path_of_segment {a : Segment} (hlead : a.Leads) (hspelled : a.Spelled)
    (hnext : Follows ['/', ')', ','] rest) (h : Laid (a.lexemes ++ rest) t) :
    sign (skipSpace t) = none ∧ (primary (skipSpace t)).run = (member (skipSpace t)).run := by
  have alone {x : String} (hx : Whole Token.name x) (hlaid : Laid ({ text := x } :: rest) t) :
      (call (skipSpace t)).run = none := by
    obtain ⟨u, hu, hrest, hbehind, -⟩ := hlaid.lexeme (Lexeme.solid_name hx) hnext
    rw [hu]
    exact call_none (called_none_of_bracket (tokenAt_qualifiedName hx hbehind)
      (hnext.head_ne hrest (by decide) rfl))
  cases a with
  | property name => exact path_of_name hspelled.1 hlead hnext h (alone hspelled.1 h)
  | count =>
      exact path_of_name (by decide) (by constructor <;> decide) hnext h (alone (by decide) h)
  | any x body =>
      exact path_of_name (by decide) (by constructor <;> decide) (.of_mark (by decide)) h
        (call_none_of_bound (by decide) hspelled h)
  | all x body =>
      exact path_of_name (by decide) (by constructor <;> decide) (.of_mark (by decide)) h
        (call_none_of_bound (by decide) hspelled h)
  | nonempty => cases hlead
  | function => cases hspelled

theorem readable_member {first : Segment} {more : List Segment} (hlead : first.Leads)
    (hpath : ∀ a ∈ first :: more, a.Spelled ∧ ∀ part ∈ a.parts, Readable part) :
    Readable (.member (first :: more)) := by
  refine .of_primary fun rest t hends hlaid => ?_
  obtain ⟨⟨hspelled, hparts⟩, hmore⟩ := List.forall_mem_cons.mp hpath
  have hnext : Follows ['/', ')', ','] rest := hends.follows.mono (by simp) marks_behind
  rw [Filter.lexemes, segmentLexemes_eq, List.map_cons, separated, List.append_assoc,
    List.flatMap_map] at hlaid
  have hfirst : Follows ['/', ')',
    ','] (more.flatMap (fun a => mark '/' :: a.lexemes) ++ rest) := by
    cases more with
    | nil => exact hnext
    | cons a more => exact (Follows.of_mark (c := '/') (by decide)).mono (by simp) marks_behind
  obtain ⟨hsign, hprimary⟩ := path_of_segment hlead hspelled hfirst hlaid
  obtain ⟨u, hu, hlast⟩ := reads_segment hspelled hparts _ t hfirst hlaid
  obtain ⟨r, hr, hrest⟩ :=
    more_reads rfl (fun _ => moreSegments_none) (fun _ _ _ => moreSegments_cons)
    (fun _ => (Follows.of_mark (by decide)).mono (by simp) marks_behind) hnext hnext.solid
    (fun _ ht => hends.follows.head_ne ht (by decide) rfl)
    (fun a ha => reads_segment (hmore a ha).1 (hmore a ha).2) hlast
  refine ⟨hsign, r, ?_, hrest⟩
  rw [hprimary, member_run, hu]
  show some (Filter.member (first :: (moreSegments (skipSpace u)).run.1),
    (moreSegments (skipSpace u)).run.2) = _
  rw [hr]

/-! ## Filters

By induction on the parts of a filter, with one lemma for each form of it. What the grammar reads
is the filter that was printed, and the text that is left is the one behind it. -/

/-- **A well-formed filter is read off its lexemes** (`Readable`), by induction on its parts. -/
theorem readable {f : Filter} (h : f.WellFormed) : Readable f := by
  induction h with
  | @intro f hspelled _ ih =>
      cases hspelled with
      | binary =>
          exact readable_binary (ih _ (by simp [Filter.parts])) (ih _ (by simp [Filter.parts]))
      | unary => exact readable_unary (ih _ (by simp [Filter.parts]))
      | literal hliteral => exact readable_literal hliteral
      | enumMember hname hfree => exact readable_enumMember hname hfree
      | call => exact readable_call ih
      | typeName hname hfree => exact readable_typeName hname hfree
      | parameterAlias hname => exact readable_parameterAlias hname
      | @custom name args hname hfree hargs hcustom =>
          refine readable_callOf hname hfree (fun a ha => ⟨hargs a ha, ih _ ?_⟩) ?_ hcustom
          · simpa [Filter.parts, Segment.parts] using ⟨a, ha, rfl⟩
          · simp [Filter.lexemes, Segment.lexemes, separated]
      | member hlead hpath =>
          exact readable_member hlead fun a ha =>
            ⟨hpath a ha, fun part hpart => ih part (List.mem_flatMap.mpr ⟨a, ha, hpart⟩)⟩

end Grammar

namespace Filter

theorem WellFormed.read? {f : Filter} {s : String} (hf : f.WellFormed) (hs : f.Printed s) :
    Filter.read? s = .ok f := by
  obtain ⟨r, hr, hrest⟩ :=
    (Grammar.readable hf).expression [] s.toList .nil (by rwa [List.append_nil])
  exact read?_eq_ok.mpr ⟨r, hr, hrest.skipSpace_nil⟩

/-- Two `WellFormed` filters that have a printing in common are the same filter. -/
theorem WellFormed.eq_of_printed {f g : Filter} {s : String} (hf : f.WellFormed) (hg : g.WellFormed)
    (hfs : f.Printed s) (hgs : g.Printed s) : f = g :=
  Except.ok.inj ((hf.read? hfs).symm.trans (hg.read? hgs))

/-- **Reading undoes printing**: what `read?` has read from some text, it reads again from each
`Printed` text of this filter, of which `Filter.print` is one. -/
theorem read_printed {t : String} {n : Filter} (hread : Filter.read? t = .ok n) :
    n.Printed n.print ∧ ∀ s, n.Printed s → Filter.read? s = .ok n :=
  ⟨n.printed_print, fun _ hs => (wellFormed_of_read hread).read? hs⟩

theorem read_printed_quantified :
    let n : Filter := .binary (.unary .not (.member [.property "name"])) .or
      (.member [.property "roles", .any "r"
        (.binary (.member [.property "r", .property "title"]) (.compare .eq)
          (.literal ⟨"it's", .string⟩))])
    Filter.read? "not (name) or roles/any(r:r/title eq 'it''s')" = .ok n ∧
      Filter.read? " not (name) or roles/any(r:r/title eq 'it''s')" = .ok n := by
  intro n
  have hprint : n.print = "not (name) or roles/any(r:r/title eq 'it''s')" := by decide +kernel
  have property {x : String} (hx : Whole Token.name x) (hcount : Token.countWord x.toList = none) :
      (Segment.property x).Spelled := ⟨hx, hcount⟩
  have hname : (Filter.member [.property "name"]).WellFormed :=
    .intro (.member (by constructor <;> decide)
      (by simpa using property (by decide) (by decide))) nofun
  have htitle : (Filter.member [.property "r", .property "title"]).WellFormed :=
    .intro (.member (by constructor <;> decide)
      (by simpa using ⟨property (by decide) (by decide), property (by decide) (by decide)⟩)) nofun
  have hroles : n.WellFormed := by
    refine .binary (.unary hname) (.intro (.member (by constructor <;> decide) ?_) ?_)
    · simpa using ⟨property (by decide) (by decide), show Whole Token.name "r" by decide⟩
    · simpa [Filter.parts, Segment.parts] using WellFormed.binary htitle (.literal (.inl rfl))
  have hread : Filter.read? "not (name) or roles/any(r:r/title eq 'it''s')" = .ok n :=
    hprint ▸ hroles.read? n.printed_print
  obtain ⟨hprinted, hall⟩ := read_printed hread
  refine ⟨hread, hall _ ?_⟩
  rw [hprint] at hprinted
  exact Laid.blank (c := ' ') rfl hprinted

end Filter

end FilterSql
