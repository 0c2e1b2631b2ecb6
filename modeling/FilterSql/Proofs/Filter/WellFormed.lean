import FilterSql.Proofs.Filter.Lookahead
import FilterSql.Proofs.Filter.Parts

/-!
# Well-formed filters

Which trees a text can be read as. A tree may have names and literals of any text, and segments in
any place. In the trees that are read, each name and each literal is one in full, and the first
name of a member would not be read as something else (`Filter.WellFormed`). That `Filter.read?`
gives such trees only (`Filter.wellFormed_of_read`) goes by induction on the length of the text,
one function of the grammar after the other.
-/

namespace FilterSql

open Text (Rest)
open Token (Whole Free Closed Cuts Halts)

/-! ## Spelling

What the tokens of a tree have to be, for one node at a time. -/

/-- The text of the literal is one of its kind. -/
def Literal.Spelled (l : Literal) : Prop :=
  l.kind = .string ∨ l = .null ∨ ∃ p, (l.kind, p) ∈ Token.unquoted ∧ Whole p l.text

namespace Segment

/-- The names of the segment are names. The grammar has no function calls inside a path. -/
def Spelled : Segment → Prop
  | property name => Whole Token.name name ∧ Token.countWord name.toList = none
  | count | nonempty => True
  | any x _ | all x _ => Whole Token.name x
  | function .. => False

/-- The segment is not read as something else at the front of a path, as a property may be a
literal and `any()` a call. -/
def Leads : Segment → Prop
  | property name => Free name.toList
  | nonempty => False
  | _ => True

end Segment

def Argument.Spelled (a : Argument) : Prop :=
  ∀ name ∈ a.name, Whole Token.name name

namespace Filter

/-- The filter itself is spelled as the grammar has it, whatever its parts are. -/
inductive Spelled : Filter → Prop
  | binary {l op r} : Spelled (.binary l op r)
  | unary {op operand} : Spelled (.unary op operand)
  | literal {l} (hliteral : l.Spelled) : Spelled (.literal l)
  | enumMember {type member} (hname : Whole Token.qualifiedName type) (hfree : Free type.toList) :
      Spelled (.enumMember type member)
  | call {f args} : Spelled (.call f args)
  | typeName {name} (hname : Whole Token.typeName name) (hfree : Free name.toList) :
      Spelled (.typeName name)
  | parameterAlias {name} (hname : Whole Token.name name) : Spelled (.parameterAlias name)
  | custom {name args} (hname : Whole Token.qualifiedName name) (hfree : Free name.toList)
      (hargs : ∀ a ∈ args, a.Spelled)
      (hcustom : Grammar.callOf name args = .member [.function name args]) :
      Spelled (.member [.function name args])
  | member {first more} (hlead : first.Leads) (hpath : ∀ x ∈ first :: more, x.Spelled) :
      Spelled (.member (first :: more))

/-- The filter and all filters in it are `Spelled`. -/
inductive WellFormed : Filter → Prop
  | intro {f : Filter} (hspelled : f.Spelled) (hparts : ∀ part ∈ f.parts, part.WellFormed) :
      WellFormed f

namespace WellFormed

theorem binary {l r : Filter} {op : BinaryOperator} (hl : l.WellFormed) (hr : r.WellFormed) :
    (Filter.binary l op r).WellFormed :=
  intro .binary (by simp [Filter.parts, hl, hr])

theorem unary {operand : Filter} {op : UnaryOperator} (h : operand.WellFormed) :
    (Filter.unary op operand).WellFormed :=
  intro .unary (by simp [Filter.parts, h])

theorem literal {l : Literal} (h : l.Spelled) : (Filter.literal l).WellFormed :=
  intro (.literal h) (by simp [Filter.parts])

end WellFormed

end Filter

/-- A segment that is spelled so and has well-formed parts. -/
def Segment.WellFormed (x : Segment) : Prop :=
  x.Spelled ∧ ∀ part ∈ x.parts, part.WellFormed

def Argument.WellFormed (a : Argument) : Prop :=
  a.Spelled ∧ a.value.WellFormed

namespace Grammar

variable {s r t : List Char} {α β : Type} {P : α → Prop} {Q : β → Prop} {p : Token.Pattern}

/-! ## What is given

`Parsed.Gives P` says that `P` holds of what is read, if anything is. It is kept by each combinator
of the grammar, so a lemma on a reader follows its definition. -/

/-- Whatever `p` reads has the property `P`. -/
def Parsed.Gives (p : Parsed s α) (P : α → Prop) : Prop :=
  ∀ a q, p.value = some (a, q) → P a

namespace Parsed.Gives

theorem imp {p : Parsed s α} {P' : α → Prop} (hp : p.Gives P) (h : ∀ a, P a → P' a) : p.Gives P' :=
  fun a q ha => h a (hp a q ha)

theorem within {p : Parsed s α} (rule : Rule) (hp : p.Gives P) : (within rule p).Gives P := hp

theorem plain (v : Option (α × Rest s)) : (plain v).Gives fun _ => True :=
  fun _ _ _ => trivial

theorem map {p : Parsed s α} (f : α → β) (hp : p.Gives fun a => Q (f a)) : (p.map f).Gives Q := by
  intro b q hb
  obtain ⟨v, hv, heq⟩ := Option.map_eq_some_iff.mp hb
  cases heq
  exact hp _ _ hv

theorem before {p : Parsed s α} {k : α → (q : Rest s) → Parsed q.1 β} (hp : p.Gives P)
    (hk : ∀ a q, P a → (k a q).Gives Q) : (p.before k).Gives Q := by
  intro b w hb
  rw [Parsed.before] at hb
  split at hb
  next => cases hb
  next a q ha =>
    obtain ⟨v, hv, heq⟩ := Option.map_eq_some_iff.mp hb
    cases heq
    exact hk a q (hp a q ha) _ _ hv

theorem andThen {p : Parsed s α} {k : α → (q : Rest s) → Parsed q.1 β} (hp : p.Gives P)
    (hk : ∀ a q, P a → (k a q).Gives Q) : (p.andThen k).Gives Q := by
  refine before hp fun a q ha b w hb => ?_
  obtain ⟨v, hv, heq⟩ := Option.map_eq_some_iff.mp hb
  cases heq
  exact hk a (skip q) ha _ _ hv

theorem andTail {p : Parsed s α} {k : α → (q : Rest s) → Tail q.1 β} (hp : p.Gives P)
    (hk : ∀ a q, P a → Q (k a q).value) : (p.andTail k).Gives Q := by
  intro b w hb
  rw [Parsed.andTail] at hb
  split at hb
  next => cases hb
  next a q ha =>
    cases hb
    exact hk a (skip q) (hp a q ha)

theorem orElse {p : Parsed s α} {q : Unit → Parsed s α} (hp : p.Gives P)
    (hq : p.run = none → (q ()).Gives P) :
    (p.orElse q).Gives P := by
  intro a w ha
  rw [Parsed.orElse] at ha
  split at ha
  next v hv => exact hp a w ha
  next hv => exact hq (by rw [Parsed.run, hv]; rfl) a w ha

theorem getD {p : Parsed s α} {absent : α} (hp : p.Gives P) (h : P absent) :
    P (p.getD absent).value := by
  rw [Parsed.getD]
  split
  next a q ha => exact hp a q ha
  next => exact h

end Parsed.Gives

/-! ## Tokens

What a token takes is matched by its pattern as a whole (`Takes`). From this come the facts that
`WellFormed` asks for: the text of a literal is of its kind, and a name is a name. -/

/-- The pattern `p` takes `text` from the front of `s`. -/
def Takes (p : Token.Pattern) (s : List Char) (text : String) : Prop :=
  ∃ r, s = text.toList ++ r ∧ p s = some text.toList.length

theorem gives_token (rule : Rule) (hbound : ∀ {t n}, p t = some n → n ≤ t.length) :
    (Parsed.token rule (Token.read? p s)).Gives (Takes p s) := by
  intro text q h
  have htext : tokenAt p s = some (text, q.1) := congrArg taken h
  exact ⟨q.1, tokenAt_eq_some htext hbound⟩

namespace Takes

variable {text : String}

theorem whole (h : Takes p s text) (hcuts : Cuts p) : Whole p text := by
  obtain ⟨r, rfl, htext⟩ := h
  exact hcuts _ _ _ htext (Nat.le_refl _)

/-- If no reserved word stands at the front of a text, none does at the front of a name taken from
there. -/
theorem free (h : Takes p s text) (hhalts : Halts Token.isNameChar p) (hfree : Free s) :
    Free text.toList := by
  obtain ⟨r, rfl, htext⟩ := h
  have hr : ∀ c ∈ r.head?, Token.isNameChar c = false := by
    have := hhalts _ _ htext
    rwa [List.drop_left] at this
  refine ⟨?_, ?_, ?_⟩
  · rw [← hfree.not, Closed.append fun d hd => Token.closed_notWord (hr d hd)]
  · rw [← hfree.null, Closed.append fun d hd => Token.closed_null (hr d hd)]
  · rw [← hfree.boolean, Closed.append fun d hd => Token.closed_boolean (hr d hd)]

end Takes

theorem tokenAt_eq_none (hpos : ∀ s, p s ≠ some 0) (hbound : ∀ {t n}, p t = some n → n ≤ t.length)
    (h : tokenAt p s = none) : p s = none := by
  cases hp : p s with
  | none => rfl
  | some n =>
      have hn : 0 < n := Nat.pos_of_ne_zero fun h0 => hpos s (h0 ▸ hp)
      have hs : s ≠ [] := by
        rintro rfl
        exact absurd (hbound hp) (Nat.not_le.mpr hn)
      rw [tokenAt, Token.read?, hp, taken] at h
      simp [Text.dropSome?, hn, hs] at h

/-! ## Leaves

Each alternative gives a well-formed leaf. Those behind `null`, booleans and `not` may assume that
these do not fit. -/

theorem bounded_leading (h : p ∈ Token.leading) {n : Nat} (hn : p t = some n) : n ≤ t.length :=
  (Token.closed_leading (d := ' ') (by decide) p h).bounded hn

theorem mem_leading {kind : LiteralKind} (h : (kind, p) ∈ Token.unquoted) : p ∈ Token.leading := by
  simp only [Token.leading, List.mem_cons, List.mem_map]
  exact .inr (.inr (.inr ⟨_, h, rfl⟩))

theorem gives_literalOf (rule : Rule) {kind : LiteralKind} (h : (kind, p) ∈ Token.unquoted) :
    (literalOf rule kind p s).Gives (·.WellFormed) := by
  refine .map _ ((gives_token _ (bounded_leading (mem_leading h))).imp fun text htext => ?_)
  exact .literal (.inr (.inr ⟨p, h, htext.whole (Token.cuts_unquoted _ h)⟩))

theorem bounded_name {n : Nat} (h : Token.name t = some n) : n ≤ t.length :=
  (Token.closed_name (d := ' ') (by decide)).bounded h

theorem gives_name (rule : Rule) :
    (Parsed.token rule (Token.read? Token.name s)).Gives (Takes Token.name s) :=
  gives_token _ bounded_name

theorem gives_qualifiedName (rule : Rule) :
    (Parsed.token rule (Token.read? Token.qualifiedName s)).Gives (Takes Token.qualifiedName s) :=
  gives_token _ (Token.closed_qualifiedName (d := ' ') (by decide)).bounded

theorem notWord_eq_none (h : tokenAt Token.notWord s = none) : Token.notWord s = none :=
  tokenAt_eq_none (Token.seq_ne_zero (Token.exactly_ne_zero (by decide)))
    (bounded_leading (by simp [Token.leading])) h

theorem null_eq_none (h : tokenAt Token.null s = none) : Token.null s = none :=
  tokenAt_eq_none (Token.seq_ne_zero (Token.seq_ne_zero Token.one_ne_zero))
    (bounded_leading (by simp [Token.leading])) h

theorem boolean_eq_none (h : tokenAt Token.boolean s = none) : Token.boolean s = none :=
  tokenAt_eq_none (Token.seq_ne_zero (Token.choice_ne_zero (by decide)))
    (bounded_leading (by simp [Token.leading, Token.unquoted])) h

theorem countWord_eq_none (h : tokenAt Token.countWord s = none) : Token.countWord s = none := by
  have hclosed : Closed ' ' Token.countWord :=
    .seq (.exactly (by decide)) (.seq (.notBefore (by decide)) .nil)
  exact tokenAt_eq_none (Token.seq_ne_zero (Token.exactly_ne_zero (by decide))) hclosed.bounded h

theorem gives_enumMember (hfree : Free s) : (enumMember s).Gives (·.WellFormed) := by
  refine .within _ (.before (gives_qualifiedName _) fun type q htype => ?_)
  refine .map _ fun member _ _ => .intro (.enumMember ?_ ?_) (by simp [Filter.parts])
  · exact htype.whole Token.cuts_qualifiedName
  · exact htype.free Token.halts_qualifiedName hfree

theorem gives_literal (hnot : Token.notWord s = none) : (literal s).Gives (·.WellFormed) := by
  have string : ((Parsed.token .string (Token.string? s)).map fun text =>
    Filter.literal ⟨text, .string⟩).Gives
      (·.WellFormed) := .map _ fun _ _ _ => .literal (.inl rfl)
  refine .orElse (.map _ fun _ _ _ => .literal (.inr (.inl rfl))) fun hnull => ?_
  refine .orElse (gives_literalOf _ (by simp [Token.unquoted])) fun hboolean => ?_
  refine .orElse (gives_literalOf _ (by simp [Token.unquoted])) fun _ => ?_
  refine .orElse (gives_literalOf _ (by simp [Token.unquoted])) fun _ => ?_
  refine .orElse (gives_literalOf _ (by simp [Token.unquoted])) fun _ => ?_
  refine .orElse (gives_literalOf _ (by simp [Token.unquoted])) fun _ => ?_
  refine .orElse (gives_literalOf _ (by simp [Token.unquoted])) fun _ => ?_
  refine .orElse (gives_literalOf _ (by simp [Token.unquoted])) fun _ => ?_
  refine .orElse (gives_literalOf _ (by simp [Token.unquoted])) fun _ => ?_
  refine .orElse string fun _ => gives_enumMember ⟨hnot, ?_, ?_⟩
  · rw [Parsed.run_map, Option.map_eq_none_iff] at hnull
    exact null_eq_none hnull
  · rw [literalOf, Parsed.run_map, Option.map_eq_none_iff] at hboolean
    exact boolean_eq_none hboolean

theorem gives_typeName (hfree : Free s) : (typeName s).Gives (·.WellFormed) := by
  have hbound {t : List Char} {n : Nat} (h : Token.typeName t = some n) : n ≤ t.length :=
    (Token.closed_typeName (d := ' ') (by decide)).bounded h
  refine .map _ ((gives_token _ hbound).imp fun text htext =>
    .intro (.typeName ?_ ?_) (by simp [Filter.parts]))
  · exact htext.whole Token.cuts_typeName
  · exact htext.free Token.halts_typeName hfree

theorem gives_parameterAlias : (parameterAlias s).Gives (·.WellFormed) := by
  have hclosed : Closed ' ' Token.parameterAlias :=
    .seq (.exactly (by decide)) (.seq (Token.closed_name (by decide)) .nil)
  refine .map _ ((gives_token _ hclosed.bounded).imp fun text htext => ?_)
  refine .intro (.parameterAlias ?_) (by simp [Filter.parts])
  have hwhole : Token.parameterAlias text.toList = some text.toList.length :=
    htext.whole (.seq .exactly (.seq Token.cuts_name .nil))
  rw [Token.parameterAlias, Token.row_cons, Token.row_single] at hwhole
  obtain ⟨k, hk, m, hm, hsum⟩ := Token.seq_eq_some.mp hwhole
  obtain ⟨⟨w, hw⟩, rfl⟩ := Token.exactly_eq_some.mp hk
  rw [← hw] at hm hsum ⊢
  rw [Whole, String.toList_ofList]
  show Token.name w = some w.length
  rw [List.length_append] at hsum
  rw [List.drop_left] at hm
  rw [hm, Nat.add_left_cancel hsum]

/-! ## The grammar

The functions call one another on shorter texts, so one induction serves them all. -/

/-- What each function of the grammar reads from the text `s` is well-formed. -/
structure Sound (s : List Char) : Prop where
  segment : (segment s).Gives (·.WellFormed)
  moreSegments : ∀ x ∈ (moreSegments s).value, x.WellFormed
  moreArguments : ∀ a ∈ (moreArguments s).value, a.WellFormed
  signs : (signs s).Gives (·.WellFormed)
  operand : ∀ l, (operand l s).Gives (·.WellFormed)
  binaryTail : ∀ l left, left.WellFormed → (binaryTail l left s).value.WellFormed
  expression : (expression s).Gives (·.WellFormed)
  argument : (argument s).Gives (·.WellFormed)
  arguments : ∀ a ∈ (arguments s).value, a.WellFormed

theorem wellFormed_callOf {name : String} {args : List Argument}
    (hname : Whole Token.qualifiedName name) (hfree : Free name.toList)
    (hargs : ∀ a ∈ args, a.WellFormed) : (callOf name args).WellFormed := by
  have hvalues : ∀ part ∈ args.map Argument.value, part.WellFormed := by
    intro part hpart
    obtain ⟨a, ha, rfl⟩ := List.mem_map.mp hpart
    exact (hargs a ha).2
  by_cases hcustom : callOf name args = .member [.function name args]
  · rw [hcustom]
    refine .intro (.custom hname hfree (fun a ha => (hargs a ha).1) hcustom) ?_
    simpa only [Filter.parts, List.flatMap_cons, List.flatMap_nil, List.append_nil, Segment.parts]
      using hvalues
  · cases hword : BuiltIn.ofWord? name with
    | none => exact absurd (by rw [callOf, hword]) hcustom
    | some f =>
        cases hall : args.all (·.name.isNone) with
        | false => exact absurd (by rw [callOf, hword, hall]) hcustom
        | true =>
            rw [callOf, hword, hall]
            exact .intro .call hvalues

section

variable (ih : ∀ t : List Char, t.length < s.length → Sound t)
include ih

theorem sound_binaryTail (l : Level) (left : Filter) (hleft : left.WellFormed) :
    (binaryTail l left s).value.WellFormed := by
  have hnext : ((operator l s).andThen fun op q => (operand l q.1).map (op, ·)).Gives fun x =>
    x.2.WellFormed :=
    .andThen (P := fun _ => True) (fun _ _ _ => trivial) fun op q _ =>
      .map _ ((ih q.1 q.2).operand l)
  rw [binaryTail]
  split
  next => exact hleft
  next op right q h => exact (ih _ (skip q).2).binaryTail l _ (.binary hleft (hnext _ _ h))

omit ih in
theorem gives_bound : ((Parsed.token .boundName (Token.read? Token.name s)).andThen fun x q =>
    (Parsed.plain (Token.char? ':' q.1)).map fun _ => x).Gives (Whole Token.name) :=
  .andThen (gives_name _) fun _ _ hx =>
    .map _ ((Parsed.Gives.plain _).imp fun _ _ => hx.whole Token.cuts_name)

theorem sound_segment : (segment s).Gives fun x =>
    x.WellFormed ∧ (Free s → x ≠ .nonempty → x.Leads) := by
  rw [segment]
  refine .orElse (.within _ ?any) fun _ => .orElse (.within _ ?all) fun _ =>
    .orElse ?count fun hcount => ?property
  case any =>
    refine .andThen (.andTail (P := fun _ => True) (fun _ _ _ => trivial) fun _ q _ => ?_)
      fun x q hx => .map _ ((Parsed.Gives.plain _).imp fun _ _ => hx)
    refine Parsed.Gives.getD (P := fun x : Segment =>
      x.WellFormed ∧ (Free s → x ≠ .nonempty → x.Leads))
      (.andThen gives_bound fun x w hx => .map _ ?_) ⟨⟨trivial, by simp [Segment.parts]⟩, fun _ h =>
        absurd rfl h⟩
    refine (ih w.1 (Nat.lt_trans w.2 q.2)).expression.imp fun body hbody =>
      ⟨⟨hx, ?_⟩, fun _ _ => trivial⟩
    simpa [Segment.parts] using hbody
  case all =>
    refine .andThen ?_ fun x q hx => .map _ ((Parsed.Gives.plain _).imp fun _ _ => hx)
    refine .andThen (.andThen (P := fun _ => True) (fun _ _ _ => trivial) fun _ q _ =>
      gives_bound) fun x w hx => .map _ ?_
    refine (ih w.1 w.2).expression.imp fun body hbody => ⟨⟨hx, ?_⟩, fun _ _ => trivial⟩
    simpa [Segment.parts] using hbody
  case count => exact .map _ fun _ _ _ => ⟨⟨trivial, by simp [Segment.parts]⟩, fun _ _ => trivial⟩
  case property =>
    refine .map _ ((gives_name _).imp fun x hx =>
      ⟨⟨⟨hx.whole Token.cuts_name, ?_⟩, by simp [Segment.parts]⟩,
      fun hfree _ => hx.free Token.halts_name hfree⟩)
    -- The name is not `$count`, which has been tried before.
    rw [Parsed.run_map, Option.map_eq_none_iff] at hcount
    have hnone := countWord_eq_none hcount
    cases hx' : Token.countWord x.toList with
    | none => rfl
    | some n =>
        obtain ⟨r, rfl, htext⟩ := hx
        have hr : ∀ c ∈ r.head?, Token.isNameChar c = false := by
          have := Token.halts_name _ _ htext
          rwa [List.drop_left] at this
        rw [Token.countWord, Token.word_append hx' hr] at hnone
        cases hnone

theorem sound_moreSegments : ∀ x ∈ (moreSegments s).value, x.WellFormed := by
  rw [moreSegments]
  refine Parsed.Gives.getD (P := fun path =>
    ∀ x ∈ path, Segment.WellFormed x) (.andTail (P := Segment.WellFormed) ?_ ?_) (by simp)
  · exact .andThen (P := fun _ => True) (.plain _) fun _ q _ => (ih q.1 q.2).segment
  · exact fun x q hx => List.forall_mem_cons.mpr ⟨hx, (ih q.1 q.2).moreSegments⟩

theorem sound_moreArguments : ∀ a ∈ (moreArguments s).value, a.WellFormed := by
  rw [moreArguments]
  refine Parsed.Gives.getD (P := fun args =>
    ∀ a ∈ args, Argument.WellFormed a) (.andTail (P := Argument.WellFormed) ?_ ?_) (by simp)
  · exact .andThen (P := fun _ => True) (.plain _) fun _ q _ => (ih q.1 q.2).argument
  · exact fun a q ha => List.forall_mem_cons.mpr ⟨ha, (ih q.1 q.2).moreArguments⟩

theorem sound_call (hfree : Free s) : (call s).Gives (·.WellFormed) := by
  have hname (name : String) (h : Takes Token.qualifiedName s name) :
      Whole Token.qualifiedName name ∧ Free name.toList :=
    ⟨h.whole Token.cuts_qualifiedName, h.free Token.halts_qualifiedName hfree⟩
  rw [call]
  refine .within _ (.andThen (P := fun x =>
    Takes Token.qualifiedName s x.1 ∧ ∀ a ∈ x.2, a.WellFormed)
    (.andTail (P := Takes Token.qualifiedName s)
      (.andThen (gives_qualifiedName _) ?name) ?arguments) ?close)
  case name => exact fun name _ h => .map _ ((Parsed.Gives.plain _).imp fun _ _ => h)
  case arguments => exact fun name q h => ⟨h, (ih q.1 q.2).arguments⟩
  case close =>
    rintro ⟨name, args⟩ q ⟨h, hargs⟩
    exact .map _ fun _ _ _ => wellFormed_callOf (hname name h).1 (hname name h).2 hargs

theorem sound_member (hfree : Free s) (hcall : (call s).run = none) :
    (member s).Gives (·.WellFormed) := by
  have hfirst : (segment s).Gives fun x => x.WellFormed ∧ x.Leads := by
    intro x q hx
    obtain ⟨hwell, hlead⟩ := sound_segment ih x q hx
    refine ⟨hwell, hlead hfree ?_⟩
    -- `any()` would have been read as a call.
    rintro rfl
    exact call_of_nonempty (r := q.1) (by rw [Parsed.run, hx]; rfl) hcall
  rw [member]
  refine .within _ (.map _ (.andTail hfirst fun x q hx => ?_))
  have hpath : ∀ y ∈ x :: (moreSegments q.1).value, y.WellFormed :=
    List.forall_mem_cons.mpr ⟨hx.1, (ih q.1 q.2).moreSegments⟩
  refine .intro (.member hx.2 fun y hy => (hpath y hy).1) fun part hpart => ?_
  obtain ⟨y, hy, hmem⟩ := List.mem_flatMap.mp hpart
  exact (hpath y hy).2 part hmem

theorem sound_primary (hnot : Token.notWord s = none) : (primary s).Gives (·.WellFormed) := by
  rw [primary]
  refine .orElse ?group fun _ => .orElse (gives_literal hnot) fun hliteral => ?_
  case group =>
    refine .andThen (P := Filter.WellFormed) (.andThen (P := fun _ => True) (.plain _) fun _ q _ =>
      (ih q.1 q.2).expression) ?_
    exact fun f q hf => .map _ ((Parsed.Gives.plain _).imp fun _ _ => hf)
  -- Past the literals and the operators, no word of their own stands in front.
  have hfree : Free s := by
    rw [literal_run, Option.or_eq_none_iff, Option.or_eq_none_iff, Token.unquoted, unquotedAt,
      Option.or_eq_none_iff, Option.map_eq_none_iff, Option.map_eq_none_iff] at hliteral
    exact ⟨hnot, null_eq_none hliteral.1, boolean_eq_none hliteral.2.1.1⟩
  exact .orElse (sound_call ih hfree) fun hcall => .orElse (gives_typeName hfree) fun _ =>
    .orElse gives_parameterAlias fun _ => sound_member ih hfree hcall

theorem sound_signs : (signs s).Gives (·.WellFormed) := by
  rw [signs]
  dsimp only
  split
  next =>
    exact .andThen (P := fun _ => True) (fun _ _ _ => trivial) fun op q _ =>
      .map _ ((ih q.1 q.2).signs.imp fun _ => .unary)
  next h =>
    have hsign :=
      Parsed.run_orElse ((Parsed.token .notWord (Token.read? Token.notWord s)).map fun _ =>
        UnaryOperator.not)
      fun _ => (Parsed.token .minusSign (Token.read? Token.minusSign s)).map fun _ => .minus
    rw [Parsed.run, h, Parsed.run_map] at hsign
    have hnot := (Option.or_eq_none_iff.mp hsign.symm).1
    rw [Option.map_eq_none_iff] at hnot
    exact fun f q hf => sound_primary ih (notWord_eq_none hnot) f q hf

theorem sound_operand (l : Level) : (operand l s).Gives (·.WellFormed) := by
  induction l using Level.climb with
  | base l hl =>
      rw [operand]
      split
      next m h => cases hl.symm.trans h
      next => rw [unary]; exact .within _ (sound_signs ih)
  | step l m hl ihm =>
      rw [operand]
      split
      next m' h =>
        cases hl.symm.trans h
        rw [binary]
        exact .within _ (.andTail ihm fun f q hf => (ih q.1 q.2).binaryTail m f hf)
      next h => cases hl.symm.trans h

theorem sound_expression : (expression s).Gives (·.WellFormed) := by
  rw [expression, binary]
  exact .within _ (.within _ (.andTail (sound_operand ih .or) fun f q hf =>
    (ih q.1 q.2).binaryTail .or f hf))

theorem sound_argument : (argument s).Gives (·.WellFormed) := by
  rw [argument]
  dsimp only
  refine .within _ ?_
  split
  next =>
    refine .andThen (P := Whole Token.name) (.andThen (gives_name _) fun x q hx =>
      .map _ ?_) fun x q hx => .map _ ?_
    · exact (Parsed.Gives.plain _).imp fun _ _ => hx.whole Token.cuts_name
    · exact (ih q.1 q.2).expression.imp fun f hf => ⟨by rintro _ ⟨⟩; exact hx, hf⟩
  next =>
    intro a q ha
    obtain ⟨v, hv, heq⟩ := Option.map_eq_some_iff.mp ha
    cases heq
    exact ⟨nofun, sound_expression ih _ _ hv⟩

theorem sound_arguments : ∀ a ∈ (arguments s).value, a.WellFormed := by
  rw [arguments]
  refine Parsed.Gives.getD (P := fun args =>
    ∀ a ∈ args, Argument.WellFormed a) (.andTail (sound_argument ih) ?_) (by simp)
  exact fun a q ha => List.forall_mem_cons.mpr ⟨ha, (ih q.1 q.2).moreArguments⟩

end

theorem sound (s : List Char) : Sound s :=
  have ih (t : List Char) (_ : t.length < s.length) : Sound t := sound t
  { segment := (sound_segment ih).imp fun _ => And.left
    moreSegments := sound_moreSegments ih
    moreArguments := sound_moreArguments ih
    signs := sound_signs ih
    operand := sound_operand ih
    binaryTail := sound_binaryTail ih
    expression := sound_expression ih
    argument := sound_argument ih
    arguments := sound_arguments ih }
termination_by s.length

end Grammar

/-- **What is read is well-formed.** -/
theorem Filter.wellFormed_of_read {text : String} {f : Filter} (h : Filter.read? text = .ok f) :
    f.WellFormed := by
  obtain ⟨r, hr, -⟩ := Filter.read?_eq_ok.mp h
  obtain ⟨v, hv, heq⟩ := Option.map_eq_some_iff.mp hr
  cases heq
  exact (Grammar.sound _).expression _ _ hv

end FilterSql
