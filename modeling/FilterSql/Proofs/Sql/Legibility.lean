import FilterSql.Proofs.Sql.Spelling

/-!
# Legible trees

The tokens of a legible tree can be read again. A recursive descent parser does so: the tokens in
front tell how an expression goes on, and brackets and words tell where its parts end
(`Reader.expression_reads`). Together with `Token.eq_of_spelled` this shows that a tree is given
back by its text and its bound values (`eq_of_statement`). The parser serves that proof only, so it
need not refuse a text that no tree has.
-/

namespace FilterSql.Sql

open Sql.Token (mark word)

variable {d : Dialect}

/-! ## Reading

`Reader.step` is one level of the parser, with the reader for the parts as an argument, and
`Reader.expression` ties the knot with a bound on the depth. Marks and blanks that tell nothing are
skipped without a look. -/

/-- Reads something off the front of a row of tokens, and gives what is left of the row; `none` if
it is not there. -/
abbrev Reader (α : Type) :=
  List Token → Option (α × List Token)

namespace Reader

/-- The token in front, if no expression begins with it: a mark other than a bracket, `SELECT`, or
the word of a part of a date. -/
def lead? : List Token → Option Token
  | .mark c :: _ => if c = '(' then none else some (mark c)
  | .word w :: .mark c :: _ =>
      if c = ' ' ∧ (w = "SELECT" ∨ dateField? w ≠ none) then some (word w) else none
  | _ => none
where
  dateField? (w : String) : Option DateField :=
    [.year, .month, .day, .hour, .minute, .second].find? (·.word = w)

/-- What follows a blank and the word `w`, if these are in front. -/
def behind (w : String) : Reader Unit
  | .mark c :: .word u :: ts => if c = ' ' ∧ u = w then some ((), ts) else none
  | _ => none

/-- What `reader` reads behind the word `w`, or `none` where that word does not follow. -/
def clause {α : Type} (w : String) (reader : Reader α) : Reader (Option α) := fun ts =>
  match behind w ts with
  | some ((), ts) => (reader (ts.drop 1)).map fun (a, ts) => (some a, ts)
  | none => some (none, ts)

def name : Reader String
  | .name n :: ts => some (n, ts)
  | _ => none

/-- A `name`, which may have another one and a point in front of it. -/
def qualifiedName : Reader (Option String × String)
  | .name q :: .mark c :: .name n :: ts =>
      if c = '.' then some ((some q, n), ts) else some ((none, q), mark c :: .name n :: ts)
  | .name n :: ts => some ((none, n), ts)
  | _ => none

def table : Reader (TableName × Option String) := fun ts => do
  let ((schema, n), ts) ← qualifiedName ts
  let (label, ts) ← clause "AS" name ts
  return ((⟨schema, n⟩, label), ts)

/-- An `Operator` and the blank behind it. -/
def operator : Reader Operator := fun ts =>
  (operators.find? fun op => (op.tokens ++ [mark ' ']).isPrefixOf ts).map fun op =>
    (op, ts.drop (op.tokens.length + 1))
where
  operators : List Operator :=
    [.compare .eq, .compare .ne, .compare .lt, .compare .le, .compare .gt, .compare .ge, .and, .or,
     .arith .add, .arith .sub, .arith .mul, .arith .div, .arith .mod]

variable (expr : Reader Expr)

/-- Further expressions, each behind a comma, `n` of them at most. -/
def moreWithin : Nat → Reader (List Expr)
  | n + 1, .mark c :: ts =>
      if c = ',' then do
        let (e, ts) ← expr (ts.drop 1)
        let (es, ts) ← moreWithin n ts
        return (e :: es, ts)
      else some ([], mark c :: ts)
  | _, ts => some ([], ts)

def more : Reader (List Expr) := fun ts =>
  moreWithin expr ts.length ts

def list : Reader (List Expr) := fun ts =>
  if lead? ts = none then do
    let (e, ts) ← expr ts
    let (es, ts) ← more expr ts
    return (e :: es, ts)
  else some ([], ts)

/-- Joins, `n` of them at most. -/
def joinsWithin : Nat → Reader (List Join)
  | n + 1, ts =>
      match behind "INNER" ts with
      | some ((), ts) => do
          let ((t, label), ts) ← table (ts.drop 3)
          let (on, ts) ← expr (ts.drop 3)
          let (rest, ts) ← joinsWithin n ts
          return (.mk t label on :: rest, ts)
      | none => some ([], ts)
  | 0, ts => some ([], ts)

def joins : Reader (List Join) := fun ts =>
  joinsWithin expr ts.length ts

def select : Reader Select := fun ts => do
  let (columns, ts) ← list expr (ts.drop 2)
  let (source, ts) ← clause "FROM" table ts
  let (joins, ts) ← joins expr ts
  let (condition, ts) ← clause "WHERE" expr ts
  return (.mk columns source joins condition, ts)

/-- What follows the bracket that an `Expr` opens: a test, a pattern or two operands. -/
def bracketed : Reader Expr := fun ts =>
  if lead? ts = none then do
    let (e, ts) ← expr ts
    match behind "IS" ts, behind "LIKE" ts with
    | some ((), ts), _ =>
        if behind "NULL" ts = none then return (.isNotNull e, ts.drop 5)
        else return (.isNull e, ts.drop 3)
    | none, some ((), ts) =>
        let (pattern, ts) ← expr (ts.drop 1)
        match behind "ESCAPE" ts with
        | some ((), _ :: .literal c :: ts) => return (.like e pattern c.toList.head?, ts.drop 1)
        | _ => return (.like e pattern none, ts.drop 1)
    | none, none =>
        let (op, ts) ← operator (ts.drop 1)
        let (right, ts) ← expr ts
        return (.binary e op right, ts.drop 1)
  else do
    let (query, ts) ← select expr ts
    return (.scalar query, ts.drop 1)

/-- A call, behind its name and its bracket. What `f` is called with shows behind the bracket: a
part of a date, a star, nothing, or an expression. -/
def called (d : Dialect) (f : String) : Reader Expr := fun ts =>
  match lead? ts with
  | some (.word w) => do
      let field ← lead?.dateField? w
      let (e, ts) ← expr (ts.drop 4)
      return (.extract field e, ts.drop 1)
  | some t =>
      if t = mark '*' then some (.functionOfAll f, ts.drop 2) else some (.function f [], ts.drop 1)
  | none => do
      let (e, ts) ← expr ts
      match behind "IN" ts, behind "AS" ts with
      | some ((), ts), _ =>
          let (haystack, ts) ← expr (ts.drop 1)
          return (.position e haystack, ts.drop 1)
      | none, some ((), _ :: .word t :: ts) =>
          let type ← castTypes.find? (·.sqlName d = t)
          return (.cast e type, ts.drop 1)
      | _, _ =>
          let (es, ts) ← more expr ts
          return (.function f (e :: es), ts.drop 1)

/-- What follows a word that is not called like a function. -/
def worded (w : String) : Reader Expr := fun ts =>
  if w = "NOT" then do
    let (e, ts) ← expr (ts.drop 2)
    return (.not e, ts.drop 1)
  else if w = "EXISTS" then do
    let (query, ts) ← select expr (ts.drop 2)
    return (.hasRows query, ts.drop 1)
  else if w = "CURRENT_TIMESTAMP" then some (.now, ts)
  else if w = "NULL" then some (.constant .null, ts)
  else some (.constant (.int 1), ts)

/-- One level of an expression, whose parts are read by `expr`. -/
def step (d : Dialect) : Reader Expr
  | .parameter v :: ts => some (.parameter v, ts)
  | .literal s :: ts => some (.constant (.string s), ts)
  | .name n :: ts => (qualifiedName (.name n :: ts)).map fun ((q, c), ts) => (.column q c, ts)
  | .mark _ :: ts => bracketed expr ts
  | .word w :: .mark c :: ts => if c = '(' then called expr d w ts else worded expr w (mark c :: ts)
  | .word w :: ts => worded expr w ts
  | [] => none

/-- An expression that is at most `n` levels deep. -/
def expression (d : Dialect) : Nat → Reader Expr
  | 0 => fun _ => none
  | n + 1 => step (expression d n) d

/-! ### Reading what was written

For each reader: in front of what may follow, it gives back the part whose tokens it reads. `Reads`
says so of expressions and is the hypothesis on the parts. -/

/-- What may stand behind an `Expr`: nothing, a blank, a closing bracket or a comma. -/
def Follows (r : List Token) : Prop :=
  ∀ t ∈ r.head?, t ∈ [mark ' ', mark ')', mark ',']

/-- What may stand behind a list or a clause: a blank or a closing bracket. -/
def Closes (r : List Token) : Prop :=
  ∃ t ∈ [mark ' ', mark ')'], r.head? = some t

/-- `expr` gives `e` back from its tokens, whatever `Follows` allows behind them; and `lead?` sees
that an expression begins there. -/
structure Reads (d : Dialect) (expr : Reader Expr) (e : Expr) : Prop where
  lead : ∀ r, Follows r → lead? (e.tokens d ++ r) = none
  back : ∀ r, Follows r → expr (e.tokens d ++ r) = some (e, r)

variable {expr : Reader Expr} {r : List Token}

@[simp] theorem follows_blank : Follows (mark ' ' :: r) := by simp [Follows]

@[simp] theorem follows_close : Follows (mark ')' :: r) := by simp [Follows]

@[simp] theorem follows_comma : Follows (mark ',' :: r) := by simp [Follows]

@[simp] theorem closes_blank : Closes (mark ' ' :: r) := by simp [Closes]

@[simp] theorem closes_close : Closes (mark ')' :: r) := by simp [Closes]

theorem Closes.shape (h : Closes r) : ∃ c ts, (c = ' ' ∨ c = ')') ∧ r = mark c :: ts := by
  obtain ⟨t, ht, hhead⟩ := h
  obtain ⟨ts, rfl⟩ := List.head?_eq_some_iff.mp hhead
  simp only [List.mem_cons, List.not_mem_nil, or_false] at ht
  rcases ht with rfl | rfl
  · exact ⟨_, ts, .inl rfl, rfl⟩
  · exact ⟨_, ts, .inr rfl, rfl⟩

theorem Closes.follows (h : Closes r) : Follows r := by
  obtain ⟨c, ts, rfl | rfl, rfl⟩ := h.shape <;> simp

theorem qualifiedName_tokens {q : Option String} {n : String} (h : Follows r) :
    qualifiedName (qualifiedTokens q (.name n) ++ r) = some ((q, n), r) := by
  cases q with
  | some q => simp [qualifiedTokens, qualifiedName]
  | none =>
      rw [qualifiedTokens, List.singleton_append, qualifiedName.eq_def]
      have hpoint : r.head? ≠ some (mark '.') := fun hhead => by simpa using h _ hhead
      split <;> grind

theorem clause_absent {α : Type} {w : String} {reader : Reader α} (h : behind w r = none) :
    clause w reader r = some (none, r) := by
  simp [clause, h]

@[simp] theorem behind_blank {w u : String} :
    behind w (mark ' ' :: word u :: r) = if u = w then some ((), r) else none := by
  simp [behind]

theorem behind_mark {w : String} {c : Char} (hc : c ≠ ' ') : behind w (mark c :: r) = none := by
  rw [behind.eq_def]
  split <;> grind

@[simp] theorem behind_close {w : String} : behind w (mark ')' :: r) = none :=
  behind_mark (by decide)

theorem table_tokens (t : TableName) (label : Option String) (h : Closes r)
    (has : behind "AS" r = none) :
    table (tableTokens t label ++ r) = some ((t, label), r) := by
  cases label with
  | none => simp [table, tableTokens, qualifiedName_tokens h.follows, clause_absent has]
  | some a => simp [table, tableTokens, qualifiedName_tokens, clause, name]

theorem follows_more (d : Dialect) (es : List Expr) (hr : Closes r) :
    Follows (moreTokens d es ++ r) := by
  cases es with
  | nil => exact hr.follows
  | cons e es => exact follows_comma

theorem behind_more {es : List Expr} {w : String} :
    behind w (moreTokens d es ++ mark ')' :: r) = none := by
  cases es with
  | nil => exact behind_close
  | cons e es => exact behind_mark (by decide)

theorem moreWithin_tokens {es : List Expr} {n : Nat} (hes : ∀ e ∈ es, Reads d expr e)
    (hr : Closes r) (hn : es.length ≤ n) :
    moreWithin expr n (moreTokens d es ++ r) = some (es, r) := by
  induction es generalizing n with
  | nil =>
      obtain ⟨c, ts, hc, rfl⟩ := hr.shape
      cases n <;> rcases hc with rfl | rfl <;> simp [moreWithin, moreTokens]
  | cons e es ih =>
      obtain _ | n := n
      · simp at hn
      · have hrest := ih (fun e he => hes e (List.mem_cons_of_mem _ he)) (by simpa using hn)
        have he := hes e List.mem_cons_self
        simp [moreWithin, moreTokens, he.back _ (follows_more d es hr), hrest]

theorem more_tokens {es : List Expr} (hes : ∀ e ∈ es, Reads d expr e) (hr : Closes r) :
    more expr (moreTokens d es ++ r) = some (es, r) := by
  apply moreWithin_tokens hes hr
  have hlength := length_le_moreTokens d es
  rw [List.length_append]
  omega

theorem list_tokens {es : List Expr} (hes : ∀ e ∈ es, Reads d expr e) (hr : Closes r) :
    list expr (listTokens d es ++ r) = some (es, r) := by
  cases es with
  | nil =>
      obtain ⟨c, ts, rfl | rfl, rfl⟩ := hr.shape <;> simp [list, listTokens, lead?]
  | cons e es =>
      have he := hes e List.mem_cons_self
      have hmore := more_tokens (fun e he => hes e (List.mem_cons_of_mem _ he)) hr
      have hfollows := follows_more d es hr
      simp [list, listTokens_cons, he.lead _ hfollows, he.back _ hfollows, hmore]

theorem closes_joins (d : Dialect) (js : List Join) (hr : Closes r) :
    Closes (joinTokens d js ++ r) := by
  cases js with
  | nil => exact hr
  | cons j js =>
      obtain ⟨t, label, on⟩ := j
      exact closes_blank

theorem joinsWithin_tokens {js : List Join} {n : Nat} (hjs : ∀ j ∈ js, Reads d expr j.on)
    (hr : Closes r) (hinner : behind "INNER" r = none) (hn : js.length ≤ n) :
    joinsWithin expr n (joinTokens d js ++ r) = some (js, r) := by
  induction js generalizing n with
  | nil => cases n <;> simp [joinsWithin, joinTokens, hinner]
  | cons j js ih =>
      obtain ⟨t, label, on⟩ := j
      obtain _ | n := n
      · simp at hn
      · have hrest := ih (fun j hj => hjs j (List.mem_cons_of_mem _ hj)) (by simpa using hn)
        have hon : Reads d expr on := hjs _ List.mem_cons_self
        simp [joinsWithin, joinTokens, table_tokens,
          hon.back _ (closes_joins d js hr).follows, hrest]

theorem joins_tokens {js : List Join} (hjs : ∀ j ∈ js, Reads d expr j.on) (hr : Closes r)
    (hinner : behind "INNER" r = none) : joins expr (joinTokens d js ++ r) = some (js, r) := by
  apply joinsWithin_tokens hjs hr hinner
  have hlength := length_le_joinTokens d js
  rw [List.length_append]
  omega

theorem behind_joins {js : List Join} {w : String} (hne : w ≠ "INNER") (hr : behind w r = none) :
    behind w (joinTokens d js ++ r) = none := by
  cases js with
  | nil => exact hr
  | cons j js =>
      obtain ⟨t, label, on⟩ := j
      simp [joinTokens, hne.symm]

/-- `select` reads a query up to the bracket that closes it, if `expr` reads its parts. -/
theorem select_tokens {query : Select} (hparts : ∀ part ∈ query.parts, Reads d expr part) :
    select expr (query.tokens d ++ mark ')' :: r) = some (query, mark ')' :: r) := by
  obtain ⟨columns, source, joins, condition⟩ := query
  simp only [Select.parts, List.mem_append, List.mem_map, Option.mem_toList] at hparts
  have hcolumns : ∀ e ∈ columns, Reads d expr e := fun e he => hparts e (.inl (.inl he))
  have hjoins : ∀ join ∈ joins, Reads d expr join.on :=
    fun join hjoin => hparts join.on (.inl (.inr ⟨join, hjoin, rfl⟩))
  -- What stands behind the joins, behind the source and behind the columns.
  obtain ⟨rest, hrest⟩ : ∃ rest, conditionTokens d condition ++ mark ')' :: r = rest := ⟨_, rfl⟩
  have hcloses : Closes rest := by
    subst hrest
    cases condition <;> simp [conditionTokens]
  have hbehind : ∀ w, w ≠ "WHERE" → behind w rest = none := by
    intro w hw
    subst hrest
    cases condition <;> simp [conditionTokens, hw.symm]
  have hcondition : clause "WHERE" expr rest = some (condition, mark ')' :: r) := by
    subst hrest
    cases condition with
    | none => simp [conditionTokens, clause]
    | some e => simp [conditionTokens, clause, (hparts e (.inr rfl)).back]
  have hsource : clause "FROM" table (sourceTokens source ++ (joinTokens d joins ++ rest)) =
      some (source, joinTokens d joins ++ rest) := by
    cases source with
    | none => exact clause_absent (behind_joins (by decide) (hbehind _ (by decide)))
    | some source =>
        have htable := table_tokens source.1 source.2 (closes_joins d joins hcloses)
          (behind_joins (by decide) (hbehind _ (by decide)))
        simp [sourceTokens, clause, htable]
  have hfirst : Closes (sourceTokens source ++ (joinTokens d joins ++ rest)) := by
    cases source with
    | none => exact closes_joins d joins hcloses
    | some source => exact closes_blank
  simp [Select.tokens_eq, select, hrest, list_tokens hcolumns hfirst, hsource,
    joins_tokens hjoins hcloses (hbehind _ (by decide)), hcondition]

theorem operator_tokens (op : Operator) (r : List Token) :
    operator (op.tokens ++ mark ' ' :: r) = some (op, r) := by
  rcases op with (_ | _ | _ | _ | _ | _) | _ | _ | (_ | _ | _ | _ | _) <;>
    simp +decide [operator, operator.operators, Operator.tokens, comparisonSign, arithmeticSign]

/-- `behind` finds none of its words in front of an operator, which `AND` and `OR` are. -/
theorem behind_operator {op : Operator} {w : String} (hw : w ≠ "AND" ∧ w ≠ "OR") :
    behind w (mark ' ' :: (op.tokens ++ mark ' ' :: r)) = none := by
  rcases op with (_ | _ | _ | _ | _ | _) | _ | _ | (_ | _ | _ | _ | _) <;>
    simp [behind, Operator.tokens, comparisonSign, arithmeticSign, hw.1.symm, hw.2.symm]

theorem lead?_word {w : String} (hquery : w ≠ "SELECT") (hfield : lead?.dateField? w = none)
    (r : List Token) :
    lead? (word w :: r) = none := by
  rw [lead?.eq_def]
  split <;> grind

/-- No `lead?` stands at the front of an expression: it begins neither like a query or a part of a
date, nor with a mark other than a bracket. -/
theorem lead?_tokens {e : Expr} (h : e.Plain) (r : List Token) :
    lead? (e.tokens d ++ r) = none := by
  cases e with
  | column qualifier name => cases qualifier <;> simp [Expr.tokens, qualifiedTokens, lead?]
  | wildcard => exact h.elim
  | parameter | binary | isNull | isNotNull | like | scalar => simp [Expr.tokens, lead?]
  | function | functionOfAll | position | extract | cast => simp [Expr.tokens, lead?]
  | now | not | hasRows => exact lead?_word (by decide) (by decide) _
  | constant v =>
      simp only [Expr.Plain, standardConstants, List.mem_cons, List.not_mem_nil, or_false] at h
      rcases h with rfl | rfl | rfl
      · cases d <;> exact lead?_word (by decide) (by decide) _
      · simp [Expr.tokens, constantToken, lead?]
      · cases d <;> exact lead?_word (by decide) (by decide) _

/-- `step` takes a word for a call only if a bracket is behind it. -/
theorem step_word {w : String} (h : Follows r) : step expr d (word w :: r) = worded expr w r := by
  have hcalled : r.head? ≠ some (mark '(') := fun hhead => by simpa using h _ hhead
  rw [step.eq_def]
  split <;> grind

/-- **One step reads an expression** off its tokens, if `expr` reads the parts of it. -/
theorem step_reads {e : Expr} (h : e.Plain) (hparts : ∀ part ∈ e.parts, Reads d expr part) :
    Reads d (step expr d) e := by
  refine ⟨fun r _ => lead?_tokens h r, fun r hr => ?_⟩
  -- Names and single words are ended by what stands behind them. The other expressions end with a
  -- mark of their own.
  cases e with
  | column qualifier name =>
      have hname := qualifiedName_tokens (q := qualifier) (n := name) hr
      cases qualifier <;> simpa [Expr.tokens, qualifiedTokens, step] using hname
  | wildcard qualifier => exact h.elim
  | parameter v => rfl
  | now => exact step_word hr
  | constant v =>
      simp only [Expr.Plain, standardConstants, List.mem_cons, List.not_mem_nil, or_false] at h
      rcases h with rfl | rfl | rfl
      · cases d <;> exact step_word hr
      · rfl
      · cases d <;> exact step_word hr
  | functionOfAll name => simp [Expr.tokens, step, called, lead?]
  | not e =>
      have he := hparts e (by simp [Expr.parts])
      simp [Expr.tokens, step, worded, he.back]
  | isNull e | isNotNull e =>
      have he := hparts e (by simp [Expr.parts])
      simp [Expr.tokens, step, bracketed, he.lead, he.back]
  | extract field e =>
      have he := hparts e (by simp [Expr.parts])
      cases field <;> simp +decide [Expr.tokens, step, called, lead?, lead?.dateField?,
        DateField.word, he.back]
  | cast e type =>
      have he := hparts e (by simp [Expr.parts])
      have htype : castTypes.find? (·.sqlName d = type.sqlName d) = some type := by
        simp only [Expr.Plain, castTypes, List.mem_cons, List.not_mem_nil, or_false] at h
        rcases h with rfl | rfl | rfl <;> cases d <;> decide
      simp [Expr.tokens, step, called, he.lead, he.back, htype]
  | binary left op right =>
      have hleft := hparts left (by simp [Expr.parts])
      have hright := hparts right (by simp [Expr.parts])
      simp [Expr.tokens, step, bracketed, hleft.lead, hleft.back, hright.back, behind_operator,
        operator_tokens]
  | position needle haystack =>
      have hneedle := hparts needle (by simp [Expr.parts])
      have hhaystack := hparts haystack (by simp [Expr.parts])
      simp [Expr.tokens, step, called, hneedle.lead, hneedle.back, hhaystack.back]
  | like e pattern escape =>
      have he := hparts e (by simp [Expr.parts])
      have hpattern := hparts pattern (by simp [Expr.parts])
      cases escape <;> simp [Expr.tokens, step, bracketed, he.lead, he.back, hpattern.back]
  | function name args =>
      cases args with
      | nil => simp [Expr.tokens, listTokens, step, called, lead?]
      | cons e es =>
          have he := hparts e (by simp [Expr.parts])
          have hmore : more expr (moreTokens d es ++ mark ')' :: r) = some (es, mark ')' :: r) :=
            more_tokens (fun e he => hparts e (by simp [Expr.parts, he])) closes_close
          have hfollows := follows_more d es (r := mark ')' :: r) closes_close
          simp [Expr.tokens, listTokens_cons, step, called, he.lead _ hfollows, he.back _ hfollows,
            behind_more, hmore]
  | hasRows query =>
      have hquery := select_tokens hparts (r := r)
      simp [Expr.tokens, step, worded, hquery]
  | scalar query =>
      have hquery := select_tokens hparts (r := r)
      have hlead : lead? (query.tokens d ++ mark ')' :: r) = some (word "SELECT") := by
        obtain ⟨columns, source, joins, condition⟩ := query
        simp [Select.tokens_eq, lead?]
      simp [Expr.tokens, step, bracketed, hlead, hquery]

theorem expression_reads {e : Expr} (h : e.Legible) {n : Nat} (hn : sizeOf e < n) :
    Reads d (expression d n) e := by
  induction n generalizing e with
  | zero => exact absurd hn (Nat.not_lt_zero _)
  | succ n ih =>
      apply step_reads h.plain
      intro part hpart
      have hlt := Expr.sizeOf_part hpart
      exact ih (h.parts part hpart) (by omega)

end Reader

/-! ## One text, one tree

Text and values give the tokens, and the tokens give the tree. -/

variable {e e' : Expr}

/-- Two `Legible` trees with the same tokens are the same tree. -/
theorem eq_of_tokens (h : e.Legible) (h' : e'.Legible) (htokens : e.tokens d = e'.tokens d) :
    e = e' := by
  have hread {e : Expr} (h : e.Legible) {n : Nat} (hn : sizeOf e < n) :
      Reader.expression d n (e.tokens d) = some (e, []) := by
    have hback := (Reader.expression_reads (d := d) h hn).back [] (by simp [Reader.Follows])
    rwa [List.append_nil] at hback
  have hleft := hread h (n := sizeOf e + sizeOf e' + 1) (by omega)
  have hright := hread h' (n := sizeOf e + sizeOf e' + 1) (by omega)
  rw [htokens, hright] at hleft
  exact (Prod.mk.inj (Option.some.inj hleft)).1.symm

theorem Expr.statement_eq (d : Dialect) (e : Expr) :
    e.statement d = .ofPieces d ((e.tokens d).map (Token.piece d)) := by
  rw [Expr.statement, ← Statement.addAll_empty, ← Statement.addAll_empty, e.spells d]

/-- **A text is read in only one way**: two `Legible` trees whose `statement` has the same text and
the same values are the same tree. -/
theorem eq_of_statement (h : e.Legible) (h' : e'.Legible)
    (hsql : (e.statement d).sql = (e'.statement d).sql)
    (hparams : (e.statement d).params = (e'.statement d).params) : e = e' := by
  rw [e.statement_eq, e'.statement_eq] at hsql hparams
  simp only [Statement.ofPieces] at hsql hparams
  apply eq_of_tokens h h' (d := d)
  apply Token.eq_of_spelled (n := 0) h.separated h'.separated
  · rw [← Token.toList_join, ← Token.toList_join, hsql]
  · rw [← Token.parameters_pieces d, ← Token.parameters_pieces d, hparams]

end FilterSql.Sql
