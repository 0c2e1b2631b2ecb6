import FilterSql.Json.Printer
import FilterSql.Proofs.Json.Reading

/-!
# Texts of a document

One document has many texts, which differ in the blanks between their tokens. `Layout` says what
these texts are without mention of the reader, and the reader gives the document for each of them
(`Json.Layout.read?_eq`). The texts that `Json.compact` and `Json.pretty` print are two of them, so
printed documents are read back (`IsPlain.read?_compact`, `IsPlain.read?_pretty`).
-/

namespace FilterSql.Json

open Grammar (taken)

variable {r t : List Char}

/-! ## Layouts

Values, items and members are read by three functions that call one another, so texts are defined
for all three kinds of `Part` at once. -/

/-- What a text is of: a value, or what stands behind the bracket that opens some items or
members. -/
inductive Part where
  | value (j : Json)
  | items (js : List Json)
  | members (fs : List (String × Json))

def IsBlank (s : List Char) : Prop :=
  ∀ c ∈ s, isSpace c = true

/-- `Layout part t` holds if `t` is a text of `part`, with any blanks between its tokens. Numbers
with a fraction or an exponent have none. -/
inductive Layout : Part → List Char → Prop
  | null : Layout (.value .null) (scalar .null)
  | bool (b : Bool) : Layout (.value (.bool b)) (scalar (.bool b))
  | int (n : Int) : Layout (.value (.int n)) (scalar (.int n))
  | string (s : String) : Layout (.value (.string s)) (scalar (.string s))
  | emptyArray {b : List Char} (hb : IsBlank b) : Layout (.value (.array [])) ('[' :: (b ++ [']']))
  | array {js : List Json} {b t : List Char} (hb : IsBlank b) (h : Layout (.items js) t) :
      Layout (.value (.array js)) ('[' :: (b ++ t))
  | emptyObject {b : List Char} (hb : IsBlank b) :
      Layout (.value (.object [])) ('\x7b' :: (b ++ ['\x7d']))
  | object {fs : List (String × Json)} {b t : List Char} (hb : IsBlank b)
      (h : Layout (.members fs) t) :
      Layout (.value (.object fs)) ('\x7b' :: (b ++ t))
  | lastItem {j : Json} {t b : List Char} (h : Layout (.value j) t) (hb : IsBlank b) :
      Layout (.items [j]) (t ++ (b ++ [']']))
  | item {j : Json} {js : List Json} {t b b' r : List Char} (h : Layout (.value j) t)
      (hb : IsBlank b) (hb' : IsBlank b') (hr : Layout (.items js) r) :
      Layout (.items (j :: js)) (t ++ (b ++ ',' :: (b' ++ r)))
  | lastMember (name : String) {j : Json} {b b' b'' t : List Char} (hb : IsBlank b)
      (hb' : IsBlank b') (h : Layout (.value j) t) (hb'' : IsBlank b'') :
      Layout (.members [(name, j)]) (quoted name ++ (b ++ ':' :: (b' ++ (t ++ (b'' ++ ['\x7d'])))))
  | member (name : String) {j : Json} {fs : List (String × Json)} {b b' b'' b₀ t r : List Char}
      (hb : IsBlank b) (hb' : IsBlank b') (h : Layout (.value j) t) (hb'' : IsBlank b'')
      (hb₀ : IsBlank b₀) (hr : Layout (.members fs) r) :
      Layout (.members ((name, j) :: fs))
        (quoted name ++ (b ++ ':' :: (b' ++ (t ++ (b'' ++ ',' :: (b₀ ++ r))))))

namespace Layout

variable {part : Part} {b : List Char}

/-- A text of a part begins neither with a blank nor with a closing bracket. -/
theorem head (h : Layout part t) :
    ∃ c r, t = c :: r ∧ isSpace c = false ∧ c ≠ ']' ∧ c ≠ '\x7d' := by
  induction h with
  | null => exact ⟨_, _, rfl, by decide⟩
  | bool b => cases b <;> exact ⟨_, _, rfl, by decide⟩
  | int n =>
      obtain ⟨c, r, htext, hc⟩ := toString_head n
      exact ⟨c, r, htext, by simp [isSpace, ne_of_dashOrDigit hc]⟩
  | string s => exact ⟨_, _, rfl, by decide⟩
  | emptyArray | array | emptyObject | object => exact ⟨_, _, rfl, by decide⟩
  | lastItem _ _ ih =>
      obtain ⟨c, r, rfl, hc⟩ := ih
      exact ⟨c, _, rfl, hc⟩
  | item _ _ _ _ ih _ =>
      obtain ⟨c, r, rfl, hc⟩ := ih
      exact ⟨c, _, rfl, hc⟩
  | lastMember | member => exact ⟨'"', _, rfl, by decide⟩

theorem skipSpace_append (h : Layout part t) (hb : IsBlank b) (r : List Char) :
    skipSpace (b ++ (t ++ r)) = t ++ r := by
  obtain ⟨c, r', rfl, hc, -⟩ := h.head
  exact Text.dropWhile_stop hb (by rintro _ ⟨⟩; exact hc)

end Layout

theorem skipSpace_cons {b : List Char} {c : Char} (hb : IsBlank b) (hc : isSpace c = false)
    (r : List Char) :
    skipSpace (b ++ c :: r) = c :: r :=
  Text.dropWhile_stop hb (by rintro _ ⟨⟩; exact hc)

/-- Blanks do not go on with a number, so they may stand behind one. -/
theorem stops_blank {b : List Char} (hb : IsBlank b) : Stops b := by
  intro c hc
  have hspace := hb c (List.mem_of_mem_head? hc)
  simp only [isSpace, Bool.or_eq_true, beq_iff_eq, or_assoc] at hspace
  rcases hspace with rfl | rfl | rfl | rfl <;> decide

/-- Nor do the characters that stand behind an item or a member, with blanks in front of them or
without. -/
theorem stops_cons {b : List Char} {c : Char} (hb : IsBlank b) (hc : c = ',' ∨ c = ']' ∨ c = '\x7d')
    (r : List Char) :
    Stops (b ++ c :: r) := by
  cases b with
  | nil =>
      rintro _ ⟨⟩
      rcases hc with rfl | rfl | rfl <;> decide
  | cons d b =>
      rintro _ ⟨⟩
      exact stops_blank hb d rfl

/-- The reader takes `s` for this part and leaves `r`. -/
def Part.Reads (s r : List Char) : Part → Prop
  | value j => taken (readValue s) = some (j, r)
  | items js => taken (readItems s) = some (js, r)
  | members fs => taken (readFields s) = some (fs.map some, r)

theorem readString_quoted (name : String) (r : List Char) :
    taken (readString ((quoted name).tail ++ r)) = some (some name.toList, r) := by
  have htail : (quoted name).tail ++ r = name.toList.flatMap escapeChar ++ '"' :: r := by
    simp [quoted]
  rw [htail, readString_escaped]

theorem ofMembers_some (fs : List (String × Json)) : ofMembers (fs.map some) = .object fs := by
  have hall : (fs.map some).mapM id = some fs := by
    induction fs with
    | nil => rfl
    | cons f fs ih => simp [ih]
  rw [ofMembers, hall]

theorem readValue_int (n : Int) (hr : Stops r) :
    taken (readValue ((toString n).toList ++ r)) = some (.int n, r) := by
  obtain ⟨c, r', htext, hc⟩ := toString_head n
  have hne {c' : Char} : c' ≠ '-' → c'.isDigit = false → c ≠ c' := ne_of_dashOrDigit hc
  have hword : readWord ((toString n).toList ++ r) = some (.int n, r) := by
    rw [← readNumber_int n hr, htext]
    apply readWord.eq_4
    · exact fun t h => hne (by decide) (by decide) (List.cons.inj h).1
    · exact fun t h => hne (by decide) (by decide) (List.cons.inj h).1
    · exact fun t h => hne (by decide) (by decide) (List.cons.inj h).1
  rw [htext] at hword ⊢
  apply readValue_word _ hword (by simp only [List.length_cons, List.length_append]; omega)
  rintro _ ⟨⟩
  exact ⟨hne (by decide) (by decide), hne (by decide) (by decide), hne (by decide) (by decide)⟩

/-- An item is read up to what stands behind its value, across the blanks in between. -/
theorem readItems_value {j : Json} {u : List Char}
    (hvalue : taken (readValue (t ++ u)) = some (j, u)) :
    taken (readItems (t ++ u)) =
      match skipSpace u with
      | ']' :: r => some ([j], r)
      | ',' :: r => (taken (readItems (skipSpace r))).map fun (js, q) => (j :: js, q)
      | _ => none := by
  have hrun := readItems_run (t ++ u)
  rw [hvalue, Option.bind_some] at hrun
  exact hrun

/-- A member is read up to what stands behind its value, across the blanks around the colon and in
front of the next token. -/
theorem readFields_value (name : String) {j : Json} {b b' u : List Char} (hb : IsBlank b)
    (hb' : IsBlank b') (h : Layout (.value j) t)
    (hvalue : taken (readValue (t ++ u)) = some (j, u)) :
    taken (readFields (quoted name ++ (b ++ ':' :: (b' ++ (t ++ u))))) =
      match skipSpace u with
      | '\x7d' :: r => some ([some (name, j)], r)
      | ',' :: r => (taken (readFields (skipSpace r))).map fun (fs, q) => (some (name, j) :: fs, q)
      | _ => none := by
  have htext : quoted name ++ (b ++ ':' :: (b' ++ (t ++ u))) =
      '"' :: ((quoted name).tail ++ (b ++ ':' :: (b' ++ (t ++ u)))) := by simp [quoted]
  have hmember : member? (some name.toList) j = some (name, j) := by simp [member?]
  have hrun := readFields_run ((quoted name).tail ++ (b ++ ':' :: (b' ++ (t ++ u))))
  rw [readString_quoted, Option.bind_some] at hrun
  simp only [skipSpace_cons (c := ':') hb rfl] at hrun
  rw [h.skipSpace_append hb', hvalue, Option.bind_some, hmember] at hrun
  rw [htext]
  exact hrun

/-- **Every text of a part is read as that part**, by induction on the layout. -/
theorem Layout.reads {part : Part} (h : Layout part t) (hr : Stops r) : part.Reads (t ++ r) r := by
  -- By induction on the layout. What stands behind a part is another text for each part, so `r` is
  -- generalized.
  induction h generalizing r with
  | null =>
      refine readValue_word (s := 'n' :: 'u' :: 'l' :: 'l' :: r) (by simp) rfl ?_
      simp only [List.length_cons]
      omega
  | bool b =>
      cases b with
      | false =>
          refine readValue_word (s := 'f' :: 'a' :: 'l' :: 's' :: 'e' :: r) (by simp) rfl ?_
          simp only [List.length_cons]
          omega
      | true =>
          refine readValue_word (s := 't' :: 'r' :: 'u' :: 'e' :: r) (by simp) rfl ?_
          simp only [List.length_cons]
          omega
  | int n => exact readValue_int n hr
  | string s =>
      show taken (readValue ('"' :: ((quoted s).tail ++ r))) = _
      rw [readValue_string, readString_quoted]
      simp [ofChars]
  | @emptyArray b hb =>
      show taken (readValue ('[' :: (b ++ [']'] ++ r))) = _
      apply readValue_emptyArray
      rw [List.append_assoc]
      exact skipSpace_cons hb rfl r
  | @array js b t hb h ih =>
      obtain ⟨c, t', htext, -, hbracket, -⟩ := h.head
      have hskip := h.skipSpace_append hb r
      -- No item begins with the bracket that would close the array at once.
      have hhead : (skipSpace (b ++ (t ++ r))).head? ≠ some ']' := by
        rw [hskip, htext]
        simpa using hbracket
      have hitems : taken (readItems (t ++ r)) = some (js, r) := ih hr
      show taken (readValue ('[' :: (b ++ t ++ r))) = _
      rw [List.append_assoc, readValue_array hhead, hskip, hitems]
      rfl
  | @emptyObject b hb =>
      show taken (readValue ('\x7b' :: (b ++ ['\x7d'] ++ r))) = _
      apply readValue_emptyObject
      rw [List.append_assoc]
      exact skipSpace_cons hb rfl r
  | @object fs b t hb h ih =>
      obtain ⟨c, t', htext, -, -, hbrace⟩ := h.head
      have hskip := h.skipSpace_append hb r
      have hhead : (skipSpace (b ++ (t ++ r))).head? ≠ some '\x7d' := by
        rw [hskip, htext]
        simpa using hbrace
      have hfields : taken (readFields (t ++ r)) = some (fs.map some, r) := ih hr
      show taken (readValue ('\x7b' :: (b ++ t ++ r))) = _
      rw [List.append_assoc, readValue_object hhead, hskip, hfields, Option.map_some]
      simp only [ofMembers_some]
  | @lastItem j t b h hb ih =>
      have hvalue : taken (readValue (t ++ (b ++ ']' :: r))) = some (j, b ++ ']' :: r) :=
        ih (stops_cons hb (.inr (.inl rfl)) r)
      have htext : t ++ (b ++ [']']) ++ r = t ++ (b ++ ']' :: r) := by simp
      rw [Part.Reads, htext, readItems_value hvalue]
      simp only [skipSpace_cons (c := ']') hb rfl r]
  | @item j js t b b' rest h hb hb' hrest ih ihrest =>
      have hvalue : taken (readValue (t ++ (b ++ ',' :: (b' ++ (rest ++ r))))) =
          some (j, b ++ ',' :: (b' ++ (rest ++ r))) := ih (stops_cons hb (.inl rfl) _)
      have hitems : taken (readItems (rest ++ r)) = some (js, r) := ihrest hr
      have htext : t ++ (b ++ ',' :: (b' ++ rest)) ++ r =
        t ++ (b ++ ',' :: (b' ++ (rest ++ r))) := by simp
      rw [Part.Reads, htext, readItems_value hvalue]
      simp only [skipSpace_cons (c := ',') hb rfl]
      rw [hrest.skipSpace_append hb', hitems]
      rfl
  | @lastMember name j b b' b'' t hb hb' h hb'' ih =>
      have hvalue : taken (readValue (t ++ (b'' ++ '\x7d' :: r))) = some (j, b'' ++ '\x7d' :: r) :=
        ih (stops_cons hb'' (.inr (.inr rfl)) r)
      have htext : quoted name ++ (b ++ ':' :: (b' ++ (t ++ (b'' ++ ['\x7d'])))) ++ r =
          quoted name ++ (b ++ ':' :: (b' ++ (t ++ (b'' ++ '\x7d' :: r)))) := by simp
      rw [Part.Reads, htext, readFields_value name hb hb' h hvalue]
      simp [skipSpace_cons (c := '\x7d') hb'' rfl]
  | @member name j fs b b' b'' b₀ t rest hb hb' h hb'' hb₀ hrest ih ihrest =>
      have hvalue : taken (readValue (t ++ (b'' ++ ',' :: (b₀ ++ (rest ++ r))))) =
          some (j, b'' ++ ',' :: (b₀ ++ (rest ++ r))) := ih (stops_cons hb'' (.inl rfl) _)
      have hfields : taken (readFields (rest ++ r)) = some (fs.map some, r) := ihrest hr
      have htext : quoted name ++ (b ++ ':' :: (b' ++ (t ++ (b'' ++ ',' :: (b₀ ++ rest))))) ++ r =
          quoted name ++ (b ++ ':' :: (b' ++ (t ++ (b'' ++ ',' :: (b₀ ++ (rest ++ r)))))) := by simp
      rw [Part.Reads, htext, readFields_value name hb hb' h hvalue]
      simp only [skipSpace_cons (c := ',') hb'' rfl]
      rw [hrest.skipSpace_append hb₀, hfields]
      rfl

theorem read?_run (text : String) :
    read? text = (taken (readValue (skipSpace text.toList))).bind fun (j, r) =>
    if (skipSpace r).isEmpty then some j else none := by
  rw [read?]
  cases readValue (skipSpace text.toList) <;> rfl

/-- Every text of a document is read as that document, also with blanks around it. -/
theorem Layout.read?_eq {j : Json} {b b' : List Char} (h : Layout (.value j) t) (hb : IsBlank b)
    (hb' : IsBlank b') :
    read? (String.ofList (b ++ (t ++ b'))) = some j := by
  have hvalue : taken (readValue (t ++ b')) = some (j, b') := h.reads (stops_blank hb')
  have hend : skipSpace b' = [] := by
    simpa [skipSpace] using Text.dropWhile_stop (r := []) hb' nofun
  rw [read?_run, String.toList_ofList, h.skipSpace_append hb, hvalue, Option.bind_some]
  simp [hend]

/-! ## Printed documents

Documents that need no number with a fraction or an exponent, such as those that schemas are
written as. `compact` and `pretty` print layouts of them. -/

/-- Without numbers that have a fraction or an exponent. -/
inductive IsPlain : Json → Prop
  | null : IsPlain .null
  | bool (b : Bool) : IsPlain (.bool b)
  | int (n : Int) : IsPlain (.int n)
  | string (s : String) : IsPlain (.string s)
  | array {js : List Json} (h : ∀ j ∈ js, IsPlain j) : IsPlain (.array js)
  | object {fs : List (String × Json)} (h : ∀ f ∈ fs, IsPlain f.2) : IsPlain (.object fs)

attribute [simp] IsPlain.null IsPlain.bool IsPlain.int IsPlain.string

@[simp] theorem isPlain_array {js : List Json} : (array js).IsPlain ↔ ∀ j ∈ js, j.IsPlain where
  mp | .array h => h
  mpr := .array

@[simp] theorem isPlain_object {fs : List (String × Json)} :
    (object fs).IsPlain ↔ ∀ f ∈ fs, f.2.IsPlain where
  mp | .object h => h
  mpr := .object

theorem isBlank_nil : IsBlank [] :=
  nofun

theorem layout_compactItems {js : List Json} (hne : js ≠ [])
    (h : ∀ j ∈ js, Layout (.value j) j.compactChars) :
    Layout (.items js) (compactItems js ++ [']']) := by
  induction js with
  | nil => exact absurd rfl hne
  | cons j js ih =>
      have hj := h j List.mem_cons_self
      cases js with
      | nil => exact .lastItem hj isBlank_nil
      | cons j' js =>
          have hrest := ih (List.cons_ne_nil _ _) fun j hj => h j (List.mem_cons_of_mem _ hj)
          have hitem := Layout.item hj isBlank_nil isBlank_nil hrest
          rw [compactItems]
          simpa using hitem
          simp

theorem layout_compactFields {fs : List (String × Json)} (hne : fs ≠ [])
    (h : ∀ f ∈ fs, Layout (.value f.2) f.2.compactChars) :
    Layout (.members fs) (compactFields fs ++ ['\x7d']) := by
  induction fs with
  | nil => exact absurd rfl hne
  | cons f fs ih =>
      obtain ⟨name, j⟩ := f
      have hj := h (name, j) List.mem_cons_self
      cases fs with
      | nil =>
          have hmember := Layout.lastMember name isBlank_nil isBlank_nil hj isBlank_nil
          rw [compactFields]
          simpa using hmember
      | cons f' fs =>
          have hrest := ih (List.cons_ne_nil _ _) fun f hf => h f (List.mem_cons_of_mem _ hf)
          have hmember :=
            Layout.member name isBlank_nil isBlank_nil hj isBlank_nil isBlank_nil hrest
          rw [compactFields]
          simpa using hmember
          simp

theorem IsPlain.layout_compact {j : Json} (h : j.IsPlain) : Layout (.value j) j.compactChars := by
  induction h with
  | null => exact .null
  | bool b => exact .bool b
  | int n => exact .int n
  | string s => exact .string s
  | @array js h ih =>
      cases js with
      | nil => exact .emptyArray isBlank_nil
      | cons j js =>
          have hlayout := Layout.array isBlank_nil (layout_compactItems (List.cons_ne_nil _ _) ih)
          rw [compactChars]
          exact hlayout
  | @object fs h ih =>
      cases fs with
      | nil => exact .emptyObject isBlank_nil
      | cons f fs =>
          have hlayout := Layout.object isBlank_nil (layout_compactFields (List.cons_ne_nil _ _) ih)
          rw [compactChars]
          exact hlayout

theorem isBlank_lineStart (depth : Nat) : IsBlank (lineStart depth) := by
  intro c hc
  rcases List.mem_cons.mp hc with rfl | hc
  · rfl
  · rw [List.eq_of_mem_replicate hc]
    rfl

/-- In a pretty array each item begins a line, and so does the bracket behind the last one. The
line break in front of the first item is split off, since it belongs to the bracket that opens the
array. -/
theorem layout_prettyItems {js : List Json} (hne : js ≠ []) {depth : Nat} {b : List Char}
    (hb : IsBlank b) (h : ∀ j ∈ js, Layout (.value j) (j.prettyChars depth)) :
    ∃ t, prettyItems depth js ++ (b ++ [']']) = lineStart depth ++ t ∧ Layout (.items js) t := by
  induction js with
  | nil => exact absurd rfl hne
  | cons j js ih =>
      have hj := h j List.mem_cons_self
      cases js with
      | nil =>
          refine ⟨_, ?_, .lastItem hj hb⟩
          rw [prettyItems, List.append_assoc]
      | cons j' js =>
          obtain ⟨t, htext, hrest⟩ := ih (List.cons_ne_nil _ _) fun j hj =>
            h j (List.mem_cons_of_mem _ hj)
          refine ⟨_, ?_, .item hj isBlank_nil (isBlank_lineStart depth) hrest⟩
          rw [prettyItems, ← htext]
          · simp
          · simp

theorem layout_prettyFields {fs : List (String × Json)} (hne : fs ≠ []) {depth : Nat}
    {b : List Char} (hb : IsBlank b) (h : ∀ f ∈ fs, Layout (.value f.2) (f.2.prettyChars depth)) :
    ∃ t, prettyFields depth fs ++ (b ++ ['\x7d']) = lineStart depth ++ t ∧
      Layout (.members fs) t := by
  have hblank : IsBlank [' '] := by simp [IsBlank, isSpace]
  induction fs with
  | nil => exact absurd rfl hne
  | cons f fs ih =>
      obtain ⟨name, j⟩ := f
      have hj := h (name, j) List.mem_cons_self
      cases fs with
      | nil =>
          refine ⟨_, ?_, .lastMember name isBlank_nil hblank hj hb⟩
          rw [prettyFields]
          simp
      | cons f' fs =>
          obtain ⟨t, htext, hrest⟩ := ih (List.cons_ne_nil _ _) fun f hf =>
            h f (List.mem_cons_of_mem _ hf)
          refine ⟨_, ?_, .member name isBlank_nil hblank hj isBlank_nil
            (isBlank_lineStart depth) hrest⟩
          rw [prettyFields, ← htext]
          · simp
          · simp

theorem IsPlain.layout_pretty {j : Json} (h : j.IsPlain) (depth : Nat) :
    Layout (.value j) (j.prettyChars depth) := by
  induction h generalizing depth with
  | null => exact .null
  | bool b => exact .bool b
  | int n => exact .int n
  | string s => exact .string s
  | @array js h ih =>
      cases js with
      | nil => exact .emptyArray isBlank_nil
      | cons j js =>
          obtain ⟨t, htext, hitems⟩ :=
            layout_prettyItems (List.cons_ne_nil j js) (isBlank_lineStart depth)
            fun j hj => ih j hj (depth + 1)
          have hlayout := Layout.array (isBlank_lineStart (depth + 1)) hitems
          rw [← htext] at hlayout
          rw [prettyChars, List.cons_append, List.cons_append, List.append_assoc]
          · exact hlayout
          · simp
  | @object fs h ih =>
      cases fs with
      | nil => exact .emptyObject isBlank_nil
      | cons f fs =>
          obtain ⟨t, htext, hmembers⟩ :=
            layout_prettyFields (List.cons_ne_nil f fs) (isBlank_lineStart depth)
            fun f hf => ih f hf (depth + 1)
          have hlayout := Layout.object (isBlank_lineStart (depth + 1)) hmembers
          rw [← htext] at hlayout
          rw [prettyChars, List.cons_append, List.cons_append, List.append_assoc]
          · exact hlayout
          · simp

theorem IsPlain.read?_compact {j : Json} (h : j.IsPlain) : read? j.compact = some j := by
  have hread := h.layout_compact.read?_eq isBlank_nil isBlank_nil
  rwa [List.nil_append, List.append_nil] at hread

theorem IsPlain.read?_pretty {j : Json} (h : j.IsPlain) : read? j.pretty = some j := by
  have hread := (h.layout_pretty 0).read?_eq isBlank_nil isBlank_nil
  rwa [List.nil_append, List.append_nil] at hread

end FilterSql.Json
