import FilterSql.Filter.Basic

/-!
# The parts of a filter

Filters nest through operands, the bodies of quantifiers and the arguments of functions, and all of
these are `Filter.parts`, wherever in a path they stand. By `Filter.induction`, what passes from
the parts to the whole holds of every filter, so a proof about filters names only the parts that it
needs.
-/

namespace FilterSql

/-! ## Parts

`Filter`, `Segment` and `Argument` are defined by mutual recursion. Their parts are all filters. -/

def Segment.parts : Segment → List Filter
  | .any _ body => [body]
  | .all _ body => [body]
  | .function _ args => args.map Argument.value
  | .property _ | .count | .nonempty => []

namespace Filter

/-- The filters right below a filter. -/
def parts : Filter → List Filter
  | binary left _ right => [left, right]
  | unary _ operand => [operand]
  | member path => path.flatMap Segment.parts
  | call _ args => args
  | literal _ | enumMember .. | typeName _ | parameterAlias _ => []

end Filter

namespace Path

/-- The body of the first quantifier of a path. -/
def body? : Path → Option Filter
  | .any _ body :: _ => some body
  | .all _ body :: _ => some body
  | _ :: rest => body? rest
  | [] => none

/-- The arguments of the function that a path begins with. -/
def arguments : Path → List Argument
  | .function _ args :: _ => args
  | _ => []

/-- If a path has quantifiers with bodies, one of them is the first. -/
theorem exists_body? {path : Path} {name : String} {body : Filter}
    (h : .any name body ∈ path ∨ .all name body ∈ path) : ∃ first, path.body? = some first := by
  induction path with
  | nil => simp at h
  | cons segment rest ih =>
      cases segment with
      | any _ first | all _ first => exact ⟨first, rfl⟩
      | property | count | nonempty | function => exact ih (by simpa using h)

theorem body?_mem {path : Path} {body : Filter} (h : path.body? = some body) :
    body ∈ path.flatMap Segment.parts := by
  induction path with
  | nil => simp [body?] at h
  | cons first rest ih =>
      rw [List.flatMap_cons, List.mem_append]
      cases first with
      | any x b => left; simp_all [body?, Segment.parts]
      | all x b => left; simp_all [body?, Segment.parts]
      | property | count | nonempty | function => right; exact ih (by simpa [body?] using h)

theorem arguments_mem {path : Path} {arg : Argument} (h : arg ∈ path.arguments) :
    arg.value ∈ path.flatMap Segment.parts := by
  cases path with
  | nil => simp [arguments] at h
  | cons first rest =>
      rw [List.flatMap_cons, List.mem_append]
      cases first with
      | function name args => left; exact List.mem_map_of_mem h
      | property | count | nonempty | any | all => simp [arguments] at h

end Path

/-! ## Induction

Parts are smaller than the whole, in the measure that `sizeOf` takes of the three types together. -/

theorem Segment.sizeOf_part {part : Filter} {segment : Segment} (h : part ∈ segment.parts) :
    sizeOf part < sizeOf segment := by
  cases segment with
  | any x body | all x body =>
      rw [Segment.parts, List.mem_singleton] at h
      subst h
      simp only [Segment.any.sizeOf_spec, Segment.all.sizeOf_spec]
      omega
  | function name args =>
      obtain ⟨⟨label, value⟩, hmem, rfl⟩ := List.mem_map.mp h
      have hlt := List.sizeOf_lt_of_mem hmem
      simp only [Argument.value, Argument.mk.sizeOf_spec, Segment.function.sizeOf_spec] at hlt ⊢
      omega
  | property | count | nonempty => simp [Segment.parts] at h

theorem Filter.sizeOf_part {f part : Filter} (h : part ∈ f.parts) : sizeOf part < sizeOf f := by
  cases f with
  | binary l op r =>
      simp only [Filter.parts, List.mem_cons, List.not_mem_nil, or_false] at h
      rcases h with rfl | rfl
      all_goals
        rw [Filter.binary.sizeOf_spec]
        omega
  | unary op operand =>
      rw [List.mem_singleton.mp h, Filter.unary.sizeOf_spec]
      omega
  | member path =>
      obtain ⟨segment, hmem, hpart⟩ := List.mem_flatMap.mp h
      have hsegment := List.sizeOf_lt_of_mem hmem
      have hlt := Segment.sizeOf_part hpart
      simp only [Filter.member.sizeOf_spec]
      omega
  | call function args =>
      have hlt : sizeOf part < sizeOf args := List.sizeOf_lt_of_mem h
      simp only [Filter.call.sizeOf_spec]
      omega
  | literal | enumMember | typeName | parameterAlias => simp [Filter.parts] at h

/-- **Induction on filters**: what passes from the parts of a filter to the filter itself holds of
every filter. -/
theorem Filter.induction {P : Filter → Prop} (step : ∀ f, (∀ part ∈ f.parts, P part) → P f)
    (f : Filter) :
    P f :=
  step f fun part _ => Filter.induction step part
termination_by sizeOf f
decreasing_by exact Filter.sizeOf_part ‹_›

end FilterSql
