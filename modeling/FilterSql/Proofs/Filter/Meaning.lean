import FilterSql.Compile.Navigation
import FilterSql.Compile.Target
import FilterSql.Proofs.Compile.Operation
import FilterSql.Proofs.Filter.Parts
import FilterSql.Proofs.Sql.Evaluation

/-!
# What filters mean

`Filter.truth` is the truth value of a filter for one row of a database, read off the filter
itself. It speaks of rows, and knows neither aliases nor queries. A member starts at a row, the
root one or the element of a quantifier, and leads along hops to the rows that are related with it
(`Hop.related`). A member that crosses hops has one value for each row behind them, and so has what
is computed from it (`Reading`). A condition on such values is true if it is true for one of these
rows, and otherwise false: it is never unknown.

What single values come to is the database's affair, as it is for SQL expressions, so the same
`Sql.Database` is used for both.
-/

namespace FilterSql

open Sql (Row Truth Database)

/-! ## Related rows

A hop stands for a relation between rows, given by its join columns and its link table. -/

/-- Whether the rows have equal values in each pair of `columns`. A null value equals nothing. -/
def Sql.Database.agree (db : Database) (columns : List JoinColumn)
    (left right : JoinColumn → Value) : Bool :=
  columns.all fun j => (db.compared .eq (left j) (right j)).holds

namespace Hop

/-- The rows that a hop leads to from `row`. Through a link table a row is reached once for each
row of that table that links it. -/
def related (db : Database) (h : Hop) (row : Row) : List Row :=
  let source (j : JoinColumn) := row (h.columnLead ++ j.source)
  match h.linkTable? with
  | none =>
      (db.rows h.target.table).filter fun target =>
        db.agree h.joinColumns (fun j => target j.target) source
  | some link =>
      (db.rows h.target.table).flatMap fun target =>
        ((db.rows link.table).filter fun between =>
          db.agree link.columns (fun j => between j.source) (fun j => target j.target) &&
          db.agree h.joinColumns (fun j => between j.target) source).map fun _ => target

/-- The rows at the ends of chains of `related` rows, one hop after the other. -/
def reach (db : Database) : List Hop → Row → List Row
  | [], row => [row]
  | h :: rest, row => (h.related db row).flatMap (reach db rest)

/-- Which rows are `related` depends on the `target`, the `kind` and the `columnLead` of a hop
alone. -/
theorem related_eq {h h' : Hop} (db : Database) (htarget : h'.target = h.target)
    (hkind : h'.kind = h.kind) (hlead : h'.columnLead = h.columnLead) :
    h'.related db = h.related db := by
  funext row
  rw [related, related, linkTable?, linkTable?, joinColumns, joinColumns, htarget, hkind, hlead]

end Hop

/-! ## Readings

Filters are read in a monad, since one member in an operation makes all of it range over rows. -/

/-- What something comes to: `one` thing, or one for `each` row behind some hops. -/
inductive Reading (α : Type) where
  | one (a : α)
  | each (as : List α)

namespace Reading

def values {α : Type} : Reading α → List α
  | one a => [a]
  | each as => as

instance : Monad Reading where
  pure := one
  bind
    | one a, f => f a
    | each as, f => each (as.flatMap fun a => (f a).values)

variable {α β : Type}

@[simp]
theorem one_bind (a : α) (f : α → Reading β) : (one a >>= f) = f a := rfl

@[simp]
theorem each_bind_one (as : List α) (f : α → β) :
    (each as >>= fun a => one (f a)) = each (as.map f) :=
  congrArg each (List.map_eq_flatMap ▸ rfl)

@[simp]
theorem map_one (f : α → β) (a : α) : f <$> one a = one (f a) := rfl

@[simp]
theorem map_each (f : α → β) (as : List α) : f <$> each as = each (as.map f) :=
  each_bind_one as f

theorem values_bind (r : Reading α) (f : α → Reading β) :
    (r >>= f).values = r.values.flatMap fun a => (f a).values := by
  cases r with
  | one a => exact (List.append_nil _).symm
  | each as => rfl

instance : LawfulMonad Reading :=
  LawfulMonad.mk' Reading
    (fun r => by
      cases r with
      | one a => rfl
      | each as => exact congrArg each (List.flatMap_singleton' as))
    (fun _ _ => rfl)
    (fun r f g => by
      cases r with
      | one a => rfl
      | each as => exact congrArg each (by simp only [List.flatMap_assoc, values_bind]))

end Reading

/-- Reads each row behind `hops`, or `row` itself if there are none. -/
def Hop.along {α : Type} (db : Database) (hops : List Hop) (row : Row) (read : Row → α) :
    Reading α :=
  if hops.isEmpty then .one (read row) else .each ((reach db hops row).map read)

/-! ## Meanings

What a filter comes to for one choice of rows. Literals have no type of their own, so they are read
beside the other operand. -/

inductive Meaning where
  | condition (t : Truth)
  | value (v : Value) (type : ValueType)
  /-- A literal, whose type depends on what stands beside it. -/
  | literal (l : Literal)
  | typeName (t : DataType)
  /-- What is no filter, such as an operation on operands that do not fit, has no meaning. -/
  | nothing

/-- An operand: its `value`, and the `type` that it has beside another one. -/
structure Valued where
  value : Value
  type : ValueType
  /-- Whether the operand is the literal `null`. -/
  isNull : Bool

namespace Meaning

/-- The truth value of a meaning in the place of a condition, `none` if it is unknown. -/
def truth : Meaning → Truth
  | condition t => t
  | value v _ => v.truth
  | _ => none

/-- The type that a literal beside this meaning is read as, if this is a `value`. -/
def type? : Meaning → Option ValueType
  | value _ type => some type
  | _ => none

/-- The meaning as an operand. A literal is read as one of the type that stands `beside` it. -/
def operand (s : Schema) (m : Meaning) (beside : Option ValueType) : Option Valued :=
  match m with
  | condition t => some ⟨t.value, .of .boolean, false⟩
  | value v type => some ⟨v, type, false⟩
  | literal l =>
      if l.isNull then some ⟨.null, beside.getD (.of .null), true⟩
      else match s.coerce l beside with
        | .ok v => some ⟨v, (beside.filter (·.dataType ≠ .null)).getD (.of v.dataType), false⟩
        | .error _ => none
  | typeName _ | nothing => none

def read (s : Schema) (m : Meaning) (beside : Option ValueType) : Option Value :=
  (m.operand s beside).map (·.value)

/-! ### Operators

Operations on meanings, with the cases that the language distinguishes: conditions beside boolean
literals, the literal `null`, and values of types that can be compared or calculated with. -/

/-- A `condition` and the boolean literal that stands beside it, on either side. -/
def tested? : Meaning → Meaning → Option (Truth × Bool)
  | condition t, literal l => if l.kind = .boolean then some (t, l.text == "true") else none
  | literal l, condition t => if l.kind = .boolean then some (t, l.text == "true") else none
  | _, _ => none

/-- A comparison of a condition with a boolean: `eq` asks that it is as `expected`, and `ne` that
it is not. -/
def test (op : Comparison) (t : Truth) (expected : Bool) : Meaning :=
  match op with
  | .eq => condition (if expected then t else t.neg)
  | .ne => condition (if expected then t.neg else t)
  | _ => nothing

/-- Compares `v` with the literal `null`. The answer is never unknown. -/
def compareNull (op : Comparison) (v : Value) : Meaning :=
  match op with
  | .eq => condition (some v.isNull)
  | .ne => condition (some !v.isNull)
  | _ => nothing

def compareValues (s : Schema) (db : Database) (op : Comparison) (a b : Meaning) :
    Option Meaning := do
  let l ← a.operand s b.type?
  let r ← b.operand s (if l.isNull then none else some l.type)
  if l.isNull then return compareNull op r.value
  else if r.isNull then return compareNull op l.value
  else return condition (db.compared op l.value r.value)

def compare (s : Schema) (db : Database) (op : Comparison) (a b : Meaning) : Meaning :=
  match tested? a b with
  | some (t, expected) => test op t expected
  | none => (compareValues s db op a b).getD nothing

/-- The type that an operand of arithmetic is read as: a literal takes the `other` type only if
that can hold all numbers of its kind. -/
def arithmeticType (m : Meaning) (other : Option ValueType) : Option ValueType :=
  match m with
  | literal l => other.filter fun t => t.dataType.widen? l.kind.dataType = some t.dataType
  | _ => other

def calculate (s : Schema) (db : Database) (op : Arithmetic) (a b : Meaning) : Option Meaning := do
  let l ← a.operand s (a.arithmeticType (b.type?.map (·.loose)))
  let r ← b.operand s (b.arithmeticType (if l.isNull then none else some l.type.loose))
  return value (db.arith op l.value r.value) (.of (← l.type.dataType.widen? r.type.dataType))

/-- A `literal` with the other sign. Nothing else can be negated. -/
def negate : Meaning → Meaning
  | literal l =>
      literal ⟨match l.text.toList with
        | '-' :: rest => String.ofList rest
        | text => String.ofList ('-' :: text), l.kind⟩
  | _ => nothing

/-- Applies `make` to a single operand. -/
def ofOne (make : Meaning → Meaning) : List Meaning → Meaning
  | [m] => make m
  | _ => nothing

/-- Applies `make` to two operands. -/
def ofTwo (make : Meaning → Meaning → Meaning) : List Meaning → Meaning
  | [a, b] => make a b
  | _ => nothing

/-! ### Functions

Built-in functions by their families, and functions of the schema by name. -/

/-- The pattern that finds a text within `margins`, and the character that escapes wildcards in it.
Those of a string literal are escaped, while a computed text is taken as it is. -/
def pattern (s : Schema) (db : Database) (margins : Sql.Like.Margins) (m : Meaning) :
    Option (Value × Option Char) :=
  let computed : Option (Value × Option Char) := do
    let text ← m.read s (some (.of .string))
    return (db.function "CONCAT" (margins.around (.string "%") [text]), none)
  match m with
  | literal l =>
      if l.kind = .string then
        some (.string (Sql.Like.pattern margins l.text), Sql.Like.escapeOf l.text)
      else computed
  | _ => computed

/-- Where `substring` begins: filters count from zero, and the database from one. -/
def start (s : Schema) (db : Database) (m : Meaning) : Option Value :=
  let computed : Option Value := do
    return db.arith .add (← m.read s (some (.of .int))) (.int 1)
  match m with
  | literal l =>
      if l.kind = .integer then
        (Text.intOfBits? 32 l.text.toList).toOption.map fun n => .int (n + 1)
      else computed
  | _ => computed

/-- The meaning of a call, by the family of the function and the number of its operands. -/
def call (s : Schema) (db : Database) : BuiltIn.Family → List Meaning → Option Meaning
  | .matching margins, [x, y] => do
      let text ← x.read s (some (.of .string))
      let (pattern, escape) ← y.pattern s db margins
      return condition (db.like text pattern escape)
  | .ofText name type, [x] => do
      return value (db.function name [← x.read s (some (.of .string))]) (.of type)
  | .indexOf, [x, y] => do
      let text ← x.read s (some (.of .string))
      let part ← y.read s (some (.of .string))
      return value (db.arith .sub (db.position part text) (.int 1)) (.of .long)
  | .substring, [x, y] => do
      let text ← x.read s (some (.of .string))
      return value (db.function "SUBSTRING" [text, ← y.start s db]) (.of .string)
  | .substring, [x, y, z] => do
      let text ← x.read s (some (.of .string))
      let start ← y.start s db
      return value (db.function "SUBSTRING" [text, start, ← z.read s (some (.of .int))])
        (.of .string)
  | .concat, [x, y] => do
      let left ← x.read s (some (.of .string))
      return value (db.function "CONCAT" [left, ← y.read s (some (.of .string))]) (.of .string)
  | .field field, [x] => do return value (db.extract field (← x.read s none)) (.of .int)
  | .instantPart type, [x] => do return value (db.cast (← x.read s none) type) (.of type)
  | .now, [] => some (value db.now (.of .timestamp))
  | .rounding name, [x] => do
      let a ← x.operand s none
      return value (db.function name [a.value]) a.type.loose
  | .cast, [x, typeName t] => do return value (db.cast (← x.read s none) t) (.of t)
  | _, _ => none

/-- The value of the argument for the parameter `p`, found by its name. -/
def argument (s : Schema) (args : List (Option String × Meaning)) (p : Parameter) :
    Option Value := do
  (← args.lookup (some p.name)).read s (some (.ofParameter p))

/-- The meaning of a call of a schema function, whose arguments are taken in the order of its
parameters. -/
def callCustom (s : Schema) (db : Database) (called : String)
    (args : List (Option String × Meaning)) :
    Option Meaning := do
  let f ← (s.calledFunction called).toOption
  let type ← (Schema.returnedType f).toOption
  return value (db.function f.sqlName (← f.parameters.mapM (argument s args))) (.of type)

end Meaning

/-- The truth value of a reading as a condition: with `each`, whether it is true for one of the
rows. -/
def Reading.truth : Reading Meaning → Truth
  | one m => m.truth
  | each ms => some (ms.any fun m => m.truth.holds)

/-! ## Members

What a path means depends on the row that it starts at. -/

/-- A `row` together with the `scope` that it is a row of. -/
structure Standing where
  scope : Scope
  row : Row

namespace Standing

variable (s : Schema) (db : Database) (st : Standing)

/-- The value of the column that `names` lead to, or of the element itself if there are no names. -/
def column (names : List String) : Reading Meaning :=
  if names.isEmpty then
    match st.scope.elementPath? with
    | some leaf => .one (.value (st.row leaf.column) leaf.type)
    | none => .one .nothing
  else match s.resolve st.scope names with
    | .ok ⟨hops, some leaf⟩ => Hop.along db hops st.row fun row =>
        .value (row leaf.column) leaf.type
    | _ => .one .nothing

/-- For each row in front of the last hop, how many rows are `related` to it by that hop. -/
def count (names : List String) : Reading Meaning :=
  match s.resolve st.scope names with
  | .ok ⟨hops, none⟩ =>
      match hops.getLast? with
      | some last =>
          Hop.along db hops.dropLast st.row fun row =>
            .value (.long (last.related db row).length) { dataType := .long, nullable := false }
      | none => .one .nothing
  | _ => .one .nothing

/-- What `question` says of the elements of the collection that `names` lead to. -/
def asked (names : List String) (question : List Standing → Truth) : Reading Meaning :=
  match s.resolve st.scope names with
  | .ok ⟨hops, none⟩ =>
      match hops.getLast? with
      | some last =>
          .one (.condition (question ((Hop.reach db hops st.row).map fun row =>
            ⟨last.target, row⟩)))
      | none => .one .nothing
  | _ => .one .nothing

/-- What a member comes to whose names are followed by one segment at most. `body` is the truth
value of a quantifier's body for an element that the variable is bound to. `all` asks for an
element of which it is true and for none of which it is false. -/
def member (names : List String) (body : String → Standing → Truth)
    (args : Reading (List (Option String × Meaning))) : Path → Reading Meaning
  | [] => st.column s db names
  | [.count] => st.count s db names
  | [.nonempty] => st.asked s db names fun elements => some !elements.isEmpty
  | [.any name _] => st.asked s db names fun elements =>
      some (elements.any fun st => (body name st).holds)
  | [.all name _] => st.asked s db names fun elements =>
      some (elements.any (fun st => (body name st).holds) && elements.all fun st =>
        body name st != some false)
  | [.function name _] => do return (Meaning.callCustom s db name (← args)).getD .nothing
  | _ => .one .nothing

end Standing

/-! ## Filters

`Filter.reading` goes through a filter once and needs no aliases and no levels. A quantifier binds
its variable to a row in the `Surroundings`, and a path starts at a row that it finds there. -/

/-- The `root` row, and the elements that the variables of quantifiers are `bound` to, the
innermost first. -/
structure Surroundings where
  root : Standing
  bound : List (String × Standing) := []

namespace Surroundings

/-- Binds the variable `name` to an element. -/
def bind (around : Surroundings) (name : String) (st : Standing) : Surroundings :=
  { around with bound := (name, st) :: around.bound }

/-- The row that members without a prefix start at: the innermost `bound` element, or the `root`. -/
def nearest (around : Surroundings) : Standing :=
  match around.bound with
  | [] => around.root
  | (_, st) :: _ => st

/-- The row that a path starts at, and its segments behind `$it` or a variable. -/
def start (around : Surroundings) : Path → Standing × Path
  | .property first :: rest =>
      if first = rootName then (around.root, rest)
      else match around.bound.lookup first with
        | some st => (st, rest)
        | none => (around.nearest, .property first :: rest)
  | path => (around.nearest, path)

end Surroundings

/-- The names that a path begins with, and the segments behind them. -/
def Path.split : Path → List String × Path
  | .property name :: rest => (name :: (split rest).1, (split rest).2)
  | path => ([], path)

mutual

/-- The `Reading` of a filter, which tells its `Meaning` for each choice of the rows that it ranges
over. -/
def Filter.reading (s : Schema) (db : Database) (around : Surroundings) : Filter → Reading Meaning
  | .binary l op r =>
      match op with
      | .compare op =>
          .one <| .condition <| Reading.truth do
            let x ← l.reading s db around
            let y ← r.reading s db around
            return Meaning.compare s db op x y
      | .arith op => do
          let x ← l.reading s db around
          let y ← r.reading s db around
          return (Meaning.calculate s db op x y).getD .nothing
      | .and => .one (.condition ((l.reading s db around).truth.conj (r.reading s db around).truth))
      | .or => .one (.condition ((l.reading s db around).truth.disj (r.reading s db around).truth))
      | .has => .one .nothing
  | .unary op operand =>
      match op with
      | .not => .one (.condition (operand.reading s db around).truth.neg)
      | .minus => do return (← operand.reading s db around).negate
  | .member path =>
      let (st, rest) := around.start path
      st.member s db (Path.split rest).1 (fun name st => bodyTruth s db (around.bind name st) path)
        (pathReadings s db around path) (Path.split rest).2
  | .literal l => .one (.literal l)
  | .enumMember type member =>
      match s.coerceMember type member none with
      | .ok (v, t) => .one (.value v t)
      | .error _ => .one .nothing
  | .call f args => do
      return (Meaning.call s db f.family (← readings s db around args)).getD .nothing
  | .typeName name =>
      match DataType.ofName? name with
      | some t => .one (.typeName t)
      | none => .one .nothing
  | .parameterAlias _ => .one .nothing

/-- The readings of operands, with one list for each choice of the rows that all of them range
over. -/
def readings (s : Schema) (db : Database) (around : Surroundings) :
    List Filter → Reading (List Meaning)
  | [] => return []
  | f :: fs => do return (← f.reading s db around) :: (← readings s db around fs)

/-- The truth value of the body of the first `any` or `all` in a path. -/
def bodyTruth (s : Schema) (db : Database) (around : Surroundings) : Path → Truth
  | .any _ body :: _ => (body.reading s db around).truth
  | .all _ body :: _ => (body.reading s db around).truth
  | _ :: rest => bodyTruth s db around rest
  | [] => none

/-- What the arguments of the `function` in a path come to. -/
def pathReadings (s : Schema) (db : Database) (around : Surroundings) :
    Path → Reading (List (Option String × Meaning))
  | .function _ args :: _ => argumentReadings s db around args
  | _ => return []

def argumentReadings (s : Schema) (db : Database) (around : Surroundings) :
    List Argument → Reading (List (Option String × Meaning))
  | [] => return []
  | .mk name f :: rest => do
      return (name, ← f.reading s db around) :: (← argumentReadings s db around rest)

end

section

variable {s : Schema} {db : Database} {around : Surroundings}

/-- The form of `readings` for two operands, which are read one after the other. -/
theorem readings_pair (l r : Filter) (make : Meaning → Meaning → Meaning) :
    (do return Meaning.ofTwo make (← readings s db around [l, r])) = do
      let x ← l.reading s db around
      let y ← r.reading s db around
      return make x y := by
  simp only [readings, bind_assoc, pure_bind, Meaning.ofTwo]

theorem readings_single (f : Filter) (make : Meaning → Meaning) :
    (do return Meaning.ofOne make (← readings s db around [f])) = do
      return make (← f.reading s db around) := by
  simp only [readings, bind_assoc, pure_bind, Meaning.ofOne]

/-- The arguments of a function are read as operands are (`readings`), and keep their names. -/
theorem argumentReadings_eq (args : List Argument) : argumentReadings s db around args = do
    return (args.map Argument.name).zip (← readings s db around (args.map Argument.value)) := by
  induction args with
  | nil => rfl
  | cons arg rest ih =>
      obtain ⟨name, f⟩ := arg
      simp only [argumentReadings, ih, readings, List.map_cons, Argument.value, Argument.name,
        bind_assoc, pure_bind, List.zip_cons_cons]

theorem pathReadings_eq (path : Path) :
    pathReadings s db around path = argumentReadings s db around path.arguments := by
  rcases path with _ | ⟨_ | _ | _ | _ | _ | _, _⟩ <;> simp only [pathReadings, Path.arguments,
    argumentReadings]

theorem bodyTruth_eq (path : Path) : bodyTruth s db around path =
    match path.body? with
    | some body => (body.reading s db around).truth
    | none => none := by
  induction path with
  | nil => rw [bodyTruth, Path.body?]
  | cons first rest ih => cases first <;> simp only [bodyTruth, Path.body?, ih]

end

/-- **The truth value of a filter** for a `row` of the entity type `type`. -/
def Filter.truth (s : Schema) (db : Database) (type : EntityType) (row : Row)
    (f : Filter) : Truth :=
  (f.reading s db { root := ⟨.entity type, row⟩ }).truth

end FilterSql
