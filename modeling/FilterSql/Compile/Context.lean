import FilterSql.Compile.Resolution

/-!
# Contexts

A filter is compiled level by level: the query of the root rows is the outermost, and each subquery
opens a level below the one that it stands in. A level ranges over the rows of a table under an
alias of its own. A context is a level with all levels around it, and `Context.element?` and
`Context.memberLevel` look a name up from the inside to the outside. Aliases are numbers, which
`Numbered.fresh` hands out in order; none is given twice.
-/

namespace FilterSql

/-! ### Numbers

The state of a compilation is the number that comes next. A failure loses it, and needs no other. -/

/-- Compilation, which takes the numbers of aliases in order and may fail. -/
abbrev Numbered := StateT Nat (Except FilterError)

/-- Takes the next number, so that the one behind it is next. -/
def Numbered.fresh : Numbered Nat := do
  let n ← get
  set (n + 1)
  return n

/-- The alias with the number `n`. -/
def tableAlias (n : Nat) : String :=
  "t" ++ toString n

/-! ### Levels

Why a level was opened decides which names are looked up there. A `Pin` ties it to the one member
that it was opened for. -/

/-- A place in a filter, as the steps from it up to the root. Step `i` leads down to operand `i`. -/
abbrev Address := List Nat

/-- The member that a level was opened for. Its first segments have led there, and those from
`offset` on are still to be resolved. -/
structure Pin where
  address : Address
  offset : Nat
deriving DecidableEq, Repr

/-- Why a level was opened. -/
inductive Binding where
  | root
  /-- For the elements of a collection, under the variable of a quantifier. -/
  | element (name : String)
  /-- For the hops of a member. A member without a prefix does not see such levels. -/
  | navigation (pin : Option Pin)
deriving DecidableEq, Repr

structure Level where
  scope : Scope
  number : Nat
  binding : Binding
deriving DecidableEq, Repr

/-- The alias of the rows of the level `l`. -/
def Level.label (l : Level) : String :=
  tableAlias l.number

/-! ### Contexts

Levels are found by going outwards, and the nearest one that fits is taken. So a variable hides one
of the same name that was bound further out. -/

inductive Context where
  | root (level : Level)
  | inside (level : Level) (outer : Context)
deriving DecidableEq, Repr

namespace Context

/-- The context of a query of the entities of `type`, with the first alias of all. -/
def ofEntity (type : EntityType) : Context :=
  root ⟨.entity type, 0, .root⟩

/-- The innermost level of a context. -/
def level : Context → Level
  | root l => l
  | inside l _ => l

/-- All levels of a context, from the inside to the outside. -/
def levels : Context → List Level
  | root l => [l]
  | inside l c => l :: c.levels

/-- The number of levels around the innermost one: a `root` has none. -/
def depth : Context → Nat
  | root _ => 0
  | inside _ c => c.depth + 1

/-- Opens a level below `c`, under the next alias. -/
def extend (c : Context) (scope : Scope) (binding : Binding) : Numbered Context := do
  return inside ⟨scope, ← Numbered.fresh, binding⟩ c

def outermost : Context → Level
  | root l => l
  | inside _ c => c.outermost

/-- The nearest level that the variable `name` was bound to. -/
def element? (c : Context) (name : String) : Option Level :=
  c.levels.find? (·.binding = .element name)

/-- The level that members without a prefix belong to: the nearest one that was not opened for the
hops of a member. -/
def memberLevel : Context → Level
  | root l => l
  | inside l c =>
      match l.binding with
      | .navigation _ => c.memberLevel
      | _ => l

/-- The level that was opened for the member at the address `a`, with the segment that goes on
there. -/
def pinned? (c : Context) (a : Address) : Option (Level × Nat) :=
  c.levels.findSome? fun l =>
    match l.binding with
    | .navigation (some pin) => if pin.address = a then some (l, pin.offset) else none
    | _ => none

end Context

end FilterSql
