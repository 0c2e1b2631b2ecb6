import FilterSql.Compile.Context

/-!
# What member paths denote

A path starts at a level of the context: at the one that was opened for it, at the outermost one
behind `$it`, at that of a variable, or else at the nearest that is not part of a navigation. That
is `Context.anchor`. From there its names are resolved, and its last segment tells what is asked of
the rows or the attribute that they lead to, which is a `Target`. `Schema.denote` gives both.
-/

namespace FilterSql

/-- The word for the root row, which may stand in front of a path. -/
def rootName : String := "$it"

inductive Target where
  /-- A row by itself: `$it` or a variable. -/
  | element
  | attribute (path : AttributePath)
  /-- What is left behind the hops is to be compiled on the level that they lead to. It starts at
  `offset`. -/
  | navigation (hops : List Hop) (offset : Nat)
  /-- The number of rows behind one hop. -/
  | count (hops : List Hop)
  | nonempty (hops : List Hop)
  | any (hops : List Hop) (name : String)
  | all (hops : List Hop) (name : String)
  | function (name : String)
deriving DecidableEq, Repr

/-- The level that `path` starts at, and the number of its segments that have led there. -/
def Context.anchor (c : Context) (a : Address) (path : Path) : Level × Nat :=
  match c.pinned? a with
  | some found => found
  | none =>
      match path with
      | .property first :: _ =>
          if first = rootName then (c.outermost, 1)
          else match c.element? first with
            | some l => (l, 1)
            | none => (c.memberLevel, 0)
      | _ => (c.memberLevel, 0)

/-- The name that a segment is, if it is one. -/
def Segment.name? : Segment → Option String
  | property name => some name
  | _ => none

namespace Path

/-- The names that `path` begins with. -/
def names (path : Path) : List String :=
  (path.takeWhile (·.name?.isSome)).filterMap Segment.name?

/-- The segments of `path` from the first one on that is no name. -/
def behindNames (path : Path) : Path :=
  path.dropWhile (·.name?.isSome)

/-- Nothing is lost between `names` and `behindNames`. -/
theorem names_append_behindNames (path : Path) :
    path.names.map Segment.property ++ path.behindNames = path := by
  induction path with
  | nil => rfl
  | cons first rest ih =>
      cases first with
      | property name => exact congrArg (Segment.property name :: ·) ih
      | count | nonempty | any | all | function => rfl

/-- What stands behind the names does not begin with one, which is why `Schema.target` finds no
`Defect.nameInTail` there. -/
theorem behindNames_ne_property (path : Path) (name : String) (rest : Path) :
    path.behindNames ≠ .property name :: rest := by
  intro h
  have hfirst := List.head?_dropWhile_not (fun g : Segment => g.name?.isSome) path
  rw [show path.dropWhile (fun g : Segment => g.name?.isSome) = _ from h] at hfirst
  simp [Segment.name?] at hfirst

/-- A path is split by its names in one way: names in front of something that begins with none. -/
theorem names_eq_of_append {names : List String} {tail : Path}
    (htail : ∀ name rest, tail ≠ .property name :: rest) :
    Path.names (names.map Segment.property ++ tail) = names ∧
      Path.behindNames (names.map Segment.property ++ tail) = tail := by
  induction names with
  | nil =>
      cases tail with
      | nil => exact ⟨rfl, rfl⟩
      | cons first rest =>
          cases first with
          | property name => exact absurd rfl (htail name rest)
          | count | nonempty | any | all | function => exact ⟨rfl, rfl⟩
  | cons name names ih =>
      obtain ⟨hnames, htail⟩ := ih
      exact ⟨congrArg (name :: ·) hnames, htail⟩

end Path

namespace Schema

/-- The hops of `names` that have to end with a collection. -/
def collectionHops (s : Schema) (scope : Scope) (path : Path) (names : List String) :
    Except FilterError (List Hop) := do
  let refused := .error (.notSupported (.notCollection path.shown))
  if names.isEmpty then refused
  else
    let r ← s.resolve scope names
    match r.leaf?, r.hops.getLast? with
    | none, some last => if last.isCollection then return r.hops else refused
    | _, _ => refused

/-- What `names` denote that nothing follows. -/
def attributeTarget (s : Schema) (scope : Scope) (path : Path) (start : Nat) (names : List String) :
    Except FilterError Target :=
  if names.isEmpty then .ok .element
  else do
    let r ← s.resolve scope names
    match r.leaf?, r.hops.getLast? with
    | some leaf, none => return .attribute leaf
    | some _, some last => return .navigation r.hops (start + last.stop)
    | none, _ => throw (.notSupported (.navigationAsValue path.shown))

/-- What the counted rows of a collection denote: all hops but the last are a navigation. -/
def countTarget (s : Schema) (scope : Scope) (path : Path) (start : Nat) (names : List String) :
    Except FilterError Target := do
  let hops ← s.collectionHops scope path names
  match hops.dropLast.getLast? with
  | none => return .count hops
  | some last => return .navigation hops.dropLast (start + last.stop)

/-- What the `segments` of a path denote on the rows of `scope`, to which `start` segments in front
of them have led: their names are resolved, and behind these there is at most one segment. -/
def target (s : Schema) (scope : Scope) (path : Path) (start : Nat) (segments : Path) :
    Except FilterError Target :=
  match segments.behindNames with
  | first :: second :: _ => .error (.notSupported (.segmentAfter second.shown first.shown))
  | [] => s.attributeTarget scope path start segments.names
  | [.count] => s.countTarget scope path start segments.names
  | [.nonempty] => do return .nonempty (← s.collectionHops scope path segments.names)
  | [.any name _] => do return .any (← s.collectionHops scope path segments.names) name
  | [.all name _] => do return .all (← s.collectionHops scope path segments.names) name
  | [.function name _] =>
      if start = 0 ∧ segments.names = [] then .ok (.function name)
      else .error (.notSupported (.boundFunction name))
  | [.property name] => .error (.defect (.nameInTail name path.shown))

/-- The level that the member at the address `a` starts at, and what it denotes there. -/
def denote (s : Schema) (c : Context) (a : Address) (path : Path) :
    Except FilterError (Level × Target) := do
  let (anchor, start) := c.anchor a path
  return (anchor, ← s.target anchor.scope path start (path.drop start))

end Schema

end FilterSql
