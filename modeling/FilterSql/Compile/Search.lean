import FilterSql.Compile.Target

/-!
# The navigation of an expression

A comparison or a call is compiled as a whole on the level that a member in it navigates to.
`Filter.navigating` looks for such members: it looks through arithmetic, a minus sign and the
arguments of functions, but not into conditions, for these are compiled on levels of their own. Of
two such members neither could be chosen, so `Navigating.only?` refuses them.
-/

namespace FilterSql

/-- A member that navigates: where it stands, the level that it starts at, and the way from
there. -/
structure Navigating where
  address : Address
  path : Path
  anchor : Level
  hops : List Hop
  offset : Nat

def Navigating.pin (n : Navigating) : Pin :=
  ⟨n.address, n.offset⟩

mutual

/-- The members that navigate in an operand at the address `a`, from left to right. -/
def Filter.navigating (s : Schema) (c : Context) (a : Address) :
    Filter → Except FilterError (List Navigating)
  | .member path => do
      match ← s.denote c a path with
      | (anchor, .navigation hops offset) => return [⟨a, path, anchor, hops, offset⟩]
      | (_, .function _) => navigatingPath s c a path
      | _ => return []
  | .binary l op r =>
      if op.isArithmetic then do
        return (← l.navigating s c (0 :: a)) ++ (← r.navigating s c (1 :: a))
      else return []
  | .unary .minus operand => operand.navigating s c (0 :: a)
  | .call _ args => navigatingAll s c a 0 args
  | .unary .not _ | .literal _ | .enumMember .. | .typeName _ | .parameterAlias _ => return []

/-- The members that navigate in the operands from place `i` on below the address `a`. -/
def navigatingAll (s : Schema) (c : Context) (a : Address) (i : Nat) :
    List Filter → Except FilterError (List Navigating)
  | [] => return []
  | f :: fs => do return (← f.navigating s c (i :: a)) ++ (← navigatingAll s c a (i + 1) fs)

/-- The members that navigate in the arguments of the function that a path calls. -/
def navigatingPath (s : Schema) (c : Context) (a : Address) :
    Path → Except FilterError (List Navigating)
  | .function _ args :: _ => navigatingArguments s c a 0 args
  | _ => return []

def navigatingArguments (s : Schema) (c : Context) (a : Address) (i : Nat) :
    List Argument → Except FilterError (List Navigating)
  | [] => return []
  | .mk _ f :: rest => do
      return (← f.navigating s c (i :: a)) ++ (← navigatingArguments s c a (i + 1) rest)

end

/-- The only one of some members, if there is any. -/
def Navigating.only? : List Navigating → Except FilterError (Option Navigating)
  | [] => .ok none
  | [n] => .ok (some n)
  | ns => .error (.notSupported (.navigations (ns.map fun n => n.path.shown)))

end FilterSql
