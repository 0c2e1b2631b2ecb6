import FilterSql.CommandLine

/-!
# The program

Reads the file of the schema, and passes on what the request answers. All else is in
`FilterSql.CommandLine`, which neither reads nor writes anything.
-/

open FilterSql

/-- The text of a file, or why it cannot be read. -/
def readSchema (file : String) : IO (Except String String) := do
  try return .ok (← IO.FS.readFile file)
  catch e =>
    match e with
    | .noFileOrDirectory .. => return .error "No such file or directory (os error 2)"
    | _ => return .error (toString e)

def main (args : List String) : IO UInt32 := do
  let answer ← match CommandLine.request args with
    | .ok r => pure (r.answer (← readSchema r.schemaFile))
    | .error stop => pure stop.answer
  IO.print answer.output
  IO.eprint answer.error
  return answer.code.toUInt32
