import FilterSql.Compile.Compiler
import FilterSql.Filter.Coding
import FilterSql.Filter.Reading
import FilterSql.Json.Printer
import FilterSql.Schema.Coding
import FilterSql.Sql.Text
import FilterSql.Value.Coding

/-!
# The command line

`odata-filter` compiles one filter for one schema. `CommandLine.request` reads its arguments, and
`Request.answer` says what it answers; files are read elsewhere. The arguments are taken from left
to right into a `Draft`, and the first that is wrong, or that asks for nothing but the version or
help, decides.
-/

namespace FilterSql.CommandLine

/-! ### Requests

What is left to choose in a request is the dialect, the form of the output, and whether the
condition stands in a query. -/

/-- What is written: the statement with its values, both as JSON, or the filter as it was read. -/
inductive Format where
  | sql | json | ast
deriving DecidableEq, Repr

def Format.ofName? : String → Option Format
  | "sql" => some .sql
  | "json" => some .json
  | "ast" => some .ast
  | _ => none

structure Request where
  schemaFile : String
  entity : String
  dialect : Dialect
  format : Format
  select : Bool
  filter : String

/-- Why the arguments make no request. -/
inductive Stop where
  | usage
  | version
  | help
deriving DecidableEq, Repr

/-! ### Arguments

Everything may be said once. That all has been said that must be is checked by `finish`. -/

/-- What the arguments have said so far. -/
structure Draft where
  schemaFile : Option String := none
  entity : Option String := none
  dialect : Option Dialect := none
  format : Option Format := none
  select : Option Unit := none
  verbose : Option Unit := none
  filter : Option String := none

/-- Says the thing `new`, which may be said once. -/
def once {α : Type} (old : Option α) (new : Option α) : Except Stop (Option α) :=
  match old, new with
  | none, some v => .ok (some v)
  | _, _ => .error .usage

namespace Draft

/-- Gives the option called `name` its value; none for a name that is not an option with a value. -/
def setOption? (d : Draft) (name value : String) : Option (Except Stop Draft) :=
  match name with
  | "schema" => some do
      return { d with
        schemaFile := ← once d.schemaFile (if value.isEmpty then none else some value) }
  | "entity" => some do return { d with entity := ← once d.entity (some value) }
  | "dialect" => some do return { d with dialect := ← once d.dialect (Dialect.ofName? value) }
  | "format" => some do return { d with format := ← once d.format (Format.ofName? value) }
  | _ => none

def setFlag (d : Draft) (name : String) : Except Stop Draft :=
  match name with
  | "select" => do return { d with select := ← once d.select (some ()) }
  | "verbose" => do return { d with verbose := ← once d.verbose (some ()) }
  | "version" => .error .version
  | "help" => .error .help
  | _ => .error .usage

/-- Sets flags of one letter, written in a row. -/
def setLetters (d : Draft) : List Char → Except Stop Draft
  | [] => .ok d
  | c :: cs => do
      let d ← match c with
        | 'v' => d.setFlag "verbose"
        | 'V' => d.setFlag "version"
        | 'h' => d.setFlag "help"
        | _ => .error .usage
      d.setLetters cs

def setFilter (d : Draft) (text : String) : Except Stop Draft := do
  return { d with filter := ← once d.filter (some text) }

/-- The request, once all arguments are there. -/
def finish (d : Draft) : Except Stop Request :=
  match d.schemaFile, d.entity, d.filter with
  | some schemaFile, some entity, some filter =>
      .ok ⟨schemaFile, entity, d.dialect.getD .postgres, d.format.getD .sql,
        d.select.isSome, filter⟩
  | _, _, _ => .error .usage

end Draft

/-- Whether `arg` is an option by its form. A mark alone is none. -/
def isOption (arg : String) : Bool :=
  match arg.toList with
  | '-' :: _ :: _ => true
  | _ => false

/-- An option with two marks, divided at its first equals sign. -/
def splitValue (body : List Char) : String × Option String :=
  let name := String.ofList (body.takeWhile (· ≠ '='))
  match body.dropWhile (· ≠ '=') with
  | [] => (name, none)
  | _ :: value => (name, some (String.ofList value))

/-- Reads the arguments into `d`. Behind two marks alone nothing is an option. -/
def read (d : Draft) : List String → Except Stop Draft
  | [] => .ok d
  | arg :: rest =>
      match arg.toList with
      | ['-', '-'] => rest.foldlM Draft.setFilter d
      | '-' :: '-' :: body =>
          match splitValue body with
          | (name, some value) => do
              match d.setOption? name value with
              | some d => read (← d) rest
              | none => throw .usage
          | (name, none) =>
              if (d.setOption? name "").isNone then do read (← d.setFlag name) rest
              else match rest with
                | [] => .error .usage
                | value :: rest =>
                    if isOption value then .error .usage
                    else match d.setOption? name value with
                      | some d => do read (← d) rest
                      | none => .error .usage
      | '-' :: c :: cs => do read (← d.setLetters (c :: cs)) rest
      | _ => do read (← d.setFilter arg) rest

/-- The request that the arguments make. -/
def request (args : List String) : Except Stop Request := do
  (← read {} args).finish

/-! ### Answers

The code of an answer is 0 if there is an output, 1 if the request failed, and 2 if there was
none. -/

structure Answer where
  code : Nat
  output : String := ""
  error : String := ""

def version : String := "odata-filter 0.1.0"

def usage : String :=
  "Usage: odata-filter [OPTIONS] --schema <SCHEMA> --entity <ENTITY> <FILTER>"

/-- What help is about. -/
def help : String :=
  "Compiles OData $filter expressions into SQL predicates\n\n" ++ usage ++ "\n\nOptions:\n" ++
  "      --schema <SCHEMA>    Path of the JSON schema describing the entity types\n" ++
  "      --entity <ENTITY>    Entity type the filter applies to\n" ++
  "      --dialect <DIALECT>  postgres (default) or mysql\n" ++
  "      --format <FORMAT>    sql (default), json or ast\n" ++
  "      --select             Wrap the predicate in a SELECT over the entity's table\n" ++
  "  -v, --verbose            Log compilation steps at debug level\n" ++
  "  -h, --help               Print help\n" ++
  "  -V, --version            Print version"

/-- The answer to arguments that make no request. -/
def Stop.answer : Stop → Answer
  | usage => { code := 2, error := "error: invalid arguments\n\n" ++ CommandLine.usage ++ "\n" }
  | version => { code := 0, output := CommandLine.version ++ "\n" }
  | help => { code := 0, output := CommandLine.help ++ "\n" }

/-- The text of a statement on the first line, then a line for each value. -/
def statementLines (s : Sql.Statement) : String :=
  String.join ((s.sql ++ "\n") ::
    s.params.zipIdx.map fun (v, i) => toString (i + 1) ++ ": " ++ v.literal ++ "\n")

def statementJson (s : Sql.Statement) : Json :=
  .object [("sql", .string s.sql), ("params", .array (s.params.map Value.toJson))]

/-- The statement that the request `r` asks for. -/
def Request.statement (r : Request) (schema : Schema) (f : Filter) :
    Except FilterError Sql.Statement := do
  if r.select then return (← schema.select r.entity f).statement r.dialect
  else return (← schema.compile r.entity f).statement r.dialect

/-- The output of the request `r`, or what went wrong. The schema's text is given, or why it cannot
be read. -/
def Request.output (r : Request) (schemaText : Except String String) : Except String String := do
  let load (reason : String) : String := "Failed to load the schema: " ++ reason
  let text ← schemaText.mapError fun reason => load ("failed to read schema file: " ++ reason)
  let schema ← (Schema.read? text).mapError fun e => load (e.message "no document of a schema")
  let f ← (Filter.read? r.filter).mapError fun e => "Failed to parse the filter: " ++ e.message
  if r.format = .ast then return f.toJson.pretty ++ "\n"
  let s ← (r.statement schema f).mapError fun e => "Failed to compile the filter: " ++ e.message
  if r.format = .json then return (statementJson s).pretty ++ "\n"
  return statementLines s

def Request.answer (r : Request) (schemaText : Except String String) : Answer :=
  match r.output schemaText with
  | .ok output => { code := 0, output }
  | .error message => { code := 1, error := message ++ "\n" }

end FilterSql.CommandLine
