import QueryPlan.Catalog.Definition
import QueryPlan.Catalog.Metadata
import QueryPlan.Environment
import QueryPlan.GraphQL.QueryParser
import QueryPlan.GraphQL.SchemaParser
import QueryPlan.Plan.Aggregate
import QueryPlan.Plan.Compile
import QueryPlan.Settings.File

namespace QueryPlan.CommandLine

inductive Command where
  | compile (schema query field : String) (operation bindings model : Option String)
  | aggregate (model args : String)
  | metadata (model : Option String)

structure Invocation where
  catalog : String
  config : Option String
  command : Command

inductive Request where
  | run (i : Invocation)
  | version
  | help
  | invalid

/-- The options in front of a list of words, and the words from the first one that is no option. -/
inductive Scanned where
  | options (found : List (String × String)) (rest : List String)
  | version
  | help
  | invalid

/-- The name and the value of a word of the form `--name=value`. -/
def splitOption (word : String) : String × Option String :=
  let cs := word.toList.drop 2
  match cs.dropWhile (· != '=') with
  | [] => (String.ofList cs, none)
  | _ :: value => (String.ofList (cs.takeWhile (· != '=')), some (String.ofList value))

/-- The value of an option has to be given once, and a path may not be empty. -/
def addOption (names paths : List String) (found : List (String × String)) (name value : String) :
    Option (List (String × String)) :=
  if !names.contains name || (found.lookup name).isSome || (paths.contains name && value == "") then
    none
  else some (found ++ [(name, value)])

/-- Reads options up to the first word that is none. A word that begins with a dash is no value. -/
def scan (names paths : List String) (versioned : Bool) (found : List (String × String)) :
    List String → Scanned
  | [] => .options found []
  | word :: rest =>
    if word == "--help" || word == "-h" then .help
    else if versioned && (word == "--version" || word == "-V") then .version
    else if word == "--" then if rest.isEmpty then .options found [] else .invalid
    else if word.startsWith "--" then
      match splitOption word, rest with
      | (name, some value), rest =>
        match addOption names paths found name value with
        | some found => scan names paths versioned found rest
        | none => .invalid
      | (name, none), value :: rest =>
        if value.startsWith "-" && value != "-" then .invalid
        else
          match addOption names paths found name value with
          | some found => scan names paths versioned found rest
          | none => .invalid
      | (_, none), [] => .invalid
    else if word.startsWith "-" && word != "-" then .invalid
    else .options found (word :: rest)

def commandOptions : String → Option (List String × List String)
  | "compile" =>
    some (["schema", "query", "field", "operation", "variables", "model"], ["schema", "query"])
  | "aggregate" => some (["model", "args"], [])
  | "metadata" => some (["model"], [])
  | _ => none

/-- The command of a name with its options; none if one is missing. -/
def command? (name : String) (found : List (String × String)) : Option Command :=
  match name with
  | "compile" => do
    return .compile (← found.lookup "schema") (← found.lookup "query") (← found.lookup "field")
      (found.lookup "operation") (found.lookup "variables") (found.lookup "model")
  | "aggregate" => do return .aggregate (← found.lookup "model") (← found.lookup "args")
  | "metadata" => some (.metadata (found.lookup "model"))
  | _ => none

def helpRequest : List String → Request
  | [] => .help
  | [name] => if name == "help" || (commandOptions name).isSome then .help else .invalid
  | _ => .invalid

def request (words : List String) : Request :=
  match scan ["catalog", "config"] ["catalog", "config"] true [] words with
  | .version => .version
  | .help => .help
  | .invalid | .options _ [] => .invalid
  | .options common (name :: rest) =>
    if name == "help" then helpRequest rest
    else
      match commandOptions name with
      | none => .invalid
      | some (names, paths) =>
        match scan names paths false [] rest with
        | .help => .help
        | .options found [] =>
          match common.lookup "catalog", command? name found with
          | some catalog, some command => .run ⟨catalog, common.lookup "config", command⟩
          | _, _ => .invalid
        | .version | .invalid | .options _ (_ :: _) => .invalid

inductive Failure where
  | settings (cause : SettingsError)
  | definition (cause : DefinitionError)
  | unreadable (path : String)
  | schemaText
  | queryText
  | argument (option : String)
  | notSelected (field : String)
  | catalog (cause : CatalogError)
  | compile (cause : CompileError)

def Failure.message : Failure → String
  | .settings cause => cause.message
  | .definition cause => cause.message
  | .unreadable path => s!"Failed to read {path}"
  | .schemaText => "Invalid GraphQL schema document: syntax error"
  | .queryText => "Invalid GraphQL query document: syntax error"
  | .argument option => s!"Invalid --{option}"
  | .notSelected field => s!"Field `{field}` is not selected by the request"
  | .catalog cause => cause.message
  | .compile cause => cause.message

structure Outcome where
  exitCode : UInt32
  stdout : String := ""
  stderr : String := ""

def objectOption (option text : String) : Except Failure Json.Object :=
  match Json.parse? text with
  | some (.obj fields) => .ok fields
  | _ => .error (.argument option)

/-- The plan for a field of a request, for its own type if no model is named. -/
def compileRequest (planner : Planner) (schemaText queryText field : String)
    (operation bindings model : Option String) : Except Failure Json := do
  let some schema := GraphQL.Schema.parse? schemaText | throw .schemaText
  let some document := GraphQL.Document.parse? queryText | throw .queryText
  let bindings ← objectOption "variables" (bindings.getD "\x7b\x7d")
  let root := document.rootField schema bindings operation field
  let some tree := root.tree? | throw (.notSelected field)
  let model ← (planner.model (model.getD tree.typeName)).mapError .compile
  let query ← (planner.compile model tree.args (.root root)).mapError .compile
  return query.toJson

variable {m : Type → Type} [Monad m]

/-- The value that a command prints, with files read by `read`. -/
def Command.run (planner : Planner) (read : String → m (Except String String)) :
    Command → m (Except Failure Json)
  | .compile schema query field operation bindings model => do
    match ← read schema with
    | .error _ => return .error (.unreadable schema)
    | .ok schemaText =>
      match ← read query with
      | .error _ => return .error (.unreadable query)
      | .ok queryText =>
        return compileRequest planner schemaText queryText field operation bindings model
  | .aggregate model args => return do
      let args ← objectOption "args" args
      let model ← (planner.catalog.model model).mapError .catalog
      let aggregate ← (Aggregate.compile model args).mapError .compile
      return aggregate.toJson
  | .metadata (some model) =>
    return ((planner.catalog.metadata model).map ModelMetadata.toJson).mapError .catalog
  | .metadata none => return .ok (.arr (planner.catalog.metadataList.map ModelMetadata.toJson))

/-- Settings come from their file or else from the environment, and before the catalog. -/
def Invocation.run (i : Invocation) (environment : String → Option String)
    (read : String → m (Except String String)) : m (Except Failure Json) := do
  let settings ← match i.config with
    | some path => do pure (Settings.ofFile (← read path))
    | none => pure (Settings.ofEnvironment environment)
  match settings with
  | .error e => return .error (.settings e)
  | .ok settings =>
    match ← read i.catalog with
    | .error reason => return .error (.definition (.unreadable reason))
    | .ok text =>
      match Catalog.ofYaml text with
      | .error e => return .error (.definition e)
      | .ok catalog => i.command.run ⟨catalog, settings⟩ read

def versionText : String := "gqlplan 0.3.1-dev\n"

def helpText : String :=
  "Usage: gqlplan --catalog <CATALOG> [--config <CONFIG>] <compile | aggregate | metadata> ...\n"

/-- Runs a command line; the file `.env` adds to the environment. -/
def run (environment : String → Option String) (read : String → m (Except String String))
    (words : List String) : m Outcome := do
  let environment := Environment.withFile environment (← read ".env")
  match request words with
  | .version => return { exitCode := 0, stdout := versionText }
  | .help => return { exitCode := 0, stdout := helpText }
  | .invalid => return { exitCode := 2, stderr := helpText }
  | .run i =>
    match ← i.run environment read with
    | .ok value => return { exitCode := 0, stdout := value.pretty ++ "\n" }
    | .error e => return { exitCode := 1, stderr := "Error: " ++ e.message ++ "\n" }

end QueryPlan.CommandLine
