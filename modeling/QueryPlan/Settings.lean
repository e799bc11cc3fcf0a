import QueryPlan.Source
import QueryPlan.Text.Integer

namespace QueryPlan

/-- The page size of a root list that sets no limit, and the deepest nesting of associations and of
function calls that a request may have. -/
structure Settings where
  defaultLimit : Option UInt64
  maxDepth : UInt64
deriving DecidableEq

inductive SettingsError where
  | variable (name value : String) (cause : Text.IntegerError)
  | unreadable (reason : String)
  | malformed (text : String)
  | outOfRange (faults : List (String × String))
deriving DecidableEq

def SettingsError.message : SettingsError → String
  | .variable name value cause => s!"Parse error for {name}: {value} - {cause.message}"
  | .unreadable reason => s!"Parse error for yaml_file: file read failed - {reason}"
  | .malformed text => s!"Parse error for yaml_content: {text} - invalid settings"
  | .outOfRange faults =>
    "Validation error: " ++ String.intercalate "\n" (faults.map fun f => f.1 ++ ": " ++ f.2)

namespace Settings

def default : Settings := ⟨some 20, 32⟩

def read? {α : Type} [Source α] (v : α) : Option Settings := do
  let ms ← Source.members? ["default_limit", "max_depth"] v
  return {
    defaultLimit := ← Source.optional ms "default_limit" Source.natural?
    maxDepth := ← Source.withDefault ms "max_depth" 32 Source.natural? }

def toJson (s : Settings) : Json :=
  .obj [("default_limit", (s.defaultLimit.map Json.ofNat).getD .null),
    ("max_depth", Json.ofNat s.maxDepth)]

/-- Each setting that is out of its range, with what it has to be. -/
def faults (s : Settings) : List (String × String) :=
  (match s.defaultLimit with
    | some n =>
      if 1 ≤ n ∧ n ≤ 10000 then []
      else [("default_limit", "Default limit must be between 1 and 10000")]
    | none => []) ++
  (if 1 ≤ s.maxDepth ∧ s.maxDepth ≤ 256 then []
    else [("max_depth", "Max depth must be between 1 and 256")])

def validate (s : Settings) : Except SettingsError Settings :=
  if s.faults.isEmpty then .ok s else .error (.outOfRange s.faults)

def limitVariable : String := "GQLPLAN_DEFAULT_LIMIT"

def depthVariable : String := "GQLPLAN_MAX_DEPTH"

def ofVariable (environment : String → Option String) (name : String) (fallback : UInt64) :
    Except SettingsError UInt64 :=
  match environment name with
  | none => .ok fallback
  | some value => (Text.unsigned? value).mapError (.variable name value)

/-- The settings of environment variables; a limit of zero stands for none. -/
def ofEnvironment (environment : String → Option String) : Except SettingsError Settings := do
  let limit ← ofVariable environment limitVariable 20
  let depth ← ofVariable environment depthVariable 32
  validate ⟨if limit = 0 then none else some limit, depth⟩

end Settings

end QueryPlan
