import QueryPlan.Catalog.Record
import QueryPlan.Yaml.Source

namespace QueryPlan

inductive DefinitionError where
  | unreadable (reason : String)
  | malformed
  | invalid (cause : CatalogError)
deriving DecidableEq

def DefinitionError.message : DefinitionError → String
  | .unreadable reason => s!"Failed to read catalog file: {reason}"
  | .malformed => "Failed to parse catalog definition: not a list of models"
  | .invalid cause => cause.message

namespace Catalog

def define {α : Type} [Source α] (v : Option α) : Except DefinitionError Catalog :=
  match v >>= readModels? with
  | none => .error .malformed
  | some models => (build models).mapError .invalid

def ofJson (j : Json) : Except DefinitionError Catalog := define (some j)

def ofYaml (text : String) : Except DefinitionError Catalog := define (Yaml.Node.parse? text)

end Catalog

end QueryPlan
