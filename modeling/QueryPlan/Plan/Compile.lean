import QueryPlan.Descriptor.Record
import QueryPlan.Plan.Level
import QueryPlan.Selection.Tree

namespace QueryPlan

/-- Where the fields to be planned come from: a field of a request, or a list of selected fields. -/
inductive FieldSource where
  | root (r : GraphQL.RootField)
  | fields (fs : List SelectedField)

namespace FieldSource

def selected : FieldSource → List SelectedField
  | .root r => (r.tree?.map (·.children)).getD []
  | .fields fs => fs

/-- Whether the rows of the root level answer a field of a list type. -/
def isList : FieldSource → Bool
  | .root r => GraphQL.isListText r.returnType
  | .fields _ => false

end FieldSource

/-- A plan, and every `Model.field` that it reads at all its levels. -/
structure CompiledQuery where
  descriptor : Descriptor
  touchedFields : NameSet

def CompiledQuery.toJson (q : CompiledQuery) : Json :=
  .obj [("descriptor", q.descriptor.toJson),
    ("touchedFields", .arr (q.touchedFields.toList.map .str))]

namespace Planner

def model (p : Planner) (name : String) : Except CompileError Model :=
  (p.catalog.model name).mapError .catalog

/-- The plan for a model; the root level of a list has the default limit if it sets none. -/
def compile (p : Planner) (model : Model) (args : Json.Object) (source : FieldSource) :
    Except CompileError CompiledQuery := do
  let level ← p.level p.settings.maxDepth.toNat model args source.selected
  let options := level.descriptor.options
  let limit := if source.isList then options.limit.or p.settings.defaultLimit else options.limit
  return {
    descriptor := { level.descriptor with options := { options with limit } }
    touchedFields := NameSet.ofList level.touched }

end Planner

end QueryPlan
