import QueryPlan.Proofs.Catalog.WellFormed
import QueryPlan.Proofs.Plan.ProjectedColumns
import QueryPlan.Proofs.Plan.ReadFields

namespace QueryPlan

def Stage.query (s : Stage) : Query := ⟨s.model, s.args, s.fields⟩

namespace Query

variable {q : Query}

/-- The fields of the model that are selected, in the order of their first selection. -/
def ownFields (q : Query) : List String :=
  ((q.fields.map (·.name)).filter fun name => (q.model.field? name).isSome).eraseDups

/-- The columns of the model that the joins of its expanded associations read. -/
def joinKeys (q : Query) : List String :=
  (q.model.expanded q.fields).filterMap fun name => (q.model.association? name).map (·.joinKey)

/-- The selected fields, and after them the join keys that are not there yet. -/
def columnNames (q : Query) : List String :=
  q.joinKeys.foldl (fun names key => if key ∈ names then names else names ++ [key]) q.ownFields

end Query

namespace LevelParts

variable {p : Planner} {n : Nat} {q : Query} {l : Level}
  (parts : LevelParts p n q.model q.args q.fields l)
include parts

end LevelParts

namespace Planner

variable {p : Planner} {models : List Model} {name : String} {m : Model} {args : Json.Object}
  {source : FieldSource} {q : CompiledQuery}

end Planner

namespace Sample

def counted : SelectedField :=
  { selected "_aggregation" with args := [("fn", .str "COUNT"), ("args", .str "id")] }

end Sample

end QueryPlan
