import QueryPlan.CompileError
import QueryPlan.Descriptor.Basic

namespace QueryPlan

structure Registry where
  joins : List Join := []

namespace Registry

def get? (r : Registry) (aliasName : String) : Option Join :=
  r.joins.find? (·.aliasName = aliasName)

def contains (r : Registry) (aliasName : String) : Bool := (r.get? aliasName).isSome

/-- Registers the join of a selected association under an alias of its own. -/
def attach (r : Registry) (join : Join) : Except CompileError Registry :=
  if r.contains join.aliasName then .error (.conflictingJoin join.aliasName)
  else .ok ⟨r.joins ++ [join]⟩

/-- Registers a column-support join under an alias that has none, and says whether it did. -/
def ensureColumnSupport (r : Registry) (model aliasName : String) : Bool × Registry :=
  if r.contains aliasName then (false, r)
  else (true, ⟨r.joins ++ [Join.columnSupport model aliasName]⟩)

end Registry

end QueryPlan
