import QueryPlan.Proofs.Json.Object
import QueryPlan.Selection.Tree

namespace QueryPlan

namespace Json.Object

variable {o : Object}

/-- The entries are added whose keys are not there. -/
def complete (o entries : Object) : Object :=
  entries.foldl (fun o e => if o.contains e.1 then o else o.insert e.1 e.2) o

end Json.Object

namespace GraphQL

namespace Value

variable {bindings : Json.Object}

theorem decodeItems_eq_map (items : List Value) :
    decodeItems bindings items = items.map (decode bindings) := by
  induction items with
  | nil => rfl
  | cons v vs ih => rw [decodeItems, ih, List.map_cons]

theorem decodeFields_eq_map (fields : List (String × Value)) :
    decodeFields bindings fields = fields.map fun e => (e.1, e.2.decode bindings) := by
  induction fields with
  | nil => rfl
  | cons e fs ih => rw [decodeFields, ih, List.map_cons]

end Value

/-- The written arguments without those for which no variable is given. -/
def FieldHead.supplied (bindings : Json.Object) (head : FieldHead) : List (String × Value) :=
  head.args.filter fun a => a.2.isSupplied bindings

variable {bindings : Json.Object}

end GraphQL

end QueryPlan
