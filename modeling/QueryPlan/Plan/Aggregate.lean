import QueryPlan.CompileError
import QueryPlan.Filter.Operator
import QueryPlan.Json.Printer

namespace QueryPlan

inductive AggregateFunction where
  | sum | max | min | count | avg
deriving DecidableEq

namespace AggregateFunction

def name : AggregateFunction → String
  | .sum => "sum"
  | .max => "max"
  | .min => "min"
  | .count => "count"
  | .avg => "avg"

def all : List AggregateFunction := [.sum, .max, .min, .count, .avg]

/-- The function a name stands for in whatever case its ASCII letters are. -/
def parse? (s : String) : Option AggregateFunction := all.find? (·.name = s.toLower)

end AggregateFunction

/-- One value computed over the rows of a model. -/
structure Aggregate where
  function : AggregateFunction
  column : String
  filter : Json.Object
  dataType : String

namespace Aggregate

def functionOfArgument : Option Json → Except CompileError AggregateFunction
  | some (.str name) =>
    match AggregateFunction.parse? name with
    | some function => .ok function
    | none => .error (.malformedArgument "fn" s!"unknown aggregate function `{name}`")
  | _ => .error (.malformedArgument "fn" "aggregate function is required")

/-- The column of a field; a count may be of rows. -/
def columnOfArgument (model : Model) (function : AggregateFunction) :
    Option Json → Except CompileError String
  | some (.str name) =>
    match model.field? name with
    | some f => .ok f.storageName
    | none => .error (.unknownField model.name name)
  | none | some .null =>
    if function = .count then .ok "*"
    else .error (.malformedArgument "field" s!"`{function.name}` needs a field to aggregate")
  | some v => .error (.malformedArgument "field" s!"expected a field name, got {v.compact}")

def compile (model : Model) (args : Json.Object) : Except CompileError Aggregate := do
  let function ← functionOfArgument (args.get? "fn")
  let column ← columnOfArgument model function (args.get? "field")
  return ⟨function, column, Operator.predicate (args.get? "where"), "float"⟩

def toJson (a : Aggregate) : Json :=
  .obj [("function", .str a.function.name), ("column", .str a.column),
    ("where", .obj a.filter), ("dataType", .str a.dataType)]

end Aggregate

end QueryPlan
