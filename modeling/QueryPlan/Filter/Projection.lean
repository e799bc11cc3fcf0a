import QueryPlan.Catalog.Build
import QueryPlan.Expr.Basic

namespace QueryPlan

def countAlias : String := "_count"

def averageAlias : String := "_avg"

/-- The alias of a computed column that is given none. -/
def defaultAlias (name : String) : String := "_" ++ name

/-- Whether a value counts as a raised flag. -/
def Json.isTruthy : Json → Bool
  | .null => false
  | .bool b => b
  | .num (.int n _) => n != 0
  | .num (.float x) => !x.isZero
  | .str s => s != ""
  | .arr _ | .obj _ => true

namespace ProjectionItem

/-- An entry `[function, column, marker]`. A count is of rows; an average goes by its own alias if
the marker is a raised flag; elsewhere a marker that is a string is the alias. -/
def ofTuple? (tuple : List Json) : Option ProjectionItem := do
  let function ← tuple.head? >>= Json.ofString?
  let column := tuple[1]? >>= Json.ofString?
  let marker := tuple[2]?
  let aliasName := marker >>= Json.ofString?
  if function.toUpper = "COUNT" then
    return .computed (.call "COUNT" [.literal (.str "*")]) (aliasName.getD countAlias)
  else if function.toUpper = "AVG" then
    let column ← column
    return .computed (.call "AVG" [.column none column])
      (if marker.any Json.isTruthy then averageAlias else column)
  else
    match column with
    | some column =>
      return .computed (.call function [.column none column]) (aliasName.getD column)
    | none => return .computed (.call function []) (aliasName.getD (defaultAlias function))

def ofArgument? : Json → Option ProjectionItem
  | .str name => some (.column name)
  | .arr tuple => ofTuple? tuple
  | _ => none

end ProjectionItem

namespace Projection

/-- A list of entries, or an object that adds to or leaves out of all columns. Entries of no known
shape are dropped. -/
def ofArgument? : Json → Option Projection
  | .arr entries => some (.columns (entries.filterMap ProjectionItem.ofArgument?))
  | .obj fields =>
    match Json.Object.get? fields "include", Json.Object.get? fields "exclude" with
    | some (.arr entries), _ => some (.filtered (entries.filterMap ProjectionItem.ofArgument?) [])
    | _, some (.arr names) => some (.filtered [] (names.filterMap Json.ofString?))
    | _, _ => none
  | _ => none

end Projection

/-- The expression of an entry, without its alias. -/
def ProjectionItem.expr : ProjectionItem → Expr
  | .column name => .column none name
  | .computed e _ => e

/-- One name to group by, or a list of entries. -/
def groupOfArgument? : Json → Option (List Expr)
  | .str name => some [.column none name]
  | .arr entries => some ((entries.filterMap ProjectionItem.ofArgument?).map (·.expr))
  | _ => none

end QueryPlan
