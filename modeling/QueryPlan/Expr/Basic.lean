import QueryPlan.Json.Basic

namespace QueryPlan

/-- A computed expression; a column may be read through an association. -/
inductive Expr where
  | literal (value : Json)
  | column (via : Option String) (name : String)
  | call (function : String) (args : List Expr)

/-- A projected entry: a column, or an expression under an alias. -/
inductive ProjectionItem where
  | column (name : String)
  | computed (expr : Expr) (aliasName : String)

/-- The name of the entry in result rows. -/
def ProjectionItem.outputName : ProjectionItem → String
  | .column name => name
  | .computed _ aliasName => aliasName

/-- Exactly the listed entries, or all columns with some added and some left out. -/
inductive Projection where
  | columns (items : List ProjectionItem)
  | filtered (added : List ProjectionItem) (omitted : List String)

namespace Projection

def ofNames (names : List String) : Projection := .columns (names.map .column)

/-- Nothing is named, neither to be projected nor to be left out. -/
def isEmpty : Projection → Bool
  | .columns listed => listed.isEmpty
  | .filtered added omitted => added.isEmpty && omitted.isEmpty

/-- The projection with further entries at its end. -/
def extend (more : List ProjectionItem) : Projection → Projection
  | .columns listed => .columns (listed ++ more)
  | .filtered added omitted => .filtered (added ++ more) omitted

def items : Projection → List ProjectionItem
  | .columns listed => listed
  | .filtered added _ => added

def columnNames (p : Projection) : List String := p.items.map (·.outputName)

end Projection

end QueryPlan
