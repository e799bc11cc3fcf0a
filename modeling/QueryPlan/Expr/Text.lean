import QueryPlan.Expr.Basic
import QueryPlan.Json.Printer

namespace QueryPlan

/-- A quote inside a string literal is written twice. -/
def quoteLiteral (s : String) : String :=
  "'" ++ String.ofList (s.toList.flatMap fun c => if c = '\'' then ['\'', '\''] else [c]) ++ "'"

/-- The string `*` is written bare, as the row it stands for. -/
def literalText : Json → String
  | .str s => if s = "*" then "*" else quoteLiteral s
  | v => v.compact

mutual

def Expr.text : Expr → String
  | .literal v => literalText v
  | .column none name => name
  | .column (some association) name => association ++ "." ++ name
  | .call function args => function ++ "(" ++ String.intercalate ", " (Expr.texts args) ++ ")"

def Expr.texts : List Expr → List String
  | [] => []
  | e :: es => Expr.text e :: Expr.texts es

end

end QueryPlan
