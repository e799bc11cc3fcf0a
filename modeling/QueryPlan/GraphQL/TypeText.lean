import QueryPlan.GraphQL.Basic
import QueryPlan.Text.Blank

namespace QueryPlan.GraphQL

/-- Lists stand in brackets, and a type without null before an exclamation mark. -/
def TypeRef.text : TypeRef → String
  | .named name => name
  | .list inner => "[" ++ inner.text ++ "]"
  | .nonNull inner => inner.text ++ "!"

def isListText (text : String) : Bool := text.toList.head? == some '['

def typeNameOfText (text : String) : String :=
  String.ofList (Text.trimEnds (fun c => c == '[' || c == ']' || c == '!') text.toList)

end QueryPlan.GraphQL
