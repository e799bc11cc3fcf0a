import QueryPlan.GraphQL.Grammar

namespace QueryPlan.GraphQL.Grammar

open Text (Parser)
open Text.Parser

/-- A selection, given how to read a selection set inside of it. -/
def selection (depth : Nat) (selectionSet : Parser Token (List Selection)) :
    Parser Token Selection := do
  if ← symbol? .ellipsis then
    let condition ← if ← word? "on" then do pure (some (← name)) else pure none
    if condition.isSome || (← isNext '@') || (← isNext '\x7b') then
      let directives ← directives depth
      return .inline condition directives (← selectionSet)
    else
      let fragment ← name
      return .spread fragment (← directives depth)
  else
    let first ← name
    let second ← if ← punctuator? ':' then do pure (some (← name)) else pure none
    let args ← arguments true depth
    let directives ← directives depth
    let selections ← if ← isNext '\x7b' then selectionSet else pure []
    return .field ⟨second.map fun _ => first, second.getD first, args, directives⟩ selections

/-- At least one selection in braces nested in at most `depth` brackets. -/
def selectionSet (depth : Nat) : Parser Token (List Selection) :=
  match depth with
  | 0 => fail
  | depth + 1 => do
    punctuator '\x7b'
    many1Until (.punctuator '\x7d') (selection depth (selectionSet depth))

/-- A variable has a type and perhaps a default; neither has a part in what a request selects. -/
def variableDefinition (depth : Nat) : Parser Token Unit := do
  punctuator '$'
  let _ ← name
  punctuator ':'
  let _ ← typeRef depth
  let _ ← default? depth

def operationKind? : String → Option OperationKind
  | "query" => some .query
  | "mutation" => some .mutation
  | "subscription" => some .subscription
  | _ => none

def operation : Parser Token Operation := do
  if ← isNext '\x7b' then return ⟨.query, none, ← selectionSet maxNesting⟩
  match operationKind? (← name) with
  | none => fail
  | some kind =>
    let name ← name?
    let _ ← optionalBrackets '(' ')' maxNesting variableDefinition
    let _ ← directives maxNesting
    return ⟨kind, name, ← selectionSet maxNesting⟩

def fragment : Parser Token Fragment := do
  word "fragment"
  let name ← name
  word "on"
  let condition ← Grammar.name
  let _ ← directives maxNesting
  return ⟨name, condition, ← selectionSet maxNesting⟩

def definition : Parser Token (Operation ⊕ Fragment) := do
  if (← peek?) == some (.name "fragment") then return .inr (← fragment)
  else return .inl (← operation)

end Grammar

open Text.Parser in
/-- The request a text stands for; it has at least one definition. -/
def Document.parse? (text : String) : Option Document := do
  let tokens ← Token.ofText? text
  let definitions ← run (manyWhile (fun _ => true) Grammar.definition) tokens
  if definitions.isEmpty then none
  return {
    operations := definitions.filterMap fun
      | .inl o => some o
      | .inr _ => none
    fragments := definitions.filterMap fun
      | .inl _ => none
      | .inr f => some f }

end QueryPlan.GraphQL
