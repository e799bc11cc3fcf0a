import QueryPlan.GraphQL.Grammar

namespace QueryPlan.GraphQL.Grammar

open Text (Parser)
open Text.Parser

def description : Parser Token Unit
  | .string _ :: rest => some ((), rest)
  | rest => some ((), rest)

def inputDefinition (depth : Nat) : Parser Token InputDefinition := do
  description
  let name ← name
  punctuator ':'
  let _ ← typeRef depth
  let default ← default? depth
  let _ ← directives depth
  return ⟨name, default⟩

def argumentDefinitions (depth : Nat) : Parser Token (List InputDefinition) :=
  optionalBrackets '(' ')' depth inputDefinition

def fieldDefinition (depth : Nat) : Parser Token FieldDefinition := do
  description
  let name ← name
  let arguments ← argumentDefinitions depth
  punctuator ':'
  let type ← typeRef depth
  return ⟨name, arguments, type, ← directives depth⟩

def enumValue (depth : Nat) : Parser Token Unit := do
  description
  let _ ← name
  let _ ← directives depth

def interfaces : Parser Token (List String) := do
  if ← word? "implements" then
    let _ ← punctuator? '&'
    sepBy1 (.punctuator '&') name
  else return []

def unionMembers : Parser Token (List String) := do
  if ← punctuator? '=' then
    let _ ← punctuator? '|'
    sepBy1 (.punctuator '|') name
  else return []

/-- What one definition of a schema adds to what is known of it. -/
inductive Item where
  | roots (r : RootTypes)
  | object (o : ObjectType)
  | other

/-- A type, with the number of parts an extension by it adds. Only objects and interfaces matter
beyond that. -/
def typeBody (kind : String) : Parser Token (Item × Nat) := do
  match kind with
  | "scalar" =>
    let _ ← name
    let ds ← directives maxNesting
    return (.other, ds.length)
  | "type" =>
    let name ← name
    let is ← interfaces
    let ds ← directives maxNesting
    let fs ← optionalBrackets '\x7b' '\x7d' maxNesting fieldDefinition
    return (.object ⟨name, ds, fs⟩, is.length + ds.length + fs.length)
  | "interface" =>
    let name ← name
    let _ ← interfaces
    let ds ← directives maxNesting
    let fs ← optionalBrackets '\x7b' '\x7d' maxNesting fieldDefinition
    return (.object ⟨name, ds, fs⟩, ds.length + fs.length)
  | "union" =>
    let _ ← name
    let ds ← directives maxNesting
    let ms ← unionMembers
    return (.other, ds.length + ms.length)
  | "enum" =>
    let _ ← name
    let ds ← directives maxNesting
    let vs ← optionalBrackets '\x7b' '\x7d' maxNesting enumValue
    return (.other, ds.length + vs.length)
  | "input" =>
    let _ ← name
    let ds ← directives maxNesting
    let fs ← optionalBrackets '\x7b' '\x7d' maxNesting inputDefinition
    return (.other, ds.length + fs.length)
  | _ => fail

def locations : List String :=
  ["QUERY", "MUTATION", "SUBSCRIPTION", "FIELD", "FRAGMENT_DEFINITION", "FRAGMENT_SPREAD",
    "INLINE_FRAGMENT", "VARIABLE_DEFINITION", "SCHEMA", "SCALAR", "OBJECT", "FIELD_DEFINITION",
    "ARGUMENT_DEFINITION", "INTERFACE", "UNION", "ENUM", "ENUM_VALUE", "INPUT_OBJECT",
    "INPUT_FIELD_DEFINITION"]

def location : Parser Token Unit := do
  unless locations.contains (← name) do fail

def isName : Token → Bool
  | .name _ => true
  | _ => false

def directiveDefinition : Parser Token Unit := do
  punctuator '@'
  let _ ← name
  let _ ← argumentDefinitions maxNesting
  let _ ← word? "repeatable"
  word "on"
  let _ ← punctuator? '|'
  if (← peek?).any isName then
    let _ ← sepBy1 (.punctuator '|') location

/-- Each kind of operation has at most one type. -/
def rootTypes (entries : List (String × String)) : Option RootTypes :=
  if (entries.map (·.1)).eraseDups.length = entries.length ∧
      entries.all fun e => ["query", "mutation", "subscription"].contains e.1 then
    some ⟨entries.lookup "query", entries.lookup "mutation", entries.lookup "subscription"⟩
  else none

def rootDefinition : Parser Token RootTypes := do
  let _ ← directives maxNesting
  punctuator '\x7b'
  let entries ← manyUntil (.punctuator '\x7d') do
    let kind ← name
    punctuator ':'
    return (kind, ← name)
  match rootTypes entries with
  | some r => return r
  | none => fail

/-- An extension has to add something, and is of no further effect. -/
def item : Parser Token Item := do
  match ← peek? with
  | some (.name "schema") =>
    word "schema"
    return .roots (← rootDefinition)
  | some (.name "extend") =>
    word "extend"
    let (_, parts) ← typeBody (← name)
    if parts = 0 then fail
    return .other
  | _ =>
    description
    let kind ← name
    if kind = "directive" then
      directiveDefinition
      return .other
    else return (← typeBody kind).1

end Grammar

open Text.Parser in
/-- The schema a text stands for; it has at least one definition. -/
def Schema.parse? (text : String) : Option Schema := do
  let tokens ← Token.ofText? text
  let items ← run (manyWhile (fun _ => true) Grammar.item) tokens
  if items.isEmpty then none
  return {
    roots := items.filterMap fun
      | .roots r => some r
      | _ => none
    objects := items.filterMap fun
      | .object o => some o
      | _ => none }

end QueryPlan.GraphQL
