import QueryPlan.GraphQL.Basic
import QueryPlan.GraphQL.Token

namespace QueryPlan.GraphQL.Grammar

open Text (Parser)
open Text.Parser

/-- How deep brackets of all kinds may nest. -/
def maxNesting : Nat := 50

def punctuator (c : Char) : Parser Token Unit := symbol (.punctuator c)

def punctuator? (c : Char) : Parser Token Bool := symbol? (.punctuator c)

def word (w : String) : Parser Token Unit := symbol (.name w)

def word? (w : String) : Parser Token Bool := symbol? (.name w)

def name : Parser Token String
  | .name s :: rest => some (s, rest)
  | _ => none

def name? : Parser Token (Option String)
  | .name s :: rest => some (some s, rest)
  | rest => some (none, rest)

def isNext (c : Char) : Parser Token Bool := fun tokens =>
  some (tokens.head? == some (.punctuator c), tokens)

/-- The fields of an object in the order of their names; a later field replaces one of its name. -/
def insertField (field : String × Value) : List (String × Value) → List (String × Value)
  | [] => [field]
  | f :: fs =>
    if field.1 = f.1 then field :: fs
    else if field.1 < f.1 then field :: f :: fs
    else f :: insertField field fs

/-- A variable, if one may stand here. -/
def reference (allowed : Bool) : Parser Token Value := do
  unless allowed do fail
  punctuator '$'
  return .var (← name)

/-- A value nested in at most `depth` brackets; variables are only read where they may stand. -/
def value (withVariables : Bool) (depth : Nat) : Parser Token Value := do
  match ← peek? with
  | some (.number n) => do
    let _ ← satisfy fun _ => true
    return (n.map Value.number).getD .null
  | some (.string s) => do
    let _ ← satisfy fun _ => true
    return .string s
  | some (.name s) => do
    let _ ← satisfy fun _ => true
    return if s = "null" then .null else if s = "true" then .bool true
      else if s = "false" then .bool false else .enumeration s
  | some (.punctuator '$') => reference withVariables
  | some (.punctuator '[') =>
    match depth with
    | 0 => fail
    | depth + 1 => do
      punctuator '['
      return .list (← manyUntil (.punctuator ']') (value withVariables depth))
  | some (.punctuator '\x7b') =>
    match depth with
    | 0 => fail
    | depth + 1 => do
      punctuator '\x7b'
      let fields ← manyUntil (.punctuator '\x7d') do
        let key ← name
        punctuator ':'
        return (key, ← value withVariables depth)
      return .object (fields.foldl (fun fs f => insertField f fs) [])
  | _ => fail

/-- The items between a pair of brackets, at least one of them; no brackets are no items. -/
def optionalBrackets {α : Type} (opening closing : Char) (depth : Nat)
    (item : Nat → Parser Token α) : Parser Token (List α) := do
  if ← isNext opening then
    match depth with
    | 0 => fail
    | depth + 1 => do
      punctuator opening
      many1Until (.punctuator closing) (item depth)
  else return []

def argument (withVariables : Bool) (depth : Nat) : Parser Token (String × Value) := do
  let key ← name
  punctuator ':'
  return (key, ← value withVariables depth)

def arguments (withVariables : Bool) (depth : Nat) : Parser Token (List (String × Value)) :=
  optionalBrackets '(' ')' depth (argument withVariables)

def directives (depth : Nat) : Parser Token (List Directive) :=
  manyWhile (· == .punctuator '@') do
    punctuator '@'
    let name ← name
    return ⟨name, ← arguments true depth⟩

def typeRef (depth : Nat) : Parser Token TypeRef := do
  let inner ← if ← isNext '[' then
      match depth with
      | 0 => fail
      | depth + 1 => do
        punctuator '['
        let inner ← typeRef depth
        punctuator ']'
        pure (.list inner)
    else do pure (.named (← name))
  return if ← punctuator? '!' then .nonNull inner else inner

def default? (depth : Nat) : Parser Token (Option Value) := do
  if ← punctuator? '=' then return some (← value false depth) else return none

end QueryPlan.GraphQL.Grammar
