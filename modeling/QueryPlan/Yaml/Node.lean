import QueryPlan.Text.Parser
import QueryPlan.Yaml.Token

namespace QueryPlan.Yaml

/-- A value of a document without anchors, aliases and tags. -/
inductive Node where
  | scalar (text : String) (plain : Bool)
  | sequence (items : List Node)
  | mapping (entries : List (Node × Node))

namespace Node

open Text (Parser)
open Text.Parser

def empty : Node := .scalar "" true

/-- `p`, or nothing before one of `stops`. -/
def unless? (stops : List Token) (p : Parser Token Node) : Parser Token Node := do
  match ← peek? with
  | some t => if stops.contains t then return empty else p
  | none => p

/-- Items up to `closing`, each followed by a comma or by `closing`. -/
def flowItems {α : Type} (closing : Token) (item : Parser Token α) : Parser Token (List α) :=
  manyUntil closing do
    let x ← item
    unless ← symbol? .flowEntry do
      unless (← peek?) == some closing do fail
    return x

/-- A key and its value after the sign of a key. -/
def pair (stops : List Token) (p : Parser Token Node) : Parser Token (Node × Node) := do
  let k ← unless? (.value :: stops) p
  let v ← if ← symbol? .value then unless? stops p else pure empty
  return (k, v)

/-- A node; `block` nodes may be block collections, and `indentless` ones sequences at the column
of the mapping around them. `fuel` bounds the nesting. -/
def parseNode (fuel : Nat) (block indentless : Bool) : Parser Token Node := do
  match fuel with
  | 0 => fail
  | fuel + 1 =>
    match ← peek? with
    | some (.scalar text plain) => do
      symbol (.scalar text plain)
      return .scalar text plain
    | some .blockEntry => do
      unless indentless do fail
      return .sequence (← manyWhile (· == .blockEntry) do
        symbol .blockEntry
        unless? [.blockEntry, .key, .value, .blockEnd] (parseNode fuel true false))
    | some .blockSequenceStart => do
      unless block do fail
      symbol .blockSequenceStart
      return .sequence (← manyUntil .blockEnd do
        symbol .blockEntry
        unless? [.blockEntry, .blockEnd] (parseNode fuel true false))
    | some .blockMappingStart => do
      unless block do fail
      symbol .blockMappingStart
      return .mapping (← manyUntil .blockEnd do
        symbol .key
        pair [.key, .value, .blockEnd] (parseNode fuel true true))
    | some .flowSequenceStart => do
      symbol .flowSequenceStart
      return .sequence (← flowItems .flowSequenceEnd do
        if ← symbol? .key then
          return .mapping [← pair [.flowEntry, .flowSequenceEnd] (parseNode fuel false false)]
        else parseNode fuel false false)
    | some .flowMappingStart => do
      symbol .flowMappingStart
      return .mapping (← flowItems .flowMappingEnd do
        if ← symbol? .key then pair [.flowEntry, .flowMappingEnd] (parseNode fuel false false)
        else return (← parseNode fuel false false, empty))
    | _ => fail

def parseDocument (fuel : Nat) : Parser Token Node := do
  let directives ← manyWhile (· == .directive) (symbol .directive)
  let started ← symbol? .documentStart
  unless started || directives.isEmpty do fail
  let root ← match ← peek? with
    | none => pure empty
    | some t => if started && t == .documentEnd then pure empty else parseNode fuel true false
  let _ ← manyWhile (· == .documentEnd) (symbol .documentEnd)
  return root

/-- The value of a text that holds one document or none. -/
def parse? (text : String) : Option Node := do
  let tokens ← Token.ofText? text
  Text.Parser.run (parseDocument (tokens.length + 1)) tokens

end Node

end QueryPlan.Yaml
