import QueryPlan.Json.Basic
import QueryPlan.Number.Shortest

namespace QueryPlan.Json

/-- Integers in decimal, binary64 numbers by their shortest decimal. -/
def Number.text : Number → String
  | .int n _ => n.repr
  | .float x => x.text

def escapeChar (c : Char) : List Char :=
  match c with
  | '"' => ['\\', '"']
  | '\\' => ['\\', '\\']
  | '\n' => ['\\', 'n']
  | '\r' => ['\\', 'r']
  | '\t' => ['\\', 't']
  | '\x08' => ['\\', 'b']
  | '\x0c' => ['\\', 'f']
  | c =>
    if c.toNat < 0x20 then
      '\\' :: 'u' :: '0' :: '0' :: Nat.digitChar (c.toNat / 16) :: [Nat.digitChar (c.toNat % 16)]
    else [c]

/-- `s` in quotes, with quotes, backslashes and control characters escaped. -/
def quoted (s : String) : String :=
  "\"" ++ String.ofList (s.toList.flatMap escapeChar) ++ "\""

mutual

def compact : Json → String
  | .null => "null"
  | .bool b => if b then "true" else "false"
  | .num n => n.text
  | .str s => quoted s
  | .arr items => "[" ++ String.intercalate "," (compactItems items) ++ "]"
  | .obj fields => "\x7b" ++ String.intercalate "," (compactMembers fields) ++ "\x7d"

def compactItems : List Json → List String
  | [] => []
  | v :: vs => compact v :: compactItems vs

def compactMembers : List (String × Json) → List String
  | [] => []
  | (k, v) :: fs => (quoted k ++ ":" ++ compact v) :: compactMembers fs

end

/-- Bracketed lines, each indented by `depth + 1` steps of two blanks. -/
def indented (depth : Nat) (opening closing : String) (lines : List String) : String :=
  let margin (n : Nat) := "\n" ++ String.ofList (List.replicate (2 * n) ' ')
  match lines with
  | [] => opening ++ closing
  | lines =>
    opening ++ margin (depth + 1) ++ String.intercalate ("," ++ margin (depth + 1)) lines ++
      margin depth ++ closing

mutual

/-- The text of a value at nesting `depth` with one item or member a line. -/
def prettyAt (depth : Nat) : Json → String
  | .null => "null"
  | .bool b => if b then "true" else "false"
  | .num n => n.text
  | .str s => quoted s
  | .arr items => indented depth "[" "]" (prettyItems (depth + 1) items)
  | .obj fields => indented depth "\x7b" "\x7d" (prettyMembers (depth + 1) fields)

def prettyItems (depth : Nat) : List Json → List String
  | [] => []
  | v :: vs => prettyAt depth v :: prettyItems depth vs

def prettyMembers (depth : Nat) : List (String × Json) → List String
  | [] => []
  | (k, v) :: fs => (quoted k ++ ": " ++ prettyAt depth v) :: prettyMembers depth fs

end

def pretty (j : Json) : String := prettyAt 0 j

end QueryPlan.Json
