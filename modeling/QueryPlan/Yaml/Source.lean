import QueryPlan.Source
import QueryPlan.Yaml.Node

namespace QueryPlan.Yaml.Node

def text? : Node → Option String
  | .scalar text _ => some text
  | _ => none

def plainText? : Node → Option String
  | .scalar text true => some text
  | _ => none

def isNull (n : Node) : Bool := n.plainText?.any ["", "~", "null", "Null", "NULL"].contains

def flag? (n : Node) : Option Bool := do
  let text ← n.plainText?
  if ["true", "True", "TRUE"].contains text then some true
  else if ["false", "False", "FALSE"].contains text then some false
  else none

/-- The integer of at least one digit below `base`, if it has at most 64 bits. -/
def digits? (base : Nat) (cs : List Char) : Option UInt64 := do
  if cs.isEmpty then none
  let values ← cs.mapM Json.hexValue?
  if values.any (base ≤ ·) then none
  let n := values.foldl (fun n d => n * base + d) 0
  if n < UInt64.size then some (UInt64.ofNat n) else none

/-- Decimal without a leading zero, or a base in front; a plus sign may come first. -/
def natural? (n : Node) : Option UInt64 := do
  let text := (← n.plainText?).toList
  match if text.head? == some '+' then text.drop 1 else text with
  | '0' :: 'x' :: cs => digits? 16 cs
  | '0' :: 'o' :: cs => digits? 8 cs
  | '0' :: 'b' :: cs => digits? 2 cs
  | ['0'] => some 0
  | '0' :: _ => none
  | cs => digits? 10 cs

/-- A missing value is a list of nothing. -/
def items? : Node → Option (List Node)
  | .sequence items => some items
  | .scalar "" true => some []
  | _ => none

/-- The entries of a mapping by the text of their keys. No known member is given twice, and a
missing value is a mapping of nothing. -/
def members? (names : List String) : Node → Option (List (String × Node))
  | .mapping entries => do
    let members ← entries.mapM fun e => e.1.text?.map (·, e.2)
    let known := (members.map (·.1)).filter names.contains
    if known.eraseDups.length = known.length then some members else none
  | .scalar "" true => some []
  | _ => none

instance : Source Node where
  isNull := isNull
  text? := text?
  tag? := text?
  flag? := flag?
  natural? := natural?
  items? := items?
  members? := members?

end QueryPlan.Yaml.Node
