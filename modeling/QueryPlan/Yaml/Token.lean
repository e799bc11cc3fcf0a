import QueryPlan.Yaml.Scalar

namespace QueryPlan.Yaml

/-- A token; the structure that indentation gives to blocks is made explicit. -/
inductive Token where
  | directive | documentStart | documentEnd
  | blockSequenceStart | blockMappingStart | blockEnd | blockEntry
  | flowSequenceStart | flowSequenceEnd | flowMappingStart | flowMappingEnd | flowEntry
  | key | value
  | scalar (text : String) (plain : Bool)
deriving DecidableEq

/-- A place at which a key may turn out to have begun; where it is required, one has to. -/
structure KeyCandidate where
  required : Bool
  position : Nat
  start : Located

/-- The state of a scan. Columns of open blocks and candidates of open flow collections are listed
innermost first. -/
structure Scan where
  input : List Located
  tokens : List Token := []
  blocks : List Nat := []
  keyAllowed : Bool := true
  candidate : Option KeyCandidate := none
  outer : List (Option KeyCandidate) := []

namespace Scan

def inFlow (s : Scan) : Bool := !s.outer.isEmpty

def push (s : Scan) (t : Token) : Scan := { s with tokens := t :: s.tokens }

def insertAt (s : Scan) (position : Nat) (t : Token) : Scan :=
  { s with tokens := s.tokens.insertIdx (s.tokens.length - position) t }

/-- The column at which the content of the innermost block begins at the earliest. -/
def contentColumn (s : Scan) : Nat := (s.blocks.head?.map (· + 1)).getD 0

/-- Opens a block at a column inside of the innermost one. -/
def openBlock (s : Scan) (column position : Nat) (t : Token) : Scan :=
  if s.inFlow || column < s.contentColumn then s
  else { s with blocks := column :: s.blocks }.insertAt position t

def closeBlocks (column : Nat) : List Nat → List Token → List Nat × List Token
  | [], tokens => ([], tokens)
  | b :: blocks, tokens =>
    if column < b then closeBlocks column blocks (.blockEnd :: tokens) else (b :: blocks, tokens)

def unindent (s : Scan) (column : Nat) : Scan :=
  if s.inFlow then s
  else
    let (blocks, tokens) := closeBlocks column s.blocks s.tokens
    { s with blocks, tokens }

def closeAll (s : Scan) : Scan :=
  { s with blocks := [], tokens := List.replicate s.blocks.length .blockEnd ++ s.tokens }

def dropCandidate (s : Scan) : Option Scan :=
  if s.candidate.any (·.required) then none else some { s with candidate := none }

/-- A key lies on one line and has at most 1024 characters. -/
def isStale (c : Located) (k : KeyCandidate) : Bool :=
  k.start.line < c.line || k.start.index + 1024 < c.index

def dropStale (s : Scan) (c : Located) : Option Scan :=
  let stale (k : Option KeyCandidate) := k.any (isStale c)
  if (s.candidate :: s.outer).any fun k => k.any fun k => isStale c k && k.required then none
  else some { s with
    candidate := if stale s.candidate then none else s.candidate
    outer := s.outer.map fun k => if stale k then none else k }

def saveCandidate (s : Scan) (c : Located) : Option Scan :=
  if s.keyAllowed then do
    let s ← s.dropCandidate
    let required := !s.inFlow && s.blocks.head? == some c.column
    return { s with candidate := some ⟨required, s.tokens.length, c⟩ }
  else some s

/-- Skips blanks, comments and breaks; a key may begin on a new line of a block. -/
def skipToToken (s : Scan) : List Located → Bool → Scan
  | [], _ => { s with input := [] }
  | c :: rest, inComment =>
    if isBreak c.char then
      skipToToken (if s.inFlow then s else { s with keyAllowed := true }) rest false
    else if inComment || c.char == ' ' || (c.char == '\t' && (s.inFlow || !s.keyAllowed)) then
      skipToToken s rest inComment
    else if c.char == '#' then skipToToken s rest true
    else { s with input := c :: rest }

def document (s : Scan) (t : Token) (rest : List Located) : Option Scan := do
  let s ← s.closeAll.dropCandidate
  return { s with keyAllowed := false, input := rest }.push t

def openFlow (s : Scan) (c : Located) (t : Token) (rest : List Located) : Option Scan := do
  let s ← s.saveCandidate c
  return { s with
    outer := s.candidate :: s.outer, candidate := none, keyAllowed := true, input := rest }.push t

def closeFlow (s : Scan) (t : Token) (rest : List Located) : Option Scan := do
  let s ← s.dropCandidate
  let s := match s.outer with
    | k :: outer => { s with candidate := k, outer }
    | [] => s
  return { s with keyAllowed := false, input := rest }.push t

def flowEntry (s : Scan) (rest : List Located) : Option Scan := do
  let s ← s.dropCandidate
  return { s with keyAllowed := true, input := rest }.push .flowEntry

def blockEntry (s : Scan) (c : Located) (rest : List Located) : Option Scan := do
  if !s.inFlow && !s.keyAllowed then none
  let s ← (s.openBlock c.column s.tokens.length .blockSequenceStart).dropCandidate
  return { s with keyAllowed := true, input := rest }.push .blockEntry

def explicitKey (s : Scan) (c : Located) (rest : List Located) : Option Scan := do
  if !s.inFlow && !s.keyAllowed then none
  let s ← (s.openBlock c.column s.tokens.length .blockMappingStart).dropCandidate
  return { s with keyAllowed := !s.inFlow, input := rest }.push .key

/-- A colon turns the candidate into a key, which opens a mapping if it is indented more than the
block around it. -/
def value (s : Scan) (c : Located) (rest : List Located) : Option Scan := do
  match s.candidate with
  | some k =>
    let s := (s.insertAt k.position .key).openBlock k.start.column k.position .blockMappingStart
    return { s with candidate := none, keyAllowed := false, input := rest }.push .value
  | none =>
    if !s.inFlow && !s.keyAllowed then none
    let s := s.openBlock c.column s.tokens.length .blockMappingStart
    return { s with keyAllowed := !s.inFlow, input := rest }.push .value

def quoted (s : Scan) (c : Located) (rest : List Located) : Option Scan := do
  let s ← s.saveCandidate c
  let (text, rest) ← scanQuoted (c.char == '\'') (.blanks []) [] (rest.length + 1) rest
  return { s with keyAllowed := false, input := rest }.push (.scalar text false)

def block (s : Scan) (c : Located) (rest : List Located) : Option Scan := do
  let s ← s.dropCandidate
  let (text, rest) ← scanBlock (c.char == '|') s.blocks.head? rest
  return { s with keyAllowed := true, input := rest }.push (.scalar text false)

def plain (s : Scan) (c : Located) (rest : List Located) : Option Scan := do
  let s ← s.saveCandidate c
  let (text, broken, rest) ← scanPlain s.inFlow s.contentColumn (.blanks []) [] (c :: rest)
  return { s with keyAllowed := broken, input := rest }.push (.scalar text true)

def beginsPlain (s : Scan) (c : Located) (rest : List Located) : Bool :=
  !(isBlankOrBreak c.char || ['-', '?', ':', ',', '[', ']', '\x7b', '\x7d', '#', '&', '*', '!', '|',
      '>', '\'', '"', '%', '@', '\x60'].contains c.char) ||
    (c.char == '-' && !(rest.head?.any fun d => isBlank d.char)) ||
    (!s.inFlow && (c.char == '?' || c.char == ':') && !endsWord rest)

def step (s : Scan) (c : Located) (rest : List Located) : Option Scan :=
  if c.column == 0 && c.char == '%' then
    s.document .directive (rest.dropWhile (!isBreak ·.char))
  else if marksDocument '-' (c :: rest) then s.document .documentStart (rest.drop 2)
  else if marksDocument '.' (c :: rest) then s.document .documentEnd (rest.drop 2)
  else if c.char == '[' then s.openFlow c .flowSequenceStart rest
  else if c.char == '\x7b' then s.openFlow c .flowMappingStart rest
  else if c.char == ']' then s.closeFlow .flowSequenceEnd rest
  else if c.char == '\x7d' then s.closeFlow .flowMappingEnd rest
  else if c.char == ',' then s.flowEntry rest
  else if c.char == '-' && endsWord rest then s.blockEntry c rest
  else if c.char == '?' && (s.inFlow || endsWord rest) then s.explicitKey c rest
  else if c.char == ':' && (s.inFlow || endsWord rest) then s.value c rest
  else if c.char == '|' && !s.inFlow then s.block c rest
  else if c.char == '>' && !s.inFlow then s.block c rest
  else if c.char == '\'' || c.char == '"' then s.quoted c rest
  else if s.beginsPlain c rest then s.plain c rest
  else none

/-- Scans to the end; each step takes a character, so `fuel` is the length of the input. -/
def run (s : Scan) : Nat → Option (List Token)
  | 0 => none
  | fuel + 1 =>
    let s := s.skipToToken s.input false
    match s.input with
    | [] => do
      let s ← s.closeAll.dropCandidate
      return s.tokens.reverse
    | c :: rest => do
      let s ← s.dropStale c
      (← (s.unindent c.column).step c rest).run fuel

end Scan

def Token.ofText? (text : String) : Option (List Token) := do
  let input ← locate? text
  Scan.run { input } (input.length + 1)

end QueryPlan.Yaml
