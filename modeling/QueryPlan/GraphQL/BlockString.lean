import QueryPlan.Text.Blank

namespace QueryPlan.GraphQL.BlockString

/-- The text up to the closing quotes, which a backslash before them keeps from closing. -/
def body : List Char → Option (List Char × List Char)
  | '\\' :: '"' :: '"' :: '"' :: rest => do
    let (cs, rest) ← body rest
    return ('\\' :: '"' :: '"' :: '"' :: cs, rest)
  | '"' :: '"' :: '"' :: rest => some ([], rest)
  | c :: rest => do
    let (cs, rest) ← body rest
    return (c :: cs, rest)
  | [] => none

def dropReturn (line : List Char) : List Char :=
  if line.getLast? = some '\r' then line.dropLast else line

/-- The lines of a text without their ends. An end after the last line begins no other. -/
def lines (text : List Char) : List (List Char) :=
  let pieces := text.splitOn '\n'
  pieces.dropLast.map dropReturn ++ (pieces.getLast?.toList.filter (!·.isEmpty))

def isBlankLine (line : List Char) : Bool := line.all Text.isBlank

def byteLength (cs : List Char) : Nat := cs.foldr (fun c n => c.utf8Size + n) 0

def indent (line : List Char) : Nat := byteLength (line.takeWhile Text.isBlank)

def dropBytes : Nat → List Char → List Char
  | _, [] => []
  | 0, cs => cs
  | n, c :: cs => dropBytes (n - c.utf8Size) cs

/-- A line without the common indent, if it is as long as that. -/
def outdent (common : Option Nat) (line : List Char) : List Char :=
  match common with
  | some n => if n ≤ byteLength line then dropBytes n line else line
  | none => line

def unescape : List Char → List Char
  | '\\' :: '"' :: '"' :: '"' :: rest => '"' :: '"' :: '"' :: unescape rest
  | c :: rest => c :: unescape rest
  | [] => []

/-- The text a block string stands for: without the least indent of the lines after the first, and
without blank lines at its ends. -/
def value (raw : List Char) : String :=
  let written := lines raw
  let common := (((written.drop 1).filter (!isBlankLine ·)).map indent).min?
  let outdented := written.take 1 ++ (written.drop 1).map (outdent common)
  String.intercalate "\n" ((Text.trimEnds isBlankLine outdented).map fun line =>
    String.ofList (unescape line))

end QueryPlan.GraphQL.BlockString
