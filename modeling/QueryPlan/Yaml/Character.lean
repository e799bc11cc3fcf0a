namespace QueryPlan.Yaml

structure Located where
  char : Char
  line : Nat
  column : Nat
  index : Nat

def isAllowed (c : Char) : Bool :=
  let n := c.toNat
  n == 0x9 || n == 0xA || n == 0xD || (0x20 ≤ n && n ≤ 0x7E) || n == 0x85 ||
    (0xA0 ≤ n && n ≤ 0xFFFD && n != 0xFEFF) || 0x10000 ≤ n

def isBreak (c : Char) : Bool := c == '\n' || c == '\u2028' || c == '\u2029'

def isBlank (c : Char) : Bool := c == ' ' || c == '\t'

def isBlankOrBreak (c : Char) : Bool := isBlank c || isBreak c

/-- Every way to end a line as a single break. -/
def normalizeBreaks : List Char → List Char
  | '\r' :: '\n' :: rest => '\n' :: normalizeBreaks rest
  | '\r' :: rest => '\n' :: normalizeBreaks rest
  | '\u0085' :: rest => '\n' :: normalizeBreaks rest
  | c :: rest => c :: normalizeBreaks rest
  | [] => []

def locateFrom (line column index : Nat) : List Char → List Located
  | [] => []
  | c :: rest =>
    ⟨c, line, column, index⟩ ::
      (if isBreak c then locateFrom (line + 1) 0 (index + 1) rest
      else locateFrom line (column + 1) (index + 1) rest)

/-- The characters of a text without the mark that may begin it, if all of them are allowed. -/
def locate? (text : String) : Option (List Located) :=
  let chars := if text.toList.head? == some '\ufeff' then text.toList.drop 1 else text.toList
  if chars.all isAllowed then some (locateFrom 0 0 0 (normalizeBreaks chars)) else none

/-- Nothing, a blank or a break is left. -/
def endsWord : List Located → Bool
  | [] => true
  | c :: _ => isBlankOrBreak c.char

/-- Three dashes or three dots at the start of a line, which part documents. -/
def marksDocument (mark : Char) : List Located → Bool
  | a :: b :: c :: rest =>
    a.column == 0 && a.char == mark && b.char == mark && c.char == mark && endsWord rest
  | _ => false

def isDocumentMark (input : List Located) : Bool := marksDocument '-' input || marksDocument '.' input

end QueryPlan.Yaml
