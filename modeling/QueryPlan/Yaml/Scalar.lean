import QueryPlan.Json.Parser
import QueryPlan.Yaml.Character

namespace QueryPlan.Yaml

/-- What lies between two words of a scalar: blanks within a line, or breaks of lines, of which the
first is dropped if it is escaped. Both are newest first. -/
inductive Gap where
  | blanks (cs : List Char)
  | breaks (first : Option Char) (more : List Char)

namespace Gap

def isEmpty : Gap → Bool
  | .blanks [] => true
  | _ => false

def isBreaks : Gap → Bool
  | .breaks _ _ => true
  | .blanks _ => false

def addBlank (c : Char) : Gap → Gap
  | .blanks cs => .blanks (c :: cs)
  | .breaks first more => .breaks first more

def addBreak (c : Char) : Gap → Gap
  | .blanks _ => .breaks (some c) []
  | .breaks first more => .breaks first (c :: more)

/-- The text with the gap after it, newest first: one break is folded into a blank, and of several
the first is dropped. -/
def join (text : List Char) : Gap → List Char
  | .blanks cs => cs ++ text
  | .breaks (some '\n') [] => ' ' :: text
  | .breaks (some '\n') more => more ++ text
  | .breaks first more => more ++ first.toList ++ text

end Gap

/-- A plain scalar and whether breaks follow it, from `text` on, newest first. In block context the
lines of the scalar are indented to the column `indent`. -/
def scanPlain (flow : Bool) (indent : Nat) (gap : Gap) (text : List Char) :
    List Located → Option (String × Bool × List Located)
  | [] => some (String.ofList text.reverse, gap.isBreaks, [])
  | c :: rest =>
    let done := some (String.ofList text.reverse, gap.isBreaks, c :: rest)
    if isBlank c.char then
      if gap.isBreaks && c.char == '\t' && c.column < indent then none
      else scanPlain flow indent (gap.addBlank c.char) text rest
    else if isBreak c.char then scanPlain flow indent (gap.addBreak c.char) text rest
    else if !gap.isEmpty && ((!flow && c.column < indent) || isDocumentMark (c :: rest) ||
        c.char == '#') then done
    else if flow && c.char == ':' &&
        (rest.head?.any fun d => [',', '?', '[', ']', '\x7b', '\x7d'].contains d.char) then none
    else if (c.char == ':' && endsWord rest) ||
        (flow && [',', '[', ']', '\x7b', '\x7d'].contains c.char) then done
    else scanPlain flow indent (.blanks []) (c.char :: gap.join text) rest

def codePoint? (n : Nat) : Option Char := if n.isValidChar then some (Char.ofNat n) else none

def hexEscape (count : Nat) (rest : List Located) : Option (Char × List Located) := do
  let digits ← (rest.take count).mapM fun c => Json.hexValue? c.char
  if digits.length != count then none
  let c ← codePoint? (digits.foldl (fun n d => n * 16 + d) 0)
  return (c, rest.drop count)

def escape : List Located → Option (Char × List Located)
  | [] => none
  | c :: rest =>
    match c.char with
    | '0' => some ('\x00', rest)
    | 'a' => some ('\x07', rest)
    | 'b' => some ('\x08', rest)
    | 't' | '\t' => some ('\t', rest)
    | 'n' => some ('\n', rest)
    | 'v' => some ('\x0b', rest)
    | 'f' => some ('\x0c', rest)
    | 'r' => some ('\r', rest)
    | 'e' => some ('\x1b', rest)
    | ' ' => some (' ', rest)
    | '"' => some ('"', rest)
    | '/' => some ('/', rest)
    | '\\' => some ('\\', rest)
    | 'N' => some ('\u0085', rest)
    | '_' => some ('\u00a0', rest)
    | 'L' => some ('\u2028', rest)
    | 'P' => some ('\u2029', rest)
    | 'x' => hexEscape 2 rest
    | 'u' => hexEscape 4 rest
    | 'U' => hexEscape 8 rest
    | _ => none

/-- A quoted scalar up to its closing quote. Each step takes a character, so `fuel` is the length of
the input. A quote is written twice inside single quotes. -/
def scanQuoted (single : Bool) (gap : Gap) (text : List Char) :
    Nat → List Located → Option (String × List Located)
  | 0, _ | _, [] => none
  | fuel + 1, c :: rest =>
    let joined := gap.join text
    if isBlank c.char then scanQuoted single (gap.addBlank c.char) text fuel rest
    else if isBreak c.char then scanQuoted single (gap.addBreak c.char) text fuel rest
    else if isDocumentMark (c :: rest) then none
    else if single && c.char == '\'' then
      match rest with
      | d :: rest =>
        if d.char == '\'' then scanQuoted single (.blanks []) ('\'' :: joined) fuel rest
        else some (String.ofList joined.reverse, d :: rest)
      | [] => some (String.ofList joined.reverse, [])
    else if !single && c.char == '"' then some (String.ofList joined.reverse, rest)
    else if !single && c.char == '\\' then
      match rest with
      | d :: rest' =>
        if isBreak d.char then scanQuoted single (.breaks none []) joined fuel rest'
        else
          match escape rest with
          | some (e, rest) => scanQuoted single (.blanks []) (e :: joined) fuel rest
          | none => none
      | [] => none
    else scanQuoted single (.blanks []) (c.char :: joined) fuel rest

/-- What becomes of the breaks at the end of a block scalar. -/
inductive Chomping where
  | strip | clip | keep

/-- The breaks before a line of a block scalar, newest first, and the greatest column reached by
their indentation. An `indent` of zero is not known yet. -/
def scanIndentation (indent reached : Nat) (breaks : List Char) :
    List Located → Option (Nat × List Char × List Located)
  | [] => some (reached, breaks, [])
  | c :: rest =>
    let reached := max reached c.column
    let inside := indent == 0 || c.column < indent
    if inside && c.char == ' ' then scanIndentation indent reached breaks rest
    else if inside && c.char == '\t' then none
    else if isBreak c.char then scanIndentation indent reached (c.char :: breaks) rest
    else some (reached, breaks, c :: rest)

/-- The lines of a block scalar that are indented to the column `indent`: their text, the last
break and the breaks after it, all newest first. A break between two lines that do not begin with a
blank is folded unless the scalar is literal. Each step takes a line. -/
def scanBlockLines (literal : Bool) (indent : Nat) (lastBlank : Bool)
    (text last more : List Char) :
    Nat → List Located → Option (List Char × List Char × List Char × List Located)
  | 0, _ => none
  | _, [] => some (text, last, more, [])
  | fuel + 1, c :: rest =>
    if c.column != indent then some (text, last, more, c :: rest)
    else do
      let blank := isBlank c.char
      let folded := !literal && last == ['\n'] && !lastBlank && !blank
      let between := if folded then (if more.isEmpty then [' '] else []) else last
      let line := (c :: rest).takeWhile (!isBreak ·.char)
      let text := (line.map (·.char)).reverse ++ more ++ between ++ text
      let (last, rest) : List Char × List Located :=
        match (c :: rest).dropWhile (!isBreak ·.char) with
        | b :: rest => ([b.char], rest)
        | [] => ([], [])
      let (_, more, rest) ← scanIndentation indent 0 [] rest
      scanBlockLines literal indent blank text last more fuel rest

/-- The chomping and the indentation that may follow the sign of a block scalar, in either order. -/
def scanBlockHeader (input : List Located) : Option (Chomping × Nat × List Located) :=
  let chomping? (c : Char) : Option Chomping :=
    if c == '+' then some .keep else if c == '-' then some .strip else none
  let digit? (c : Char) : Option Nat := if c.isDigit then some (Json.digitValue c) else none
  let take {α : Type} (read : Char → Option α) (input : List Located) : Option α × List Located :=
    match input.head?.bind fun c => read c.char with
    | some x => (some x, input.drop 1)
    | none => (none, input)
  let (before, input) := take chomping? input
  let (digit, input) := take digit? input
  let (after, input) := if before.isSome then (none, input) else
    if digit.isSome then take chomping? input else (none, input)
  if digit == some 0 then none
  else some ((before.or after).getD .clip, digit.getD 0, input)

/-- A block scalar after its sign, inside of a block at column `parent`, if any. -/
def scanBlock (literal : Bool) (parent : Option Nat) (input : List Located) :
    Option (String × List Located) := do
  let (chomping, increment, input) ← scanBlockHeader input
  let blanks := input.takeWhile (isBlank ·.char)
  let input := input.drop blanks.length
  let input :=
    if input.head?.any (·.char == '#') then input.dropWhile (!isBreak ·.char) else input
  if input.head?.any (!isBreak ·.char) then none
  let base := (parent.map (· + 1)).getD 0
  let given := if increment = 0 then 0 else parent.getD 0 + increment
  let (reached, more, rest) ← scanIndentation given 0 [] (input.drop 1)
  let indent := if given = 0 then max (max reached base) 1 else given
  let (text, last, more, rest) ←
    scanBlockLines literal indent false [] [] more (rest.length + 1) rest
  let tail := match chomping with
    | .strip => []
    | .clip => last
    | .keep => more ++ last
  return (String.ofList (tail ++ text).reverse, rest)

end QueryPlan.Yaml
