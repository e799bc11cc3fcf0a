import QueryPlan.GraphQL.BlockString
import QueryPlan.Json.Parser

namespace QueryPlan.GraphQL

open Text (Parser)
open Text.Parser

/-- A lexical token; a number beyond binary64 has no value. -/
inductive Token where
  | punctuator (c : Char)
  | ellipsis
  | name (s : String)
  | number (n : Option Json.Number)
  | string (s : String)
deriving DecidableEq

namespace Token

def isPunctuator (c : Char) : Bool :=
  ['!', '$', ':', '=', '@', '|', '&', '(', ')', '[', ']', '\x7b', '\x7d'].contains c

def isNameStart (c : Char) : Bool := c.isAlpha || c == '_'

def isNamePart (c : Char) : Bool := c.isAlphanum || c == '_'

/-- Blanks, commas and comments up to the next token. -/
def skipIgnored (inComment : Bool) : List Char → List Char
  | [] => []
  | c :: cs =>
    if inComment then skipIgnored (c != '\n' && c != '\r') cs
    else if c == '#' then skipIgnored true cs
    else if [' ', '\t', '\n', '\r', ',', '\ufeff'].contains c then skipIgnored false cs
    else c :: cs

def isNumberEnd (c : Char) : Bool :=
  isPunctuator c || [' ', '\n', '\r', '\t', ',', '#'].contains c

/-- The exponent in the text after `e`: a sign and digits, or digits of which the first is one of
`1` to `8`. -/
def exponent? : List Char → Option Int
  | '+' :: ds => if !ds.isEmpty && ds.all Char.isDigit then some (Json.ofDigits ds) else none
  | '-' :: ds => if !ds.isEmpty && ds.all Char.isDigit then some (-(Json.ofDigits ds : Int)) else none
  | d :: ds =>
    if '1' ≤ d && d ≤ '8' && ds.all Char.isDigit then some (Json.ofDigits (d :: ds)) else none
  | [] => none

/-- The number that `digits` without a point, scaled by `10 ^ exponent`, is read as. -/
def float (negative : Bool) (digits : List Char) (exponent : Int) : Option Json.Number :=
  (Double.ofDecimal? negative (Json.ofDigits digits) exponent).map .float

/-- A number from its text. Integers have 64 bits and no leading zeros. -/
def ofNumberText? (text : List Char) : Option Token := do
  let negative := text.head? == some '-'
  let text := if negative then text.drop 1 else text
  let whole := text.takeWhile Char.isDigit
  if whole.isEmpty || (whole.head? == some '0' && whole.length != 1) then none
  match text.dropWhile Char.isDigit with
  | [] =>
    let n : Int := if negative then -(Json.ofDigits whole : Int) else Json.ofDigits whole
    if h : -9223372036854775808 ≤ n ∧ n < 9223372036854775808 then
      some (.number (some (.int n ⟨h.1, by omega⟩)))
    else none
  | '.' :: rest =>
    let fraction := rest.takeWhile Char.isDigit
    if fraction.isEmpty then none
    let exponent ← match rest.dropWhile Char.isDigit with
      | [] => some 0
      | c :: rest => if c == 'e' || c == 'E' then exponent? rest else none
    some (.number (float negative (whole ++ fraction) (exponent - fraction.length)))
  | c :: rest =>
    if c == 'e' || c == 'E' then
      (exponent? rest).map fun exponent => .number (float negative whole exponent)
    else none

/-- Four hexadecimal digits; a plus sign may stand in the place of the first. -/
def codePoint? (a b c d : Char) : Option Char := do
  let n ← Json.hex4? (if a == '+' then '0' else a) b c d
  if n.isValidChar then some (Char.ofNat n) else none

/-- `\b` stands for the control character of code `0x10`. -/
def escape? : Char → Option Char
  | '"' => some '"'
  | '\\' => some '\\'
  | '/' => some '/'
  | 'b' => some '\x10'
  | 'f' => some '\x0c'
  | 'n' => some '\n'
  | 'r' => some '\r'
  | 't' => some '\t'
  | _ => none

def stringBody : List Char → Option (List Char × List Char)
  | '"' :: rest => some ([], rest)
  | '\\' :: 'u' :: a :: b :: c :: d :: rest => do
    let x ← codePoint? a b c d
    let (cs, rest) ← stringBody rest
    return (x :: cs, rest)
  | '\\' :: c :: rest => do
    let x ← escape? c
    let (cs, rest) ← stringBody rest
    return (x :: cs, rest)
  | c :: rest =>
    if c == '\\' || c == '\n' then none
    else do
      let (cs, rest) ← stringBody rest
      return (c :: cs, rest)
  | [] => none

def scan : Parser Char Token
  | '.' :: '.' :: '.' :: rest => some (.ellipsis, rest)
  | '"' :: '"' :: '"' :: rest => do
    let (raw, rest) ← BlockString.body rest
    return (.string (BlockString.value raw), rest)
  | '"' :: rest => do
    let (cs, rest) ← stringBody rest
    return (.string (String.ofList cs), rest)
  | c :: rest =>
    if isPunctuator c then some (.punctuator c, rest)
    else if isNameStart c then
      some (.name (String.ofList (c :: rest.takeWhile isNamePart)), rest.dropWhile isNamePart)
    else if c == '-' || c.isDigit then do
      let token ← ofNumberText? ((c :: rest).takeWhile (!isNumberEnd ·))
      return (token, (c :: rest).dropWhile (!isNumberEnd ·))
    else none
  | [] => none

def ofText? (text : String) : Option (List Token) :=
  Text.Parser.run
    (manyWhile (fun _ => true) do
      let token ← scan
      modify (skipIgnored false)
      return token)
    (skipIgnored false text.toList)

end Token

end QueryPlan.GraphQL
