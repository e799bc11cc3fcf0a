import QueryPlan.Json.Basic
import QueryPlan.Text.Parser

namespace QueryPlan.Json

open Text (Parser)
open Text.Parser

def isSpace (c : Char) : Bool := c == ' ' || c == '\n' || c == '\t' || c == '\r'

def skipSpace : Parser Char Unit := do
  let _ ← takeWhile isSpace

def digitValue (c : Char) : Nat := c.toNat - '0'.toNat

def ofDigits (cs : List Char) : Nat := cs.foldl (fun n c => n * 10 + digitValue c) 0

/-- The digits appended to the 64-bit integer `n` for as long as it stays one, and the digits left. -/
def significand (n : Nat) : List Char → Nat × List Char
  | [] => (n, [])
  | c :: cs =>
    let m := n * 10 + digitValue c
    if m < UInt64.size then significand m cs else (n, c :: cs)

/-- A number from its written parts. An integer of at most 64 bits is exact; any other number is a
64-bit front of its digits scaled by a power of ten. Minus zero is a binary64 number. -/
def Number.ofParts? (negative : Bool) (whole fraction : List Char) (exponent : Option Int) :
    Option Number :=
  let (front, dropped) := significand 0 whole
  let signed : Int := if negative then -(front : Int) else front
  if h : fraction = [] ∧ exponent = none ∧ dropped = [] ∧ (negative → signed < 0) ∧
      (-9223372036854775808 ≤ signed ∧ signed < 18446744073709551616) then
    some (.int signed h.2.2.2.2)
  else
    let (front', rest) := significand front fraction
    let power := (dropped.length : Int) - (fraction.length - rest.length) + exponent.getD 0
    (Double.ofScaled? front' power).map fun x => .float (if negative then x.neg else x)

def number : Parser Char Number := do
  let negative ← symbol? '-'
  let whole ← takeWhile Char.isDigit
  unless !whole.isEmpty && (whole.head? != some '0' || whole.length == 1) do fail
  let pointed ← symbol? '.'
  let fraction ← if pointed then takeWhile Char.isDigit else pure []
  if pointed && fraction.isEmpty then fail
  let exponent ← do
    let next ← peek?
    if next == some 'e' || next == some 'E' then
      let _ ← satisfy fun _ => true
      let minus ← symbol? '-'
      let _ ← if minus then pure false else symbol? '+'
      let digits ← takeWhile Char.isDigit
      if digits.isEmpty then fail
      let n : Int := ofDigits digits
      pure (some (if minus then -n else n))
    else pure none
  match Number.ofParts? negative whole fraction exponent with
  | some n => return n
  | none => fail

def hexValue? (c : Char) : Option Nat :=
  if c.isDigit then some (c.toNat - '0'.toNat)
  else if 'a' ≤ c ∧ c ≤ 'f' then some (c.toNat - 'a'.toNat + 10)
  else if 'A' ≤ c ∧ c ≤ 'F' then some (c.toNat - 'A'.toNat + 10)
  else none

def hex4? (a b c d : Char) : Option Nat := do
  return (((← hexValue? a) * 16 + (← hexValue? b)) * 16 + (← hexValue? c)) * 16 + (← hexValue? d)

def shortEscape? : Char → Option Char
  | '"' => some '"'
  | '\\' => some '\\'
  | '/' => some '/'
  | 'b' => some '\x08'
  | 'f' => some '\x0c'
  | 'n' => some '\n'
  | 'r' => some '\r'
  | 't' => some '\t'
  | _ => none

/-- The characters up to the closing quote. A code unit of a surrogate pair needs its other half. -/
def stringBody : List Char → Option (List Char × List Char)
  | '"' :: rest => some ([], rest)
  | '\\' :: 'u' :: a :: b :: c :: d :: rest => do
    let high ← hex4? a b c d
    if 0xD800 ≤ high ∧ high < 0xDC00 then
      match rest with
      | '\\' :: 'u' :: e :: f :: g :: h :: rest => do
        let low ← hex4? e f g h
        if 0xDC00 ≤ low ∧ low < 0xE000 then
          let (cs, rest) ← stringBody rest
          return (Char.ofNat (0x10000 + (high - 0xD800) * 0x400 + (low - 0xDC00)) :: cs, rest)
        else none
      | _ => none
    else if 0xDC00 ≤ high ∧ high < 0xE000 then none
    else do
      let (cs, rest) ← stringBody rest
      return (Char.ofNat high :: cs, rest)
  | '\\' :: c :: rest => do
    let e ← shortEscape? c
    let (cs, rest) ← stringBody rest
    return (e :: cs, rest)
  | c :: rest =>
    if c == '\\' || c.toNat < 0x20 then none
    else do
      let (cs, rest) ← stringBody rest
      return (c :: cs, rest)
  | [] => none

def string : Parser Char String := do
  symbol '"'
  let cs ← stringBody
  return String.ofList cs

def word (w : String) (value : Json) : Parser Char Json := do
  for c in w.toList do
    symbol c
  return value

/-- `item`s up to `closing`, separated by commas and blanks. -/
def listUntil {α : Type} (closing : Char) (item : Parser Char α) : Parser Char (List α) := do
  skipSpace
  if ← symbol? closing then return []
  let items ← sepBy1 ',' do
    skipSpace
    let x ← item
    skipSpace
    return x
  symbol closing
  return items

/-- A value nested in at most `depth` brackets. -/
def value (depth : Nat) : Parser Char Json := do
  match ← peek? with
  | some 'n' => word "null" .null
  | some 't' => word "true" (.bool true)
  | some 'f' => word "false" (.bool false)
  | some '"' => return .str (← string)
  | some '[' =>
    match depth with
    | 0 => fail
    | depth + 1 =>
      symbol '['
      return .arr (← listUntil ']' (value depth))
  | some '\x7b' =>
    match depth with
    | 0 => fail
    | depth + 1 =>
      symbol '\x7b'
      let members ← listUntil '\x7d' do
        let key ← string
        skipSpace
        symbol ':'
        skipSpace
        return (key, ← value depth)
      return .obj (Object.ofList members)
  | _ => return .num (← number)

/-- The value a text stands for; brackets nest at most 127 deep. -/
def parse? (text : String) : Option Json :=
  Text.Parser.run (do skipSpace; let v ← value 127; skipSpace; return v) text.toList

end QueryPlan.Json
