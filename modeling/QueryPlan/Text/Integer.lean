namespace QueryPlan.Text

/-- Why a text is no unsigned 64-bit integer. -/
inductive IntegerError where
  | empty
  | invalidDigit
  | tooLarge
deriving DecidableEq

def IntegerError.message : IntegerError → String
  | .empty => "cannot parse integer from empty string"
  | .invalidDigit => "invalid digit found in string"
  | .tooLarge => "number too large to fit in target type"

/-- The decimal digits of `cs` appended to the integer `n`; the first fault from the left decides. -/
def accumulate (n : Nat) : List Char → Except IntegerError Nat
  | [] => .ok n
  | c :: cs =>
    if c.isDigit then
      let m := n * 10 + (c.toNat - '0'.toNat)
      if m < UInt64.size then accumulate m cs else .error .tooLarge
    else .error .invalidDigit

/-- Digits, at least one, after at most one plus sign. -/
def unsigned? (s : String) : Except IntegerError UInt64 :=
  match s.toList with
  | [] => .error .empty
  | ['+'] => .error .invalidDigit
  | '+' :: cs => (accumulate 0 cs).map UInt64.ofNat
  | cs => (accumulate 0 cs).map UInt64.ofNat

end QueryPlan.Text
