import QueryPlan.Number.Double

namespace QueryPlan

/-- The decimal `digits * 10 ^ exponent`. -/
structure Decimal where
  digits : Nat
  exponent : Int
deriving DecidableEq

namespace Decimal

/-- `d` without the zeros its digits end in, at most `fuel` of them. -/
def normalize (d : Decimal) : Nat → Decimal
  | 0 => d
  | fuel + 1 =>
    if d.digits % 10 = 0 ∧ d.digits ≠ 0 then normalize ⟨d.digits / 10, d.exponent + 1⟩ fuel else d

end Decimal

namespace Double

/-- The exponent of the leading decimal digit of `units` least magnitudes. -/
def leadingExponent (units : Nat) : Int :=
  ((units * Nat.pow 10 400 / one).repr.length : Int) - 401

/-- Whether `c * 10 ^ exponent` is read back as the magnitude of `rank`: it lies between the
midpoints to the neighbouring magnitudes, which belong to even ranks. -/
def readsBack (rank : Nat) (exponent : Int) (c : Nat) : Bool :=
  let up := Nat.pow 10 exponent.toNat
  let down := Nat.pow 10 (-exponent).toNat
  let x := 2 * c * up * one
  let low := (unitsOfRank (rank - 1) + unitsOfRank rank) * down
  let high := (unitsOfRank rank + unitsOfRank (rank + 1)) * down
  if rank % 2 = 0 then low ≤ x && x ≤ high else low < x && x < high

/-- The multiple of `10 ^ exponent` that is nearest to the magnitude of `rank` among those read
back as it. Only the two multiples around the magnitude can be nearest. -/
def nearestOnGrid? (rank : Nat) (exponent : Int) : Option Nat :=
  let up := Nat.pow 10 exponent.toNat
  let down := Nat.pow 10 (-exponent).toNat
  let below := unitsOfRank rank * down / (up * one)
  let rest := unitsOfRank rank * down % (up * one)
  match readsBack rank exponent below, readsBack rank exponent (below + 1) with
  | true, true => some (if 2 * rest ≤ up * one then below else below + 1)
  | true, false => some below
  | false, true => some (below + 1)
  | false, false => none

/-- The coarsest decimal grid on which a multiple is read back, tried from `tried` digits on. -/
def searchGrid (rank : Nat) (leading : Int) : Nat → Nat → Decimal
  | 0, _ => ⟨0, 0⟩
  | fuel + 1, tried =>
    let exponent := leading - tried
    match nearestOnGrid? rank exponent with
    | some c => Decimal.normalize ⟨c, exponent⟩ 20
    | none => searchGrid rank leading fuel (tried + 1)

/-- The decimal with the fewest digits that is read back as the magnitude of `x`. -/
def shortest (x : Double) : Decimal :=
  if x.isZero then ⟨0, 0⟩ else searchGrid x.rank (leadingExponent x.units) 17 0

/-- Positional from `10 ^ -5` to below `10 ^ 16`, always with a fractional part, otherwise one
digit before the point and a signed exponent. -/
def layout (digits : List Char) (leading : Int) : List Char :=
  if 0 ≤ leading ∧ leading ≤ 15 then
    let whole := leading.toNat + 1
    let padded := digits ++ List.replicate (whole - digits.length) '0'
    let fraction := padded.drop whole
    padded.take whole ++ '.' :: (if fraction.isEmpty then ['0'] else fraction)
  else if -5 ≤ leading ∧ leading < 0 then
    '0' :: '.' :: List.replicate ((-leading).toNat - 1) '0' ++ digits
  else
    let mantissa := match digits with
      | [] => []
      | [d] => [d]
      | d :: rest => d :: '.' :: rest
    mantissa ++ 'e' :: (if leading < 0 then '-' else '+') :: leading.natAbs.repr.toList

/-- The text of a number: its shortest decimal in `layout`. -/
def text (x : Double) : String :=
  let d := x.shortest
  let digits := d.digits.repr.toList
  let body := layout digits (d.exponent + digits.length - 1)
  String.ofList (if x.negative then '-' :: body else body)

end Double

end QueryPlan
