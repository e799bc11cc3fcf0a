namespace QueryPlan

/-- The number of binary64 magnitudes from one power of two up to the next. -/
def binade : Nat := Nat.pow 2 52

/-- A finite binary64 number: its sign, and the rank of its magnitude among all finite magnitudes
in increasing order. -/
structure Double where
  negative : Bool
  rank : Fin (2047 * binade)
deriving DecidableEq

namespace Double

/-- The number one, counted in the least magnitude `2 ^ -1074`. -/
def one : Nat := Nat.pow 2 1074

/-- The magnitude of a rank, counted in the least magnitude. -/
def unitsOfRank (rank : Nat) : Nat :=
  if rank < binade then rank
  else (binade + rank % binade) * Nat.pow 2 (rank / binade - 1)

def units (x : Double) : Nat := unitsOfRank x.rank

/-- The integer nearest to `num / den`, of two the even one. -/
def roundDiv (num den : Nat) : Nat :=
  let q := num / den
  let r := num % den
  if 2 * r < den ∨ (2 * r = den ∧ q % 2 = 0) then q else q + 1

/-- The rank nearest to `num / den` least magnitudes, of two the even one. -/
def nearestRank (num den : Nat) : Nat :=
  let shift := (num / den).log2 - 52
  shift * binade + roundDiv num (den * Nat.pow 2 shift)

/-- The number nearest to `num / den` least magnitudes, unless that is beyond the finite ones. -/
def ofUnits? (negative : Bool) (num den : Nat) : Option Double :=
  if h : nearestRank num den < 2047 * binade then some ⟨negative, ⟨_, h⟩⟩ else none

/-- The number nearest to `num / den`. -/
def ofRatio? (negative : Bool) (num den : Nat) : Option Double :=
  ofUnits? negative (num * one) den

def zero (negative : Bool) : Double := ⟨negative, ⟨0, by decide⟩⟩

def isZero (x : Double) : Bool := x.rank.val == 0

def neg (x : Double) : Double := { x with negative := !x.negative }

/-- The product rounded to nearest. -/
def mul? (x y : Double) : Option Double :=
  ofUnits? (x.negative != y.negative) (x.units * y.units) one

/-- The quotient rounded to nearest; dividing by zero has no finite result. -/
def div? (x y : Double) : Option Double :=
  if y.isZero then none
  else ofUnits? (x.negative != y.negative) (x.units * one) y.units

/-- The two zeros are equal, all other numbers only to themselves. -/
def same (x y : Double) : Bool := x == y || (x.isZero && y.isZero)

/-- The value of a number that is a natural number. -/
def toNat? (x : Double) : Option Nat :=
  if x.negative && !x.isZero then none
  else if x.units % one = 0 then some (x.units / one)
  else none

/-- The number nearest to `digits * 10 ^ exponent`. -/
def ofDecimal? (negative : Bool) (digits : Nat) (exponent : Int) : Option Double :=
  if digits = 0 then some (zero negative)
  else if 400 < exponent then none
  else if exponent + (digits.log2 : Int) < -400 then some (zero negative)
  else ofRatio? negative (digits * Nat.pow 10 exponent.toNat) (Nat.pow 10 (-exponent).toNat)

/-- The number nearest to `10 ^ n`. -/
def powerOfTen? (n : Nat) : Option Double := ofRatio? false (Nat.pow 10 n) 1

/-- `x` times `10 ^ n` by one rounded multiplication; powers beyond `10 ^ 308` have no finite product. -/
def scaleUp? (x : Double) (n : Nat) : Option Double :=
  if n ≤ 308 then do x.mul? (← powerOfTen? n)
  else if x.isZero then some x
  else none

/-- `x` over `10 ^ n` by rounded divisions, each by at most `10 ^ 308`. -/
def scaleDown? (x : Double) (n : Nat) : Option Double :=
  if n ≤ 308 then do x.div? (← powerOfTen? n)
  else if x.isZero then some x
  else do
    let y ← x.div? (← powerOfTen? 308)
    scaleDown? y (n - 308)
termination_by n

/-- The rounded `significand`, scaled by `10 ^ exponent`. -/
def ofScaled? (significand : Nat) (exponent : Int) : Option Double := do
  let x ← ofRatio? false significand 1
  if 0 ≤ exponent then x.scaleUp? exponent.toNat else x.scaleDown? (-exponent).toNat

end Double

end QueryPlan
