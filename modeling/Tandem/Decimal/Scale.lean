import Tandem.Decimal.Binary64

/-!
# Reading a decimal as a float

A decimal `significand · 10 ^ exponent` is read by rounding the significand to a
float and scaling it by a rounded power of ten, one rounding per step. The result
can differ in its last bit from the float nearest to the decimal; it is what the
documents that are exchanged mean.
-/

namespace Tandem.Decimal

def tenPower (k : Nat) : Nat := ofRatio (Nat.pow 10 k) 1

/-- The greatest power of ten below infinity. -/
def greatestTen : Nat := 308

/-- Divide by `10 ^ k`, at most `10 ^ 308` at a time, until nothing is left. -/
def scaleDown (magnitude k : Nat) : Nat :=
  if _h : k ≤ greatestTen then divMagnitude magnitude (tenPower k)
  else if magnitude = 0 then 0
  else scaleDown (divMagnitude magnitude (tenPower greatestTen)) (k - greatestTen)
termination_by k
decreasing_by
  have : 0 < greatestTen := by decide
  omega

/-- The magnitude of `significand · 10 ^ exponent`; `none` when it is too large. -/
def scale (significand : Nat) (exponent : Int) : Option Nat :=
  let f := ofRatio significand 1
  if exponent < 0 then some (scaleDown f (-exponent).toNat)
  else if exponent ≤ greatestTen then
    let r := mulMagnitude f (tenPower exponent.toNat)
    if r = infinity then none else some r
  else if f = 0 then some 0 else none

end Tandem.Decimal
