/-!
# Binary64 numbers

A 64-bit float is its bits. Its magnitude is a whole number of units `2 ^ power`,
and every operation here is exact on that number and rounds once, to the nearest
float with ties to the even one (`ofRatio`), so nothing depends on a machine's
float unit. Powers are spelled `Nat.pow`: what `^` stands for depends on the
instances in scope.
-/

namespace Tandem.Decimal

/-- A 64-bit float, as its bits: sign, eleven exponent bits, 52 fraction bits. -/
structure Binary64 where
  bits : UInt64
  deriving DecidableEq, Inhabited

def infinity : Nat := 0x7FF * Nat.pow 2 52

/-- The nearest whole number to `num / den`, a half going to the even one. -/
def roundHalfEven (num den : Nat) : Nat :=
  let q := num / den
  let r := num % den
  if 2 * r < den then q
  else if den < 2 * r then q + 1
  else if q % 2 = 0 then q else q + 1

/-- The magnitude bits of the float nearest to `num / den`, infinity if too large. -/
def ofRatio (num den : Nat) : Nat :=
  if num = 0 then 0
  else
    let k : Int := (num.log2 : Int) - den.log2
    let atLeast : Bool :=
      if 0 ≤ k then den * Nat.pow 2 k.toNat ≤ num else den ≤ num * Nat.pow 2 (-k).toNat
    let power : Int := max (if atLeast then k - 52 else k - 53) (-1074)
    let q :=
      if 0 ≤ power then roundHalfEven num (den * Nat.pow 2 power.toNat)
      else roundHalfEven (num * Nat.pow 2 (-power).toNat) den
    min ((power + 1074).toNat * Nat.pow 2 52 + q) infinity

/-- The whole number of units in a magnitude. -/
def units (magnitude : Nat) : Nat :=
  if magnitude < Nat.pow 2 52 then magnitude else magnitude % Nat.pow 2 52 + Nat.pow 2 52

/-- The power of two that is the unit of a magnitude. -/
def unitPower (magnitude : Nat) : Int :=
  if magnitude < Nat.pow 2 52 then -1074 else (magnitude / Nat.pow 2 52 : Nat) - 1075

/-- A magnitude as a fraction. -/
def toRatio (magnitude : Nat) : Nat × Nat :=
  let p := unitPower magnitude
  if 0 ≤ p then (units magnitude * Nat.pow 2 p.toNat, 1)
  else (units magnitude, Nat.pow 2 (-p).toNat)

def mulMagnitude (a b : Nat) : Nat :=
  let (n, d) := toRatio a
  let (n', d') := toRatio b
  ofRatio (n * n') (d * d')

def divMagnitude (a b : Nat) : Nat :=
  let (n, d) := toRatio a
  let (n', d') := toRatio b
  ofRatio (n * d') (d * n')

namespace Binary64

def isNegative (x : Binary64) : Bool := Nat.pow 2 63 ≤ x.bits.toNat

def magnitude (x : Binary64) : Nat := x.bits.toNat % Nat.pow 2 63

def ofMagnitude (negative : Bool) (magnitude : Nat) : Binary64 :=
  ⟨UInt64.ofNat (if negative then magnitude + Nat.pow 2 63 else magnitude)⟩

end Binary64

end Tandem.Decimal
