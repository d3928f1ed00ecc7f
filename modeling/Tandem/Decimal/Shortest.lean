import Tandem.Decimal.Binary64

/-!
# Shortest decimal digits

`shortest` gives the fewest decimal digits that read back as the same float, and
of those the nearest to it. The reals that round to a float form an interval;
grids of one, two, … seventeen digits are tried in turn, and on each only the two
neighbours of the value can lie in the interval nearest to it. `Layout` says how
the digits are then written.
-/

namespace Tandem.Decimal

/-- A decimal: `digits · 10 ^ power`. -/
structure Digits where
  digits : Nat
  power : Int
  deriving DecidableEq, Inhabited

def digitsOf (n : Nat) : List Char := Nat.toDigits 10 n

/-- The power of ten of the leading digit of `num / den`. -/
def leadingPower (num den : Nat) : Int :=
  if den ≤ num then (digitsOf (num / den)).length - 1
  else
    let l := (digitsOf (den / num)).length
    if num * Nat.pow 10 (l - 1) = den then -((l - 1 : Nat) : Int) else -(l : Int)

/-- `n · 10 ^ power` against `num / den`: both sides over one denominator. -/
def atPower (n : Nat) (power : Int) (num den : Nat) : Nat × Nat :=
  if 0 ≤ power then (n * Nat.pow 10 power.toNat * den, num)
  else (n * den, num * Nat.pow 10 (-power).toNat)

/-- Without its trailing zeros. The fuel is a bound on their number. -/
def stripZeros : Nat → Nat → Int → Digits
  | 0, n, p => ⟨n, p⟩
  | fuel + 1, n, p => if n ≠ 0 ∧ n % 10 = 0 then stripZeros fuel (n / 10) (p + 1) else ⟨n, p⟩

/-- The interval of quarters of a unit that rounds to a magnitude: a float with the
least normal significand has a nearer neighbour below. -/
def roundingInterval (magnitude : Nat) : Nat × Nat :=
  let m := units magnitude
  (4 * m - (if m = Nat.pow 2 52 ∧ 2 * Nat.pow 2 52 ≤ magnitude then 1 else 2), 4 * m + 2)

/-- Whether `n · 10 ^ power` rounds to a magnitude. An even one has the ends of its interval. -/
def readsBack (magnitude n : Nat) (power : Int) : Bool :=
  let (num, den) := toRatio magnitude
  let (low, high) := roundingInterval magnitude
  let m := units magnitude
  let (x, v) := atPower n power num den
  -- `x / v` compares the candidate with the value, which is `4 * m` quarters
  if m % 2 = 0 then low * v ≤ x * (4 * m) && x * (4 * m) ≤ high * v
  else low * v < x * (4 * m) && x * (4 * m) < high * v

/-- The last place on the grid `10 ^ power` that is not above `num / den`. -/
def gridFloor (power : Int) (num den : Nat) : Nat :=
  if 0 ≤ power then num / (den * Nat.pow 10 power.toNat)
  else num * Nat.pow 10 (-power).toNat / den

/-- The nearest of the two neighbours on the grid `10 ^ power` that reads back. -/
def onGrid? (magnitude : Nat) (power : Int) : Option Digits :=
  let (num, den) := toRatio magnitude
  let d := gridFloor power num den
  let (x, v) := atPower d power num den
  let (x', _) := atPower (d + 1) power num den
  match readsBack magnitude d power, readsBack magnitude (d + 1) power with
  | false, false => none
  | true, false => some ⟨d, power⟩
  | false, true => some ⟨d + 1, power⟩
  | true, true =>
    if v - x < x' - v then some ⟨d, power⟩
    else if x' - v < v - x then some ⟨d + 1, power⟩
    else if d % 2 = 0 then some ⟨d, power⟩ else some ⟨d + 1, power⟩

/-- The shortest digits of a finite magnitude other than zero. -/
def shortest (magnitude : Nat) : Digits :=
  let (num, den) := toRatio magnitude
  let lead := leadingPower num den
  let found := (List.range 17).findSome? fun (n : Nat) => onGrid? magnitude (lead - n)
  match found with
  | some x => stripZeros 18 x.digits x.power
  | none => ⟨0, 0⟩

/-- How digits become text: positional while the decimal point falls in a range of
places, an exponent beyond. -/
structure Layout where
  /-- The least number of places before the point that is written positionally. -/
  leastPoint : Int
  /-- The greatest such number. -/
  greatestPoint : Int
  /-- What follows whole numbers. -/
  wholeEnd : List Char
  /-- What introduces an exponent that is not negative. -/
  plus : List Char

def Layout.write (l : Layout) (x : Digits) : List Char :=
  let ds := digitsOf x.digits
  let n : Int := ds.length
  let point := n + x.power
  if l.leastPoint ≤ point ∧ point ≤ l.greatestPoint then
    if point ≤ 0 then '0' :: '.' :: (List.replicate (-point).toNat '0' ++ ds)
    else if point < n then ds.take point.toNat ++ '.' :: ds.drop point.toNat
    else ds ++ List.replicate x.power.toNat '0' ++ l.wholeEnd
  else
    let mantissa := match ds with
      | d :: e :: rest => d :: '.' :: e :: rest
      | _ => ds
    let e := point - 1
    mantissa ++ 'e' :: (if 0 ≤ e then l.plus ++ digitsOf e.toNat else '-' :: digitsOf (-e).toNat)

end Tandem.Decimal
