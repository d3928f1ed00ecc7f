import Mathlib.Algebra.Order.Floor.Semifield
import Mathlib.Data.Nat.Cast.Order.Field
import Mathlib.Data.Rat.Floor
import Tandem.Proofs.Decimal.Interval

/-!
# The digits of a float read back

The digits that are found for a magnitude are a decimal that rounds to it
(`roundsTo_shortest`), so no two magnitudes have the same decimal:

* **grids** — `roundsTo_of_onGrid?`: a place that is taken on any grid rounds to the magnitude;
* **one is fine enough** — `onGrid?_ne_none`: where a step is at most the value by `10 ^ 16`, one of
  the neighbours of the value is taken;
* **that grid is tried** — `leadingPower_le`: the seventeenth grid has such steps;
* **zeros** — `value_stripZeros`: taking the trailing zeros away keeps the decimal.
-/

namespace Tandem.Decimal

/-- The number that digits write. -/
def Digits.value (x : Digits) : ℚ := x.digits * (10 : ℚ) ^ x.power

/-! ## Ratios and grids -/

theorem zpow_of_nonneg (b : ℚ) {power : Int} (h : 0 ≤ power) :
    b ^ power = b ^ power.toNat := by
  rw [← zpow_natCast, Int.toNat_of_nonneg h]

theorem zpow_of_neg (b : ℚ) {power : Int} (h : ¬0 ≤ power) :
    b ^ power = (b ^ (-power).toNat)⁻¹ := by
  rw [← zpow_natCast, Int.toNat_of_nonneg (by omega), zpow_neg, inv_inv]

theorem toRatio_pos {m : Nat} (hm : 0 < m) : 0 < (toRatio m).1 ∧ 0 < (toRatio m).2 := by
  have hunits := units_pos hm
  simp only [toRatio]
  split
  · exact ⟨Nat.mul_pos hunits (Nat.pow_pos (by decide)), Nat.one_pos⟩
  · exact ⟨hunits, Nat.pow_pos (by decide)⟩

theorem value_eq_div (m : Nat) : value m = (toRatio m).1 / (toRatio m).2 := by
  rw [value, unit, toRatio]
  split
  next h =>
    rw [zpow_of_nonneg 2 h, Nat.pow_eq]
    push_cast
    rw [div_one]
  next h =>
    rw [zpow_of_neg 2 h, Nat.pow_eq]
    push_cast
    rw [div_eq_mul_inv]

/-- Both sides of a comparison on a grid are over one denominator. -/
theorem atPower_eq (power : Int) (num : Nat) {den : Nat} (hden : 0 < den) :
    ∃ s : ℚ, 0 < s ∧ ∀ n, ((atPower n power num den).1 : ℚ) = n * 10 ^ power * s ∧
      ((atPower n power num den).2 : ℚ) = num / den * s := by
  have hdenq : (0 : ℚ) < den := Nat.cast_pos.mpr hden
  by_cases h : 0 ≤ power
  · refine ⟨den, hdenq, fun n => ?_⟩
    rw [atPower, if_pos h, zpow_of_nonneg 10 h, Nat.pow_eq]
    push_cast
    exact ⟨rfl, (div_mul_cancel₀ _ hdenq.ne').symm⟩
  · have hpow : (0 : ℚ) < 10 ^ (-power).toNat := by positivity
    refine ⟨den * 10 ^ (-power).toNat, mul_pos hdenq hpow, fun n => ?_⟩
    rw [atPower, if_neg h, zpow_of_neg 10 h, Nat.pow_eq]
    push_cast
    constructor
    · field_simp
    · field_simp

/-- A place reads back as the magnitude if it rounds to it. -/
theorem readsBack_iff {m : Nat} (hm : 0 < m) (n : Nat) (power : Int) :
    readsBack m n power = true ↔ RoundsTo (n * 10 ^ power) m := by
  obtain ⟨s, hs, hsides⟩ := atPower_eq power (toRatio m).1 (toRatio_pos hm).2
  obtain ⟨hplace, hvalue⟩ := hsides n
  rw [← value_eq_div, value] at hvalue
  have hunits : (0 : ℚ) < units m := Nat.cast_pos.mpr (units_pos hm)
  have hscale : (0 : ℚ) < 4 * units m * s := by positivity
  -- Both ends and the place are compared after multiplying them by the same number.
  have hend : ∀ q : Nat, (q : ℚ) * (unit m / 4) * (4 * units m * s) =
      ((q * (atPower n power (toRatio m).1 (toRatio m).2).2 : Nat) : ℚ) := by
    intro q
    push_cast
    rw [hvalue]
    ring
  have hn : (n : ℚ) * 10 ^ power * (4 * units m * s) =
      (((atPower n power (toRatio m).1 (toRatio m).2).1 * (4 * units m) : Nat) : ℚ) := by
    push_cast
    rw [hplace]
    ring
  have hle : ∀ {a b : ℚ} {i j : Nat}, a * (4 * units m * s) = i → b * (4 * units m * s) = j →
      (a ≤ b ↔ i ≤ j) := by
    intro a b i j ha hb
    rw [← mul_le_mul_iff_of_pos_right hscale, ha, hb, Nat.cast_le]
  have hlt : ∀ {a b : ℚ} {i j : Nat}, a * (4 * units m * s) = i → b * (4 * units m * s) = j →
      (a < b ↔ i < j) := by
    intro a b i j ha hb
    rw [← mul_lt_mul_iff_of_pos_right hscale, ha, hb, Nat.cast_lt]
  simp only [readsBack, RoundsTo, lower, upper]
  rw [hle (hend _) hn, hle hn (hend _), hlt (hend _) hn, hlt hn (hend _)]
  split <;> simp

/-- The last place on a grid that is not above a number is followed by one that is. -/
theorem gridFloor_bounds (power : Int) (num den : Nat) :
    (gridFloor power num den : ℚ) * 10 ^ power ≤ num / den ∧
      (num : ℚ) / den < (gridFloor power num den + 1 : Nat) * 10 ^ power := by
  have hstep : (0 : ℚ) < 10 ^ power := by positivity
  have hfloor : gridFloor power num den = ⌊(num : ℚ) / den / 10 ^ power⌋₊ := by
    rw [gridFloor]
    split
    next h =>
      rw [zpow_of_nonneg 10 h, ← Nat.floor_div_eq_div (K := ℚ), Nat.pow_eq]
      push_cast
      rw [div_div]
    next h =>
      rw [zpow_of_neg 10 h, ← Nat.floor_div_eq_div (K := ℚ), Nat.pow_eq]
      push_cast
      rw [div_inv_eq_mul, mul_div_right_comm]
  rw [hfloor, ← le_div_iff₀ hstep, ← div_lt_iff₀ hstep]
  constructor
  · exact Nat.floor_le (by positivity)
  · rw [Nat.cast_add_one]
    exact Nat.lt_floor_add_one _

/-- What is taken on a grid is a place on it that rounds to the magnitude. -/
theorem roundsTo_of_onGrid? {m : Nat} (hm : 0 < m) {power : Int} {x : Digits}
    (h : onGrid? m power = some x) : RoundsTo x.value m := by
  have hplace : ∃ n, readsBack m n power = true ∧ x = ⟨n, power⟩ := by
    simp only [onGrid?] at h
    split at h
    case h_1 => cases h
    case h_2 hd _ => exact ⟨_, hd, (Option.some.inj h).symm⟩
    case h_3 _ hd => exact ⟨_, hd, (Option.some.inj h).symm⟩
    case h_4 hd hd' =>
      repeat' split at h
      · exact ⟨_, hd, (Option.some.inj h).symm⟩
      · exact ⟨_, hd', (Option.some.inj h).symm⟩
      · exact ⟨_, hd, (Option.some.inj h).symm⟩
      · exact ⟨_, hd', (Option.some.inj h).symm⟩
  obtain ⟨n, hreads, rfl⟩ := hplace
  exact (readsBack_iff hm n power).mp hreads

/-- On a grid with small enough steps one of the neighbours of the value is taken: the one above,
or else that is half a unit away and the one below is nearer. -/
theorem onGrid?_ne_none {m : Nat} (hm : 0 < m) {power : Int}
    (hstep : (10 : ℚ) ^ power * 10 ^ 16 ≤ value m) : onGrid? m power ≠ none := by
  obtain ⟨hbelow, habove⟩ := gridFloor_bounds power (toRatio m).1 (toRatio m).2
  rw [← value_eq_div] at hbelow habove
  have hunit := unit_pos m
  have hunits : (units m : ℚ) ≤ 9007199254740992 := by
    exact_mod_cast (units_lt m).le
  generalize hd : gridFloor power (toRatio m).1 (toRatio m).2 = d at hbelow habove
  have hreads : readsBack m d power = true ∨ readsBack m (d + 1) power = true := by
    rw [readsBack_iff hm, readsBack_iff hm]
    have hnext : ((d + 1 : Nat) : ℚ) * 10 ^ power = d * 10 ^ power + 10 ^ power := by
      push_cast
      ring
    by_cases hnear : ((d + 1 : Nat) : ℚ) * 10 ^ power < upper m
    · exact .inr (.of_lt ((lower_lt_value hm).trans habove) hnear)
    · refine .inl (.of_lt ?_ (hbelow.trans_lt (value_lt_upper m)))
      rw [upper_eq, not_lt, hnext] at hnear
      rw [value] at hstep
      rcases lower_cases hm with hlow | ⟨hleast, hlow⟩
      · rw [hlow]
        nlinarith
      · rw [hleast, Nat.cast_ofNat] at hstep
        rw [hlow]
        nlinarith
  intro hnone
  simp only [onGrid?, hd] at hnone
  split at hnone
  case h_1 hno hno' => simp [hno, hno'] at hreads
  case h_2 => cases hnone
  case h_3 => cases hnone
  case h_4 => (repeat' split at hnone) <;> cases hnone

/-! ## The leading digit -/

theorem pow_le_of_length (n : Nat) (hn : 0 < n) : 10 ^ ((digitsOf n).length - 1) ≤ n := by
  rcases Nat.eq_zero_or_pos ((digitsOf n).length - 1) with h | h
  · rw [h]
    exact hn
  · by_contra hlt
    have hlength := (Nat.length_toDigits_le_iff (by decide) h).mpr (Nat.not_le.mp hlt)
    rw [digitsOf] at h hlength
    omega

theorem lt_pow_length (n : Nat) : n < 10 ^ (digitsOf n).length :=
  (Nat.length_toDigits_le_iff (by decide) Nat.length_toDigits_pos).mp (Nat.le_refl _)

/-- The power of the leading digit is not above the number. -/
theorem leadingPower_le {num den : Nat} (hnum : 0 < num) (hden : 0 < den) :
    (10 : ℚ) ^ leadingPower num den ≤ num / den := by
  have hdenq : (0 : ℚ) < den := Nat.cast_pos.mpr hden
  have hnumq : (0 : ℚ) < num := Nat.cast_pos.mpr hnum
  simp only [leadingPower]
  split
  next hle =>
    have hlength := pow_le_of_length (num / den) (Nat.div_pos hle hden)
    have hone : 1 ≤ (digitsOf (num / den)).length := Nat.length_toDigits_pos
    rw [← Int.natCast_pred_of_pos hone, zpow_natCast]
    calc (10 : ℚ) ^ ((digitsOf (num / den)).length - 1)
        ≤ ((num / den : Nat) : ℚ) := by exact_mod_cast hlength
      _ ≤ num / den := Nat.cast_div_le
  next hlt =>
    split
    next heq =>
      have hdenq' : (den : ℚ) = num * 10 ^ ((digitsOf (den / num)).length - 1) := by
        exact_mod_cast heq.symm
      rw [zpow_neg, zpow_natCast, hdenq']
      field_simp
      exact le_refl _
    next =>
      have hlength := lt_pow_length (den / num)
      have hbound : den < 10 ^ (digitsOf (den / num)).length * num :=
        (Nat.div_lt_iff_lt_mul hnum).mp hlength
      have hboundq : (den : ℚ) ≤ 10 ^ (digitsOf (den / num)).length * num := by
        exact_mod_cast hbound.le
      rw [zpow_neg, zpow_natCast, le_div_iff₀ hdenq, inv_mul_le_iff₀ (by positivity)]
      exact hboundq

/-! ## The digits that are written -/

theorem value_stripZeros (fuel n : Nat) (power : Int) :
    (stripZeros fuel n power).value = n * 10 ^ power := by
  induction fuel generalizing n power with
  | zero => rw [stripZeros, Digits.value]
  | succ fuel ih =>
      rw [stripZeros]
      split
      next h =>
        have hten : n = n / 10 * 10 := by omega
        rw [ih, zpow_add₀ (by norm_num), zpow_one]
        calc ((n / 10 : Nat) : ℚ) * (10 ^ power * 10)
            = ((n / 10 * 10 : Nat) : ℚ) * 10 ^ power := by push_cast; ring
          _ = n * 10 ^ power := by rw [← hten]
      next => rfl

/-- **The digits of a float read back as the float.** -/
theorem roundsTo_shortest {m : Nat} (hm : 0 < m) : RoundsTo (shortest m).value m := by
  obtain ⟨hnum, hden⟩ := toRatio_pos hm
  have hlead := leadingPower_le hnum hden
  rw [← value_eq_div] at hlead
  simp only [shortest]
  split
  next x hfound =>
    obtain ⟨n, _, hgrid⟩ := List.exists_of_findSome?_eq_some hfound
    rw [value_stripZeros]
    exact roundsTo_of_onGrid? hm hgrid
  next hnone =>
    have hlast := List.findSome?_eq_none_iff.mp hnone 16 (by decide)
    refine absurd hlast (onGrid?_ne_none hm ?_)
    rw [zpow_sub₀ (by norm_num)]
    calc _ = (10 : ℚ) ^ leadingPower (toRatio m).1 (toRatio m).2 := by norm_num
      _ ≤ value m := hlead

end Tandem.Decimal
