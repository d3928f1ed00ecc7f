import Mathlib.Algebra.Order.Field.Power
import Mathlib.Algebra.Order.Field.Rat
import Mathlib.Order.Monotone.Basic
import Mathlib.Tactic.FieldSimp
import Mathlib.Tactic.Linarith
import Mathlib.Tactic.Positivity
import Mathlib.Tactic.Ring
import Tandem.Decimal.Shortest

/-!
# Numbers that round to a float

The numbers that round to a magnitude lie around its value, between two ends
(`RoundsTo`). No number rounds to two magnitudes:

* **neighbours touch** — `upper_eq_lower_succ`: where the numbers of one magnitude end, those of
  the next begin, also where the unit doubles;
* **in order** — `lower_strictMono`: so the ends ascend with the magnitudes;
* **at an end** — it belongs to the even one of the two neighbours, `units_mod_two`.

Together this is `RoundsTo.unique`. All magnitudes are meant, those of the bit patterns that are
no finite float included.
-/

namespace Tandem.Decimal

theorem pow_two_52 : Nat.pow 2 52 = 4503599627370496 := by decide

/-- The unit of a magnitude. -/
def unit (m : Nat) : ℚ := (2 : ℚ) ^ unitPower m

/-- The number that a magnitude stands for. -/
def value (m : Nat) : ℚ := units m * unit m

/-- Where the numbers that round to a magnitude begin. -/
def lower (m : Nat) : ℚ := (roundingInterval m).1 * (unit m / 4)

/-- Where they end. -/
def upper (m : Nat) : ℚ := (roundingInterval m).2 * (unit m / 4)

/-- The number rounds to the magnitude, to the nearest with ties to even. -/
def RoundsTo (y : ℚ) (m : Nat) : Prop :=
  if units m % 2 = 0 then lower m ≤ y ∧ y ≤ upper m else lower m < y ∧ y < upper m

/-! ## Units -/

theorem unit_pos (m : Nat) : 0 < unit m := by
  rw [unit]
  positivity

theorem units_lt (m : Nat) : units m < 9007199254740992 := by
  rw [units, pow_two_52]
  split <;> omega

theorem units_pos {m : Nat} (hm : 0 < m) : 0 < units m := by
  rw [units, pow_two_52]
  split <;> omega

/-- A magnitude is even if its significand is. -/
theorem units_mod_two (m : Nat) : units m % 2 = m % 2 := by
  rw [units, pow_two_52]
  split <;> omega

/-! ## The ends -/

/-- From one magnitude to the next the unit is the same, or it doubles; the quarters go on. -/
theorem unitPower_succ_cases (m : Nat) :
    (unitPower (m + 1) = unitPower m ∧ (roundingInterval (m + 1)).1 = (roundingInterval m).2) ∨
      (unitPower (m + 1) = unitPower m + 1 ∧
        2 * (roundingInterval (m + 1)).1 = (roundingInterval m).2) := by
  simp only [unitPower, roundingInterval, units, pow_two_52]
  split_ifs <;> omega

theorem upper_eq_lower_succ (m : Nat) : upper m = lower (m + 1) := by
  rw [upper, lower]
  rcases unitPower_succ_cases m with ⟨hunit, hquarters⟩ | ⟨hunit, hquarters⟩
  · rw [unit, unit, hunit, hquarters]
  · have hdouble : unit (m + 1) = 2 * unit m := by
      rw [unit, unit, hunit, zpow_add_one₀ two_ne_zero, mul_comm]
    rw [hdouble, ← hquarters]
    push_cast
    ring

theorem upper_eq (m : Nat) : upper m = value m + unit m / 2 := by
  rw [upper, value, roundingInterval]
  push_cast
  ring

/-- Numbers half a unit below round to a magnitude, or its significand is the least normal one
and those a quarter of a unit below do. -/
theorem lower_cases {m : Nat} (hm : 0 < m) :
    lower m = value m - unit m / 2 ∨
      units m = 4503599627370496 ∧ lower m = value m - unit m / 4 := by
  have hpos := units_pos hm
  rw [lower, value, roundingInterval, pow_two_52]
  split
  next h =>
    refine .inr ⟨h.1, ?_⟩
    rw [h.1]
    push_cast
    ring
  next h =>
    refine .inl ?_
    rw [Nat.cast_sub (by omega)]
    push_cast
    ring

theorem lower_lt_value {m : Nat} (hm : 0 < m) : lower m < value m := by
  have hunit := unit_pos m
  rcases lower_cases hm with h | ⟨_, h⟩ <;> rw [h] <;> linarith

theorem value_lt_upper (m : Nat) : value m < upper m := by
  have hunit := unit_pos m
  rw [upper_eq]
  linarith

theorem lower_pos {m : Nat} (hm : 0 < m) : 0 < lower m := by
  have hpos := units_pos hm
  have hquarters : 0 < (roundingInterval m).1 := by
    simp only [roundingInterval]
    split <;> omega
  exact mul_pos (Nat.cast_pos.mpr hquarters) (div_pos (unit_pos m) (by norm_num))

theorem lower_strictMono : StrictMono lower := by
  refine strictMono_nat_of_lt_succ fun m => ?_
  rw [← upper_eq_lower_succ]
  have hquarters : (roundingInterval m).1 < (roundingInterval m).2 := by
    simp only [roundingInterval]
    omega
  exact mul_lt_mul_of_pos_right (Nat.cast_lt.mpr hquarters)
    (div_pos (unit_pos m) (by norm_num))

/-! ## Rounding -/

namespace RoundsTo

variable {y : ℚ} {m m' : Nat}

theorem of_lt (hlow : lower m < y) (hhigh : y < upper m) : RoundsTo y m := by
  rw [RoundsTo]
  split
  · exact ⟨hlow.le, hhigh.le⟩
  · exact ⟨hlow, hhigh⟩

theorem le (h : RoundsTo y m) : lower m ≤ y ∧ y ≤ upper m := by
  rw [RoundsTo] at h
  split at h
  · exact h
  · exact ⟨h.1.le, h.2.le⟩

theorem zero : RoundsTo 0 0 := by
  have hlow : lower 0 = 0 := by
    have hquarters : (roundingInterval 0).1 = 0 := by decide
    rw [lower, hquarters, Nat.cast_zero, zero_mul]
  have hhigh : 0 ≤ upper 0 := by
    rw [upper]
    exact mul_nonneg (Nat.cast_nonneg _) (div_pos (unit_pos 0) (by norm_num)).le
  rw [RoundsTo, if_pos (by decide)]
  exact ⟨hlow.le, hhigh⟩

theorem pos (h : RoundsTo y m) (hm : 0 < m) : 0 < y :=
  (lower_pos hm).trans_le h.le.1

/-- A number at an end of its interval rounds to a magnitude that is even. -/
theorem even_of_eq (h : RoundsTo y m) (hend : y = lower m ∨ y = upper m) : m % 2 = 0 := by
  rw [RoundsTo] at h
  split at h
  next heven => rwa [units_mod_two] at heven
  next =>
    rcases hend with rfl | rfl
    · exact absurd h.1 (lt_irrefl _)
    · exact absurd h.2 (lt_irrefl _)

theorem not_lt (h : RoundsTo y m) (h' : RoundsTo y m') : ¬m < m' := by
  intro hlt
  have hends : lower (m + 1) ≤ lower m' := lower_strictMono.monotone hlt
  have hhigh := h.le.2
  have hlow := h'.le.1
  rw [upper_eq_lower_succ] at hhigh
  -- Between them is no room but for the one end where neighbours meet.
  have hmeet : lower m' = lower (m + 1) := le_antisymm (hlow.trans hhigh) hends
  obtain rfl : m' = m + 1 := lower_strictMono.injective hmeet
  have hend : y = lower (m + 1) := le_antisymm hhigh hlow
  have heven := h.even_of_eq (.inr (hend.trans (upper_eq_lower_succ m).symm))
  have heven' := h'.even_of_eq (.inl hend)
  omega

/-- **A number rounds to one magnitude only.** -/
theorem unique (h : RoundsTo y m) (h' : RoundsTo y m') : m = m' := by
  have hle := h.not_lt h'
  have hge := h'.not_lt h
  omega

end RoundsTo

/-- A float is its sign and its magnitude. -/
theorem Binary64.eq_of_magnitude_eq {x x' : Binary64} (hsign : x.isNegative = x'.isNegative)
    (hmagnitude : x.magnitude = x'.magnitude) : x = x' := by
  obtain ⟨bits⟩ := x
  obtain ⟨bits'⟩ := x'
  have hpow : Nat.pow 2 63 = 9223372036854775808 := by decide
  have hlt := bits.toNat_lt
  have hlt' := bits'.toNat_lt
  simp only [Binary64.isNegative, Binary64.magnitude, hpow, decide_eq_decide] at hsign hmagnitude
  have heq : bits = bits' := UInt64.toNat_inj.mp (by omega)
  rw [heq]

end Tandem.Decimal
