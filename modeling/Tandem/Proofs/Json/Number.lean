import Tandem.Proofs.Decimal.Shortest
import Tandem.Proofs.Json.Token

/-!
# Printed numbers are told apart

No two numbers are printed the same, and where a printed number ends can be seen from the text
behind it (`printNumber_append_inj`). The reader of numerals is used to show it; the value that it
computes is not, as that may be rounded more than once.

* **digits** — `writesFloat_write`: the digits of a float are written as a numeral that stands
  for the same decimal, with a point or an exponent;
* **numbers** — `exists_numeral_printNumber`: so each number is printed as a numeral that denotes
  it (`Numeral.Denotes`), of its kind and, for a float, by a decimal that rounds to it;
* **one only** — `Numeral.Denotes.unique`: a numeral denotes no other number.
-/

namespace Tandem.Json

open Decimal Text

/-- The decimal that a numeral writes behind its sign. -/
def Numeral.exact (x : Numeral) : ℚ :=
  natOfDigits (x.whole ++ x.fraction.getD []) *
    (10 : ℚ) ^ (x.exponent.getD 0 - (x.fraction.getD []).length : Int)

/-- Written with a fraction or an exponent. -/
def Numeral.IsFloat (x : Numeral) : Prop := x.fraction.isSome ∨ x.exponent.isSome

/-- A numeral with its sign. -/
def Numeral.print (x : Numeral) : List Char := if x.negative then '-' :: x.text else x.text

/-! ## Digits as numerals -/

/-- Zeros behind digits are powers of ten, in front of them they are nothing. -/
theorem natOfDigits_zeros (i : Nat) (ds : List Char) (j : Nat) :
    natOfDigits (List.replicate i '0' ++ (ds ++ List.replicate j '0')) =
      natOfDigits ds * 10 ^ j := by
  simp only [natOfDigits_eq, Nat.ofDigitChars_append, Nat.ofDigitChars_replicate_zero, Nat.mul_zero]
  rw [Nat.mul_comm]

theorem isDigit_of_mem_zeros {k : Nat} {c : Char} (hc : c ∈ List.replicate k '0') :
    c.isDigit = true := by
  rw [List.eq_of_mem_replicate hc]
  decide

theorem IsDigits.zeros_append {ds : List Char} (h : IsDigits ds) (k : Nat) :
    IsDigits (List.replicate k '0' ++ ds) := by
  refine ⟨by simp [h.1], fun c hc => ?_⟩
  rcases List.mem_append.mp hc with hc | hc
  · exact isDigit_of_mem_zeros hc
  · exact h.2 c hc

theorem IsDigits.append_zeros {ds : List Char} (h : IsDigits ds) (k : Nat) :
    IsDigits (ds ++ List.replicate k '0') := by
  refine ⟨by simp [h.1], fun c hc => ?_⟩
  rcases List.mem_append.mp hc with hc | hc
  · exact h.2 c hc
  · exact isDigit_of_mem_zeros hc

/-- The decimal of a numeral, whose digits may end in more zeros than those it is written from. -/
theorem Numeral.exact_eq {y : Numeral} {x : Digits} (zeros : Nat)
    (hdigits : natOfDigits (y.whole ++ y.fraction.getD []) = x.digits * 10 ^ zeros)
    (hpower : y.exponent.getD 0 - (y.fraction.getD []).length + zeros = x.power) :
    y.exact = x.value := by
  rw [exact, Digits.value, hdigits, ← hpower, zpow_add₀ (by norm_num), zpow_natCast]
  push_cast
  ring

/-- The text is a numeral that stands for the decimal and shows that it is a float. -/
def WritesFloat (negative : Bool) (x : Digits) (cs : List Char) : Prop :=
  ∃ y : Numeral, y.Written ∧ y.negative = negative ∧ y.IsFloat ∧ y.text = cs ∧ y.exact = x.value

section Layout

variable (negative : Bool) {x : Digits} {ds : List Char} (hds : IsDigits ds)
  (hvalue : natOfDigits ds = x.digits)

include hds hvalue

/-- Small: all digits stand behind the point. -/
theorem writesFloat_small (hpoint : ds.length + x.power ≤ 0) :
    WritesFloat negative x
      ('0' :: '.' :: (List.replicate (-(ds.length + x.power)).toNat '0' ++ ds)) := by
  refine ⟨⟨negative, ['0'], some (List.replicate (-(ds.length + x.power)).toNat '0' ++ ds), none⟩,
    Numeral.written_some none (isDigits_digitsOf 0) (fun _ => rfl) (hds.zeros_append _), rfl,
    .inl rfl, ?_, ?_⟩
  · simp [Numeral.text, fractionText, exponentText]
  · refine Numeral.exact_eq 0 ?_ ?_
    · have hzeros := natOfDigits_zeros ((-(ds.length + x.power)).toNat + 1) ds 0
      simpa [List.replicate_succ, hvalue] using hzeros
    · simp
      omega

/-- The point stands between the digits. -/
theorem writesFloat_inside (hhead : ds.head? ≠ some '0') (hpos : 0 < ds.length + x.power)
    (hinside : x.power < 0) :
    WritesFloat negative x (ds.take (ds.length + x.power).toNat ++
      '.' :: ds.drop (ds.length + x.power).toNat) := by
  obtain ⟨hne, hall⟩ := hds
  have hwhole : IsDigits (ds.take (ds.length + x.power).toNat) := by
    refine ⟨fun hnil => ?_, fun c hc => hall c (List.mem_of_mem_take hc)⟩
    rcases List.take_eq_nil_iff.mp hnil with h | h
    · omega
    · exact hne h
  have hfraction : IsDigits (ds.drop (ds.length + x.power).toNat) := by
    refine ⟨fun hnil => ?_, fun c hc => hall c (List.mem_of_mem_drop hc)⟩
    have hlength := List.drop_eq_nil_iff.mp hnil
    omega
  have hleading : (ds.take (ds.length + x.power).toNat).head? ≠ some '0' := by
    rw [List.head?_take, if_neg (by omega)]
    exact hhead
  refine ⟨⟨negative, ds.take (ds.length + x.power).toNat,
      some (ds.drop (ds.length + x.power).toNat), none⟩,
    Numeral.written_some none hwhole (fun h => absurd h hleading) hfraction, rfl, .inl rfl, ?_, ?_⟩
  · simp [Numeral.text, fractionText, exponentText]
  · refine Numeral.exact_eq 0 ?_ ?_
    · simpa using hvalue
    · simp
      omega

/-- A whole number gets a point and a zero. -/
theorem writesFloat_whole (hhead : ds.head? ≠ some '0') (hpower : 0 ≤ x.power) :
    WritesFloat negative x (ds ++ List.replicate x.power.toNat '0' ++ ['.', '0']) := by
  have hleading : (ds ++ List.replicate x.power.toNat '0').head? ≠ some '0' := by
    rw [List.head?_append_of_ne_nil _ hds.1]
    exact hhead
  refine ⟨⟨negative, ds ++ List.replicate x.power.toNat '0', some ['0'], none⟩,
    Numeral.written_some none (hds.append_zeros _) (fun h => absurd h hleading)
      (isDigits_digitsOf 0), rfl, .inl rfl, ?_, ?_⟩
  · simp [Numeral.text, fractionText, exponentText]
  · refine Numeral.exact_eq (x.power.toNat + 1) ?_ ?_
    · have hzeros := natOfDigits_zeros 0 ds (x.power.toNat + 1)
      rw [List.replicate_succ'] at hzeros
      simpa [hvalue] using hzeros
    · simp
      omega

end Layout

/-- Beyond that the point stands behind the first digit, if there are more, and an exponent
follows. -/
theorem writesFloat_exponent (negative : Bool) {x : Digits} (ds : List Char) :
    IsDigits ds → natOfDigits ds = x.digits →
    WritesFloat negative x ((match ds with
      | d :: e :: rest => d :: '.' :: e :: rest
      | _ => ds) ++ exponentText (some (ds.length + x.power - 1))) := by
  rintro ⟨hne, hall⟩ hvalue
  match ds with
  | [] => exact absurd rfl hne
  | [d] =>
      refine ⟨⟨negative, [d], none, some (1 + x.power - 1)⟩,
        Numeral.written_none _ ⟨by simp, hall⟩ (fun _ => rfl), rfl, .inr rfl, ?_, ?_⟩
      · simp [Numeral.text, fractionText]
      · refine Numeral.exact_eq 0 ?_ ?_
        · simpa using hvalue
        · simp
  | d :: e :: rest =>
      have hfirst : ∀ c ∈ [d], c.isDigit = true := by
        intro c hc
        rw [List.mem_singleton.mp hc]
        exact hall d List.mem_cons_self
      refine ⟨⟨negative, [d], some (e :: rest), some ((d :: e :: rest).length + x.power - 1)⟩,
        Numeral.written_some _ ⟨by simp, hfirst⟩ (fun _ => rfl)
          ⟨by simp, fun c hc => hall c (List.mem_cons_of_mem _ hc)⟩, rfl, .inl rfl, ?_, ?_⟩
      · simp [Numeral.text, fractionText]
      · refine Numeral.exact_eq 0 ?_ ?_
        · simpa using hvalue
        · simp
          omega

/-- The digits of a float are written as a numeral of the same decimal. -/
theorem writesFloat_write (negative : Bool) {x : Digits} (hx : 0 < x.digits) :
    WritesFloat negative x (floatLayout.write x) := by
  have hds := isDigits_digitsOf x.digits
  have hhead : (digitsOf x.digits).head? ≠ some '0' := head?_digitsOf hx
  have hvalue := natOfDigits_digitsOf x.digits
  rw [Layout.write]
  simp only
  split
  next hpositional =>
    split
    next hsmall => exact writesFloat_small negative hds hvalue hsmall
    next hlarge =>
      split
      next hinside => exact writesFloat_inside negative hds hvalue hhead (by omega) (by omega)
      next houtside => exact writesFloat_whole negative hds hvalue hhead (by omega)
  next hexponent => exact writesFloat_exponent negative _ hds hvalue

/-! ## Numbers as numerals -/

/-- What a numeral denotes: without a point and an exponent a whole number, else a float that its
decimal rounds to. -/
def Numeral.Denotes (y : Numeral) : Number → Prop
  | .int n => ¬y.IsFloat ∧
    n = if y.negative then -(natOfDigits y.whole : Int) else natOfDigits y.whole
  | .float x => y.IsFloat ∧ x.isNegative = y.negative ∧ RoundsTo y.exact x.magnitude

/-- A numeral denotes one number only. -/
theorem Numeral.Denotes.unique {y : Numeral} {a b : Number} (ha : y.Denotes a) (hb : y.Denotes b) :
    a = b := by
  cases a with
  | int n =>
      cases b with
      | int n' => rw [ha.2, hb.2]
      | float x' => exact absurd hb.1 ha.1
  | float x =>
      cases b with
      | int n' => exact absurd ha.1 hb.1
      | float x' =>
          obtain ⟨_, hsign, hrounds⟩ := ha
          obtain ⟨_, hsign', hrounds'⟩ := hb
          rw [Binary64.eq_of_magnitude_eq (hsign.trans hsign'.symm) (hrounds.unique hrounds')]

theorem exists_numeral_printInt (n : Int) :
    ∃ y : Numeral, y.Written ∧ y.Denotes (.int n) ∧ y.print = printInt n := by
  have hint : ∀ (negative : Bool) (k : Nat),
      ¬Numeral.IsFloat ⟨negative, digitsOf k, none, none⟩ := by
    rintro _ _ (h | h) <;> cases h
  cases n with
  | ofNat n =>
      refine ⟨⟨false, digitsOf n, none, none⟩, Numeral.written_digitsOf _ _, ⟨hint _ _, ?_⟩, ?_⟩
      · simp [natOfDigits_digitsOf]
      · simp [Numeral.print, Numeral.text, fractionText, exponentText, printInt]
  | negSucc n =>
      refine ⟨⟨true, digitsOf (n + 1), none, none⟩, Numeral.written_digitsOf _ _,
        ⟨hint _ _, ?_⟩, ?_⟩
      · simp [natOfDigits_digitsOf, Int.negSucc_eq]
      · simp [Numeral.print, Numeral.text, fractionText, exponentText, printInt]

theorem exists_numeral_printFloat (x : Binary64) :
    ∃ y : Numeral, y.Written ∧ y.Denotes (.float x) ∧ y.print = printFloat x := by
  rw [printFloat]
  by_cases hzero : x.magnitude = 0
  · refine ⟨⟨x.isNegative, ['0'], some ['0'], none⟩,
      Numeral.written_some none (isDigits_digitsOf 0) (fun _ => rfl) (isDigits_digitsOf 0),
      ⟨.inl rfl, rfl, ?_⟩, ?_⟩
    · have hexact : Numeral.exact ⟨x.isNegative, ['0'], some ['0'], none⟩ = 0 := by
        simp [Numeral.exact, natOfDigits]
      rw [hzero, hexact]
      exact .zero
    · simp [Numeral.print, Numeral.text, fractionText, exponentText, hzero]
  · have hrounds := roundsTo_shortest (Nat.pos_of_ne_zero hzero)
    have hdigits : 0 < (shortest x.magnitude).digits := by
      have hpos := hrounds.pos (Nat.pos_of_ne_zero hzero)
      rw [Digits.value] at hpos
      exact Nat.cast_pos.mp (pos_of_mul_pos_left hpos (by positivity))
    obtain ⟨y, hwritten, hsign, hfloat, htext, hexact⟩ :=
      writesFloat_write x.isNegative hdigits
    refine ⟨y, hwritten, ⟨hfloat, hsign.symm, ?_⟩, ?_⟩
    · rwa [hexact]
    · simp [Numeral.print, hsign, htext, hzero]

/-- A number is printed as a numeral that denotes it. -/
theorem exists_numeral_printNumber (n : Number) :
    ∃ y : Numeral, y.Written ∧ y.Denotes n ∧ y.print = printNumber n := by
  cases n with
  | int n => exact exists_numeral_printInt n
  | float x => exact exists_numeral_printFloat x

/-! ## Reading it back -/

theorem Numeral.Written.text_eq_cons {y : Numeral} (hy : y.Written) :
    ∃ d ds, y.text = d :: ds ∧ d.isDigit = true := by
  obtain ⟨hne, hall⟩ := hy.whole
  obtain ⟨d, ds, hds⟩ := List.exists_cons_of_ne_nil hne
  refine ⟨d, ds ++ (fractionText y.fraction ++ exponentText y.exponent), ?_, ?_⟩
  · rw [text, hds, List.cons_append]
  · exact hall d (hds ▸ List.mem_cons_self)

/-- A printed number starts with a digit or a sign. -/
theorem printNumber_eq_cons (n : Number) :
    ∃ c cs, printNumber n = c :: cs ∧ (c.isDigit = true ∨ c = '-') := by
  obtain ⟨y, hy, _, hprint⟩ := exists_numeral_printNumber n
  rw [← hprint, Numeral.print]
  split
  · exact ⟨'-', y.text, rfl, .inr rfl⟩
  · obtain ⟨d, ds, htext, hd⟩ := hy.text_eq_cons
    exact ⟨d, ds, htext, .inl hd⟩

theorem Numeral.Written.numeral?_print {y : Numeral} (hy : y.Written) {rest : List Char}
    (hrest : Stops continuesNumber rest) : numeral? (y.print ++ rest) = some (y, rest) := by
  have hread := hy.unsigned?_text hrest
  rw [print]
  split
  next hsign =>
    rw [hsign] at hread
    exact hread
  next hsign =>
    obtain ⟨d, ds, htext, hd⟩ := hy.text_eq_cons
    rw [Bool.eq_false_iff.mpr hsign] at hread
    rw [htext, List.cons_append] at hread ⊢
    rw [numeral?.eq_def]
    split
    next heq =>
      cases heq
      exact absurd hd (by decide)
    next => exact hread

/-- **Numbers are told apart by what they are printed as,** in front of any texts that do not go
on with a number. -/
theorem printNumber_append_inj {a b : Number} {r r' : List Char} (hr : Stops continuesNumber r)
    (hr' : Stops continuesNumber r') (h : printNumber a ++ r = printNumber b ++ r') :
    a = b ∧ r = r' := by
  obtain ⟨y, hy, hya, hprint⟩ := exists_numeral_printNumber a
  obtain ⟨y', hy', hyb, hprint'⟩ := exists_numeral_printNumber b
  have hread := hy.numeral?_print hr
  rw [hprint, h, ← hprint', hy'.numeral?_print hr'] at hread
  obtain ⟨rfl, rfl⟩ := Prod.mk.inj (Option.some.inj hread)
  exact ⟨hya.unique hyb, rfl⟩

end Tandem.Json
