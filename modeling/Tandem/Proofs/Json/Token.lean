import Tandem.Json.Printer
import Tandem.Json.Token
import Tandem.Proofs.Text.Blank

/-!
# Printed tokens

A printed value is cut into the tokens it was printed from. Strings are read back
whatever characters they hold (`tokens?_printString`), whole numbers of 64 bits exactly
(`tokens?_printInt`). A number has no mark at its end, so it is read back only if the
text that follows does not go on with it; its parts then are those that were written
(`Numeral.Written.unsigned?_text`).
-/

namespace Tandem.Json

open Text

/-- The token at the front of a text is the first of its tokens. -/
theorem tokens?_cons {c : Char} {rest rest' : List Char} {t : Token}
    (hspace : isSpace c = false) (h : token? (c :: rest) = some (t, rest')) :
    tokens? (c :: rest) = (tokens? rest').map (t :: ·) := by
  rw [tokens?, if_neg (by simp [hspace])]
  split
  next hnone => rw [h] at hnone; cases hnone
  next heq =>
    rw [h] at heq
    cases heq
    rfl

/-! ## Strings -/

theorem hexValue?_hexDigit {n : Nat} (h : n < 16) : hexValue? (hexDigit n) = some n := by
  have hall : ∀ m ∈ List.range 16, hexValue? (hexDigit m) = some m := by decide
  exact hall n (List.mem_range.mpr h)

theorem codes?_printChar (c : Char) (rest : List Char) :
    codes? (printChar c ++ rest) = (codes? rest).map fun p => (c.toNat :: p.1, p.2) := by
  have hescape : ∀ (e : List Char) (n : Nat), escape? (e ++ rest) = some (n, rest) →
      codes? ('\\' :: (e ++ rest)) = (codes? rest).map fun p => (n :: p.1, p.2) := by
    intro e n he
    rw [codes?, if_neg (by decide), if_pos rfl]
    split
    next hnone => rw [he] at hnone; cases hnone
    next heq => rw [he] at heq; cases heq; rfl
  rw [printChar.eq_def]
  split
  · exact hescape ['"'] _ rfl
  · exact hescape ['\\'] _ rfl
  · exact hescape ['n'] _ rfl
  · exact hescape ['r'] _ rfl
  · exact hescape ['t'] _ rfl
  next hquote hslash _ _ _ =>
    split
    next h8 => rw [h8]; exact hescape ['b'] _ rfl
    next =>
      split
      next h12 => rw [h12]; exact hescape ['f'] _ rfl
      next =>
        split
        next h32 =>
          refine hescape ['u', '0', '0', hexDigit (c.toNat / 16), hexDigit (c.toNat % 16)] _ ?_
          have hhigh := hexValue?_hexDigit (n := c.toNat / 16) (by omega)
          have hlow := hexValue?_hexDigit (n := c.toNat % 16) (by omega)
          have hcode : ((0 * 16 + 0) * 16 + c.toNat / 16) * 16 + c.toNat % 16 = c.toNat := by
            omega
          have hzero : hexValue? '0' = some 0 := by decide
          have hu : escape? (['u', '0', '0', hexDigit (c.toNat / 16), hexDigit (c.toNat % 16)]
              ++ rest) = hexCode? ('0' :: '0' :: hexDigit (c.toNat / 16)
                :: hexDigit (c.toNat % 16) :: rest) := rfl
          simp only [hu, hexCode?, hzero, hhigh, hlow, Option.bind_eq_bind, Option.bind_some,
            Option.pure_def, hcode]
        next h32 =>
          rw [List.singleton_append, codes?, if_neg hquote, if_neg hslash, if_neg h32]

/-- The characters of a string are read back up to its closing quote. -/
theorem codes?_flatMap_printChar (cs rest : List Char) :
    codes? (cs.flatMap printChar ++ '"' :: rest) = some (cs.map Char.toNat, rest) := by
  induction cs with
  | nil => rw [List.flatMap_nil, List.nil_append, codes?, if_pos rfl]; rfl
  | cons c cs ih =>
      rw [List.flatMap_cons, List.append_assoc, codes?_printChar, ih]
      rfl

theorem joinHalves_map_toNat (cs : List Char) : joinHalves (cs.map Char.toNat) = some cs := by
  induction cs with
  | nil => rfl
  | cons c cs ih =>
      have hvalid : c.toNat < 0xD800 ∨ 0xDFFF < c.toNat ∧ c.toNat < 0x110000 := c.valid
      have hlow : isLowHalf c.toNat = false := by
        simp only [isLowHalf, Bool.and_eq_false_iff, decide_eq_false_iff_not]; omega
      have hhigh : isHighHalf c.toNat = false := by
        simp only [isHighHalf, Bool.and_eq_false_iff, decide_eq_false_iff_not]; omega
      rw [List.map_cons, joinHalves.eq_def]
      simp only [hlow, hhigh, Bool.false_eq_true, if_false, ih, Char.ofNat_toNat, Option.map_some]

theorem tokens?_printString (s : String) (rest : List Char) :
    tokens? (printString s ++ rest) = (tokens? rest).map (.str (some s) :: ·) := by
  refine tokens?_cons (by decide) ?_
  show (codes? ((s.toList.flatMap printChar ++ ['"']) ++ rest)).map _ = _
  rw [List.append_assoc, List.singleton_append, codes?_flatMap_printChar]
  simp only [Option.map_some, joinHalves_map_toNat, String.ofList_toList]

/-! ## Digits -/

/-- The character could go on a number. -/
def continuesNumber (c : Char) : Bool := c.isDigit || c == '.' || c == 'e' || c == 'E'

theorem isDigit_of_mem_digitsOf {n : Nat} {c : Char} (h : c ∈ Decimal.digitsOf n) :
    c.isDigit = true :=
  Nat.isDigit_of_mem_toDigits (by decide) (by decide) h

/-- Only zero is written with a leading zero. -/
theorem head?_digitsOf {n : Nat} (h : 0 < n) : (Decimal.digitsOf n).head? ≠ some '0' := by
  induction n using Nat.strongRecOn with
  | ind n ih =>
      by_cases hn : n < 10
      · rw [Decimal.digitsOf, Nat.toDigits_of_lt_base hn]
        have hall : ∀ m ∈ List.range 10, 0 < m → [m.digitChar].head? ≠ some '0' := by decide
        exact hall n (List.mem_range.mpr hn) h
      · rw [Decimal.digitsOf, Nat.toDigits_of_base_le (by decide) (by omega)]
        have htail := ih (n / 10) (by omega) (by omega)
        rw [Decimal.digitsOf] at htail
        intro hhead
        refine htail ?_
        rw [List.head?_append, Option.or_eq_some_iff] at hhead
        rcases hhead with hhead | ⟨hnone, _⟩
        · exact hhead
        · exact absurd (List.head?_eq_none_iff.mp hnone) Nat.toDigits_ne_nil

/-! ## Numerals -/

/-- A run of digits, at least one. -/
def IsDigits (ds : List Char) : Prop := ds ≠ [] ∧ ∀ c ∈ ds, c.isDigit = true

theorem isDigits_digitsOf (n : Nat) : IsDigits (Decimal.digitsOf n) :=
  ⟨Nat.toDigits_ne_nil, fun _ hc => isDigit_of_mem_digitsOf hc⟩

def fractionText : Option (List Char) → List Char
  | none => []
  | some ds => '.' :: ds

def exponentText : Option Int → List Char
  | none => []
  | some e =>
    'e' :: (if 0 ≤ e then '+' :: Decimal.digitsOf e.toNat else '-' :: Decimal.digitsOf (-e).toNat)

/-- A numeral as it is written behind its sign. -/
def Numeral.text (x : Numeral) : List Char :=
  x.whole ++ (fractionText x.fraction ++ exponentText x.exponent)

/-- The parts of a numeral are as they are written: at least one digit in each, and no zero
in front of other digits. -/
structure Numeral.Written (x : Numeral) : Prop where
  whole : IsDigits x.whole
  leading : x.whole.head? = some '0' → x.whole.length = 1
  fraction : ∀ ds, x.fraction = some ds → IsDigits ds

namespace Numeral

variable {negative : Bool} {whole fraction : List Char} (exponent : Option Int)

theorem written_none (hwhole : IsDigits whole)
    (hleading : whole.head? = some '0' → whole.length = 1) :
    Written ⟨negative, whole, none, exponent⟩ where
  whole := hwhole
  leading := hleading
  fraction := by
    intro ds hds
    cases hds

theorem written_some (hwhole : IsDigits whole)
    (hleading : whole.head? = some '0' → whole.length = 1)
    (hfraction : IsDigits fraction) : Written ⟨negative, whole, some fraction, exponent⟩ where
  whole := hwhole
  leading := hleading
  fraction := by
    intro ds hds
    obtain rfl := Option.some.inj hds
    exact hfraction

theorem written_digitsOf (negative : Bool) (n : Nat) :
    Written ⟨negative, Decimal.digitsOf n, none, none⟩ := by
  refine written_none none (isDigits_digitsOf n) fun hhead => ?_
  cases n with
  | zero => rfl
  | succ n => exact absurd hhead (head?_digitsOf (Nat.succ_pos n))

end Numeral

theorem natOfDigits_eq (ds : List Char) : natOfDigits ds = Nat.ofDigitChars 10 ds 0 := by
  rw [natOfDigits, Nat.ofDigitChars_eq_foldl]
  congr 1
  funext n d
  rw [Nat.mul_comm]
  rfl

theorem natOfDigits_digitsOf (n : Nat) : natOfDigits (Decimal.digitsOf n) = n := by
  rw [natOfDigits_eq]
  exact Nat.ofDigitChars_ten_toDigits

theorem digits?_append {ds rest : List Char} (hds : IsDigits ds) (hrest : Stops Char.isDigit rest) :
    digits? (ds ++ rest) = some (ds, rest) := by
  rw [digits?, hrest.takeWhile_append hds.2, hrest.dropWhile_append hds.2, if_neg]
  intro hempty
  exact hds.1 (List.isEmpty_iff.mp hempty)

theorem fraction?_text {fraction : Option (List Char)} {rest : List Char}
    (hfraction : ∀ ds, fraction = some ds → IsDigits ds)
    (hdigit : Stops Char.isDigit rest) (hpoint : rest.head? ≠ some '.') :
    fraction? (fractionText fraction ++ rest) = some (fraction, rest) := by
  cases fraction with
  | none =>
      show fraction? rest = _
      rw [fraction?.eq_def]
      split
      next => exact absurd rfl hpoint
      next => rfl
  | some ds =>
      show (digits? (ds ++ rest)).map _ = _
      rw [digits?_append (hfraction ds rfl) hdigit]
      rfl

theorem exponent?_text (exponent : Option Int) {rest : List Char}
    (hrest : Stops continuesNumber rest) (hdigit : Stops Char.isDigit rest) :
    exponent? (exponentText exponent ++ rest) = some (exponent, rest) := by
  have hread : ∀ n, digits? (Decimal.digitsOf n ++ rest) = some (Decimal.digitsOf n, rest) :=
    fun n => digits?_append (isDigits_digitsOf n) hdigit
  cases exponent with
  | none =>
      show exponent? rest = _
      cases rest with
      | nil => rfl
      | cons c cs =>
          have h := hrest c rfl
          rw [exponent?.eq_def]
          refine if_neg ?_
          rintro (rfl | rfl)
          · exact absurd h (by decide)
          · exact absurd h (by decide)
  | some e =>
      rw [exponentText]
      split
      next hsign =>
        show (digits? (Decimal.digitsOf e.toNat ++ rest)).map _ = _
        rw [hread, Option.map_some, natOfDigits_digitsOf, Int.toNat_of_nonneg hsign]
      next hsign =>
        show (digits? (Decimal.digitsOf (-e).toNat ++ rest)).map _ = _
        rw [hread, Option.map_some, natOfDigits_digitsOf, Int.toNat_of_nonneg (by omega),
          Int.neg_neg]

/-- A numeral is read back from its text, and what follows is left. -/
theorem Numeral.Written.unsigned?_text {x : Numeral} (hx : x.Written) {rest : List Char}
    (hrest : Stops continuesNumber rest) :
    unsigned? x.negative (x.text ++ rest) = some (x, rest) := by
  have hdigit : Stops Char.isDigit rest := by
    intro c hc
    have h := hrest c hc
    simp only [continuesNumber, Bool.or_eq_false_iff] at h
    exact h.1.1.1
  have hpoint : rest.head? ≠ some '.' := fun hc => absurd (hrest '.' hc) (by decide)
  -- What stands behind the whole part, and behind the fraction, is no digit.
  have hbehind : Stops Char.isDigit (exponentText x.exponent ++ rest) ∧
      (exponentText x.exponent ++ rest).head? ≠ some '.' := by
    cases x.exponent with
    | none => exact ⟨hdigit, hpoint⟩
    | some e => exact ⟨stops_cons (by decide), by simp [exponentText]⟩
  have hfront : Stops Char.isDigit
      (fractionText x.fraction ++ (exponentText x.exponent ++ rest)) := by
    cases x.fraction with
    | none => exact hbehind.1
    | some ds => exact stops_cons (by decide)
  have hwhole : whole? (x.whole ++ (fractionText x.fraction ++ (exponentText x.exponent ++ rest))) =
      some (x.whole, fractionText x.fraction ++ (exponentText x.exponent ++ rest)) := by
    rw [whole?, digits?_append hx.whole hfront, Option.bind_some, if_neg]
    rintro ⟨hhead, hlength⟩
    exact hlength (hx.leading hhead)
  rw [text, List.append_assoc, List.append_assoc]
  simp only [unsigned?, hwhole, fraction?_text hx.fraction hbehind.1 hbehind.2,
    exponent?_text x.exponent hrest hdigit, Option.bind_eq_bind, Option.bind_some,
    Option.pure_def]

/-! ## Whole numbers -/

/-- Digits are absorbed as long as the number they write is small enough. -/
theorem absorb_eq {k : Nat} {ds : List Char} (h : Nat.ofDigitChars 10 ds k ≤ significandLimit) :
    absorb k ds = (Nat.ofDigitChars 10 ds k, []) := by
  induction ds generalizing k with
  | nil => rw [absorb, Nat.ofDigitChars_nil]
  | cons d ds ih =>
      rw [Nat.ofDigitChars_cons, Nat.mul_comm] at h
      have hle : k * 10 + (d.toNat - 48) ≤ significandLimit := by
        refine Nat.le_trans ?_ h
        rw [Nat.ofDigitChars_eq_ofDigitChars_zero]
        refine Nat.le_trans ?_ (Nat.le_add_right _ _)
        exact Nat.le_mul_of_pos_left _ (Nat.pow_pos (by decide))
      rw [absorb]
      simp only [hle, if_true]
      rw [Nat.ofDigitChars_cons, Nat.mul_comm 10 k]
      exact ih h

theorem absorb_digitsOf {n : Nat} (h : n ≤ significandLimit) :
    absorb 0 (Decimal.digitsOf n) = (n, []) := by
  have hn : Nat.ofDigitChars 10 (Decimal.digitsOf n) 0 = n := Nat.ofDigitChars_ten_toDigits
  rw [absorb_eq (hn.symm ▸ h), hn]

/-- The digits of a whole number are a numeral, and what follows is left. -/
theorem unsigned?_digitsOf (negative : Bool) (n : Nat) {rest : List Char}
    (hrest : Stops continuesNumber rest) :
    unsigned? negative (Decimal.digitsOf n ++ rest) =
      some (⟨negative, Decimal.digitsOf n, none, none⟩, rest) := by
  have h := (Numeral.written_digitsOf negative n).unsigned?_text hrest
  rwa [Numeral.text, fractionText, exponentText, List.append_nil, List.append_nil] at h

/-- The whole numbers that have 64 bits, with a sign or without. -/
def Has64Bits (n : Int) : Prop := -(Nat.pow 2 63 : Int) ≤ n ∧ n < (Nat.pow 2 64 : Int)

instance (n : Int) : Decidable (Has64Bits n) :=
  inferInstanceAs (Decidable (-(Nat.pow 2 63 : Int) ≤ n ∧ n < (Nat.pow 2 64 : Int)))

theorem tokens?_printInt {n : Int} (hn : Has64Bits n) {rest : List Char}
    (hrest : Stops continuesNumber rest) :
    tokens? (printInt n ++ rest) = (tokens? rest).map (.num (some (.int n)) :: ·) := by
  have hlimit : significandLimit = 18446744073709551615 := by decide
  have hpow63 : Nat.pow 2 63 = 9223372036854775808 := by decide
  have hpow64 : Nat.pow 2 64 = 18446744073709551616 := by decide
  obtain ⟨hlow, hhigh⟩ := hn
  cases n with
  | ofNat n =>
      have hn : n ≤ significandLimit := by simp only [Int.ofNat_eq_natCast] at hhigh; omega
      obtain ⟨d, ds, hds⟩ : ∃ d ds, Decimal.digitsOf n = d :: ds :=
        List.exists_cons_of_ne_nil Nat.toDigits_ne_nil
      have hd : d.isDigit = true := isDigit_of_mem_digitsOf (hds ▸ List.mem_cons_self)
      have hvalue : (Numeral.mk false (d :: ds) none none).value? = some (.int n) := by
        rw [← hds]
        simp [Numeral.value?, absorb_digitsOf hn]
      have hnumeral : numeral? (d :: (ds ++ rest)) = some (⟨false, d :: ds, none, none⟩, rest) := by
        have h := unsigned?_digitsOf false n hrest
        rw [hds] at h
        rw [numeral?.eq_def]
        split
        next heq =>
          cases heq
          exact absurd hd (by decide)
        next => exact h
      show tokens? (Decimal.digitsOf n ++ rest) = _
      rw [hds, List.cons_append]
      refine tokens?_cons ?_ ?_
      · cases hspace : isSpace d with
        | false => rfl
        | true =>
            simp only [isSpace, Bool.or_eq_true, beq_iff_eq] at hspace
            rcases hspace with ((rfl | rfl) | rfl) | rfl <;> exact absurd hd (by decide)
      · rw [token?.eq_def]
        simp only
        split <;> first
          | exact absurd hd (by decide)
          | (rw [hnumeral, Option.map_some, hvalue]; rfl)
  | negSucc n =>
      have hn : n + 1 ≤ Nat.pow 2 63 := by omega
      have hvalue : (Numeral.mk true (Decimal.digitsOf (n + 1)) none none).value? =
          some (.int (Int.negSucc n)) := by
        have hsmall : ¬(n + 1 = 0 ∨ Nat.pow 2 63 < n + 1) := by omega
        have habsorb := absorb_digitsOf (show n + 1 ≤ significandLimit by omega)
        simp only [Numeral.value?, habsorb, absorb, Option.getD_none, List.isEmpty_nil,
          Option.isNone_none, Bool.and_self, if_true, if_neg hsmall]
        rfl
      refine tokens?_cons (by decide) ?_
      show (numeral? ('-' :: (Decimal.digitsOf (n + 1) ++ rest))).map _ = _
      rw [numeral?, unsigned?_digitsOf true (n + 1) hrest, Option.map_some, hvalue]

end Tandem.Json
