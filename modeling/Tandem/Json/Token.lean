import Tandem.Decimal.Scale
import Tandem.Json.Basic
import Tandem.Text.Split

/-!
# JSON tokens

A JSON text is first cut into tokens. Numbers and strings are decoded on the way,
and where a literal has the right form but no value, a number beyond every float
or a string with half a surrogate pair, the token holds `none`: such a literal
may be skipped but not read.
-/

namespace Tandem.Json

open Decimal

inductive Token where
  | openArray
  | closeArray
  | openObject
  | closeObject
  | comma
  | colon
  | null
  | bool (b : Bool)
  | num (n : Option Number)
  | str (s : Option String)
  deriving DecidableEq

/-- The white space between tokens. -/
def isSpace (c : Char) : Bool := c == ' ' || c == '\t' || c == '\n' || c == '\r'

/-! ## Numbers -/

/-- The greatest significand that is collected. -/
def significandLimit : Nat := Nat.pow 2 64 - 1

/-- Take digits into the significand while it stays within the limit; the digits
that no longer fit are handed back. -/
def absorb (significand : Nat) : List Char → Nat × List Char
  | [] => (significand, [])
  | d :: ds =>
    let next := significand * 10 + (d.toNat - 48)
    if next ≤ significandLimit then absorb next ds else (significand, d :: ds)

structure Numeral where
  negative : Bool
  whole : List Char
  fraction : Option (List Char)
  exponent : Option Int

def natOfDigits (ds : List Char) : Nat := ds.foldl (fun n d => n * 10 + (d.toNat - 48)) 0

/-- The value of a literal, `none` if it is beyond every float. A whole number in
the 64-bit ranges is exact; everything else, `-0` included, is a float. -/
def Numeral.value? (x : Numeral) : Option Number :=
  let (significand, unread) := absorb 0 x.whole
  let (significand', unread') := absorb significand (x.fraction.getD [])
  let places : Int := (x.fraction.getD []).length - unread'.length
  let float : Option Number :=
    (scale significand' (unread.length - places + x.exponent.getD 0)).map fun m =>
      .float (.ofMagnitude x.negative m)
  if x.fraction.isNone && x.exponent.isNone && unread.isEmpty then
    if x.negative then
      -- `-0` keeps its sign, which whole numbers have not
      if significand = 0 ∨ Nat.pow 2 63 < significand then float else some (.int (-significand))
    else some (.int significand)
  else float

/-- A run of at least one digit. -/
def digits? (cs : List Char) : Option (List Char × List Char) :=
  if (cs.takeWhile Char.isDigit).isEmpty then none
  else some (cs.takeWhile Char.isDigit, cs.dropWhile Char.isDigit)

/-- The fraction part: absent, or a point and digits. -/
def fraction? : List Char → Option (Option (List Char) × List Char)
  | '.' :: cs => (digits? cs).map fun p => (some p.1, p.2)
  | cs => some (none, cs)

/-- The exponent part: absent, or `e`, an optional sign and digits. -/
def exponent? : List Char → Option (Option Int × List Char)
  | [] => some (none, [])
  | c :: cs =>
    if c = 'e' ∨ c = 'E' then
      match cs with
      | '+' :: cs => (digits? cs).map fun p => (some (natOfDigits p.1 : Int), p.2)
      | '-' :: cs => (digits? cs).map fun p => (some (-(natOfDigits p.1 : Int)), p.2)
      | cs => (digits? cs).map fun p => (some (natOfDigits p.1 : Int), p.2)
    else some (none, c :: cs)

/-- The whole part: `0`, or digits that do not start with it. -/
def whole? (cs : List Char) : Option (List Char × List Char) :=
  (digits? cs).bind fun p => if p.1.head? = some '0' ∧ p.1.length ≠ 1 then none else some p

def unsigned? (negative : Bool) (cs : List Char) : Option (Numeral × List Char) := do
  let (whole, cs) ← whole? cs
  let (fraction, cs) ← fraction? cs
  let (exponent, cs) ← exponent? cs
  return (⟨negative, whole, fraction, exponent⟩, cs)

def numeral? : List Char → Option (Numeral × List Char)
  | '-' :: cs => unsigned? true cs
  | cs => unsigned? false cs

/-! ## Strings -/

def hexValue? (c : Char) : Option Nat :=
  if '0' ≤ c ∧ c ≤ '9' then some (c.toNat - 48)
  else if 'a' ≤ c ∧ c ≤ 'f' then some (c.toNat - 87)
  else if 'A' ≤ c ∧ c ≤ 'F' then some (c.toNat - 55)
  else none

def hexCode? : List Char → Option (Nat × List Char)
  | a :: b :: c :: d :: rest => do
    let a ← hexValue? a
    let b ← hexValue? b
    let c ← hexValue? c
    let d ← hexValue? d
    return (((a * 16 + b) * 16 + c) * 16 + d, rest)
  | _ => none

/-- The code an escape stands for, the text starting behind its backslash. -/
def escape? : List Char → Option (Nat × List Char)
  | [] => none
  | c :: rest =>
    match c with
    | '"' => some (0x22, rest)
    | '\\' => some (0x5C, rest)
    | '/' => some (0x2F, rest)
    | 'b' => some (8, rest)
    | 'f' => some (12, rest)
    | 'n' => some (10, rest)
    | 'r' => some (13, rest)
    | 't' => some (9, rest)
    | 'u' => hexCode? rest
    | _ => none

theorem hexCode?_length {cs rest : List Char} {n : Nat} (h : hexCode? cs = some (n, rest)) :
    rest.length ≤ cs.length := by
  unfold hexCode? at h
  split at h
  · simp only [Option.bind_eq_bind, Option.bind_eq_some_iff, Option.pure_def,
      Option.some.injEq, Prod.mk.injEq] at h
    obtain ⟨_, _, _, _, _, _, _, _, _, rfl⟩ := h
    simp only [List.length_cons]; omega
  · cases h

theorem escape?_length {cs rest : List Char} {n : Nat} (h : escape? cs = some (n, rest)) :
    rest.length < cs.length + 1 := by
  unfold escape? at h
  split at h
  · cases h
  · rename_i c rest'
    split at h
    case h_9 =>
      have := hexCode?_length h
      simp only [List.length_cons]; omega
    case h_10 => cases h
    all_goals
      simp only [Option.some.injEq, Prod.mk.injEq] at h
      obtain ⟨_, rfl⟩ := h
      simp only [List.length_cons]; omega

/-- The codes of a string up to its closing quote, escapes replaced, and what
follows the quote. A character is its own code; an escape may give half of a pair. -/
def codes? (cs : List Char) : Option (List Nat × List Char) :=
  match cs with
  | [] => none
  | c :: rest =>
    if c = '"' then some ([], rest)
    else if c = '\\' then
      match _h : escape? rest with
      | none => none
      | some (n, rest') => (codes? rest').map fun p => (n :: p.1, p.2)
    else if c.toNat < 32 then none
    else (codes? rest).map fun p => (c.toNat :: p.1, p.2)
termination_by cs.length
decreasing_by
  · exact escape?_length _h
  · simp

/-- The first half of a surrogate pair. -/
def isHighHalf (n : Nat) : Bool := 0xD800 ≤ n && n < 0xDC00

/-- The second half of a surrogate pair. -/
def isLowHalf (n : Nat) : Bool := 0xDC00 ≤ n && n < 0xE000

/-- The characters of a list of codes, pairs joined; `none` if half a pair stands alone. -/
def joinHalves : List Nat → Option (List Char)
  | [] => some []
  | n :: rest =>
    if isLowHalf n then none
    else if isHighHalf n then
      match rest with
      | [] => none
      | m :: rest =>
        if isLowHalf m then
          (joinHalves rest).map (Char.ofNat (0x10000 + (n - 0xD800) * 0x400 + (m - 0xDC00)) :: ·)
        else none
    else (joinHalves rest).map (Char.ofNat n :: ·)

/-! ## Tokens -/

/-- The token at the front of a text that starts with no space. -/
def token? (cs : List Char) : Option (Token × List Char) :=
  match cs with
  | [] => none
  | c :: rest =>
    match c with
    | '[' => some (.openArray, rest)
    | ']' => some (.closeArray, rest)
    | '\x7b' => some (.openObject, rest)
    | '\x7d' => some (.closeObject, rest)
    | ',' => some (.comma, rest)
    | ':' => some (.colon, rest)
    | '"' => (codes? rest).map fun p => (.str ((joinHalves p.1).map String.ofList), p.2)
    | 'n' => ("ull".toList.isPrefixOf? rest).map (Token.null, ·)
    | 't' => ("rue".toList.isPrefixOf? rest).map (Token.bool true, ·)
    | 'f' => ("alse".toList.isPrefixOf? rest).map (Token.bool false, ·)
    | _ => (numeral? (c :: rest)).map fun p => (.num p.1.value?, p.2)

theorem digits?_length {cs ds rest : List Char} (h : digits? cs = some (ds, rest)) :
    rest.length < cs.length := by
  unfold digits? at h
  split at h
  · cases h
  · rename_i hne
    simp only [Option.some.injEq, Prod.mk.injEq] at h
    obtain ⟨_, rfl⟩ := h
    cases cs with
    | nil => exact absurd rfl hne
    | cons c cs =>
      by_cases hd : c.isDigit
      · have hs := (List.dropWhile_suffix (l := cs) Char.isDigit).length_le
        simp only [List.dropWhile_cons, hd, if_true, List.length_cons]
        omega
      · simp [hd] at hne

theorem fraction?_length {cs rest : List Char} {ds : Option (List Char)}
    (h : fraction? cs = some (ds, rest)) : rest.length ≤ cs.length := by
  unfold fraction? at h
  split at h
  · obtain ⟨⟨ds', rest'⟩, hd, heq⟩ := Option.map_eq_some_iff.mp h
    have := digits?_length hd
    cases heq
    simp only [List.length_cons]; omega
  · cases h; exact Nat.le_refl _

theorem exponent?_length {cs rest : List Char} {e : Option Int}
    (h : exponent? cs = some (e, rest)) : rest.length ≤ cs.length := by
  unfold exponent? at h
  split at h
  · cases h; exact Nat.le_refl _
  · split at h
    · split at h <;>
      · obtain ⟨⟨ds', rest'⟩, hd, heq⟩ := Option.map_eq_some_iff.mp h
        have := digits?_length hd
        cases heq
        simp only [List.length_cons] at *; omega
    · cases h; exact Nat.le_refl _

theorem unsigned?_length {cs rest : List Char} {negative : Bool} {x : Numeral}
    (h : unsigned? negative cs = some (x, rest)) : rest.length < cs.length := by
  simp only [unsigned?, Option.bind_eq_bind, Option.bind_eq_some_iff, Option.pure_def,
    Option.some.injEq, Prod.mk.injEq, Prod.exists] at h
  obtain ⟨ds, r1, hw, f, r2, hf, e, r3, he, _, rfl⟩ := h
  simp only [whole?, Option.bind_eq_some_iff, Prod.exists] at hw
  obtain ⟨ds', r1', hd, hw⟩ := hw
  have h1 := digits?_length hd
  have h2 := fraction?_length hf
  have h3 := exponent?_length he
  split at hw
  · cases hw
  · cases hw; omega

theorem numeral?_length {cs rest : List Char} {x : Numeral} (h : numeral? cs = some (x, rest)) :
    rest.length < cs.length := by
  unfold numeral? at h
  split at h
  · have := unsigned?_length h
    simp only [List.length_cons]; omega
  · exact unsigned?_length h

theorem codes?_length {cs rest : List Char} {ns : List Nat} (h : codes? cs = some (ns, rest)) :
    rest.length < cs.length := by
  fun_induction codes? cs generalizing ns with
  | case1 => cases h
  | case2 => cases h; simp
  | case3 => cases h
  | case4 rest' n r he _ ih =>
    obtain ⟨⟨ns', r'⟩, hc, heq⟩ := Option.map_eq_some_iff.mp h
    cases heq
    have h1 := ih hc
    have h2 := escape?_length he
    simp only [List.length_cons] at h1 ⊢
    omega
  | case5 => cases h
  | case6 c rest' _ _ _ ih =>
    obtain ⟨⟨ns', r'⟩, hc, heq⟩ := Option.map_eq_some_iff.mp h
    cases heq
    exact Nat.lt_succ_of_lt (ih hc)

theorem token?_length {cs rest : List Char} {t : Token} (h : token? cs = some (t, rest)) :
    rest.length < cs.length := by
  unfold token? at h
  split at h
  · cases h
  · rename_i c cs'
    split at h
    case h_7 =>
      obtain ⟨⟨ns', r'⟩, hc, heq⟩ := Option.map_eq_some_iff.mp h
      cases heq
      have := codes?_length hc
      simp only [List.length_cons]; omega
    case h_8 | h_9 | h_10 =>
      obtain ⟨r', hc, heq⟩ := Option.map_eq_some_iff.mp h
      cases heq
      have := Text.isPrefixOf?_length hc
      simp only [List.length_cons]; omega
    case h_11 =>
      obtain ⟨⟨ns', r'⟩, hc, heq⟩ := Option.map_eq_some_iff.mp h
      cases heq
      exact numeral?_length hc
    all_goals
      simp only [Option.some.injEq, Prod.mk.injEq] at h
      obtain ⟨_, rfl⟩ := h
      simp

/-- The tokens of a text; `none` if some part of it is no token. -/
def tokens? (cs : List Char) : Option (List Token) :=
  match cs with
  | [] => some []
  | c :: rest =>
    if isSpace c then tokens? rest
    else
      match _h : token? (c :: rest) with
      | none => none
      | some (t, rest') => (tokens? rest').map (t :: ·)
termination_by cs.length
decreasing_by
  · simp
  · exact token?_length _h

end Tandem.Json
