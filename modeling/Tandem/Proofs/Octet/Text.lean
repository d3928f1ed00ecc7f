import Mathlib.Data.List.Infix
import Tandem.Text.Split

/-!
# Octet positions in a text

A scanner may go through a text octet by octet, and take ranges out of it by octet
positions. Such a range is a text only if both its ends are between characters (`slice`),
and a loop that goes on octet by octet may well stop at a position that is not.

* An ASCII character is its own octet, and no octet of another character is ASCII
  (`ofChar_of_isAscii`, `isAscii_eq_false_of_mem`).
* `offset text rest` is the position in front of what is left of a text, and ranges between
  such positions are texts (`slice_offset`).
* A loop that passes over every octet that is not ASCII passes over whole characters, also
  if it starts inside one (`Passes.offset_cons_add_one`).
-/

namespace Tandem.Octet

open Text

/-! ## Octets -/

/-- The UTF-8 octets of a character, each as the character of that code. -/
def ofChar (c : Char) : List Char := (String.utf8EncodeChar c).map fun b => Char.ofNat b.toNat

def encode (cs : List Char) : List Char := cs.flatMap ofChar

def isAscii (c : Char) : Bool := c.toNat < 128

theorem length_ofChar (c : Char) : (ofChar c).length = c.utf8Size := by
  rw [ofChar, List.length_map, String.length_utf8EncodeChar]

theorem ofChar_of_isAscii {c : Char} (hc : isAscii c = true) : ofChar c = [c] := by
  have hlt : c.val.toNat ≤ 127 := Nat.le_of_lt_succ (of_decide_eq_true hc)
  have hcode : (UInt8.ofNat c.val.toNat).toNat = c.toNat := by
    rw [UInt8.toNat_ofNat']
    exact Nat.mod_eq_of_lt (by omega)
  rw [ofChar, String.utf8EncodeChar, if_pos hlt, List.map_singleton, hcode, Char.ofNat_toNat]

theorem isAscii_ofNat {n : Nat} (hlow : 128 ≤ n) (hhigh : n < 256) :
    isAscii (Char.ofNat (UInt8.ofNat n).toNat) = false := by
  have hvalid : n.isValidChar := .inl (by omega)
  rw [UInt8.toNat_ofNat', Nat.mod_eq_of_lt hhigh, isAscii, Char.ofNat, dif_pos hvalid]
  exact decide_eq_false (Nat.not_lt_of_le hlow)

/-- No octet of a character beyond ASCII is an ASCII character. -/
theorem isAscii_eq_false_of_mem {c b : Char} (hc : isAscii c = false) (hb : b ∈ ofChar c) :
    isAscii b = false := by
  have hlt : ¬c.val.toNat ≤ 127 := fun h => of_decide_eq_false hc (Nat.lt_succ_of_le h)
  obtain ⟨u, hu, rfl⟩ := List.mem_map.mp hb
  rw [String.utf8EncodeChar, if_neg hlt] at hu
  -- Whatever the length of the encoding, each octet is some number below 128 or 64 and a mark.
  have hmark : ∃ n, 128 ≤ n ∧ n < 256 ∧ u = UInt8.ofNat n := by
    split at hu
    · simp only [List.mem_cons, List.not_mem_nil, or_false] at hu
      rcases hu with rfl | rfl <;> exact ⟨_, by omega, by omega, rfl⟩
    · split at hu <;> simp only [List.mem_cons, List.not_mem_nil, or_false] at hu
      · rcases hu with rfl | rfl | rfl <;> exact ⟨_, by omega, by omega, rfl⟩
      · rcases hu with rfl | rfl | rfl | rfl <;> exact ⟨_, by omega, by omega, rfl⟩
  obtain ⟨n, hlow, hhigh, rfl⟩ := hmark
  exact isAscii_ofNat hlow hhigh

/-- An ASCII character differs from every octet that is not. -/
theorem ne_of_isAscii {b d : Char} (hb : isAscii b = false) (hd : isAscii d = true) : b ≠ d := by
  rintro rfl
  rw [hb] at hd
  cases hd

/-! ## Lengths and positions -/

theorem octetLength_foldl (n : Nat) (cs : List Char) :
    cs.foldl (fun n c => n + c.utf8Size) n = n + octetLength cs := by
  induction cs generalizing n with
  | nil => rfl
  | cons c cs ih =>
      have hcons : octetLength (c :: cs) = 0 + c.utf8Size + octetLength cs := ih _
      rw [List.foldl_cons, ih, hcons]
      omega

theorem octetLength_nil : octetLength [] = 0 := rfl

theorem octetLength_cons (c : Char) (cs : List Char) :
    octetLength (c :: cs) = c.utf8Size + octetLength cs := by
  rw [octetLength, List.foldl_cons, octetLength_foldl, Nat.zero_add]

theorem octetLength_append (a b : List Char) :
    octetLength (a ++ b) = octetLength a + octetLength b := by
  induction a with
  | nil => rw [List.nil_append, octetLength_nil, Nat.zero_add]
  | cons c a ih => rw [List.cons_append, octetLength_cons, octetLength_cons, ih, Nat.add_assoc]

theorem encode_cons (c : Char) (cs : List Char) : encode (c :: cs) = ofChar c ++ encode cs := rfl

theorem encode_append (a b : List Char) : encode (a ++ b) = encode a ++ encode b :=
  List.flatMap_append

theorem length_encode (cs : List Char) : (encode cs).length = octetLength cs := by
  induction cs with
  | nil => rfl
  | cons c cs ih => rw [encode_cons, List.length_append, length_ofChar, ih, octetLength_cons]

/-- The position in front of what is left of a text. -/
def offset (text rest : List Char) : Nat := octetLength text - octetLength rest

variable {text : List Char}

theorem offset_append (a b : List Char) : offset (a ++ b) b = octetLength a := by
  rw [offset, octetLength_append, Nat.add_sub_cancel]

theorem offset_self (text : List Char) : offset text text = 0 := Nat.sub_self _

theorem offset_nil (text : List Char) : offset text [] = (encode text).length := by
  rw [length_encode, offset, octetLength_nil, Nat.sub_zero]

theorem offset_cons {c : Char} {cs : List Char} (h : c :: cs <:+ text) :
    offset text cs = offset text (c :: cs) + c.utf8Size := by
  obtain ⟨front, rfl⟩ := h
  rw [offset_append, List.append_cons, offset_append, octetLength_append, octetLength_cons,
    octetLength_nil, Nat.add_zero]

theorem utf8Size_of_isAscii {c : Char} (hc : isAscii c = true) : c.utf8Size = 1 := by
  rw [← length_ofChar, ofChar_of_isAscii hc, List.length_singleton]

theorem offset_cons_of_isAscii {c : Char} {cs : List Char} (h : c :: cs <:+ text)
    (hc : isAscii c = true) : offset text (c :: cs) + 1 = offset text cs := by
  rw [offset_cons h, utf8Size_of_isAscii hc]

theorem offset_append_right {front rest : List Char} (h : front ++ rest <:+ text) :
    offset text rest = offset text (front ++ rest) + octetLength front := by
  obtain ⟨before, rfl⟩ := h
  rw [offset_append, ← List.append_assoc, offset_append, octetLength_append]

/-- Less of the text is left behind a later position. -/
theorem offset_lt {a b : List Char} (ha : a <:+ text) (hb : b <:+ a) (hlt : b.length < a.length) :
    offset text a < offset text b := by
  obtain ⟨front, rfl⟩ := hb
  obtain ⟨c, front, rfl⟩ : ∃ c cs, front = c :: cs := by
    refine List.exists_cons_of_ne_nil fun hnil => ?_
    rw [hnil] at hlt
    exact Nat.lt_irrefl _ hlt
  rw [offset_append_right ha, octetLength_cons]
  have := Char.utf8Size_pos c
  omega

theorem offset_le {a b : List Char} (ha : a <:+ text) (hb : b <:+ a) :
    offset text a ≤ offset text b := by
  obtain ⟨front, rfl⟩ := hb
  rw [offset_append_right ha]
  exact Nat.le_add_right _ _

/-- From a position on stand the octets of what is left there. -/
theorem drop_offset {rest : List Char} (h : rest <:+ text) :
    (encode text).drop (offset text rest) = encode rest := by
  obtain ⟨front, rfl⟩ := h
  rw [offset_append, encode_append, ← length_encode, List.drop_left]

theorem offset_lt_length {c : Char} {cs : List Char} (h : c :: cs <:+ text) :
    offset text (c :: cs) < (encode text).length := by
  rw [← offset_nil]
  exact offset_lt h (List.nil_suffix) (by simp)

theorem getElem?_offset_add {rest : List Char} (h : rest <:+ text) (n : Nat) :
    (encode text)[offset text rest + n]? = (encode rest)[n]? := by
  rw [← drop_offset h, List.getElem?_drop]

theorem getElem?_offset {c : Char} {cs : List Char} (h : c :: cs <:+ text)
    (hc : isAscii c = true) : (encode text)[offset text (c :: cs)]? = some c := by
  have hget := getElem?_offset_add h 0
  rw [encode_cons, ofChar_of_isAscii hc] at hget
  exact hget

theorem getElem_offset {c : Char} {cs : List Char} (h : c :: cs <:+ text)
    (hc : isAscii c = true) (hlt : offset text (c :: cs) < (encode text).length) :
    (encode text)[offset text (c :: cs)] = c :=
  Option.some.inj ((List.getElem?_eq_getElem hlt).symm.trans (getElem?_offset h hc))

/-- Where an ASCII octet stands its character stands. -/
theorem exists_suffix_of_getElem? {d : Char} (hd : isAscii d = true) {i : Nat}
    (h : (encode text)[i]? = some d) : ∃ cs, d :: cs <:+ text ∧ offset text (d :: cs) = i := by
  induction text generalizing i with
  | nil => cases h
  | cons c text ih =>
      rw [encode_cons] at h
      by_cases hi : i < (ofChar c).length
      · rw [List.getElem?_append_left hi] at h
        cases hc : isAscii c with
        | true =>
            rw [ofChar_of_isAscii hc] at h hi
            obtain rfl : i = 0 := Nat.lt_one_iff.mp hi
            obtain rfl := Option.some.inj h
            exact ⟨text, List.suffix_refl _, offset_self _⟩
        | false =>
            have hoctet := isAscii_eq_false_of_mem hc (List.mem_of_getElem? h)
            exact absurd rfl (ne_of_isAscii hoctet hd)
      · rw [List.getElem?_append_right (Nat.le_of_not_lt hi)] at h
        obtain ⟨cs, ⟨front, rfl⟩, hoffset⟩ := ih h
        refine ⟨cs, (List.suffix_append front _).trans (List.suffix_cons c _), ?_⟩
        rw [offset_append] at hoffset
        rw [← List.cons_append, offset_append, octetLength_cons, hoffset, ← length_ofChar,
          Nat.add_sub_cancel' (Nat.le_of_not_lt hi)]

/-- What holds of the end of a text, and of what is left in front of a character if it holds
of all that may be left behind it, holds wherever a scan stands. -/
theorem suffix_induction {P : List Char → Prop} (nil : P [])
    (cons : ∀ c cs, c :: cs <:+ text → (∀ rest, rest <:+ cs → P rest) → P (c :: cs))
    {cs : List Char} (h : cs <:+ text) : P cs := by
  induction hlen : cs.length using Nat.strong_induction_on generalizing cs with
  | _ n ih =>
      cases cs with
      | nil => exact nil
      | cons c cs =>
          apply cons c cs h
          intro rest hrest
          have hlt : rest.length < n := hlen ▸ Nat.lt_succ_of_le hrest.length_le
          exact ih rest.length hlt (hrest.trans ((List.suffix_cons c cs).trans h)) rfl

/-! ## Loops that pass over what is not ASCII -/

/-- The loop goes on behind every octet that is not ASCII as it does in front of it. -/
def Passes {α : Type} (text : List Char) (f : Nat → α) : Prop :=
  ∀ i (hi : i < (encode text).length), isAscii (encode text)[i] = false → f i = f (i + 1)

namespace Passes

variable {α : Type} {f : Nat → α} {c : Char} {cs : List Char}

/-- The loop passes over any part of a character that is not ASCII. -/
theorem offset_cons_add (hf : Passes text f) (h : c :: cs <:+ text) (hc : isAscii c = false)
    {n : Nat} (hn : n ≤ c.utf8Size) : f (offset text (c :: cs) + n) = f (offset text cs) := by
  rw [offset_cons h]
  -- The induction is on the octets of the character that are still ahead.
  induction hrest : c.utf8Size - n generalizing n with
  | zero =>
      have hall : n = c.utf8Size := by omega
      rw [hall]
  | succ k ih =>
      have hlt : n < (ofChar c).length := by
        rw [length_ofChar]
        omega
      have hget : (encode text)[offset text (c :: cs) + n]? = some (ofChar c)[n] := by
        rw [getElem?_offset_add h, encode_cons, List.getElem?_append_left hlt,
          List.getElem?_eq_getElem hlt]
      obtain ⟨hbound, hoctet⟩ := List.getElem?_eq_some_iff.mp hget
      have hascii : isAscii (encode text)[offset text (c :: cs) + n] = false := by
        rw [hoctet]
        exact isAscii_eq_false_of_mem hc (List.getElem_mem hlt)
      rw [hf _ hbound hascii, Nat.add_assoc]
      rw [length_ofChar] at hlt
      exact ih hlt (by omega)

theorem offset_cons (hf : Passes text f) (h : c :: cs <:+ text) (hc : isAscii c = false) :
    f (offset text (c :: cs)) = f (offset text cs) :=
  hf.offset_cons_add h hc (Nat.zero_le _)

/-- The octet behind a position may lie inside a character, which the loop passes over. -/
theorem offset_cons_add_one (hf : Passes text f) (h : c :: cs <:+ text) :
    f (offset text (c :: cs) + 1) = f (offset text cs) := by
  cases hc : isAscii c with
  | true => rw [offset_cons_of_isAscii h hc]
  | false => exact hf.offset_cons_add h hc (Char.utf8Size_pos c)

end Passes

/-! ## Ranges -/

/-- Why a scan ends without an answer. -/
inductive Stop where
  /-- What it looks for is not there. -/
  | absent
  /-- A range is no text: its ends are the wrong way round, or one of them is behind the end
  of the text or inside a character. -/
  | badRange (start stop : Nat)
  /-- A count of open blocks, or a position, would become negative. -/
  | uncounted
  /-- A loop would not move on. -/
  | stuck
  deriving DecidableEq

abbrev Scan (α : Type) := Except Stop α

/-- What is behind a position, unless it is inside a character or behind the end. -/
def behind? : List Char → Nat → Option (List Char)
  | cs, 0 => some cs
  | [], _ + 1 => none
  | c :: cs, n + 1 => if c.utf8Size ≤ n + 1 then behind? cs (n + 1 - c.utf8Size) else none

/-- The range of a text between two positions. -/
def slice (text : List Char) (start stop : Nat) : Scan (List Char) :=
  match behind? text start, behind? text stop with
  | some a, some b => if start ≤ stop then .ok (upTo a b) else .error (.badRange start stop)
  | _, _ => .error (.badRange start stop)

theorem behind?_octetLength (front rest : List Char) :
    behind? (front ++ rest) (octetLength front) = some rest := by
  induction front with
  | nil => cases rest <;> rfl
  | cons c front ih =>
      obtain ⟨k, hk⟩ := Nat.exists_eq_add_of_lt (Char.utf8Size_pos c)
      have hsize : octetLength (c :: front) = (k + octetLength front) + 1 := by
        rw [octetLength_cons, hk]
        omega
      have hrest : (k + octetLength front) + 1 - c.utf8Size = octetLength front := by omega
      rw [hsize, List.cons_append, behind?, if_pos (by omega), hrest, ih]

/-- **A position is between characters exactly if the text falls into two there.** -/
theorem behind?_eq_some_iff {cs rest : List Char} {n : Nat} :
    behind? cs n = some rest ↔ ∃ front, cs = front ++ rest ∧ n = octetLength front := by
  constructor
  · intro h
    induction cs generalizing n with
    | nil =>
        cases n with
        | zero => cases h; exact ⟨[], rfl, rfl⟩
        | succ n => cases h
    | cons c cs ih =>
        cases n with
        | zero => cases h; exact ⟨[], rfl, rfl⟩
        | succ n =>
            rw [behind?] at h
            split at h
            next hle =>
              obtain ⟨front, rfl, hn⟩ := ih h
              refine ⟨c :: front, rfl, ?_⟩
              rw [octetLength_cons]
              omega
            next => cases h
  · rintro ⟨front, rfl, rfl⟩
    exact behind?_octetLength front rest

theorem behind?_offset {rest : List Char} (h : rest <:+ text) :
    behind? text (offset text rest) = some rest := by
  obtain ⟨front, rfl⟩ := h
  rw [offset_append, behind?_octetLength]

theorem slice_offset {a b : List Char} (ha : a <:+ text) (hb : b <:+ a) :
    slice text (offset text a) (offset text b) = .ok (upTo a b) := by
  rw [slice, behind?_offset ha, behind?_offset (hb.trans ha)]
  simp only
  rw [if_pos (offset_le ha hb)]

/-- The range up to the end is all that is left of the text. -/
theorem slice_offset_length {rest : List Char} (h : rest <:+ text) :
    slice text (offset text rest) (encode text).length = .ok rest := by
  rw [← offset_nil, slice_offset h List.nil_suffix, upTo, List.length_nil, Nat.sub_zero,
    List.take_length]

/-- Of two texts at the front of a text, the shorter one is at the front of the other. -/
theorem prefix_of_octetLength_le {a b : List Char} (ha : a <+: text) (hb : b <+: text)
    (hle : octetLength a ≤ octetLength b) : a <+: b := by
  rcases List.prefix_or_prefix_of_prefix ha hb with h | ⟨tail, rfl⟩
  · exact h
  · cases tail with
    | nil => rw [List.append_nil]
    | cons c cs =>
        rw [octetLength_append, octetLength_cons] at hle
        have := Char.utf8Size_pos c
        omega

/-- **A range is a text exactly if its ends are positions between characters and the first
is not behind the second**, and then it is what stands between them. -/
theorem slice_eq_ok_iff {start stop : Nat} {range : List Char} :
    slice text start stop = .ok range ↔
      ∃ front rest, text = front ++ (range ++ rest) ∧ start = octetLength front ∧
        stop = octetLength (front ++ range) := by
  have hupTo : ∀ a b : List Char, upTo (a ++ b) b = a := fun a b => by simp [upTo]
  constructor
  · intro h
    rw [slice] at h
    split at h
    next a b hstart hstop =>
      split at h
      next hle =>
        cases h
        obtain ⟨front, rfl, rfl⟩ := behind?_eq_some_iff.mp hstart
        obtain ⟨front', htext, rfl⟩ := behind?_eq_some_iff.mp hstop
        obtain ⟨range, rfl⟩ := prefix_of_octetLength_le (List.prefix_append front a)
          (htext ▸ List.prefix_append front' b) hle
        rw [List.append_assoc] at htext
        obtain rfl := List.append_cancel_left htext
        rw [hupTo]
        exact ⟨front, b, rfl, rfl, rfl⟩
      next => cases h
    next => cases h
  · rintro ⟨front, rest, rfl, rfl, rfl⟩
    have hslice := slice_offset (List.suffix_append front (range ++ rest))
      (List.suffix_append range rest)
    rw [hupTo, offset_append, ← List.append_assoc, offset_append] at hslice
    rw [← List.append_assoc]
    exact hslice

end Tandem.Octet
