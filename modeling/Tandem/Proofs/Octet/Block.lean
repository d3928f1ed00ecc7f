import Tandem.Proofs.Octet.Bracket

/-!
# Blocks by octet positions

A scan over markup that steps over whole tags steps over the pieces of the text: a block
ends at the piece that closes it (`findBlockEnd_offset`), and a position is outside tags if
it is between pieces or there is no tag around it (`outsideTags_offset`).
-/

namespace Tandem.Octet

open Text Markup

variable {text : List Char}

theorem optional_answer {α β : Type} (f : α → β) (o : Option α) :
    optional (answer f o) = .ok (o.map f) := by
  cases o <;> rfl

/-! ## Where tags start -/

theorem isAscii_of_isAlpha {c : Char} (h : c.isAlpha = true) : isAscii c = true := by
  have hle : c.toNat ≤ 'z'.toNat := by
    rcases Bool.or_eq_true_iff.mp h with h | h
    · obtain ⟨_, hupper⟩ := of_decide_eq_true h
      exact Nat.le_trans (UInt32.le_iff_toNat_le.mp hupper) (by decide)
    · obtain ⟨_, hlower⟩ := Bool.and_eq_true_iff.mp h
      exact UInt32.le_iff_toNat_le.mp (of_decide_eq_true hlower)
  exact decide_eq_true (Nat.lt_of_le_of_lt hle (by decide))

theorem head?_ne_some {c d : Char} (h : c ≠ d) : (some c == some d) = false := by simpa using h

theorem isTagStart_offset {cs : List Char} (h : cs <:+ text) :
    isTagStart text (offset text cs) = startsElement cs := by
  rw [isTagStart, beq_offset h (by decide)]
  cases cs with
  | nil => rfl
  | cons c cs =>
      by_cases hc : c = '<'
      · subst hc
        rw [offset_cons_of_isAscii h (by decide),
          any_offset (fun _ => isAscii_of_isAlpha) (suffix_of_cons h), List.head?_cons,
          beq_self_eq_true, Bool.true_and]
        cases cs <;> rfl
      · rw [List.head?_cons, head?_ne_some hc, Bool.false_and, startsElement_of_ne hc]

/-- A closing tag starts here. -/
def startsClosing : List Char → Bool
  | '<' :: '/' :: c :: _ => c.isAlpha
  | _ => false

theorem startsClosing_of_ne {c : Char} (hc : c ≠ '<') (rest : List Char) :
    startsClosing (c :: rest) = false := by
  rw [startsClosing.eq_def]
  split
  next heq => cases heq; exact absurd rfl hc
  next => rfl

theorem startsClosing_of_ne_slash {c : Char} (hc : c ≠ '/') (rest : List Char) :
    startsClosing ('<' :: c :: rest) = false := by
  rw [startsClosing.eq_def]
  split
  next heq => cases heq; exact absurd rfl hc
  next => rfl

theorem startsTag_eq_or (cs : List Char) :
    startsTag cs = (startsElement cs || startsClosing cs) := by
  have hslash : '/'.isAlpha = false := by decide
  cases cs with
  | nil => rfl
  | cons c cs =>
      by_cases hc : c = '<'
      · subst hc
        cases cs with
        | nil => rfl
        | cons d cs =>
            by_cases hd : d = '/'
            · subst hd
              cases cs with
              | nil => rfl
              | cons e cs => simp [startsTag, startsElement, startsClosing, hslash]
            · rw [startsClosing_of_ne_slash hd, Bool.or_false, startsTag.eq_def]
              split
              next heq => cases heq; exact absurd rfl hd
              next heq => cases heq; rfl
              next hnot => exact absurd rfl (hnot d cs)
      · rw [startsElement_of_ne hc, startsClosing_of_ne hc, startsTag.eq_def]
        split
        next heq => cases heq; exact absurd rfl hc
        next heq => cases heq; exact absurd rfl hc
        next => rfl

theorem isClosingTagStart_offset {cs : List Char} (h : cs <:+ text) :
    isClosingTagStart text (offset text cs) = startsClosing cs := by
  rw [isClosingTagStart, beq_offset h (by decide)]
  cases cs with
  | nil => rfl
  | cons c cs =>
      by_cases hc : c = '<'
      · subst hc
        have hone := offset_cons_of_isAscii h (by decide)
        have hcs := suffix_of_cons h
        have htwo : offset text ('<' :: cs) + 2 = offset text cs + 1 := by rw [← hone]
        rw [hone, htwo, beq_offset hcs (by decide), List.head?_cons, beq_self_eq_true,
          Bool.true_and]
        cases cs with
        | nil => rfl
        | cons d cs =>
            by_cases hd : d = '/'
            · subst hd
              rw [offset_cons_of_isAscii hcs (by decide),
                any_offset (fun _ => isAscii_of_isAlpha) (suffix_of_cons hcs), List.head?_cons,
                beq_self_eq_true, Bool.true_and]
              cases cs <;> rfl
            · rw [List.head?_cons, head?_ne_some hd, Bool.false_and, startsClosing_of_ne_slash hd]
      · rw [List.head?_cons, head?_ne_some hc, Bool.false_and, Bool.false_and,
          startsClosing_of_ne hc]

/-- A tag is stepped over exactly if one starts here and is closed. -/
theorem tagEndAt_offset {cs : List Char} (h : cs <:+ text) :
    tagEndAt text (offset text cs) = .ok ((tagRest? cs).map (offset text)) := by
  rw [tagEndAt, isTagStart_offset h, isClosingTagStart_offset h, ← startsTag_eq_or, tagRest?]
  split
  next hstart =>
    have hcons : ∃ tail, cs = '<' :: tail := by
      obtain ⟨c, rest, _, rfl | rfl⟩ := startsTag_eq_true hstart <;> exact ⟨_, rfl⟩
    obtain ⟨tail, rfl⟩ := hcons
    rw [offset_cons_of_isAscii h (by decide), tagEnd_offset (suffix_of_cons h), optional_answer]
    rfl
  next => rfl

theorem tagEndAt_of_isAscii_eq_false {i : Nat} (hi : i < (encode text).length)
    (h : isAscii (encode text)[i] = false) : tagEndAt text i = .ok none := by
  have hne : ((encode text)[i]? == some '<') = false := by
    rw [List.getElem?_eq_getElem hi]
    exact head?_ne_some (ne_of_isAscii h (by decide))
  rw [tagEndAt, isTagStart, isClosingTagStart, hne, Bool.false_and, Bool.false_and, Bool.false_and,
    Bool.or_false, if_neg Bool.false_ne_true]

theorem suffix_of_tagRest? {c : Char} {cs rest : List Char} (h : tagRest? (c :: cs) = some rest) :
    rest <:+ cs := by
  obtain ⟨front, hcs, hfront⟩ := tagRest?_split h
  cases front with
  | nil => cases hfront
  | cons d front => exact ⟨front, (List.cons.inj hcs).2.symm⟩

/-! ## Where blocks end -/

theorem passes_blockEnd (depth : Nat) : Passes text (blockEnd text depth) := by
  intro i hi hascii
  rw [blockEnd, dif_pos hi, tagEndAt_of_isAscii_eq_false hi hascii]
  show (if (encode text)[i] = '\x7b' then _ else if (encode text)[i] = '\x7d' then _ else _) = _
  rw [if_neg (ne_of_isAscii hascii (by decide)), if_neg (ne_of_isAscii hascii (by decide))]

/-- The text behind the piece that closes a block. -/
def blockRest? (depth : Nat) (ps : List Piece) : Option (List Char) :=
  (splitBlock depth ps).map fun s => textOf s.2

theorem blockRest?_cons {p : Piece} (hp : p ≠ .mark '\x7d') (depth : Nat) (ps : List Piece) :
    blockRest? depth (p :: ps) = blockRest? (if p = .mark '\x7b' then depth + 1 else depth) ps := by
  rw [blockRest?, splitBlock_cons hp, Option.map_map]
  rfl

theorem blockRest?_close (depth : Nat) (ps : List Piece) :
    blockRest? depth (.mark '\x7d' :: ps) =
      if depth = 0 then some (textOf ps) else blockRest? (depth - 1) ps := by
  cases depth with
  | zero => rfl
  | succ d =>
      rw [blockRest?, splitBlock_close_succ, Option.map_map]
      rfl

/-- From here on, the end of a block is found by octets as it is among the pieces. -/
def ScansBlock (text cs : List Char) : Prop :=
  ∀ depth, blockEnd text (depth + 1) (offset text cs) =
    foundBefore text (blockRest? depth (pieces cs))

section

variable {c : Char} {cs : List Char}

theorem scansBlock_nil : ScansBlock text [] := by
  intro depth
  rw [offset_nil, blockEnd, dif_neg (Nat.lt_irrefl _), pieces_nil, blockRest?, splitBlock_nil]
  rfl

/-- A tag is stepped over. -/
theorem scansBlock_tag {front rest : List Char} (h : c :: cs <:+ text)
    (htag : tagRest? (c :: cs) = some rest) (heq : pieces (c :: cs) = .tag front :: pieces rest)
    (hrest : ScansBlock text rest) : ScansBlock text (c :: cs) := by
  intro depth
  have hmark : ∀ d, Piece.tag front ≠ .mark d := fun _ hmark => by cases hmark
  rw [blockEnd, dif_pos (offset_lt_length h), tagEndAt_offset h, htag, heq,
    blockRest?_cons (hmark _), if_neg (hmark _)]
  show (if offset text (c :: cs) < offset text rest then
    blockEnd text (depth + 1) (offset text rest) else .error .stuck) = _
  rw [if_pos (offset_pos h (suffix_of_tagRest? htag)), hrest]

/-- What the scan does at an octet at which no tag starts. -/
theorem blockEnd_mark (h : c :: cs <:+ text) (hnone : tagRest? (c :: cs) = none)
    (hascii : isAscii c = true) (depth : Nat) :
    blockEnd text (depth + 1) (offset text (c :: cs)) =
      if c = '\x7b' then blockEnd text (depth + 1 + 1) (offset text cs)
      else if c = '\x7d' then
        if depth = 0 then .ok (offset text (c :: cs)) else blockEnd text depth (offset text cs)
      else blockEnd text (depth + 1) (offset text cs) := by
  rw [blockEnd, dif_pos (offset_lt_length h), tagEndAt_offset h, hnone, getElem_offset h hascii,
    offset_cons_of_isAscii h hascii]
  rfl

theorem blockEnd_close (h : '\x7d' :: cs <:+ text) (hnone : tagRest? ('\x7d' :: cs) = none)
    (hcs : ScansBlock text cs) (depth : Nat) :
    blockEnd text (depth + 1) (offset text ('\x7d' :: cs)) =
      foundBefore text (blockRest? depth (.mark '\x7d' :: pieces cs)) := by
  rw [blockEnd_mark h hnone (by decide), if_neg (by decide), if_pos rfl, blockRest?_close]
  cases depth with
  | zero =>
      have hbefore : offset text ('\x7d' :: cs) = offset text cs - 1 := by
        rw [← offset_cons_of_isAscii h (by decide), Nat.add_sub_cancel]
      rw [if_pos rfl, if_pos rfl, textOf_pieces, hbefore]
      rfl
  | succ d =>
      rw [if_neg (Nat.succ_ne_zero d), if_neg (Nat.succ_ne_zero d), hcs]
      rfl

/-- A character is no tag of its own, and a brace is counted. -/
theorem scansBlock_mark (h : c :: cs <:+ text) (hnone : tagRest? (c :: cs) = none)
    (heq : pieces (c :: cs) = .mark c :: pieces cs) (hcs : ScansBlock text cs) :
    ScansBlock text (c :: cs) := by
  intro depth
  have hmark : ∀ {d : Char}, c ≠ d → Piece.mark c ≠ .mark d := fun hne hmark =>
    hne (Piece.mark.inj hmark)
  rw [heq]
  by_cases hopen : c = '\x7b'
  · subst hopen
    rw [blockEnd_mark h hnone (by decide), if_pos rfl, hcs, blockRest?_cons (by decide), if_pos rfl]
  by_cases hclose : c = '\x7d'
  · subst hclose
    exact blockEnd_close h hnone hcs depth
  rw [blockRest?_cons (hmark hclose), if_neg (hmark hopen), ← hcs]
  cases hascii : isAscii c with
  | true => rw [blockEnd_mark h hnone hascii, if_neg hopen, if_neg hclose]
  | false => exact (passes_blockEnd (depth + 1)).offset_cons h hascii

end

theorem scansBlock {cs : List Char} (h : cs <:+ text) : ScansBlock text cs := by
  refine suffix_induction scansBlock_nil ?_ h
  intro c cs h hcs
  rcases pieces_cases c cs with ⟨front, rest, htext, hfront, heq⟩ | ⟨hnone, heq⟩
  · have htag : tagRest? (c :: cs) = some rest := by
      rw [htext]
      exact tagRest?_append hfront rest
    exact scansBlock_tag h htag heq (hcs rest (suffix_of_tagRest? htag))
  · exact scansBlock_mark h hnone heq (hcs cs (List.suffix_refl cs))

/-- **A block ends at the piece that closes it**, and its braces are never counted below
zero. -/
theorem findBlockEnd_offset {cs : List Char} (h : '\x7b' :: cs <:+ text) :
    findBlockEnd text (offset text ('\x7b' :: cs)) =
      foundBefore text (blockRest? 0 (pieces cs)) := by
  have hnone : tagRest? ('\x7b' :: cs) = none := by rw [tagRest?]; rfl
  rw [findBlockEnd, getElem?_offset h (by decide), if_pos rfl, blockEnd,
    dif_pos (offset_lt_length h), tagEndAt_offset h, hnone, getElem_offset h (by decide),
    offset_cons_of_isAscii h (by decide)]
  exact scansBlock (suffix_of_cons h) 0

/-- What is inside a block is the range between its braces. -/
theorem slice_block {cs : List Char} {inside after : List Piece} (h : '\x7b' :: cs <:+ text)
    (hsplit : splitBlock 0 (pieces cs) = some (inside, after)) :
    slice text (offset text ('\x7b' :: cs) + 1) (offset text (textOf after) - 1) =
        .ok (textOf inside) ∧
      slice text (offset text (textOf after) - 1 + 1) (encode text).length =
        .ok (textOf after) := by
  have htext : cs = textOf inside ++ '\x7d' :: textOf after := by
    rw [← textOf_pieces cs, splitBlock_eq_append hsplit, textOf_append]
    rfl
  have hcs := suffix_of_cons h
  have hclose : '\x7d' :: textOf after <:+ cs := ⟨textOf inside, htext.symm⟩
  have hone := offset_cons_of_isAscii (hclose.trans hcs) (by decide)
  have hbefore : offset text (textOf after) - 1 = offset text ('\x7d' :: textOf after) := by
    rw [← hone, Nat.add_sub_cancel]
  have hupTo : upTo cs ('\x7d' :: textOf after) = textOf inside := by
    rw [htext, upTo_append]
  rw [hbefore, hone, offset_cons_of_isAscii h (by decide), slice_offset hcs hclose, hupTo]
  exact ⟨rfl, slice_offset_length (suffix_of_cons (hclose.trans hcs))⟩

/-! ## Positions outside tags -/

/-- Of two suffixes of a text, the one at the later position is shorter. -/
theorem offset_lt_iff {a b : List Char} (ha : a <:+ text) (hb : b <:+ text) :
    offset text a < offset text b ↔ b.length < a.length := by
  constructor
  · intro hlt
    rcases Nat.lt_or_ge b.length a.length with h | h
    · exact h
    · exact absurd hlt (Nat.not_lt_of_le
        (offset_le hb (List.suffix_of_suffix_length_le ha hb h)))
  · intro hlt
    exact offset_lt ha (List.suffix_of_suffix_length_le hb ha (Nat.le_of_lt hlt)) hlt

theorem passes_outsideTags (position : Nat) : Passes text (outsideTags text position) := by
  intro i hi hascii
  by_cases hlt : i < position
  · rw [outsideTags, if_pos hlt, tagEndAt_of_isAscii_eq_false hi hascii]
    rfl
  · have hlt' : ¬i + 1 < position := fun h => hlt (Nat.lt_of_succ_lt h)
    rw [outsideTags, if_neg hlt, outsideTags, if_neg hlt']

/-- From here on, a position is outside tags by octets as it is among the pieces. -/
def ScansOutside (text front rest : List Char) : Prop :=
  outsideTags text (offset text rest) (offset text (front ++ rest)) =
    .ok (isOutside front.length (pieces (front ++ rest)))

section

variable {c : Char} {front rest : List Char}

theorem scansOutside_nil (text rest : List Char) : ScansOutside text [] rest := by
  have hout : ∀ ps, isOutside 0 ps = true := fun ps => by cases ps <;> rfl
  rw [ScansOutside, outsideTags, List.nil_append, if_neg (Nat.lt_irrefl _), List.length_nil, hout]

/-- A position inside a tag is not outside, and one behind it is looked for from there. -/
theorem scansOutside_tag {tag after : List Char} (h : c :: (front ++ rest) <:+ text)
    (hcs : c :: (front ++ rest) = tag ++ after)
    (htag : tagRest? (c :: (front ++ rest)) = some after)
    (heq : pieces (c :: (front ++ rest)) = .tag tag :: pieces after)
    (hbehind : ∀ behind, after = behind ++ rest → ScansOutside text behind rest) :
    ScansOutside text (c :: front) rest := by
  have hrest : rest <:+ text := (List.suffix_append (c :: front) rest).trans h
  have hafter : after <:+ text := (suffix_of_tagRest? htag).trans (suffix_of_cons h)
  have hlength : (c :: front).length + rest.length = tag.length + after.length := by
    rw [← List.length_append, ← List.length_append, ← hcs, List.cons_append]
  rw [ScansOutside, List.cons_append, outsideTags,
    if_pos (offset_pos h (List.suffix_append front rest)), tagEndAt_offset h, htag, heq, isOutside,
    if_neg (List.cons_ne_nil c front ∘ List.length_eq_zero_iff.mp)]
  show (if offset text rest < offset text after then .ok false
    else if offset text (c :: (front ++ rest)) < offset text after then
      outsideTags text (offset text rest) (offset text after) else .error .stuck) =
    .ok (if (c :: front).length < tag.length then false
      else isOutside ((c :: front).length - tag.length) (pieces after))
  by_cases hin : (c :: front).length < tag.length
  · have hlt : after.length < rest.length := by omega
    rw [if_pos hin, if_pos ((offset_lt_iff hrest hafter).mpr hlt)]
  · have hle : rest.length ≤ after.length := by omega
    obtain ⟨behind, rfl⟩ := List.suffix_of_suffix_length_le
      (List.suffix_append (c :: front) rest) ⟨tag, hcs.symm⟩ hle
    have hposition : (c :: front).length - tag.length = behind.length := by
      rw [List.length_append] at hlength
      omega
    rw [if_neg hin, if_neg (fun hlt => absurd ((offset_lt_iff hrest hafter).mp hlt) (by omega)),
      if_pos (offset_pos h (suffix_of_tagRest? htag)), hposition]
    exact hbehind behind rfl

theorem scansOutside_mark (h : c :: (front ++ rest) <:+ text)
    (hnone : tagRest? (c :: (front ++ rest)) = none)
    (heq : pieces (c :: (front ++ rest)) = .mark c :: pieces (front ++ rest))
    (hfront : ScansOutside text front rest) : ScansOutside text (c :: front) rest := by
  rw [ScansOutside, List.cons_append, outsideTags,
    if_pos (offset_pos h (List.suffix_append front rest)), tagEndAt_offset h, hnone, heq,
    isOutside, if_neg (List.cons_ne_nil c front ∘ List.length_eq_zero_iff.mp)]
  show outsideTags text (offset text rest) (offset text (c :: (front ++ rest)) + 1) =
    .ok (if (c :: front).length < 1 then false
      else isOutside ((c :: front).length - 1) (pieces (front ++ rest)))
  -- The next octet may be inside the character, and the octets up to its end are passed over.
  rw [(passes_outsideTags (offset text rest)).offset_cons_add_one h, if_neg (by simp),
    List.length_cons, Nat.add_sub_cancel]
  exact hfront

end

/-- **The position in front of what is left of a text is outside tags** exactly if the
pieces say so. -/
theorem outsideTags_offset {front rest : List Char} (h : front ++ rest <:+ text) :
    outsideTags text (offset text rest) (offset text (front ++ rest)) =
      .ok (isOutside front.length (pieces (front ++ rest))) := by
  induction hlen : front.length using Nat.strong_induction_on generalizing front with
  | _ n ih =>
      subst hlen
      cases front with
      | nil => exact scansOutside_nil text rest
      | cons c front =>
          rw [List.cons_append] at h
          rcases pieces_cases c (front ++ rest) with ⟨tag, after, hcs, htag, heq⟩ | ⟨hnone, heq⟩
          · have hsome : tagRest? (c :: (front ++ rest)) = some after := by
              rw [hcs]
              exact tagRest?_append htag after
            refine scansOutside_tag h hcs hsome heq fun behind hbehind => ?_
            have hafter := suffix_of_tagRest? hsome
            have hlength := hafter.length_le
            rw [hbehind, List.length_append, List.length_append] at hlength
            rw [hbehind] at hafter
            exact ih behind.length (by rw [List.length_cons]; omega)
              (hafter.trans (suffix_of_cons h)) rfl
          · exact scansOutside_mark h hnone heq
              (ih front.length (Nat.lt_succ_self _) (suffix_of_cons h) rfl)

end Tandem.Octet
