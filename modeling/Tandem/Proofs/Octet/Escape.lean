import Tandem.Proofs.Octet.Block
import Tandem.Proofs.Source.Outline
import Tandem.Proofs.Source.StyleBlock

/-!
# Escaped text is inert

What is written with references is read back (`IsEscape.decode`), and none of the characters
that it replaces is left. So escaped text means nothing to the scanners:

* **tags** — none starts at an octet of it, whatever stands around it
  (`tagStart_eq_false_inside`);
* **style headers** — they have a brace, so there is none in it
  (`not_isInfix_of_unmarked`);
* **blocks** — one around it ends at its own brace (`findBlockEnd_around`).
-/

namespace Tandem.Octet

open Text Markup Source

/-! ## Characters that are replaced -/

/-- An escaped value has no quote and no angle bracket in it. -/
theorem not_mem_escapeAttribute {d : Char} (hd : d = '"' ∨ d = '\'' ∨ d = '<' ∨ d = '>')
    (cs : List Char) : d ∉ escapeAttribute cs := by
  refine isEscape_attributeReference.not_mem ?_ ?_ cs
  · rcases hd with rfl | rfl | rfl | rfl <;> decide
  · rcases hd with rfl | rfl | rfl | rfl <;> decide

/-! ## Tags -/

/-- An ASCII octet belongs to a character of its own. -/
theorem mem_of_mem_encode {d : Char} (hd : isAscii d = true) {cs : List Char}
    (h : d ∈ encode cs) : d ∈ cs := by
  obtain ⟨c, hc, hmem⟩ := List.mem_flatMap.mp h
  cases hascii : isAscii c with
  | true =>
      rw [ofChar_of_isAscii hascii, List.mem_singleton] at hmem
      exact hmem ▸ hc
  | false => exact absurd rfl (ne_of_isAscii (isAscii_eq_false_of_mem hascii hmem) hd)

/-- The octet at a position inside a part of a text is one of that part. -/
theorem mem_encode_of_getElem? {front middle rest : List Char} {i : Nat} {b : Char}
    (hfront : octetLength front ≤ i) (hmiddle : i < octetLength (front ++ middle))
    (h : (encode (front ++ (middle ++ rest)))[i]? = some b) : b ∈ encode middle := by
  rw [octetLength_append] at hmiddle
  rw [encode_append, encode_append, List.getElem?_append_right (by rwa [length_encode]),
    List.getElem?_append_left (by rw [length_encode, length_encode]; omega)] at h
  exact List.mem_of_getElem? h

/-- No tag starts inside a part of a text that has no angle bracket. -/
theorem tagStart_eq_false_inside {front middle rest : List Char} (hmiddle : '<' ∉ middle)
    {i : Nat} (hfirst : octetLength front ≤ i) (hlast : i < octetLength (front ++ middle)) :
    isTagStart (front ++ (middle ++ rest)) i = false ∧
      isClosingTagStart (front ++ (middle ++ rest)) i = false := by
  have hne : ((encode (front ++ (middle ++ rest)))[i]? == some '<') = false := by
    rw [beq_eq_false_iff_ne]
    intro h
    exact hmiddle (mem_of_mem_encode (by decide) (mem_encode_of_getElem? hfirst hlast h))
  rw [isTagStart, isClosingTagStart, hne]
  exact ⟨Bool.false_and _, by rw [Bool.false_and, Bool.false_and]⟩

/-! ## Style headers and blocks -/

theorem not_isInfix_of_unmarked {header cs : List Char} (hheader : StyleHeader header)
    (hcs : Unmarked cs) : ¬header <:+: cs := by
  intro h
  obtain ⟨front, rfl, _⟩ := hheader.eq_append
  have hbrace : '\x7b' ∈ cs := h.subset (by simp)
  exact (hcs _ hbrace).2.1 rfl

theorem pieces_of_unmarked {cs : List Char} (hcs : Unmarked cs) : pieces cs = cs.map .mark := by
  have hpieces := pieces_marks (ne_of_unmarked hcs) []
  rwa [List.append_nil, pieces_nil, List.append_nil] at hpieces

/-- A block around a text without braces and tags ends at the brace behind it. -/
theorem findBlockEnd_around {cs : List Char} (hcs : Unmarked cs) :
    findBlockEnd ('\x7b' :: (cs ++ ['\x7d'])) 0 =
      .ok ((encode ('\x7b' :: (cs ++ ['\x7d']))).length - 1) := by
  have hpieces : pieces (cs ++ ['\x7d']) = cs.map .mark ++ [.mark '\x7d'] := by
    rw [pieces_marks (ne_of_unmarked hcs), pieces_cons (by decide), pieces_nil]
  have hblock : blockRest? 0 (pieces (cs ++ ['\x7d'])) = some [] := by
    rw [blockRest?, hpieces, (noBrace_of_unmarked hcs).nested.splitBlock_close]
    rfl
  have hend := findBlockEnd_offset (List.suffix_refl ('\x7b' :: (cs ++ ['\x7d'])))
  rw [offset_self, hblock] at hend
  rw [hend, ← offset_nil]
  rfl

/-! ## Escaped text -/

/-- **Escaping loses nothing, and escaped text means nothing to the scanners.** References are
read back as what they stand for. None of the characters that are replaced is left, so wherever
escaped text is written, no tag starts in it; it has no style header, and a block around it ends
at its own brace. -/
theorem escaping_lossless_and_inert (cs : List Char) :
    (decode (escapeAttribute cs) = cs ∧ decode (escapeText cs) = cs) ∧
    (∀ d, d = '"' ∨ d = '\'' ∨ d = '<' ∨ d = '>' → d ∉ escapeAttribute cs) ∧
    (∀ d, d = '<' ∨ d = '>' ∨ d = '\x7b' ∨ d = '\x7d' → d ∉ escapeText cs) ∧
    (∀ front rest i, octetLength front ≤ i → i < octetLength (front ++ escapeText cs) →
      isTagStart (front ++ (escapeText cs ++ rest)) i = false ∧
        isClosingTagStart (front ++ (escapeText cs ++ rest)) i = false) ∧
    ((∀ header, StyleHeader header → ¬header <:+: escapeText cs) ∧
      findStyle false (pieces (escapeText cs)) = none) ∧
    findBlockEnd ('\x7b' :: (escapeText cs ++ ['\x7d'])) 0 =
      .ok ((encode ('\x7b' :: (escapeText cs ++ ['\x7d']))).length - 1) := by
  have hplain := unmarked_escapeText cs
  have hbrace : .mark '\x7b' ∉ (escapeText cs).map Piece.mark := fun h =>
    (noBrace_of_unmarked hplain _ h).1 rfl
  refine ⟨⟨decode_escapeAttribute cs, decode_escapeText cs⟩, ?_, ?_, ?_, ⟨?_, ?_⟩, ?_⟩
  · exact fun d hd => not_mem_escapeAttribute hd cs
  · exact fun d hd => not_mem_escapeText hd cs
  · intro front rest i hfirst hlast
    exact tagStart_eq_false_inside (not_mem_escapeText (.inl rfl) cs) hfirst hlast
  · exact fun header hheader => not_isInfix_of_unmarked hheader hplain
  · rw [pieces_of_unmarked hplain]
    exact findStyle_eq_none hbrace false
  · exact findBlockEnd_around hplain

/-- A text that looks like references already comes back as it was, and no tag starts where it
is written between tags. -/
theorem escaping_lossless_and_inert_of_references :
    let cs := "&lt;b&gt; &amp;amp; &#123;".toList
    decode (escapeText cs) = cs ∧ decode (escapeAttribute cs) = cs ∧
      isTagStart ("<p>".toList ++ (escapeText cs ++ "</p>".toList)) 3 = false := by
  intro cs
  obtain ⟨⟨hattribute, htext⟩, _, _, htags, _⟩ := escaping_lossless_and_inert cs
  exact ⟨htext, hattribute, (htags "<p>".toList "</p>".toList 3 (by decide) (by decide)).1⟩

end Tandem.Octet
