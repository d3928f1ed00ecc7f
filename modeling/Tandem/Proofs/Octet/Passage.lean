import Tandem.Proofs.Markup.Passage
import Tandem.Proofs.Octet.Element

/-!
# Printed markup by octet positions

The scanners look for tags in the octets of a text and count open elements by name. In printed
markup they find what was printed, however elements of one name, of names that start alike, and
tags inside quoted values are nested:

* **an opening tag** — `openTag_append`: it is read where it stands, and ends where it ends;
* **a closing tag** — `findClosing_append`: behind markup in which the search passes over
  everything, the closing tag is the next one;
* **all of it** — `printed_elements_are_found`.
-/

namespace Tandem.Octet

open Text Markup Passage

/-- A text that is read as a tag is read so at its position in any other text. -/
theorem openTag_append {t : Tag} {head : List Char} (hhead : ReadsTag t head)
    (front rest : List Char) :
    openTag (front ++ (head ++ rest)) (octetLength front) =
      .ok (t, octetLength (front ++ head)) := by
  have hsuffix : head ++ rest <:+ front ++ (head ++ rest) := List.suffix_append _ _
  rw [← offset_append front (head ++ rest), openTag_offset hsuffix, hhead rest,
    ← List.append_assoc, ← offset_append (front ++ head) rest]
  rfl

/-- From markup that the search passes over, the closing tag behind it is found. -/
theorem findClosing_append {name inner gap : List Char} (hname : isTagName name = true)
    (hgap : ∀ c ∈ gap, isSpacing c = true) (hinner : Balanced name inner)
    (front rest : List Char) :
    findClosing (front ++ (inner ++ (closingText name gap ++ rest))) name 1 (octetLength front) =
      .ok (octetLength (front ++ inner), octetLength (front ++ inner ++ closingText name gap)) := by
  have hsuffix : inner ++ (closingText name gap ++ rest) <:+
      front ++ (inner ++ (closingText name gap ++ rest)) := List.suffix_append _ _
  rw [← offset_append front (inner ++ (closingText name gap ++ rest)),
    findClosing_offset hname hsuffix 0, hinner.findClosing?_eq hname hgap, ← List.append_assoc,
    ← offset_append (front ++ inner) (closingText name gap ++ rest), ← List.append_assoc,
    ← offset_append (front ++ inner ++ closingText name gap) rest]
  rfl

/-- **What is printed is found.** In the text of any passages the scan finds the elements among
them, in order, each with its own tag and attributes and with what was printed between its tags,
trimmed; read to the bottom they are the elements that were printed. And of every element with two
tags, at any depth, the opening tag is read where it stands, and from its end on the search for a
closing tag finds the element's own. -/
theorem printed_elements_are_found (ps : List Passage) :
    fragments (printAll ps) = ps.filterMap fragment? ∧
    elements (printAll ps) 0 = .ok (ps.filterMap fragment?) ∧
    Element.readAll (printAll ps) = Passage.elements ps ∧
    ∀ tag inner gap front rest, Stands (.pair tag inner gap) ps front rest →
      printAll ps = front ++ tag.text false ++ printAll inner ++
        closingText tag.name gap.text ++ rest ∧
      findClosing? tag.name 0 (printAll inner ++ (closingText tag.name gap.text ++ rest)) =
        some (closingText tag.name gap.text ++ rest, rest) ∧
      openTag (printAll ps) (octetLength front) =
        .ok (⟨tag.name, tag.attributes, false⟩, octetLength (front ++ tag.text false)) ∧
      findClosing (printAll ps) tag.name 1 (octetLength (front ++ tag.text false)) =
        .ok (octetLength (front ++ tag.text false ++ printAll inner),
          octetLength (front ++ tag.text false ++ printAll inner ++
            closingText tag.name gap.text)) := by
  refine ⟨fragments_printAll ps, ?_, readAll_printAll ps, ?_⟩
  · rw [elements_zero, fragments_printAll]
  · intro tag inner gap front rest hstands
    have hbalanced := balanced_printAll tag.named inner
    have hwhole : printAll ps = front ++ (tag.text false ++
        (printAll inner ++ (closingText tag.name gap.text ++ rest))) := by
      rw [hstands.printAll_eq, print, List.append_assoc, List.append_assoc]
    refine ⟨?_, hbalanced.findClosing?_eq tag.named gap.isSpacing rest, ?_, ?_⟩
    · rw [hwhole]
      simp only [List.append_assoc]
    · rw [hwhole]
      exact openTag_append (tag.readsTag false) front _
    · rw [hwhole, ← List.append_assoc front]
      exact findClosing_append tag.named gap.isSpacing hbalanced _ rest

/-- An element in one of the same name, behind one that closes itself and one of a longer name
with a closing tag in a value. -/
def rows : List Passage :=
  let noGap : Gap := ⟨[], rfl⟩
  let space : Gap := ⟨[' '], rfl⟩
  let row (attrs : List PrintedAttr) (gap : Gap) : PrintedTag := ⟨"Row".toList, attrs, gap, rfl⟩
  let quoted : PrintedAttr :=
    ⟨space, ⟨['b'], .quoted "</Row>".toList⟩, List.cons_ne_nil _ _, rfl, by decide⟩
  [.pair (row [⟨space, ⟨['a'], .bare⟩, List.cons_ne_nil _ _, rfl, rfl⟩] noGap)
    [.void (row [] space), .void ⟨"Row.Item".toList, [quoted], noGap, rfl⟩,
      .pair (row [] noGap) [.text ['x'] (by decide)] space] noGap,
    .text " tail".toList (by decide)]

theorem printed_elements_are_found_of_rows :
    printAll rows = "<Row a><Row /><Row.Item b=\"</Row>\"/><Row>x</Row ></Row> tail".toList ∧
    elements (printAll rows) 0 = .ok [⟨"Row".toList, [⟨['a'], .bare⟩],
      some "<Row /><Row.Item b=\"</Row>\"/><Row>x</Row >".toList⟩] ∧
    findClosing (printAll rows) "Row".toList 1 7 = .ok (49, 55) ∧
    findClosing (printAll rows) "Row".toList 1 41 = .ok (42, 49) := by
  obtain ⟨-, helements, -, htags⟩ := printed_elements_are_found rows
  have houter := htags _ _ _ _ _ (.here [] _)
  have hinner := htags _ _ _ _ _ (.inside [] _ _ _ _ (.here [_, _] []))
  refine ⟨by decide +kernel, helements.trans (congrArg Except.ok (by decide +kernel)), ?_, ?_⟩
  · exact houter.2.2.2
  · exact hinner.2.2.2

end Tandem.Octet
