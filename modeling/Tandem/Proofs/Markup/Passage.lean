import Tandem.Proofs.Markup.Element

/-!
# Passages of printed markup

Printed markup is a list of passages: text without angle brackets, elements of one tag and
elements of two tags around further passages (`Passage`). Attributes stand alone or have a
plain value between quotes, and the gaps inside tags are any spacing. Such markup is read back:

* **one tag** — `PrintedTag.readsTag`: it is read with its own attributes, whatever follows;
* **closing tags** — `Passage.balanced_printAll`: what is opened in passages is closed there, so
  the search for a closing tag passes over them;
* **siblings** — `Passage.fragments_printAll`: the elements are read in order, their inner markup
  as it was printed but trimmed;
* **all levels** — `Passage.readAll_printAll`: trimming inner markup loses no element, so the
  elements inside are read as well.
-/

namespace Tandem.Markup

open Text

/-! ## Tags -/

/-- Nothing in the value ends it or protects its end. -/
def AttrValue.isPlain : AttrValue → Bool
  | .quoted cs => cs.all fun c => c != '"' && c != '\\'
  | .braced _ => false
  | .bare => true

/-- Spacing inside a tag. -/
structure Gap where
  text : List Char
  spacing : text.all isSpacing = true

/-- An attribute behind the gap that sets it apart. -/
structure PrintedAttr where
  gap : Gap
  attr : Attr
  apart : gap.text ≠ []
  named : isAttrName attr.name = true
  plain : attr.value.isPlain = true

/-- A tag up to its last gap. -/
structure PrintedTag where
  name : List Char
  attrs : List PrintedAttr
  gap : Gap
  named : isTagName name = true

theorem Gap.isSpacing (g : Gap) : ∀ c ∈ g.text, isSpacing c = true := List.all_eq_true.mp g.spacing

theorem PrintedAttr.isGap (a : PrintedAttr) : IsGap a.gap.text := ⟨a.apart, a.gap.isSpacing⟩

theorem PrintedAttr.readable (a : PrintedAttr) : a.attr.Readable := by
  refine ⟨a.named, ?_⟩
  have hplain := a.plain
  cases hvalue : a.attr.value with
  | bare => trivial
  | braced cs => rw [hvalue] at hplain; cases hplain
  | quoted cs =>
      rw [hvalue, AttrValue.isPlain, List.all_eq_true] at hplain
      have hquote : '"' ∉ cs := fun h => by simpa using hplain _ h
      have hslash : '\\' ∉ cs := fun h => by simpa using hplain _ h
      have hleads := leads_closeQuote hquote (by decide) (by rw [backslashes_eq_zero hslash]) []
      have hclose := hleads.close []
      rwa [List.append_nil] at hclose

namespace PrintedTag

/-- The attributes without their gaps. -/
def attributes (t : PrintedTag) : List Attr := t.attrs.map (·.attr)

/-- The tag as it is read. -/
def toTag (t : PrintedTag) (selfClosing : Bool) : Tag := ⟨t.name, t.attributes, selfClosing⟩

def text (t : PrintedTag) (selfClosing : Bool) : List Char :=
  '<' :: (t.name ++ (spacedText (t.attrs.map fun a => (a.gap.text, a.attr)) ++
    (t.gap.text ++ endText selfClosing)))

theorem readsTag (t : PrintedTag) (selfClosing : Bool) :
    ReadsTag (t.toTag selfClosing) (t.text selfClosing) := by
  intro rest
  have hspaced : Spaced (t.attrs.map fun a => (a.gap.text, a.attr)) := by
    intro b hb
    obtain ⟨a, _, rfl⟩ := List.mem_map.mp hb
    exact ⟨a.isGap, a.readable.closed⟩
  have hattrs : (t.attrs.map fun a => (a.gap.text, a.attr)).map (fun a => a.2.tidy) =
      t.attributes := by
    rw [List.map_map]
    exact List.map_congr_left fun a _ => a.readable.tidy_eq
  have htag := tag?_spacedText t.named hspaced t.gap.isSpacing selfClosing rest
  rw [hattrs] at htag
  simp only [text, List.cons_append, List.append_assoc]
  exact htag

end PrintedTag

/-! ## Passages -/

inductive Passage where
  | text (cs : List Char) (unopened : '<' ∉ cs)
  | void (tag : PrintedTag)
  /-- Two tags around passages; the gap is the one in the closing tag. -/
  | pair (tag : PrintedTag) (inner : List Passage) (gap : Gap)

namespace Passage

mutual

def print : Passage → List Char
  | text cs _ => cs
  | void tag => tag.text true
  | pair tag inner gap => tag.text false ++ (printAll inner ++ closingText tag.name gap.text)

def printAll : List Passage → List Char
  | [] => []
  | p :: ps => p.print ++ printAll ps

end

def isElement : Passage → Bool
  | text _ _ => false
  | void _ | pair _ _ _ => true

/-- The element that is printed, with what stands between its tags. -/
def fragment? : Passage → Option Fragment
  | text _ _ => none
  | void tag => some ⟨tag.name, tag.attributes, none⟩
  | pair tag inner _ => some ⟨tag.name, tag.attributes, some (trim (printAll inner))⟩

mutual

def element? : Passage → Option Element
  | text _ _ => none
  | void tag => some (.void tag.name tag.attributes)
  | pair tag inner _ =>
    -- Text beside elements is left out.
    some (if inner.any isElement then .nest tag.name tag.attributes (elements inner)
      else .text tag.name tag.attributes (trim (printAll inner)))

/-- The elements that are printed, to the bottom. -/
def elements : List Passage → List Element
  | [] => []
  | p :: ps => p.element?.toList ++ elements ps

end

/-- What holds of passages if it does of those between tags and of those behind. -/
theorem forest_induction {P : List Passage → Prop} (nil : P [])
    (text : ∀ cs unopened ps, P ps → P (text cs unopened :: ps))
    (void : ∀ tag ps, P ps → P (void tag :: ps))
    (pair : ∀ tag inner gap ps, P inner → P ps → P (pair tag inner gap :: ps))
    (ps : List Passage) : P ps :=
  -- A passage has the property of the list it stands in front of.
  @Passage.rec_1 (fun p => ∀ ps, P ps → P (p :: ps)) P text void
    (fun tag inner gap hinner ps => pair tag inner gap ps hinner) nil (fun _ ps hp => hp ps) ps

theorem printAll_append (ps qs : List Passage) :
    printAll (ps ++ qs) = printAll ps ++ printAll qs := by
  induction ps with
  | nil => rfl
  | cons p ps ih => simp only [List.cons_append, printAll, ih, List.append_assoc]

theorem ne_of_unopened {cs : List Char} (h : '<' ∉ cs) : ∀ c ∈ cs, c ≠ '<' := by
  rintro c hc rfl
  exact h hc

/-- The search for a closing tag passes over passages: what they open they close. -/
theorem balanced_printAll {name : List Char} (hname : isTagName name = true) (ps : List Passage) :
    Balanced name (printAll ps) := by
  induction ps using forest_induction with
  | nil => exact fun depth rest => rfl
  | text cs hcs ps ih =>
      exact Balanced.append (fun depth => findClosing?_unmarked name depth (ne_of_unopened hcs)) ih
  | void tag ps ih => exact ((tag.readsTag true).balanced rfl name).append ih
  | pair tag inner gap ps hinner ih =>
      exact (Balanced.tags hname (tag.readsTag false) rfl tag.named gap.isSpacing hinner).append ih

/-- The element of a passage is read, and then what is behind it. -/
theorem fragments_print (p : Passage) (rest : List Char) :
    fragments (p.print ++ rest) = p.fragment?.toList ++ fragments rest := by
  cases p with
  | text cs hcs => exact fragments_unmarked (ne_of_unopened hcs) rest
  | void tag =>
      have hself : (tag.toTag true).selfClosing = true := rfl
      rw [print, fragments_of_tag? (tag.readsTag true rest), if_pos hself]
      rfl
  | pair tag inner gap =>
      have htags := fragments_tags (tag.readsTag false) rfl tag.named gap.isSpacing
        (balanced_printAll tag.named inner) rest
      rw [print, List.append_assoc, List.append_assoc]
      exact htags

theorem filterMap_cons (p : Passage) (ps : List Passage) :
    (p :: ps).filterMap fragment? = p.fragment?.toList ++ ps.filterMap fragment? := by
  rw [List.filterMap_cons]
  cases p.fragment? <;> rfl

/-- **The elements are read in order**, with their own tags, attributes and inner markup. -/
theorem fragments_printAll (ps : List Passage) :
    fragments (printAll ps) = ps.filterMap fragment? := by
  induction ps with
  | nil => rw [printAll, fragments]; rfl
  | cons p ps ih => rw [printAll, fragments_print, ih, filterMap_cons]

/-! ## All levels -/

theorem exists_print_eq {p : Passage} (hp : p.isElement = true) :
    ∃ front, p.print = front ++ ['>'] := by
  cases p with
  | text cs hcs => cases hp
  | void tag =>
      refine ⟨'<' :: (tag.name ++ (spacedText (tag.attrs.map fun a => (a.gap.text, a.attr)) ++
        (tag.gap.text ++ ['/']))), ?_⟩
      simp [print, PrintedTag.text, endText]
  | pair tag inner gap =>
      refine ⟨tag.text false ++ (printAll inner ++ '<' :: '/' :: (tag.name ++ gap.text)), ?_⟩
      simp [print, closingText]

/-- Trimming behind passages takes no element away. -/
theorem fragments_trimEnd_printAll (ps : List Passage) :
    fragments (trimEnd (printAll ps)) = ps.filterMap fragment? := by
  induction ps with
  | nil =>
      show fragments [] = []
      rw [fragments]
  | cons p ps ih =>
      rw [printAll, filterMap_cons]
      cases hp : p.isElement with
      | true =>
          obtain ⟨front, hfront⟩ := exists_print_eq hp
          have htrim : trimEnd (p.print ++ printAll ps) = p.print ++ trimEnd (printAll ps) := by
            rw [hfront, ← List.append_cons, ← List.append_cons, trimEnd_append_cons (by decide)]
          rw [htrim, fragments_print, ih]
      | false =>
          cases p with
          | void tag | pair tag inner gap => cases hp
          | text cs hcs =>
              -- Only if blanks are all that follows, the text itself is trimmed as well.
              by_cases hblank : Blank (printAll ps)
              · have hfront : ∀ c ∈ trimEnd cs, c ≠ '<' :=
                  fun c hc => ne_of_unopened hcs c (mem_of_mem_trimEnd hc)
                rw [print, trimEnd_append hblank, fragments_eq_nil hfront, ← fragments_printAll,
                  fragments_eq_nil (ne_of_unmarked (unmarked_of_blank hblank))]
                rfl
              · rw [trimEnd_append_of_not_blank hblank, fragments_print, ih]

theorem fragments_trim_printAll (ps : List Passage) :
    fragments (trim (printAll ps)) = fragments (printAll ps) := by
  rw [← trimStart_trimEnd, fragments_trimStart, fragments_trimEnd_printAll, fragments_printAll]

theorem hasElement_printAll (ps : List Passage) : hasElement (printAll ps) = ps.any isElement := by
  induction ps with
  | nil => rfl
  | cons p ps ih =>
      rw [printAll, List.any_cons]
      cases p with
      | text cs hcs => rw [print, hasElement_unmarked (ne_of_unopened hcs), ih]; rfl
      | void tag =>
          exact hasElement_of_startsElement (startsElement_of_tag? (tag.readsTag true _))
      | pair tag inner gap =>
          rw [print, List.append_assoc]
          exact hasElement_of_startsElement (startsElement_of_tag? (tag.readsTag false _))

theorem readAll_printAll_cons (p : Passage) (ps : List Passage) :
    Element.readAll (printAll (p :: ps)) =
      p.fragment?.toList.map Fragment.read ++ Element.readAll (printAll ps) := by
  rw [readAll_eq, readAll_eq, fragments_printAll, fragments_printAll, filterMap_cons,
    List.map_append]

/-- **Elements are read to the bottom as they were printed.** -/
theorem readAll_printAll (ps : List Passage) : Element.readAll (printAll ps) = elements ps := by
  induction ps using forest_induction with
  | nil => rw [readAll_eq, fragments_printAll]; rfl
  | text cs hcs ps ih => rw [readAll_printAll_cons, ih]; rfl
  | void tag ps ih => rw [readAll_printAll_cons, ih]; rfl
  | pair tag inner gap ps hinner ih =>
      have htrim : Element.readAll (trim (printAll inner)) = elements inner := by
        rw [← hinner, readAll_eq, readAll_eq, fragments_trim_printAll]
      rw [readAll_printAll_cons, ih, elements, element?, fragment?, Option.toList_some,
        Option.toList_some, List.map_singleton, Fragment.read]
      simp only [hasElement_trim, hasElement_printAll, htrim]

/-! ## Places -/

/-- A passage stands among others or inside one of them, with texts in front of it and behind
it. -/
inductive Stands (p : Passage) : List Passage → List Char → List Char → Prop
  | here (before after : List Passage) :
    Stands p (before ++ p :: after) (printAll before) (printAll after)
  | inside (before after : List Passage) (tag : PrintedTag) (inner : List Passage) (gap : Gap)
      {front rest : List Char} (h : Stands p inner front rest) :
    Stands p (before ++ pair tag inner gap :: after)
      (printAll before ++ (tag.text false ++ front))
      (rest ++ (closingText tag.name gap.text ++ printAll after))

theorem Stands.printAll_eq {p : Passage} {ps : List Passage} {front rest : List Char}
    (h : Stands p ps front rest) : printAll ps = front ++ (p.print ++ rest) := by
  induction h with
  | here before after => rw [printAll_append, printAll]
  | inside before after tag inner gap h ih =>
      rw [printAll_append, printAll, print, ih]
      simp only [List.append_assoc]

end Passage

end Tandem.Markup
