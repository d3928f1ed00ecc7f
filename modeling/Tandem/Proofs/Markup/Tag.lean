import Tandem.Proofs.Markup.Bracket
import Tandem.Proofs.Text.Blank
import Tandem.Source.Writer

/-!
# Written tags are read back

An attribute is closed if its name is a name and its value ends where it is meant to
(`Attr.Closed`). Tags of closed attributes are read with what follows them, whatever spacing
stands between the attributes (`tag?_spacedText`), so those that the writer sets apart by spaces
are (`tag?_void`, `tag?_open`), and the bracket machine finds the same end of the tag as the
attribute reader (`leads_openText`). What is read is tidy: an expression has lost the blanks
around it. A readable attribute is one that does not change by that.
-/

namespace Tandem.Markup

open Text

/-! ## Names -/

def isTagName : List Char → Bool
  | [] => false
  | c :: cs => c.isAlpha && cs.all isTagNameChar

/-- A first and further characters of attribute names. -/
def isAttrName : List Char → Bool
  | [] => false
  | c :: cs => isAttrNameStart c && cs.all isAttrNameChar

theorem isTagName_eq_true {name : List Char} (h : isTagName name = true) :
    ∃ c cs, name = c :: cs ∧ c.isAlpha = true ∧ ∀ d ∈ cs, isTagNameChar d = true := by
  cases name with
  | nil => cases h
  | cons c cs =>
      obtain ⟨hc, hcs⟩ := Bool.and_eq_true_iff.mp h
      exact ⟨c, cs, rfl, hc, List.all_eq_true.mp hcs⟩

theorem isAttrName_eq_true {name : List Char} (h : isAttrName name = true) :
    ∃ c cs, name = c :: cs ∧ isAttrNameStart c = true ∧ ∀ d ∈ cs, isAttrNameChar d = true := by
  cases name with
  | nil => cases h
  | cons c cs =>
      obtain ⟨hc, hcs⟩ := Bool.and_eq_true_iff.mp h
      exact ⟨c, cs, rfl, hc, List.all_eq_true.mp hcs⟩

theorem isTagNameChar_of_mem {name : List Char} (h : isTagName name = true) {d : Char}
    (hd : d ∈ name) : isTagNameChar d = true := by
  obtain ⟨c, cs, rfl, hc, hcs⟩ := isTagName_eq_true h
  rcases List.mem_cons.mp hd with rfl | hd
  · simp [isTagNameChar, Char.isAlphanum, hc]
  · exact hcs d hd

theorem isAttrNameChar_of_mem {name : List Char} (h : isAttrName name = true) {d : Char}
    (hd : d ∈ name) : isAttrNameChar d = true := by
  obtain ⟨c, cs, rfl, hc, hcs⟩ := isAttrName_eq_true h
  rcases List.mem_cons.mp hd with rfl | hd
  · simp [isAttrNameChar, hc]
  · exact hcs d hd

/-- A character that is not in a class is none of those in it. -/
theorem ne_of_class {p : Char → Bool} {c d : Char} (hc : p c = true) (hd : p d = false) :
    c ≠ d := by
  rintro rfl
  rw [hc] at hd
  cases hd

/-- A class without spacing characters. -/
theorem isSpacing_of_class {p : Char → Bool} {c : Char} (hc : p c = true)
    (hp : [' ', '\t', '\n', '\x0c', '\r'].all (fun d => !p d) = true) : isSpacing c = false := by
  cases h : isSpacing c with
  | false => rfl
  | true =>
      have hmem : c ∈ [' ', '\t', '\n', '\x0c', '\r'] := by
        simp only [isSpacing, Bool.or_eq_true, beq_iff_eq] at h
        simp only [List.mem_cons, List.not_mem_nil, or_false]
        tauto
      exact absurd hmem (not_mem_of_class hp hc)

/-- No spacing character is in a class without spacing characters. -/
theorem class_of_isSpacing {p : Char → Bool}
    (hp : [' ', '\t', '\n', '\x0c', '\r'].all (fun d => !p d) = true) {c : Char}
    (hc : isSpacing c = true) : p c = false := by
  cases h : p c with
  | false => rfl
  | true => rw [isSpacing_of_class h hp] at hc; cases hc

theorem stops_append_of_spacing {p : Char → Bool}
    (hp : [' ', '\t', '\n', '\x0c', '\r'].all (fun d => !p d) = true) {gap rest : List Char}
    (hgap : ∀ c ∈ gap, isSpacing c = true) (hrest : Stops p rest) : Stops p (gap ++ rest) := by
  cases gap with
  | nil => exact hrest
  | cons c gap => exact stops_cons (class_of_isSpacing hp (hgap c List.mem_cons_self))

/-! ## Attributes -/

/-- The value is read up to the end that was written behind it. -/
def AttrValue.Closed : AttrValue → Prop
  | .quoted cs => closeQuote '"' (cs ++ ['"']) = some []
  | .braced cs => closeBrace (cs ++ ['\x7d']) = some []
  | .bare => True

/-- The value without the blanks around an expression. -/
def AttrValue.tidy : AttrValue → AttrValue
  | .braced cs => .braced (trim cs)
  | v => v

/-- The value is read as it was written. -/
def AttrValue.Readable : AttrValue → Prop
  | .quoted cs => closeQuote '"' (cs ++ ['"']) = some []
  | .braced cs => closeBrace (cs ++ ['\x7d']) = some [] ∧ trim cs = cs
  | .bare => True

theorem AttrValue.Readable.closed {v : AttrValue} (h : v.Readable) : v.Closed := by
  cases v with
  | quoted cs => exact h
  | braced cs => exact h.1
  | bare => trivial

theorem AttrValue.Readable.tidy_eq {v : AttrValue} (h : v.Readable) : v.tidy = v := by
  cases v with
  | quoted cs => rfl
  | braced cs => exact congrArg AttrValue.braced h.2
  | bare => rfl

/-- A named attribute with a closed value. -/
structure Attr.Closed (a : Attr) : Prop where
  name : isAttrName a.name = true
  value : a.value.Closed

def Attr.tidy (a : Attr) : Attr := ⟨a.name, a.value.tidy⟩

/-- A named attribute with a readable value. -/
structure Attr.Readable (a : Attr) : Prop where
  name : isAttrName a.name = true
  value : a.value.Readable

theorem Attr.Readable.closed {a : Attr} (h : a.Readable) : a.Closed := ⟨h.name, h.value.closed⟩

theorem Attr.Readable.tidy_eq {a : Attr} (h : a.Readable) : a.tidy = a := by
  rw [Attr.tidy, h.value.tidy_eq]

/-- The reader of attributes in one step. -/
theorem attrs?_eq (cs : List Char) : attrs? cs =
    match cs.dropWhile isSpacing with
    | [] => none
    | c :: rest =>
      if c = '>' then some ([], false, rest)
      else if c = '/' ∧ rest.head? = some '>' then some ([], true, rest.tail)
      else if c = '<' then none
      else
        match attrName? (c :: rest) with
        | none => attrs? rest
        | some (name, rest) =>
          match attrRest? rest with
          | none => none
          | some (value, rest) => (attrs? rest).map fun r => (⟨name, value⟩ :: r.1, r.2) := by
  -- The reader names the equations of its matches for its termination proof, so its
  -- body is not this term as it stands, and the two are compared branch by branch.
  rw [attrs?]
  split
  next h => rw [h]
  next c rest h =>
    rw [h]
    simp only
    split
    · rfl
    · split
      · rfl
      · split
        · rfl
        · split
          next hn => rw [hn]
          next hn =>
            rw [hn]
            simp only
            split
            next hr => rw [hr]
            next hr => rw [hr]

/-- Spacing in front of the attributes does not matter. -/
theorem attrs?_dropWhile (cs : List Char) : attrs? (cs.dropWhile isSpacing) = attrs? cs := by
  rw [attrs?_eq, (stops_dropWhile isSpacing cs).dropWhile, ← attrs?_eq]

theorem attrs?_append_of_spacing {gap : List Char} (hgap : ∀ c ∈ gap, isSpacing c = true)
    (cs : List Char) : attrs? (gap ++ cs) = attrs? cs := by
  rw [← attrs?_dropWhile, List.dropWhile_append_of_pos hgap, attrs?_dropWhile]

/-- What follows the last attribute: it neither goes on with a name nor gives a value. -/
structure EndsAttr (rest : List Char) : Prop where
  stops : Stops isAttrNameChar rest
  unvalued : (rest.dropWhile isSpacing).head? ≠ some '='

theorem upTo_append (cs rest : List Char) : upTo (cs ++ rest) rest = cs := by
  simp [upTo]

theorem attrValue?_quoted {cs : List Char} (h : AttrValue.Closed (.quoted cs))
    (rest : List Char) : attrValue? ('"' :: (cs ++ '"' :: rest)) = some (.quoted cs, rest) := by
  have hclose : closeQuote '"' ((cs ++ ['"']) ++ rest) = some rest := by
    have hend := leads_of_close h [] rest
    rwa [List.append_nil, close] at hend
  have hspacing : Stops isSpacing ('"' :: ((cs ++ ['"']) ++ rest)) := stops_cons (by decide)
  rw [List.append_cons, attrValue?, hspacing.dropWhile]
  simp only [true_or, if_true, hclose, Option.map_some, upTo_append, List.dropLast_concat]

theorem attrValue?_braced {cs : List Char} (h : AttrValue.Closed (.braced cs))
    (rest : List Char) :
    attrValue? ('\x7b' :: (cs ++ '\x7d' :: rest)) = some (.braced (trim cs), rest) := by
  have hclose : closeBrace ((cs ++ ['\x7d']) ++ rest) = some rest := by
    have hend := leads_of_close h [] rest
    rwa [List.append_nil, close] at hend
  have hspacing : Stops isSpacing ('\x7b' :: ((cs ++ ['\x7d']) ++ rest)) := stops_cons (by decide)
  have hquote : ¬('\x7b' = '"' ∨ '\x7b' = '\'') := by decide
  rw [List.append_cons, attrValue?, hspacing.dropWhile]
  simp only [if_neg hquote, if_true, hclose, Option.map_some, upTo_append, List.dropLast_concat]

/-- What is read from a brace on is a closed expression, its brace and the rest. -/
theorem attrValue?_brace_eq_some {cs rest : List Char} {value : AttrValue}
    (h : attrValue? ('\x7b' :: cs) = some (value, rest)) :
    ∃ inside, cs = inside ++ '\x7d' :: rest ∧ AttrValue.Closed (.braced inside) ∧
      value = .braced (trim inside) := by
  have hspacing : Stops isSpacing ('\x7b' :: cs) := stops_cons (by decide)
  have hquote : ¬('\x7b' = '"' ∨ '\x7b' = '\'') := by decide
  rw [attrValue?, hspacing.dropWhile] at h
  simp only [if_neg hquote, if_true] at h
  obtain ⟨after, hclose, heq⟩ := Option.map_eq_some_iff.mp h
  obtain ⟨hvalue, rfl⟩ := Prod.mk.inj heq
  obtain ⟨inside, rfl⟩ := closeBrace_ends hclose
  rw [List.append_cons, upTo_append, List.dropLast_concat] at hvalue
  refine ⟨inside, rfl, ?_, hvalue.symm⟩
  rw [List.append_cons] at hclose
  exact close_of_close_append hclose

/-- The name of an attribute, in front of a text that does not go on with it. -/
theorem attrName?_append {name rest : List Char} (hname : isAttrName name = true)
    (hrest : Stops isAttrNameChar rest) : attrName? (name ++ rest) = some (name, rest) := by
  obtain ⟨c, cs, rfl, hc, hcs⟩ := isAttrName_eq_true hname
  rw [List.cons_append, attrName?, if_pos hc, hrest.takeWhile_append hcs,
    hrest.dropWhile_append hcs]

/-- Behind the name of an attribute its value is read, and then the other attributes. -/
theorem attrs?_name_eq {name : List Char} (hname : isAttrName name = true) {tail : List Char}
    (htail : Stops isAttrNameChar tail) :
    attrs? (' ' :: (name ++ tail)) =
      (attrRest? tail).bind fun p => (attrs? p.2).map fun r => (⟨name, p.1⟩ :: r.1, r.2) := by
  obtain ⟨c, cs, hsplit, hc, _⟩ := isAttrName_eq_true hname
  have hspacing : Stops isSpacing (name ++ tail) := by
    rw [hsplit]
    exact stops_cons (isSpacing_of_class hc (by decide))
  have hstart : (' ' :: (name ++ tail)).dropWhile isSpacing = c :: (cs ++ tail) := by
    rw [List.dropWhile_cons_of_pos (by decide), hspacing.dropWhile, hsplit, List.cons_append]
  have hgt : c ≠ '>' := ne_of_class hc (by decide)
  have hslash : ¬(c = '/' ∧ (cs ++ tail).head? = some '>') := fun h =>
    ne_of_class hc (by decide) h.1
  have hlt : c ≠ '<' := ne_of_class hc (by decide)
  have hn := attrName?_append hname htail
  rw [attrs?_eq, hstart]
  simp only [if_neg hgt, if_neg hslash, if_neg hlt]
  rw [← List.cons_append, ← hsplit, hn]
  cases hvalue : attrRest? tail with
  | none => simp only [hvalue, Option.bind_none]
  | some p => simp only [hvalue, Option.bind_some]

/-- Whatever stands behind the name of an attribute, the reader goes on with it. -/
theorem attrs?_name {name : List Char} (hname : isAttrName name = true) {tail rest : List Char}
    (htail : Stops isAttrNameChar tail) {value : AttrValue}
    (hvalue : attrRest? tail = some (value, rest)) :
    attrs? (' ' :: (name ++ tail)) = (attrs? rest).map fun r => (⟨name, value⟩ :: r.1, r.2) := by
  rw [attrs?_name_eq hname htail, hvalue, Option.bind_some]

theorem attrs?_text {a : Attr} (ha : a.Closed) {rest : List Char} (hrest : EndsAttr rest) :
    attrs? (' ' :: (a.text ++ rest)) = (attrs? rest).map fun r => (a.tidy :: r.1, r.2) := by
  obtain ⟨name, value⟩ := a
  have hname : isAttrName name = true := ha.name
  have hvalue : value.Closed := ha.value
  cases value with
  | bare =>
      have hbare : attrRest? rest = some (.bare, rest.dropWhile isSpacing) := by
        rw [attrRest?]
        split
        next r h => exact absurd (by rw [h]; rfl) hrest.unvalued
        next => rfl
      rw [← attrs?_dropWhile rest]
      exact attrs?_name hname hrest.stops hbare
  | quoted cs' =>
      rw [Attr.text]
      simp only [List.append_assoc, List.cons_append, List.nil_append]
      refine attrs?_name hname (stops_cons (by decide)) ?_
      rw [attrRest?, List.dropWhile_cons_of_neg (by decide)]
      exact attrValue?_quoted hvalue rest
  | braced cs' =>
      rw [Attr.text]
      simp only [List.append_assoc, List.cons_append, List.nil_append]
      refine attrs?_name hname (stops_cons (by decide)) ?_
      rw [attrRest?, List.dropWhile_cons_of_neg (by decide)]
      exact attrValue?_braced hvalue rest

/-! ## Tags -/

/-- A text that stands between attributes. -/
structure IsGap (gap : List Char) : Prop where
  ne_nil : gap ≠ []
  spacing : ∀ c ∈ gap, isSpacing c = true

theorem isGap_space : IsGap [' '] := ⟨List.cons_ne_nil _ _, List.forall_mem_singleton.mpr rfl⟩

/-- Attributes, each behind its gap. -/
def spacedText (as : List (List Char × Attr)) : List Char := as.flatMap fun a => a.1 ++ a.2.text

theorem spacedText_cons (gap : List Char) (a : Attr) (as : List (List Char × Attr))
    (rest : List Char) :
    spacedText ((gap, a) :: as) ++ rest = gap ++ (a.text ++ (spacedText as ++ rest)) := by
  simp [spacedText]

/-- Attributes that can be told apart. -/
def Spaced (as : List (List Char × Attr)) : Prop := ∀ a ∈ as, IsGap a.1 ∧ a.2.Closed

/-- What is no spacing in front of the attributes is none of what stands behind them. -/
theorem stops_spacedText {p : Char → Bool}
    (hp : [' ', '\t', '\n', '\x0c', '\r'].all (fun d => !p d) = true)
    {as : List (List Char × Attr)} (has : Spaced as) {rest : List Char} (hrest : Stops p rest) :
    Stops p (spacedText as ++ rest) := by
  cases as with
  | nil => exact hrest
  | cons a as =>
      obtain ⟨gap, a⟩ := a
      have hgap := (has _ List.mem_cons_self).1
      rw [spacedText_cons]
      cases gap with
      | nil => exact absurd rfl hgap.ne_nil
      | cons c gap =>
          exact stops_cons (class_of_isSpacing hp (hgap.spacing c List.mem_cons_self))

theorem endsAttr_spacedText {as : List (List Char × Attr)} (has : Spaced as)
    {rest : List Char} (hrest : EndsAttr rest) : EndsAttr (spacedText as ++ rest) := by
  refine ⟨stops_spacedText (by decide) has hrest.stops, ?_⟩
  cases as with
  | nil => exact hrest.unvalued
  | cons a as =>
      obtain ⟨gap, a⟩ := a
      obtain ⟨hgap, ha⟩ := has _ List.mem_cons_self
      obtain ⟨c, cs, hname, hc, _⟩ := isAttrName_eq_true ha.name
      have htext : ∃ tail, a.text ++ (spacedText as ++ rest) = c :: tail := by
        rw [Attr.text.eq_def]
        split <;> exact ⟨_, by rw [hname]; rfl⟩
      obtain ⟨tail, heq⟩ := htext
      have hspacing : Stops isSpacing (c :: tail) := stops_cons (isSpacing_of_class hc (by decide))
      rw [spacedText_cons, heq, hspacing.dropWhile_append hgap.spacing]
      intro h
      cases h
      exact absurd hc (by decide)

/-- All attributes are read, and what is behind them. -/
theorem attrs?_spacedText {as : List (List Char × Attr)} (has : Spaced as)
    {rest : List Char} (hrest : EndsAttr rest) :
    attrs? (spacedText as ++ rest) =
      (attrs? rest).map fun r => (as.map (fun a => a.2.tidy) ++ r.1, r.2) := by
  induction as with
  | nil =>
      rw [spacedText, List.flatMap_nil, List.nil_append]
      simp
  | cons a as ih =>
      obtain ⟨gap, a⟩ := a
      obtain ⟨hgap, ha⟩ := has _ List.mem_cons_self
      have htail : Spaced as := fun b hb => has b (List.mem_cons_of_mem _ hb)
      -- Whatever the gap is, the attribute is read like behind a space.
      have hspace := attrs?_append_of_spacing isGap_space.spacing
        (a.text ++ (spacedText as ++ rest))
      rw [spacedText_cons, attrs?_append_of_spacing hgap.spacing, ← hspace, List.singleton_append,
        attrs?_text ha (endsAttr_spacedText htail hrest), ih htail, Option.map_map]
      rfl

def attrsText (attrs : List Attr) : List Char := attrs.flatMap fun a => ' ' :: a.text

theorem attrsText_eq (attrs : List Attr) : attrsText attrs = spacedText (attrs.map ([' '], ·)) := by
  rw [attrsText, spacedText, List.flatMap_map]
  rfl

theorem spaced_space {attrs : List Attr} (hattrs : ∀ a ∈ attrs, a.Closed) :
    Spaced (attrs.map ([' '], ·)) := by
  intro a ha
  obtain ⟨b, hb, rfl⟩ := List.mem_map.mp ha
  exact ⟨isGap_space, hattrs b hb⟩

/-- Whatever stands behind the name of a tag, the attributes are read from it. -/
theorem tag?_name {name : List Char} (hname : isTagName name = true) {tail : List Char}
    (htail : Stops isTagNameChar tail) :
    tag? ('<' :: (name ++ tail)) =
      (attrs? tail).map fun r => (⟨name, r.1, r.2.1⟩, r.2.2) := by
  obtain ⟨c, cs, rfl, hc, hcs⟩ := isTagName_eq_true hname
  have htag : tagName? ('<' :: c :: (cs ++ tail)) = some (c :: cs, tail) := by
    rw [tagName?, if_pos hc, htail.takeWhile_append hcs, htail.dropWhile_append hcs]
  simp only [tag?, List.cons_append, htag, Option.bind_eq_bind, Option.bind_some, Option.pure_def]
  cases attrs? tail <;> rfl

/-- Behind a brace an expression is read, and then the other attributes. -/
theorem tag?_brace {tag name : List Char} (htag : isTagName tag = true)
    (hname : isAttrName name = true) (inside tail : List Char) :
    tag? (openText tag [⟨name, .braced inside⟩] ++ tail) =
      (attrValue? ('\x7b' :: (inside ++ '\x7d' :: tail))).bind fun p =>
        (attrs? p.2).map fun r => (⟨tag, ⟨name, p.1⟩ :: r.1, r.2.1⟩, r.2.2) := by
  have hsplit : openText tag [⟨name, .braced inside⟩] ++ tail =
      '<' :: (tag ++ ' ' :: (name ++ '=' :: '\x7b' :: (inside ++ '\x7d' :: tail))) := by
    simp [openText, Attr.text]
  rw [hsplit, tag?_name htag (stops_cons (by decide)),
    attrs?_name_eq hname (stops_cons (by decide)), attrRest?,
    List.dropWhile_cons_of_neg (by decide), Option.map_bind]
  congr 1
  funext p
  exact Option.map_map _ _ _

/-- An expression that is read from a tag ends at a brace of the text, and the other attributes are
read from what is behind that. -/
theorem exists_of_tag?_brace {tag name : List Char} (htag : isTagName tag = true)
    (hname : isAttrName name = true) {inside tail read left : List Char} {attrs : List Attr}
    {selfClosing : Bool} (h : tag? (openText tag [⟨name, .braced inside⟩] ++ tail) =
      some (⟨tag, ⟨name, .braced read⟩ :: attrs, selfClosing⟩, left)) :
    ∃ whole after, inside ++ '\x7d' :: tail = whole ++ '\x7d' :: after ∧
      AttrValue.Closed (.braced whole) ∧ read = trim whole ∧
      attrs? after = some (attrs, selfClosing, left) := by
  rw [tag?_brace htag hname] at h
  obtain ⟨⟨value, after⟩, hvalue, htail⟩ := Option.bind_eq_some_iff.mp h
  obtain ⟨r, hattrs, heq⟩ := Option.map_eq_some_iff.mp htail
  simp only [Prod.mk.injEq, Tag.mk.injEq, List.cons.injEq, Attr.mk.injEq, true_and] at heq
  obtain ⟨⟨⟨rfl, rfl⟩, rfl⟩, rfl⟩ := heq
  obtain ⟨whole, hwhole, hclosed, hbraced⟩ := attrValue?_brace_eq_some hvalue
  exact ⟨whole, after, hwhole, hclosed, AttrValue.braced.inj hbraced, hattrs⟩

/-- What ends a tag. -/
def endText (selfClosing : Bool) : List Char := if selfClosing then ['/', '>'] else ['>']

theorem stops_endText {p : Char → Bool} (hslash : p '/' = false) (hgt : p '>' = false)
    (selfClosing : Bool) (rest : List Char) : Stops p (endText selfClosing ++ rest) := by
  cases selfClosing with
  | true => exact stops_cons hslash
  | false => exact stops_cons hgt

theorem attrs?_endText (selfClosing : Bool) (rest : List Char) :
    attrs? (endText selfClosing ++ rest) = some ([], selfClosing, rest) := by
  rw [attrs?_eq, (stops_endText (by decide) (by decide) selfClosing rest).dropWhile]
  cases selfClosing with
  | true => simp [endText]
  | false => simp [endText]

theorem endsAttr_endText {gap : List Char} (hgap : ∀ c ∈ gap, isSpacing c = true)
    (selfClosing : Bool) (rest : List Char) : EndsAttr (gap ++ (endText selfClosing ++ rest)) := by
  refine ⟨stops_append_of_spacing (by decide) hgap
    (stops_endText (by decide) (by decide) selfClosing rest), ?_⟩
  rw [(stops_endText (by decide) (by decide) selfClosing rest).dropWhile_append hgap]
  cases selfClosing <;> simp [endText]

/-- A tag is read back, whatever spacing it has and whatever follows it. -/
theorem tag?_spacedText {name : List Char} (hname : isTagName name = true)
    {as : List (List Char × Attr)} (has : Spaced as) {gap : List Char}
    (hgap : ∀ c ∈ gap, isSpacing c = true) (selfClosing : Bool) (rest : List Char) :
    tag? ('<' :: (name ++ (spacedText as ++ (gap ++ (endText selfClosing ++ rest))))) =
      some (⟨name, as.map (fun a => a.2.tidy), selfClosing⟩, rest) := by
  have hstops : Stops isTagNameChar (gap ++ (endText selfClosing ++ rest)) :=
    stops_append_of_spacing (by decide) hgap
      (stops_endText (by decide) (by decide) selfClosing rest)
  rw [tag?_name hname (stops_spacedText (by decide) has hstops),
    attrs?_spacedText has (endsAttr_endText hgap selfClosing rest),
    attrs?_append_of_spacing hgap, attrs?_endText]
  simp

theorem tag?_openText {name : List Char} (hname : isTagName name = true) {attrs : List Attr}
    (hattrs : ∀ a ∈ attrs, a.Closed) {gap : List Char} (hgap : ∀ c ∈ gap, isSpacing c = true)
    (selfClosing : Bool) (rest : List Char) :
    tag? (openText name attrs ++ (gap ++ (endText selfClosing ++ rest))) =
      some (⟨name, attrs.map Attr.tidy, selfClosing⟩, rest) := by
  have hsplit : openText name attrs = '<' :: (name ++ attrsText attrs) := rfl
  have h := tag?_spacedText hname (spaced_space hattrs) hgap selfClosing rest
  rw [List.map_map, ← attrsText_eq] at h
  rw [hsplit, List.cons_append, List.append_assoc]
  exact h

theorem tag?_open {name : List Char} (hname : isTagName name = true) {attrs : List Attr}
    (hattrs : ∀ a ∈ attrs, a.Closed) (rest : List Char) :
    tag? (openText name attrs ++ '>' :: rest) =
      some (⟨name, attrs.map Attr.tidy, false⟩, rest) :=
  tag?_openText hname hattrs (List.forall_mem_nil _) false rest

theorem tag?_void {name : List Char} (hname : isTagName name = true) {attrs : List Attr}
    (hattrs : ∀ a ∈ attrs, a.Closed) (rest : List Char) :
    tag? (openText name attrs ++ ' ' :: '/' :: '>' :: rest) =
      some (⟨name, attrs.map Attr.tidy, true⟩, rest) :=
  tag?_openText hname hattrs isGap_space.spacing true rest

/-! ## The end of a tag for the bracket machine -/

/-- No character of a name has a meaning inside a tag. -/
theorem leads_name {name : List Char} (h : ∀ c ∈ name, isAttrNameChar c = true ∨ c = ' ' ∨ c = '=')
    (below : List Frame) : Leads (.tag :: below) (.tag :: below) name := by
  refine leads_self fun c hc => step_tag_of_not_mem ?_ below
  rcases h c hc with hname | rfl | rfl
  · exact not_mem_of_class (by decide) hname
  · decide
  · decide

theorem leads_text {a : Attr} (ha : a.Closed) (below : List Frame) :
    Leads (.tag :: below) (.tag :: below) a.text := by
  have hname : Leads (.tag :: below) (.tag :: below) a.name :=
    leads_name (fun c hc => .inl (isAttrNameChar_of_mem ha.name hc)) below
  have hvalue := ha.value
  rw [Attr.text.eq_def]
  cases hv : a.value with
  | bare => exact hname
  | quoted cs =>
      rw [hv] at hvalue
      exact hname.append (.cons rfl (.cons rfl (leads_of_close hvalue (.tag :: below))))
  | braced cs =>
      rw [hv] at hvalue
      exact hname.append (.cons rfl (.cons rfl (leads_of_close hvalue (.tag :: below))))

/-- The machine passes over an opening tag up to the end of its attributes. -/
theorem leads_openText {name : List Char} (hname : isTagName name = true) {attrs : List Attr}
    (hattrs : ∀ a ∈ attrs, a.Closed) (below : List Frame) :
    Leads (.tag :: below) (.tag :: below) (name ++ attrsText attrs) := by
  have hchar : ∀ c ∈ name, isAttrNameChar c = true := by
    intro c hc
    have h := isTagNameChar_of_mem hname hc
    simp only [isTagNameChar, Char.isAlphanum, Bool.or_eq_true, beq_iff_eq] at h
    simp only [isAttrNameChar, isAttrNameStart, Bool.or_eq_true, beq_iff_eq]
    tauto
  refine (leads_name (fun c hc => .inl (hchar c hc)) below).append ?_
  -- What is left is an induction on the attributes, in which the name plays no part.
  clear hname hchar
  induction attrs with
  | nil => exact Leads.nil _
  | cons a as ih =>
      rw [attrsText, List.flatMap_cons]
      refine Leads.append (.cons rfl (leads_text (hattrs a List.mem_cons_self) below)) ?_
      exact ih fun b hb => hattrs b (List.mem_cons_of_mem _ hb)

end Tandem.Markup
