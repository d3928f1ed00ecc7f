import Tandem.Proofs.Octet.Element

/-!
# Where a tag ends

A tag is scanned in two ways. The reader of tags goes from attribute to attribute (`openTag`);
what looks for the end of a body, or for the tags around a position, knows only quotes, braces and
angle brackets (`tagEnd`). Some of a tag the reader takes as it comes, which is characters that
start no attribute and values without quotes (`looseText`). The two scans part only there:

* **one attribute** — `closeTag_attr`: it is passed over by both, but for a loose quote or brace;
* **the attributes** — `closeTag_eq`, by the reader's own recursion;
* **a tag** — `tagEnds_agree`: without loose quotes and braces both ends are one, and with them
  they are exactly if the tag closes itself when it is scanned alone.

With a loose quote the ends do part (`quote_in_value_parts_ends`).
-/

namespace Tandem.Octet

open Text Markup

variable {text : List Char} {c : Char} {cs rest : List Char}

/-! ## What is taken as it comes -/

/-- The character opens a value that has an end of its own. -/
def opensValue (c : Char) : Bool := c == '"' || c == '\'' || c == '\x7b'

/-- The value without quotes behind an equals sign, if it has none. -/
def looseValue (cs : List Char) : List Char :=
  match cs.dropWhile isSpacing with
  | [] => []
  | c :: rest => if opensValue c then [] else (unquoted (c :: rest)).1

/-- What is loose behind an attribute's name. -/
def looseRest (cs : List Char) : List Char :=
  match cs.dropWhile isSpacing with
  | '=' :: rest => looseValue rest
  | _ => []

/-- What is loose in the attribute that the characters start: a character that starts none, or
a value without quotes. -/
def looseStart (c : Char) (cs : List Char) : List Char :=
  match attrName? (c :: cs) with
  | none => [c]
  | some (_, rest) => looseRest rest

/-- What is loose in the attributes up to the end of the tag. -/
def looseText (cs : List Char) : List Char :=
  match _hcs : cs.dropWhile isSpacing with
  | [] => []
  | c :: rest =>
    if c = '>' ∨ (c = '/' ∧ rest.head? = some '>') ∨ c = '<' then []
    else
      looseStart c rest ++
        match _hattr : attr? c rest with
        | none => []
        | some (_, after) => looseText after
termination_by cs.length
decreasing_by
  have hrest := (attr?_suffix _hattr).length_le
  have hdrop := length_dropWhile_le isSpacing cs
  rw [_hcs, List.length_cons] at hdrop
  omega

/-- There is no quote and no brace among the characters. -/
def Harmless (cs : List Char) : Prop := ∀ c ∈ cs, opensValue c = false

/-! ## Characters without a meaning in a tag -/

theorem closeTag_append {front : List Char} (h : ∀ c ∈ front, c ∉ tagMarks) (rest : List Char) :
    closeTag (front ++ rest) = closeTag rest := by
  induction front with
  | nil => rfl
  | cons c front ih =>
      rw [List.cons_append, closeTag_cons (h c List.mem_cons_self)]
      exact ih fun d hd => h d (List.mem_cons_of_mem c hd)

theorem closeTag_dropWhile {p : Char → Bool} (hp : tagMarks.all (fun d => !p d) = true)
    (cs : List Char) : closeTag (cs.dropWhile p) = closeTag cs := by
  have hfront : ∀ c ∈ cs.takeWhile p, c ∉ tagMarks := fun c hc =>
    not_mem_of_class hp (List.all_eq_true.mp List.all_takeWhile c hc)
  rw [← closeTag_append hfront, List.takeWhile_append_dropWhile]

theorem closeTag_dropSpacing (cs : List Char) :
    closeTag (cs.dropWhile isSpacing) = closeTag cs :=
  closeTag_dropWhile (by decide) cs

/-! ## One attribute -/

theorem ne_of_mem_unquoted (h : c ∈ (unquoted cs).1) : c ≠ '>' := by
  induction cs with
  | nil => cases h
  | cons d cs ih =>
      rw [unquoted] at h
      split at h
      next => cases h
      next hstop =>
        rcases List.mem_cons.mp h with rfl | h
        · rintro rfl
          exact hstop rfl
        · exact ih h

/-- Of loose characters only `<` is not passed over. -/
theorem closeTag_loose {loose : List Char} (hgt : ∀ c ∈ loose, c ≠ '>') (h : Harmless loose)
    (rest : List Char) :
    closeTag (loose ++ rest) = if '<' ∈ loose then none else closeTag rest := by
  induction loose with
  | nil => rfl
  | cons c loose ih =>
      by_cases hlt : c = '<'
      · subst hlt
        rw [if_pos List.mem_cons_self]
        rfl
      · have hc := h c List.mem_cons_self
        have hmarks : c ∉ tagMarks := by
          simp only [opensValue, Bool.or_eq_false_iff, beq_eq_false_iff_ne] at hc
          simp [tagMarks, hc, hlt, hgt c List.mem_cons_self]
        have htail := ih (fun d hd => hgt d (List.mem_cons_of_mem c hd))
          fun d hd => h d (List.mem_cons_of_mem c hd)
        rw [List.cons_append, closeTag_cons hmarks, htail]
        simp [Ne.symm hlt]

/-- A value is passed over, one without quotes but for a loose quote, brace or `<` in it. -/
theorem closeTag_value (h : Harmless (looseValue cs)) :
    closeTag cs = if '<' ∈ looseValue cs then none
      else (attrValue? cs).bind fun r => closeTag r.2 := by
  rw [looseValue] at h ⊢
  rw [attrValue?, ← closeTag_dropSpacing]
  cases hcs : cs.dropWhile isSpacing with
  | nil => rfl
  | cons c rest =>
      rw [hcs] at h
      simp only at h ⊢
      by_cases hquote : c = '"' ∨ c = '\''
      · have hopens : opensValue c = true := by rcases hquote with rfl | rfl <;> rfl
        rw [if_pos hopens, if_neg List.not_mem_nil, if_pos hquote, closeTag_quote hquote]
        cases closeQuote c rest <;> rfl
      by_cases hbrace : c = '\x7b'
      · have hopens : opensValue c = true := by rw [hbrace]; rfl
        rw [if_pos hopens, if_neg List.not_mem_nil, if_neg hquote, if_pos hbrace, hbrace,
          closeTag_brace]
        cases closeBrace rest <;> rfl
      · have hopens : opensValue c = false := by
          rw [not_or] at hquote
          simp [opensValue, hquote, hbrace]
        rw [hopens, if_neg Bool.false_ne_true] at h ⊢
        rw [if_neg hquote, if_neg hbrace, Option.bind_some,
          ← closeTag_loose (fun _ => ne_of_mem_unquoted) h, unquoted_append]

theorem closeTag_rest (h : Harmless (looseRest cs)) :
    closeTag cs = if '<' ∈ looseRest cs then none
      else (attrRest? cs).bind fun r => closeTag r.2 := by
  by_cases hequals : ∃ rest, cs.dropWhile isSpacing = '=' :: rest
  · obtain ⟨rest, heq⟩ := hequals
    rw [looseRest, heq] at h ⊢
    rw [attrRest?, ← closeTag_dropSpacing, heq, closeTag_cons (by decide)]
    exact closeTag_value h
  · have hnone : looseRest cs = [] := by
      rw [looseRest]
      split
      next rest heq => exact absurd ⟨rest, heq⟩ hequals
      next => rfl
    have hbare : attrRest? cs = some (.bare, cs.dropWhile isSpacing) := by
      rw [attrRest?]
      split
      next rest heq => exact absurd ⟨rest, heq⟩ hequals
      next => rfl
    rw [hnone, if_neg List.not_mem_nil, hbare, Option.bind_some, closeTag_dropSpacing]

/-- An attribute is passed over, but for a loose quote, brace or `<` in it. -/
theorem closeTag_attr (hgt : c ≠ '>') (h : Harmless (looseStart c cs)) :
    closeTag (c :: cs) = if '<' ∈ looseStart c cs then none
      else (attr? c cs).bind fun r => closeTag r.2 := by
  rw [looseStart] at h ⊢
  rw [attr?]
  cases hname : attrName? (c :: cs) with
  | none =>
      rw [hname] at h
      have hc : ∀ d ∈ [c], d ≠ '>' := fun d hd => List.mem_singleton.mp hd ▸ hgt
      exact closeTag_loose hc h cs
  | some p =>
      obtain ⟨name, rest⟩ := p
      rw [hname] at h
      obtain ⟨happend, _⟩ := attrName?_append_eq hname
      have hchars : ∀ d ∈ name, d ∉ tagMarks := fun d hd =>
        not_mem_of_class (by decide) (isAttrNameChar_of_mem (attrName?_named hname) hd)
      rw [← happend, closeTag_append hchars, closeTag_rest h, Option.bind_map]
      rfl

/-! ## Tags -/

/-- **Behind a tag's name both scans come to one end**, as long as no quote and no brace is
loose; behind a loose `<` only the reader of tags goes on. -/
theorem closeTag_eq (h : Harmless (looseText cs)) :
    closeTag cs = if '<' ∈ looseText cs then none else (attrs? cs).map (·.2.2) := by
  fun_induction looseText cs with
  | case1 cs hcs =>
      rw [← closeTag_dropSpacing, attrs?_eq_attr?, hcs]
      rfl
  | case2 cs c rest hcs hend =>
      rw [← closeTag_dropSpacing, attrs?_eq_attr?, hcs, if_neg List.not_mem_nil]
      rcases hend with rfl | ⟨rfl, hgt⟩ | rfl
      · rw [closeTag_gt]
        rfl
      · obtain ⟨after, rfl⟩ := List.head?_eq_some_iff.mp hgt
        rw [closeTag_cons (by decide), closeTag_gt]
        rfl
      · rfl
  | case3 cs c rest hcs hend ih =>
      rw [not_or, not_or] at hend
      obtain ⟨hgt, hslash, hlt⟩ := hend
      obtain ⟨hstart, hlater⟩ := List.forall_mem_append.mp h
      rw [← closeTag_dropSpacing, attrs?_eq_attr?, hcs, closeTag_attr hgt hstart]
      simp only [if_neg hgt, if_neg hslash, if_neg hlt, List.mem_append]
      -- A loose `<` here ends one scan; without one both are behind the attribute.
      by_cases hmem : '<' ∈ looseStart c rest
      · rw [if_pos hmem, if_pos (.inl hmem)]
      cases hattr : attr? c rest with
      | none =>
          simp only [if_neg hmem, Option.bind_none, Option.map_none, ite_self]
      | some p =>
          obtain ⟨attr, after⟩ := p
          have hafter : Harmless (looseText after) := by
            split at hlater
            next hnone => rw [hattr] at hnone; cases hnone
            next heq => rw [hattr] at heq; cases heq; exact hlater
          rw [if_neg hmem, Option.bind_some, Option.bind_some, Option.map_map,
            ih attr after hattr hafter]
          simp only [hmem, false_or]
          rfl

/-- What is left behind a tag is left behind its attributes. -/
theorem map_tag? (hstart : startsElement ('<' :: cs) = true) :
    (tag? ('<' :: cs)).map (·.2) = (attrs? (cs.dropWhile isTagNameChar)).map (·.2.2) := by
  cases cs with
  | nil => cases hstart
  | cons c cs =>
      have hc : c.isAlpha = true := hstart
      have hname : isTagNameChar c = true := by simp [isTagNameChar, Char.isAlphanum, hc]
      rw [tag?_eq_bind, tagName?, if_pos hc, Option.bind_some, Option.map_map,
        List.dropWhile_cons_of_pos hname]
      rfl

theorem offset_inj {a b : List Char} (ha : a <:+ text) (hb : b <:+ text)
    (h : offset text a = offset text b) : a = b := by
  have hle : ∀ {a b : List Char}, a <:+ text → b <:+ text → offset text a = offset text b →
      a.length ≤ b.length := fun ha hb h =>
    Nat.le_of_not_lt fun hlt => Nat.ne_of_lt ((offset_lt_iff ha hb).mpr hlt) h
  exact (List.suffix_of_suffix_length_le ha hb (hle ha hb h)).eq_of_length_le (hle hb ha h.symm)

/-- The ends are one exactly if the tag that is read closes itself. -/
theorem ends_eq_iff (h : cs <:+ text) {rest rest' : List Char} (hrest : rest <:+ cs)
    (hclose : closeTag cs = some rest') :
    offset text rest = offset text rest' ↔
      ∃ own, slice text (offset text cs) (offset text rest) = .ok own ∧
        closeTag own = some [] := by
  rw [slice_offset h hrest]
  obtain ⟨own, rfl⟩ := hrest
  rw [upTo_append]
  constructor
  · intro heq
    obtain rfl := offset_inj ((List.suffix_append own rest).trans h)
      ((close_suffix hclose).trans h) heq
    exact ⟨own, rfl, close_of_close_append hclose⟩
  · rintro ⟨own', heq, hown⟩
    -- What closes itself alone closes in front of anything, and leaves just that.
    obtain rfl := Except.ok.inj heq
    have hrest : closeTag (own ++ rest) = some rest := (leads_of_close hown []).close rest
    rw [Option.some.inj (hrest.symm.trans hclose)]

/-- **The two scans of a tag come to one end** if no quote and no brace in it is loose; behind a
loose `<` only the reader of tags goes on. Whatever is loose, two ends are one exactly if what the
reader takes for the tag closes itself when it is scanned alone. -/
theorem tagEnds_agree (text : List Char) (i : Nat) (hstart : isTagStart text i = true) :
    ∃ cs, behind? text i = some ('<' :: cs) ∧
      (Harmless (looseText (cs.dropWhile isTagNameChar)) →
        tagEnd text (i + 1) =
          if '<' ∈ looseText (cs.dropWhile isTagNameChar) then .error .absent
          else (openTag text i).map (·.2)) ∧
      ∀ t j k, openTag text i = .ok (t, j) → tagEnd text (i + 1) = .ok k →
        (j = k ↔ ∃ own, slice text (i + 1) j = .ok own ∧ closeTag own = some []) := by
  have hopen : (encode text)[i]? = some '<' := by
    rw [isTagStart, Bool.and_eq_true, beq_iff_eq] at hstart
    exact hstart.1
  obtain ⟨cs, h, rfl⟩ := exists_suffix_of_getElem? (by decide) hopen
  have hcs := suffix_of_cons h
  rw [isTagStart_offset h] at hstart
  rw [openTag_offset h, offset_cons_of_isAscii h (by decide), tagEnd_offset hcs]
  refine ⟨cs, behind?_offset h, fun hloose => ?_, fun t j k htag hclose => ?_⟩
  · have hmap : (located text (tag? ('<' :: cs))).map (·.2) =
        found text ((tag? ('<' :: cs)).map (·.2)) := by
      cases tag? ('<' :: cs) <;> rfl
    rw [hmap, map_tag? hstart, ← closeTag_dropWhile (p := isTagNameChar) (by decide) cs,
      closeTag_eq hloose]
    split <;> rfl
  · obtain ⟨r, hr, heq⟩ := answer_eq_ok_iff.mp htag
    obtain ⟨rfl, rfl⟩ := Prod.mk.inj heq
    obtain ⟨rest', hrest', rfl⟩ := answer_eq_ok_iff.mp hclose
    obtain ⟨tail, heq, hrest, _⟩ := tag?_eq_some hr
    obtain rfl := (List.cons.inj heq).2
    exact ends_eq_iff hcs hrest hrest'

/-- A value without quotes does not part the ends, and a bracket in quotes does not. -/
theorem tagEnds_agree_of_row :
    isTagStart "<Row gap=4 title=\"a > b\">".toList 0 = true ∧
      Harmless (looseText " gap=4 title=\"a > b\">".toList) ∧
      tagEnd "<Row gap=4 title=\"a > b\">".toList 1 =
        (openTag "<Row gap=4 title=\"a > b\">".toList 0).map (·.2) := by
  have hstart : isTagStart "<Row gap=4 title=\"a > b\">".toList 0 = true := by decide +kernel
  have htext : "<Row gap=4 title=\"a > b\">".toList =
      '<' :: "Row gap=4 title=\"a > b\">".toList := by decide
  have hname : "Row gap=4 title=\"a > b\">".toList.dropWhile isTagNameChar =
      " gap=4 title=\"a > b\">".toList := by decide
  have hloose : looseText " gap=4 title=\"a > b\">".toList = ['4'] := by decide +kernel
  have hharmless : Harmless (looseText " gap=4 title=\"a > b\">".toList) := by
    rw [hloose]
    exact List.forall_mem_singleton.mpr rfl
  obtain ⟨cs, hcs, hagree, _⟩ := tagEnds_agree _ 0 hstart
  obtain rfl : "Row gap=4 title=\"a > b\">".toList = cs :=
    (List.cons.inj (htext.symm.trans (Option.some.inj hcs))).2
  rw [hname] at hagree
  refine ⟨hstart, hharmless, (hagree hharmless).trans ?_⟩
  rw [hloose, if_neg (by decide)]

/-- **A quote in a value without quotes parts the ends**: the reader takes it for a part of the
value, the other scan for the start of a quoted text, which it leaves at the next quote behind
the tag. -/
theorem quote_in_value_parts_ends :
    isTagStart "<a b=c\"d>\"e>".toList 0 = true ∧
      openTag "<a b=c\"d>\"e>".toList 0 =
        .ok (⟨['a'], [⟨['b'], .quoted ['c', '"', 'd']⟩], false⟩, 9) ∧
      tagEnd "<a b=c\"d>\"e>".toList 1 = .ok 12 := by
  decide +kernel

end Tandem.Octet
