import Tandem.Proofs.Octet.Tag

/-!
# Elements by octet positions

The elements from a position on are those of the characters there (`elements_offset`). The
closing tag of an element is found at the same place, with the count of open elements never
below zero (`findClosing_offset`), so what is taken out as inner markup is a text.
-/

namespace Tandem.Octet

open Text Markup

variable {text : List Char}

/-! ## Closing tags -/

theorem isAscii_of_isTagNameChar {c : Char} (h : isTagNameChar c = true) : isAscii c = true := by
  simp only [isTagNameChar, Char.isAlphanum, Bool.or_eq_true, beq_iff_eq] at h
  rcases h with (((h | h) | rfl) | rfl) | rfl
  · exact isAscii_of_isAlpha h
  · simp only [Char.isDigit, Bool.and_eq_true, decide_eq_true_eq, UInt32.le_iff_toNat_le] at h
    have hcode : c.toNat = c.val.toNat := rfl
    exact decide_eq_true (Nat.lt_of_le_of_lt (hcode ▸ h.2) (by decide))
  · decide
  · decide
  · decide

theorem encode_of_isAscii {cs : List Char} (h : ∀ c ∈ cs, isAscii c = true) : encode cs = cs := by
  induction cs with
  | nil => rfl
  | cons c cs ih =>
      rw [encode_cons, ofChar_of_isAscii (h c List.mem_cons_self),
        ih fun d hd => h d (List.mem_cons_of_mem c hd), List.singleton_append]

/-- The octets start with an ASCII word exactly if the characters do. -/
theorem isPrefixOf_encode {word : List Char} (hword : ∀ c ∈ word, isAscii c = true)
    (cs : List Char) : word.isPrefixOf (encode cs) = (word.isPrefixOf? cs).isSome := by
  induction word generalizing cs with
  | nil => simp [List.isPrefixOf?]
  | cons w word ih =>
      cases cs with
      | nil => rfl
      | cons c cs =>
          have hw : isAscii w = true := hword w List.mem_cons_self
          have htail := ih (fun d hd => hword d (List.mem_cons_of_mem w hd)) cs
          rw [encode_cons]
          cases hc : isAscii c with
          | true =>
              rw [ofChar_of_isAscii hc, List.singleton_append, List.isPrefixOf, htail,
                List.isPrefixOf?]
              cases w == c <;> rfl
          | false =>
              have hne : (w == c) = false :=
                beq_eq_false_iff_ne.mpr (ne_of_isAscii hc hw).symm
              obtain ⟨b, bs, hbs⟩ : ∃ b bs, ofChar c = b :: bs := by
                refine List.exists_cons_of_ne_nil fun hnil => ?_
                have hsize := length_ofChar c
                rw [hnil] at hsize
                exact absurd hsize.symm (Nat.ne_of_gt (Char.utf8Size_pos c))
              have hb : (w == b) = false := by
                have hoctet := isAscii_eq_false_of_mem hc (hbs ▸ List.mem_cons_self : b ∈ ofChar c)
                exact beq_eq_false_iff_ne.mpr (ne_of_isAscii hoctet hw).symm
              rw [hbs, List.cons_append, List.isPrefixOf, hb, Bool.false_and, List.isPrefixOf?, hne]
              rfl

section

variable {name : List Char}

theorem closingEnd_offset (hname : isTagName name = true) {cs : List Char} (h : cs <:+ text) :
    closingEnd text name (offset text cs) = (closingTag? name cs).map (offset text) := by
  have hfront : ∀ c ∈ '<' :: '/' :: name, isAscii c = true := by
    intro c hc
    simp only [List.mem_cons] at hc
    rcases hc with rfl | rfl | hc
    · decide
    · decide
    · exact isAscii_of_isTagNameChar (isTagNameChar_of_mem hname hc)
  rw [closingEnd, drop_offset h, encode_of_isAscii hfront, isPrefixOf_encode hfront, closingTag?]
  cases hprefix : ('<' :: '/' :: name).isPrefixOf? cs with
  | none => rfl
  | some rest =>
      have hcs := List.isPrefixOf?_eq_some_iff_append_eq.mp hprefix
      have hrest : rest <:+ text := List.IsSuffix.trans ⟨_, hcs⟩ h
      have hsuffix : rest.dropWhile isSpacing <:+ text := (List.dropWhile_suffix _).trans hrest
      have hbehind : offset text cs + octetLength ('<' :: '/' :: name) = offset text rest := by
        rw [← hcs] at h ⊢
        exact (offset_append_right h).symm
      simp only [hbehind, skipSpacing_offset hrest, Option.isSome_some, Bool.true_and,
        beq_offset hsuffix (by decide : isAscii '>' = true)]
      cases hdrop : rest.dropWhile isSpacing with
      | nil => rfl
      | cons d after =>
          rw [hdrop] at hsuffix
          by_cases hd : d = '>'
          · subst hd
            rw [List.head?_cons, beq_self_eq_true, if_pos rfl,
              offset_cons_of_isAscii hsuffix (by decide)]
            rfl
          · rw [List.head?_cons, head?_ne_some hd, if_neg Bool.false_ne_true]
            split
            next heq => cases heq; exact absurd rfl hd
            next => rfl

theorem closingTag?_suffix {c : Char} {cs after : List Char}
    (h : closingTag? name (c :: cs) = some after) : after <:+ cs := by
  have hlt := closingTag?_length h
  rw [closingTag?] at h
  split at h
  next => cases h
  next rest hprefix =>
    split at h
    next heq =>
      cases h
      have hdrop := List.dropWhile_suffix (l := rest) isSpacing
      rw [heq] at hdrop
      have hwhole : after <:+ c :: cs := (List.suffix_cons _ after).trans
        (hdrop.trans ⟨_, List.isPrefixOf?_eq_some_iff_append_eq.mp hprefix⟩)
      exact List.suffix_of_suffix_length_le hwhole (List.suffix_cons c cs)
        (Nat.le_of_lt_succ hlt)
    next => cases h

theorem attrs?_suffix {cs rest : List Char} {attrs : List Attr} {selfClosing : Bool}
    (h : attrs? cs = some (attrs, selfClosing, rest)) : rest <:+ cs := by
  induction hlen : cs.length using Nat.strong_induction_on generalizing cs attrs with
  | _ n ih =>
      have hdrop := List.dropWhile_suffix (l := cs) isSpacing
      rw [attrs?_eq_attr?] at h
      split at h
      next => cases h
      next c after heq =>
        rw [heq] at hdrop
        have hafter : after <:+ cs := (List.suffix_cons c after).trans hdrop
        split at h
        next => cases h; exact hafter
        split at h
        next => cases h; exact (List.tail_suffix after).trans hafter
        split at h
        next => cases h
        obtain ⟨⟨attr, next⟩, hattr, hmap⟩ := Option.bind_eq_some_iff.mp h
        obtain ⟨⟨attrs', selfClosing', rest'⟩, hattrs, hr⟩ := Option.map_eq_some_iff.mp hmap
        cases hr
        have hnext := attr?_suffix hattr
        have hlt : next.length < n := by
          rw [← hlen]
          exact Nat.lt_of_le_of_lt hnext.length_le hdrop.length_le
        exact (ih next.length hlt hattrs rfl).trans (hnext.trans hafter)

theorem tag?_eq_some {cs rest : List Char} {t : Tag} (h : tag? cs = some (t, rest)) :
    ∃ tail, cs = '<' :: tail ∧ rest <:+ tail ∧ isTagName t.name = true := by
  simp only [tag?, Option.bind_eq_bind, Option.bind_eq_some_iff, Option.pure_def,
    Option.some.injEq, Prod.mk.injEq, Prod.exists] at h
  obtain ⟨name, after, hname, attrs, selfClosing, rest', hattrs, rfl, rfl⟩ := h
  obtain ⟨rfl, hvalid⟩ := tagName?_eq_cons hname
  exact ⟨_, rfl, (attrs?_suffix hattrs).trans (List.suffix_append name after), hvalid⟩

theorem tagAt_offset {cs : List Char} (h : cs <:+ text) :
    tagAt text (offset text cs) = .ok ((tag? cs).map fun r => (r.1, offset text r.2)) := by
  rw [tagAt, isTagStart_offset h]
  cases hstart : startsElement cs with
  | true => rw [if_pos rfl, openTag_offset h, optional_answer]
  | false => rw [if_neg Bool.false_ne_true, tag?_eq_none hstart]; rfl

theorem passes_findClosing (depth : Nat) : Passes text (findClosing text name depth) := by
  intro i hi hascii
  have hne : (encode text)[i] ≠ '<' := ne_of_isAscii hascii (by decide)
  have hclosing : closingEnd text name i = none := by
    have hprefix : (encode ('<' :: '/' :: name)).isPrefixOf ((encode text).drop i) = false := by
      rw [List.drop_eq_getElem_cons hi, encode_cons, ofChar_of_isAscii (by decide),
        List.singleton_append, List.isPrefixOf, beq_eq_false_iff_ne.mpr hne.symm, Bool.false_and]
    simp only [closingEnd, hprefix, Bool.false_and, Bool.false_eq_true, if_false]
  have htag : isTagStart text i = false := by
    rw [isTagStart, List.getElem?_eq_getElem hi, head?_ne_some hne, Bool.false_and]
  rw [findClosing, if_pos hi, hclosing, tagAt, htag]
  rfl

/-- From here on, the closing tag of an element is found by octets as by characters. -/
def ScansClosing (text name cs : List Char) : Prop :=
  ∀ depth, findClosing text name (depth + 1) (offset text cs) =
    answer (fun r => (offset text r.1, offset text r.2)) (findClosing? name depth cs)

section

variable {c : Char} {cs after : List Char}

/-- A closing tag of the name ends the element, or one inside it. -/
theorem scansClosing_close (hname : isTagName name = true) (h : c :: cs <:+ text)
    (hclosing : closingTag? name (c :: cs) = some after) (hafter : ScansClosing text name after) :
    ScansClosing text name (c :: cs) := by
  intro depth
  rw [findClosing, if_pos (offset_lt_length h), closingEnd_offset hname h, findClosing?_cons,
    hclosing]
  show (if depth = 0 then .ok (offset text (c :: cs), offset text after)
    else if offset text (c :: cs) < offset text after then
      findClosing text name depth (offset text after) else .error .stuck) = _
  cases depth with
  | zero => rfl
  | succ d =>
      rw [if_neg (Nat.succ_ne_zero d), if_pos (offset_pos h (closingTag?_suffix hclosing))]
      exact hafter d

/-- An opening tag is stepped over, and counted if it has the name. -/
theorem scansClosing_open {t : Tag} (hname : isTagName name = true) (h : c :: cs <:+ text)
    (hclosing : closingTag? name (c :: cs) = none) (htag : tag? (c :: cs) = some (t, after))
    (hsuffix : after <:+ cs) (hafter : ScansClosing text name after) :
    ScansClosing text name (c :: cs) := by
  intro depth
  have hdepth : (if t.name = name ∧ ¬t.selfClosing then depth + 1 + 1 else depth + 1) =
      (if t.name = name ∧ ¬t.selfClosing then depth + 1 else depth) + 1 := by
    split <;> rfl
  rw [findClosing, if_pos (offset_lt_length h), closingEnd_offset hname h, findClosing?_cons,
    hclosing]
  simp only [Option.map_none]
  rw [tagAt_offset h, htag]
  show (if offset text (c :: cs) < offset text after then
    findClosing text name (if t.name = name ∧ ¬t.selfClosing then depth + 1 + 1 else depth + 1)
      (offset text after) else .error .stuck) = _
  rw [if_pos (offset_pos h hsuffix), hdepth]
  exact hafter _

theorem scansClosing_other (hname : isTagName name = true) (h : c :: cs <:+ text)
    (hclosing : closingTag? name (c :: cs) = none) (htag : tag? (c :: cs) = none)
    (hcs : ScansClosing text name cs) : ScansClosing text name (c :: cs) := by
  intro depth
  rw [findClosing, if_pos (offset_lt_length h), closingEnd_offset hname h, findClosing?_cons,
    hclosing]
  simp only [Option.map_none]
  rw [tagAt_offset h, htag]
  show findClosing text name (depth + 1) (offset text (c :: cs) + 1) = _
  rw [(passes_findClosing (depth + 1)).offset_cons_add_one h]
  exact hcs depth

end

/-- **The closing tag of an element is found where the characters have it**, and the count
of open elements never goes below zero. -/
theorem findClosing_offset (hname : isTagName name = true) {cs : List Char} (h : cs <:+ text) :
    ScansClosing text name cs := by
  refine suffix_induction ?_ ?_ h
  · intro depth
    rw [offset_nil, findClosing, if_neg (Nat.lt_irrefl _), findClosing?]
    rfl
  intro c cs h hcs
  cases hclosing : closingTag? name (c :: cs) with
  | some after =>
      exact scansClosing_close hname h hclosing (hcs after (closingTag?_suffix hclosing))
  | none =>
      cases htag : tag? (c :: cs) with
      | none => exact scansClosing_other hname h hclosing htag (hcs cs (List.suffix_refl cs))
      | some r =>
          obtain ⟨t, after⟩ := r
          obtain ⟨tail, heq, hafter, -⟩ := tag?_eq_some htag
          obtain ⟨-, rfl⟩ := List.cons.inj heq
          exact scansClosing_open hname h hclosing htag hafter (hcs after hafter)

end

theorem findClosing?_suffix {name cs closing after : List Char} {depth : Nat}
    (h : findClosing? name depth cs = some (closing, after)) :
    closing <:+ cs ∧ ∃ c tail, closing = c :: tail ∧ after <:+ tail := by
  induction hlen : cs.length using Nat.strong_induction_on generalizing cs depth with
  | _ n ih =>
      cases cs with
      | nil => rw [findClosing?] at h; cases h
      | cons c cs =>
          have hgo : ∀ {rest depth}, rest <:+ cs → findClosing? name depth rest =
              some (closing, after) → closing <:+ c :: cs ∧ ∃ c tail, closing = c :: tail ∧
                after <:+ tail := by
            intro rest depth hrest hfind
            obtain ⟨hsuffix, hafter⟩ :=
              ih rest.length (by rw [← hlen]; exact Nat.lt_succ_of_le hrest.length_le) hfind rfl
            exact ⟨hsuffix.trans (hrest.trans (List.suffix_cons c cs)), hafter⟩
          rw [findClosing?_cons] at h
          split at h
          next after' hclosing =>
            have hafter := closingTag?_suffix hclosing
            split at h
            next =>
              cases h
              exact ⟨List.suffix_refl _, c, cs, rfl, hafter⟩
            next => exact hgo hafter h
          next =>
            split at h
            next t after' htag =>
              obtain ⟨tail, heq, hafter, -⟩ := tag?_eq_some htag
              obtain ⟨-, rfl⟩ := List.cons.inj heq
              exact hgo hafter h
            next => exact hgo (List.suffix_refl cs) h

/-! ## Elements -/

/-- The element that starts here with its inner markup unread, and what is behind it. -/
def element? (cs : List Char) : Option (Fragment × Option (List Char)) :=
  (tag? cs).map fun (t, after) =>
    if t.selfClosing then (⟨t.name, t.attrs, none⟩, some after)
    else
      match findClosing? t.name 0 after with
      | none => (⟨t.name, t.attrs, some (trim after)⟩, none)
      | some (closing, next) => (⟨t.name, t.attrs, some (trim (upTo after closing))⟩, some next)

theorem element_offset {cs : List Char} (h : cs <:+ text) :
    element text (offset text cs) =
      answer (fun r => (r.1, r.2.map (offset text))) (element? cs) := by
  rw [element, openTag_offset h, element?]
  cases htag : tag? cs with
  | none => rfl
  | some r =>
      obtain ⟨t, after⟩ := r
      obtain ⟨tail, rfl, hafter, hname⟩ := tag?_eq_some htag
      have hsuffix : after <:+ text := hafter.trans (suffix_of_cons h)
      show (if t.selfClosing then
          pure ((⟨t.name, t.attrs, none⟩ : Fragment), some (offset text after))
        else optional (findClosing text t.name 1 (offset text after)) >>= fun r => _) = _
      rw [findClosing_offset hname hsuffix 0, optional_answer, Option.map_some]
      cases hself : t.selfClosing with
      | true => simp only [hself, if_true]; rfl
      | false =>
          simp only [hself, Bool.false_eq_true, if_false]
          cases hfind : findClosing? t.name 0 after with
          | none =>
              show (slice text (offset text after) (encode text).length >>= fun inner => _) = _
              rw [slice_offset_length hsuffix]
              rfl
          | some r =>
              obtain ⟨closing, next⟩ := r
              obtain ⟨hclosing, -⟩ := findClosing?_suffix hfind
              show (slice text (offset text after) (offset text closing) >>= fun inner => _) = _
              rw [slice_offset hsuffix hclosing]
              rfl

/-- The text from the first opening tag on. -/
def elementStart? : List Char → Option (List Char)
  | [] => none
  | c :: cs => if startsElement (c :: cs) then some (c :: cs) else elementStart? cs

theorem elementStart?_suffix {cs start : List Char} (h : elementStart? cs = some start) :
    start <:+ cs := by
  induction cs with
  | nil => cases h
  | cons c cs ih =>
      rw [elementStart?] at h
      split at h
      · cases h; exact List.suffix_refl _
      · exact (ih h).trans (List.suffix_cons c cs)

theorem isSome_elementStart? (cs : List Char) : (elementStart? cs).isSome = hasElement cs := by
  induction cs with
  | nil => rfl
  | cons c cs ih =>
      rw [elementStart?, hasElement, ← ih]
      cases startsElement (c :: cs) <;> rfl

theorem tagStartFrom_offset {cs : List Char} (h : cs <:+ text) :
    tagStartFrom text (offset text cs) = (elementStart? cs).map (offset text) := by
  have hpasses : Passes text (tagStartFrom text) := by
    intro i hi hascii
    have htag : isTagStart text i = false := by
      rw [isTagStart, List.getElem?_eq_getElem hi,
        head?_ne_some (ne_of_isAscii hascii (by decide)), Bool.false_and]
    rw [tagStartFrom, if_pos hi, htag, if_neg Bool.false_ne_true]
  induction cs with
  | nil => rw [offset_nil, tagStartFrom, if_neg (Nat.lt_irrefl _)]; rfl
  | cons c cs ih =>
      rw [tagStartFrom, if_pos (offset_lt_length h), isTagStart_offset h, elementStart?,
        hpasses.offset_cons_add_one h, ih (suffix_of_cons h)]
      split <;> rfl

theorem fragments_eq (cs : List Char) :
    fragments cs =
      match (elementStart? cs).bind element? with
      | none => []
      | some (f, none) => [f]
      | some (f, some next) => f :: fragments next := by
  induction cs with
  | nil => rw [fragments]; rfl
  | cons c cs ih =>
      rw [fragments_cons, elementStart?]
      cases hstart : startsElement (c :: cs) with
      | false => rw [if_neg Bool.false_ne_true, if_neg Bool.false_ne_true, ih]
      | true =>
          rw [if_pos rfl, if_pos rfl, Option.bind_some, element?]
          cases tag? (c :: cs) with
          | none => rfl
          | some r =>
              obtain ⟨t, after⟩ := r
              simp only [Option.map_some]
              cases t.selfClosing with
              | true => simp only [if_true]
              | false =>
                  simp only [Bool.false_eq_true, if_false]
                  cases findClosing? t.name 0 after <;> rfl

theorem element?_suffix {cs next : List Char} {f : Fragment}
    (h : element? cs = some (f, some next)) : next <:+ cs.tail := by
  obtain ⟨⟨t, after⟩, htag, heq⟩ := Option.map_eq_some_iff.mp h
  obtain ⟨tail, rfl, hafter, -⟩ := tag?_eq_some htag
  simp only at heq
  split at heq
  next => cases heq; exact hafter
  next =>
    split at heq
    next => cases heq
    next closing next' hfind =>
      cases heq
      obtain ⟨hclosing, c, rest, rfl, hnext⟩ := findClosing?_suffix hfind
      exact (hnext.trans (List.suffix_cons c rest)).trans (hclosing.trans hafter)

/-- **The elements from a position on are those of the characters there.** -/
theorem elements_offset {cs : List Char} (h : cs <:+ text) :
    elements text (offset text cs) = .ok (fragments cs) := by
  induction hlen : cs.length using Nat.strong_induction_on generalizing cs with
  | _ n ih =>
      rw [elements, tagStartFrom_offset h, fragments_eq]
      cases hstart : elementStart? cs with
      | none => rfl
      | some start =>
          have hsuffix := elementStart?_suffix hstart
          simp only [Option.map_some, Option.bind_some]
          rw [element_offset (hsuffix.trans h), optional_answer]
          cases helement : element? start with
          | none => rfl
          | some r =>
              obtain ⟨f, next?⟩ := r
              cases next? with
              | none => rfl
              | some next =>
                  obtain ⟨hnext, hlt⟩ : next <:+ cs ∧ next.length < cs.length := by
                    have htail := element?_suffix helement
                    cases start with
                    | nil => cases helement
                    | cons c rest =>
                        exact ⟨htail.trans ((List.suffix_cons c rest).trans hsuffix),
                          Nat.lt_of_le_of_lt htail.length_le hsuffix.length_le⟩
                  have hmoves : offset text cs < offset text next ∧
                      offset text next ≤ (encode text).length := by
                    refine ⟨offset_lt h hnext hlt, ?_⟩
                    rw [← offset_nil]
                    exact offset_le (hnext.trans h) List.nil_suffix
                  show (if offset text cs < offset text next ∧
                      offset text next ≤ (encode text).length then
                    elements text (offset text next) >>= fun parts => pure (f :: parts)
                    else .error .stuck) = _
                  rw [if_pos hmoves, ih next.length (hlen ▸ hlt) (hnext.trans h) rfl]
                  rfl

theorem elements_zero (text : List Char) : elements text 0 = .ok (fragments text) := by
  rw [← offset_self text, elements_offset (List.suffix_refl text)]

theorem isSome_tagStartFrom_zero (text : List Char) :
    (tagStartFrom text 0).isSome = hasElement text := by
  rw [← offset_self text, tagStartFrom_offset (List.suffix_refl text), Option.isSome_map,
    isSome_elementStart?]

end Tandem.Octet
