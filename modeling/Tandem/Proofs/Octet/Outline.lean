import Tandem.Proofs.Octet.Element
import Tandem.Proofs.Text.Entity

/-!
# Outlines by octet positions

References are decoded by cutting the text at every `&` and behind every reference
(`decodeEntities_eq`), and the outline of an element comes from its inner markup as a text
of its own (`outlineOf_eq`). Both give what the reader gives.
-/

namespace Tandem.Octet

open Text Markup Source Style

/-! ## References -/

/-- A character is found at its first occurrence. -/
theorem find?_singleton (d : Char) (cs : List Char) :
    (find? [d] cs = none ∧ d ∉ cs) ∨
    ∃ front rest, cs = front ++ d :: rest ∧ d ∉ front ∧
      find? [d] cs = some (octetLength front) := by
  induction cs with
  | nil => exact .inl ⟨rfl, List.not_mem_nil⟩
  | cons c cs ih =>
      by_cases hc : c = d
      · subst hc
        have hprefix : [c].isPrefixOf (c :: cs) = true := by simp [List.isPrefixOf]
        exact .inr ⟨[], cs, rfl, List.not_mem_nil, by rw [find?, if_pos hprefix]; rfl⟩
      · have hprefix : ¬[d].isPrefixOf (c :: cs) = true := by
          simp [List.isPrefixOf, Ne.symm hc]
        have hmem : ∀ {l : List Char}, d ∉ l → d ∉ c :: l := fun hl hd =>
          (List.mem_cons.mp hd).elim (fun heq => hc heq.symm) hl
        rw [find?, if_neg hprefix]
        obtain ⟨hnone, hcs⟩ | ⟨front, rest, rfl, hfront, hsome⟩ := ih
        · exact .inl ⟨by rw [hnone]; rfl, hmem hcs⟩
        · refine .inr ⟨c :: front, rest, rfl, hmem hfront, ?_⟩
          rw [hsome, octetLength_cons]
          rfl

theorem decodeFrom_eq (n : Nat) (cs : List Char) : decodeFrom n cs = decode (cs.drop n) := by
  induction n generalizing cs with
  | zero => rfl
  | succ n ih =>
      cases cs with
      | nil => rfl
      | cons c cs => exact ih cs

theorem decode_append {front : List Char} (h : '&' ∉ front) (rest : List Char) :
    decode (front ++ rest) = front ++ decode rest := by
  induction front with
  | nil => rfl
  | cons c front ih =>
      obtain ⟨hc, hfront⟩ := not_or.mp (mt List.mem_cons.mpr h)
      have hstep : decode (c :: (front ++ rest)) = c :: decode (front ++ rest) := by
        rw [decode, decodeFrom, if_neg (Ne.symm hc)]
        rfl
      rw [List.cons_append, hstep, ih hfront, List.cons_append]

theorem decode_cons_amp (cs : List Char) :
    decode ('&' :: cs) =
      match references.find? fun r => r.1.isPrefixOf cs with
      | some (word, c) => c :: decode (cs.drop word.length)
      | none => '&' :: decode cs := by
  rw [decode, decodeFrom, if_pos rfl, reference?]
  cases references.find? fun r => r.1.isPrefixOf cs with
  | none => rfl
  | some r => exact congrArg (r.2 :: ·) (decodeFrom_eq r.1.length cs)

/-- The known reference that starts behind an ampersand, with the ampersand. -/
theorem find?_entities (cs : List Char) :
    (entities.find? fun e => e.1.isPrefixOf ('&' :: cs)) =
      (references.find? fun r => r.1.isPrefixOf cs).map fun r => ('&' :: r.1, r.2) := by
  rw [entities, List.find?_map]
  congr 2

/-- From an ampersand on, a reference or the ampersand alone is decoded. -/
theorem entityAt_eq (cs : List Char) :
    ∃ word tail, '&' :: cs = word ++ tail ∧ word ≠ [] ∧
      (entityAt ('&' :: cs)).2 = octetLength word ∧
      decode ('&' :: cs) = (entityAt ('&' :: cs)).1 :: decode tail := by
  rw [entityAt, find?_entities, decode_cons_amp]
  cases hfind : references.find? fun r => r.1.isPrefixOf cs with
  | none => exact ⟨['&'], cs, rfl, by simp, by decide, rfl⟩
  | some r =>
      obtain ⟨word, c⟩ := r
      have hprefix := List.find?_some hfind
      obtain ⟨tail, rfl⟩ := List.isPrefixOf_iff_prefix.mp hprefix
      refine ⟨'&' :: word, tail, rfl, by simp, rfl, ?_⟩
      simp only [Option.map_some, List.drop_left]

/-- **Decoding never cuts a character**, and replaces all known references. -/
theorem decodeEntities_eq (text : List Char) : decodeEntities text = .ok (decode text) := by
  induction hlen : text.length using Nat.strong_induction_on generalizing text with
  | _ n ih =>
      rw [decodeEntities]
      obtain ⟨hnone, hamp⟩ | ⟨front, rest, rfl, hamp, hsome⟩ := find?_singleton '&' text
      · rw [hnone, decode_eq_self hamp]
      · obtain ⟨word, tail, hrest, hne, hskip, hdecode⟩ := entityAt_eq rest
        have hfront := slice_offset (List.suffix_refl (front ++ '&' :: rest))
          (List.suffix_append front ('&' :: rest))
        have hback := slice_offset_length (List.suffix_append front ('&' :: rest))
        have htail := slice_offset_length (List.suffix_append word tail)
        rw [offset_self, offset_append, upTo_append] at hfront
        rw [offset_append] at hback
        rw [offset_append, ← hrest, ← hskip] at htail
        have hlt : tail.length < (front ++ '&' :: rest).length := by
          have := List.length_pos_of_ne_nil hne
          rw [hrest, List.length_append, List.length_append]
          omega
        rw [hsome]
        simp only [hfront, hback, htail, bind, Except.bind]
        rw [if_pos hlt, ih tail.length (hlen ▸ hlt) tail rfl, decode_append hamp, hdecode]
        rfl

/-! ## Widgets -/

theorem readAttr_eq (props : Dict Json) (a : Attr) : readAttr props a = .ok (setAttr props a) := by
  rw [readAttr]
  cases hvalue : a.value with
  | quoted cs =>
      simp only [decodeEntities_eq, setAttr, hvalue]
      rfl
  | braced cs => rfl
  | bare => rfl

theorem foldlM_readAttr (props : Dict Json) (attrs : List Attr) :
    attrs.foldlM readAttr props = .ok (attrs.foldl setAttr props) := by
  induction attrs generalizing props with
  | nil => rfl
  | cons a attrs ih =>
      rw [List.foldlM_cons, readAttr_eq, List.foldl_cons, ← ih]
      rfl

theorem readInner_eq (w : Widget) (inner : List Char) :
    readInner w inner = .ok (withInner w inner) := by
  rw [readInner, withInner]
  split
  · rfl
  · cases textProp? (Catalog.find? w.component) with
    | none => rfl
    | some prop =>
        simp only [decodeEntities_eq]
        cases isUnset (w.props.get? prop) <;> rfl

/-! ## Outlines -/

theorem mapM_eq_ok {α β : Type} {f : α → Scan β} {g : α → β} {as : List α}
    (h : ∀ a ∈ as, f a = .ok (g a)) : as.mapM f = .ok (as.map g) := by
  induction as with
  | nil => rfl
  | cons a as ih =>
      rw [List.mapM_cons, h a List.mem_cons_self, ih fun b hb => h b (List.mem_cons_of_mem a hb)]
      rfl

theorem outlines_eq_map (sheet : Sheet) (es : List Element) :
    outlines sheet es = es.map (outline sheet) := by
  induction es with
  | nil => rw [outlines]; rfl
  | cons e es ih => rw [outlines, ih, List.map_cons]

theorem attrs_read (f : Fragment) : f.read.attrs = f.attrs := by
  rw [Fragment.read]
  split
  · rfl
  · split <;> rfl

theorem weight_lt {inner : List Char} {f p : Fragment} (hf : f.inner = some inner)
    (hp : p ∈ fragments inner) : weight p < weight f := by
  have hweight : weight f = inner.length + 1 := by rw [weight, hf]; rfl
  rw [hweight, weight]
  cases hinner : p.inner with
  | none => exact Nat.succ_pos _
  | some inner' => exact Nat.succ_lt_succ (inner_length_lt hp hinner)

/-- **The outline of an element is what the element means.** -/
theorem outlineOf_eq (sheet : Sheet) (f : Fragment) :
    outlineOf sheet f = .ok (outline sheet f.read) := by
  induction hweight : weight f using Nat.strong_induction_on generalizing f with
  | _ n ih =>
      rw [outlineOf, foldlM_readAttr, Fragment.read]
      simp only [bind, Except.bind]
      have hwidget : widgetFrom sheet f.name (f.attrs.foldl setAttr .empty) =
          widgetOf sheet f.name f.attrs := rfl
      rw [hwidget]
      cases hinner : f.inner with
      | none => rw [outline]; rfl
      | some inner =>
          simp only [isSome_tagStartFrom_zero]
          cases hasElement inner with
          | false =>
              simp only [Bool.false_eq_true, if_false, readInner_eq, outline]
              rfl
          | true =>
              have hchildren : ∀ p ∈ fragments inner,
                  (if weight p < weight f then outlineOf sheet p else .error .stuck) =
                    .ok (outline sheet p.read) := by
                intro p hp
                have hlt := weight_lt hinner hp
                rw [if_pos hlt, ih (weight p) (hweight ▸ hlt) p rfl]
              simp only [if_true, elements_zero, mapM_eq_ok hchildren, outline, readAll_eq,
                outlines_eq_map, List.map_map]
              rfl

theorem fragments_eq_nil {cs : List Char} (h : hasElement cs = false) : fragments cs = [] := by
  rw [fragments_eq]
  cases hstart : elementStart? cs with
  | none => rfl
  | some start =>
      rw [← isSome_elementStart?, hstart] at h
      cases h

theorem unwrapRoots_of_ne {parts : List Fragment}
    (hparts : ∀ name inner, parts ≠ [⟨name, [], some inner⟩]) :
    unwrapRoots parts = .ok parts ∧
      unwrapped (parts.map Fragment.read) = parts.map Fragment.read := by
  constructor
  · rw [unwrapRoots.eq_def]
    split
    next _ name inner => exact absurd rfl (hparts name inner)
    next => rfl
  · rw [unwrapped.eq_def]
    split
    next roots name children heq =>
      obtain ⟨⟨name', attrs, inner⟩, rfl, hread⟩ := List.map_eq_singleton_iff.mp heq
      cases inner with
      | none => rw [Fragment.read] at hread; cases hread
      | some inner =>
          have hattrs : attrs = [] := by
            have h := congrArg Element.attrs hread
            rw [attrs_read] at h
            exact h
          exact absurd (by rw [hattrs]) (hparts name' inner)
    next => rfl

/-- The roots in a wrapper are told by their classes, read or unread. -/
theorem all_isClassed_readAll (inner : List Char) :
    (Element.readAll inner).all isClassed =
      (fragments inner).all fun r => r.attrs.any (·.name == "class".toList) := by
  rw [readAll_eq, List.all_map]
  refine congrArg (fragments inner).all (funext fun r => ?_)
  show isClassed r.read = _
  rw [isClassed, attrs_read]

/-- An element without attributes is taken off if it is the wrapper. -/
theorem unwrapRoots_singleton (name inner : List Char) :
    ∃ roots, unwrapRoots [⟨name, [], some inner⟩] = .ok roots ∧
      roots.map Fragment.read = unwrapped [Fragment.read ⟨name, [], some inner⟩] := by
  rw [unwrapRoots, Fragment.read]
  by_cases hname : name = wrapperName.toList
  · rw [if_pos hname, elements_zero]
    refine ⟨_, rfl, ?_⟩
    simp only
    cases hinner : hasElement inner with
    | false =>
        rw [fragments_eq_nil hinner, if_neg (fun h => absurd h.1 (by simp))]
        simp only [List.map_singleton, Fragment.read, hinner, Bool.false_eq_true, if_false]
        rfl
    | true =>
        have hlength : (Element.readAll inner).length = (fragments inner).length := by
          rw [readAll_eq, List.length_map]
        rw [if_pos rfl, unwrapped, hlength, all_isClassed_readAll]
        by_cases hroots : 2 ≤ (fragments inner).length ∧
            ((fragments inner).all fun r => r.attrs.any (·.name == "class".toList)) = true
        · rw [if_pos hroots, if_pos ⟨hname, hroots⟩, readAll_eq]
        · rw [if_neg hroots, if_neg (fun h => hroots h.2), List.map_singleton, Fragment.read]
          simp only [hinner, if_true]
  · rw [if_neg hname]
    refine ⟨_, rfl, ?_⟩
    simp only [List.map_singleton, Fragment.read]
    cases hasElement inner with
    | false => rfl
    | true => simp only [if_true, unwrapped, if_neg (fun h => hname (And.left h))]

/-- The roots of a page are taken out of the wrapper like the reader does it. -/
theorem unwrapRoots_eq (parts : List Fragment) :
    ∃ roots, unwrapRoots parts = .ok roots ∧
      roots.map Fragment.read = unwrapped (parts.map Fragment.read) := by
  by_cases hwrapper : ∃ name inner, parts = [⟨name, [], some inner⟩]
  · obtain ⟨name, inner, rfl⟩ := hwrapper
    exact unwrapRoots_singleton name inner
  · obtain ⟨hroots, hread⟩ := unwrapRoots_of_ne fun name inner heq => hwrapper ⟨name, inner, heq⟩
    exact ⟨parts, hroots, hread.symm⟩

end Tandem.Octet
