import Tandem.Proofs.Markup.Element

/-!
# What is read has names

Whatever the text, the tags that are read from it have tag names and their attributes have
attribute names (`tag?_named`), so all elements have (`readAll_named`). An expression that is read
is a closed one without the blanks around it (`tag?_braced`).
-/

namespace Tandem.Markup

open Text

/-! ## Names -/

theorem tagName?_eq_cons {cs name rest : List Char} (h : tagName? cs = some (name, rest)) :
    cs = '<' :: (name ++ rest) ∧ isTagName name = true := by
  rw [tagName?.eq_def] at h
  split at h
  next c after =>
    split at h
    next hc =>
      cases h
      refine ⟨?_, ?_⟩
      · rw [List.cons_append, List.takeWhile_append_dropWhile]
      · rw [isTagName, hc, Bool.true_and, List.all_eq_true]
        exact fun d hd => List.mem_takeWhile_imp hd
    next => cases h
  next => cases h

theorem attrName?_named {cs name rest : List Char} (h : attrName? cs = some (name, rest)) :
    isAttrName name = true := by
  cases cs with
  | nil => cases h
  | cons c cs =>
      rw [attrName?] at h
      split at h
      next hc =>
        cases h
        rw [isAttrName, hc, Bool.true_and]
        exact List.all_takeWhile
      next => cases h

/-- All attributes have attribute names. -/
def NamedAttrs (attrs : List Attr) : Prop := ∀ a ∈ attrs, isAttrName a.name = true

theorem attrs?_named {cs rest : List Char} {attrs : List Attr} {selfClosing : Bool}
    (h : attrs? cs = some (attrs, selfClosing, rest)) : NamedAttrs attrs := by
  fun_induction attrs? cs generalizing attrs with
  | case1 => cases h
  | case2 => cases h; exact List.forall_mem_nil _
  | case3 => cases h; exact List.forall_mem_nil _
  | case4 => cases h
  | case5 cs c rest' hs _ _ _ _ ih => exact ih h
  | case6 => cases h
  | case7 cs c rest' hs _ _ _ name r1 hn v r2 hr ih =>
    obtain ⟨⟨as, sc, r⟩, ha, heq⟩ := Option.map_eq_some_iff.mp h
    cases heq
    exact List.forall_mem_cons.mpr ⟨attrName?_named hn, ih ha⟩

theorem tag?_named {cs rest : List Char} {t : Tag} (h : tag? cs = some (t, rest)) :
    isTagName t.name = true ∧ NamedAttrs t.attrs := by
  simp only [tag?, Option.bind_eq_bind, Option.bind_eq_some_iff, Option.pure_def,
    Option.some.injEq, Prod.mk.injEq, Prod.exists] at h
  obtain ⟨name, after, hname, attrs, selfClosing, rest', hattrs, rfl, rfl⟩ := h
  exact ⟨(tagName?_eq_cons hname).2, attrs?_named hattrs⟩

/-! ## Expressions -/

theorem attrValue?_eq_braced {cs rest inside : List Char}
    (h : attrValue? cs = some (.braced inside, rest)) :
    ∃ whole, AttrValue.Closed (.braced whole) ∧ inside = trim whole := by
  cases hstart : cs.dropWhile isSpacing with
  | nil =>
      rw [attrValue?, hstart] at h
      cases h
  | cons c behind =>
      have hskip : attrValue? (c :: behind) = attrValue? cs := by
        rw [attrValue?, attrValue?, ← hstart, (stops_dropWhile isSpacing cs).dropWhile]
      rw [← hskip] at h
      by_cases hc : c = '\x7b'
      · subst hc
        obtain ⟨whole, _, hclosed, heq⟩ := attrValue?_brace_eq_some h
        exact ⟨whole, hclosed, AttrValue.braced.inj heq⟩
      · -- Any other value is a quoted one.
        have hstops : Stops isSpacing (c :: behind) := hstart ▸ stops_dropWhile isSpacing cs
        rw [attrValue?, hstops.dropWhile] at h
        simp only [if_neg hc] at h
        split at h
        · obtain ⟨after, _, heq⟩ := Option.map_eq_some_iff.mp h
          cases heq
        · cases h

theorem attrRest?_eq_braced {cs rest inside : List Char}
    (h : attrRest? cs = some (.braced inside, rest)) :
    ∃ whole, AttrValue.Closed (.braced whole) ∧ inside = trim whole := by
  rw [attrRest?] at h
  split at h
  · exact attrValue?_eq_braced h
  · cases h

theorem attrs?_braced {cs rest : List Char} {attrs : List Attr} {selfClosing : Bool}
    (h : attrs? cs = some (attrs, selfClosing, rest)) {name inside : List Char}
    (hmem : ⟨name, .braced inside⟩ ∈ attrs) :
    ∃ whole, AttrValue.Closed (.braced whole) ∧ inside = trim whole := by
  fun_induction attrs? cs generalizing attrs with
  | case1 => cases h
  | case2 => cases h; cases hmem
  | case3 => cases h; cases hmem
  | case4 => cases h
  | case5 cs c rest' hs _ _ _ _ ih => exact ih h hmem
  | case6 => cases h
  | case7 cs c rest' hs _ _ _ name r1 hn v r2 hr ih =>
    obtain ⟨⟨as, sc, r⟩, ha, heq⟩ := Option.map_eq_some_iff.mp h
    cases heq
    rcases List.mem_cons.mp hmem with hfirst | hmem
    · cases hfirst
      exact attrRest?_eq_braced hr
    · exact ih ha hmem

theorem tag?_braced {cs rest : List Char} {t : Tag} (h : tag? cs = some (t, rest))
    {name inside : List Char} (hmem : ⟨name, .braced inside⟩ ∈ t.attrs) :
    ∃ whole, AttrValue.Closed (.braced whole) ∧ inside = trim whole := by
  simp only [tag?, Option.bind_eq_bind, Option.bind_eq_some_iff, Option.pure_def,
    Option.some.injEq, Prod.mk.injEq, Prod.exists] at h
  obtain ⟨_, after, _, attrs, selfClosing, rest', hattrs, rfl, rfl⟩ := h
  exact attrs?_braced hattrs hmem

/-! ## Elements -/

theorem fragments_named {cs : List Char} {f : Fragment} (hf : f ∈ fragments cs) :
    isTagName f.name = true ∧ NamedAttrs f.attrs := by
  fun_induction fragments cs with
  | case1 => cases hf
  | case2 => cases hf
  | case3 c rest hs t after ht hsc ih =>
    rcases List.mem_cons.mp hf with rfl | hf
    · exact tag?_named ht
    · exact ih hf
  | case4 c rest hs t after ht hsc hfc =>
    rw [List.mem_singleton.mp hf]
    exact tag?_named ht
  | case5 c rest hs t after ht hsc closing next hfc ih =>
    rcases List.mem_cons.mp hf with rfl | hf
    · exact tag?_named ht
    · exact ih hf
  | case6 c rest hs ih => exact ih hf

/-- Elements all of whose tags and attributes have names. -/
inductive Element.Named : Element → Prop
  | void (name : List Char) (attrs : List Attr) (hname : isTagName name = true)
      (hattrs : NamedAttrs attrs) : Named (.void name attrs)
  | text (name : List Char) (attrs : List Attr) (inner : List Char) (hname : isTagName name = true)
      (hattrs : NamedAttrs attrs) : Named (.text name attrs inner)
  | nest (name : List Char) (attrs : List Attr) (children : List Element)
      (hname : isTagName name = true) (hattrs : NamedAttrs attrs)
      (hchildren : ∀ e ∈ children, Named e) : Named (.nest name attrs children)

/-- **All elements that are read have names.** -/
theorem readAll_named (cs : List Char) : ∀ e ∈ Element.readAll cs, e.Named := by
  induction hlen : cs.length using Nat.strong_induction_on generalizing cs with
  | _ n ih =>
      intro e he
      rw [readAll_eq] at he
      obtain ⟨f, hf, rfl⟩ := List.mem_map.mp he
      obtain ⟨hname, hattrs⟩ := fragments_named hf
      rw [Fragment.read]
      split
      next => exact .void _ _ hname hattrs
      next inner hinner =>
        split
        next => exact .nest _ _ _ hname hattrs (ih _ (hlen ▸ inner_length_lt hf hinner) inner rfl)
        next => exact .text _ _ _ hname hattrs

namespace Element

/-- The elements between the tags of an element. -/
def children : Element → List Element
  | void _ _ | text _ _ _ => []
  | nest _ _ es => es

/-- Elements with all they hold, each before those it holds: in the order in which a text
opens them. -/
def preorder : List Element → List Element
  | [] => []
  | void name attrs :: rest => void name attrs :: preorder rest
  | text name attrs inner :: rest => text name attrs inner :: preorder rest
  | nest name attrs es :: rest => nest name attrs es :: (preorder es ++ preorder rest)

theorem preorder_cons (e : Element) (rest : List Element) :
    preorder (e :: rest) = e :: (preorder e.children ++ preorder rest) := by
  cases e with
  | void name attrs => rw [preorder, children, preorder, List.nil_append]
  | text name attrs inner => rw [preorder, children, preorder, List.nil_append]
  | nest name attrs es => rw [preorder, children]

theorem named_children {e : Element} (he : e.Named) : ∀ c ∈ e.children, c.Named := by
  cases he with
  | void | text => exact List.forall_mem_nil _
  | nest _ _ _ _ _ hchildren => exact hchildren

theorem named_preorder {es : List Element} (hes : ∀ e ∈ es, e.Named) :
    ∀ e ∈ preorder es, e.Named := by
  induction es using preorder.induct with
  | case1 =>
      rw [preorder]
      exact List.forall_mem_nil _
  | case2 name attrs rest ih | case3 name attrs inner rest ih =>
      obtain ⟨he, hrest⟩ := List.forall_mem_cons.mp hes
      rw [preorder]
      exact List.forall_mem_cons.mpr ⟨he, ih hrest⟩
  | case4 name attrs es rest ihc ihr =>
      obtain ⟨he, hrest⟩ := List.forall_mem_cons.mp hes
      rw [preorder]
      refine List.forall_mem_cons.mpr ⟨he, List.forall_mem_append.mpr ⟨?_, ihr hrest⟩⟩
      exact ihc (named_children he)

end Element

end Tandem.Markup
