import Tandem.Markup.Bracket
import Tandem.Text.Blank

/-!
# Opening tags

An opening tag is a name and attributes. An attribute stands alone (`name`), has
a quoted value, which may also be written without quotes, or has an expression in
braces. Characters that start no attribute are stepped over. Values are kept as
they are written, references and all.
-/

namespace Tandem.Markup

open Text

/-- What is written behind an attribute's name. -/
inductive AttrValue where
  /-- A quoted value, without its quotes. -/
  | quoted (text : List Char)
  /-- An expression, without its braces and the blanks inside them. -/
  | braced (text : List Char)
  | bare
  deriving DecidableEq, Inhabited

structure Attr where
  name : List Char
  value : AttrValue
  deriving DecidableEq, Inhabited

structure Tag where
  name : List Char
  attrs : List Attr
  /-- The tag is the whole element. -/
  selfClosing : Bool
  deriving DecidableEq, Inhabited

/-- A character of a tag name behind its first letter. -/
def isTagNameChar (c : Char) : Bool := c.isAlphanum || c == '_' || c == '.' || c == '-'

def isAttrNameStart (c : Char) : Bool := c.isAlpha || c == '_' || c == ':' || c == '@'

def isAttrNameChar (c : Char) : Bool := isAttrNameStart c || c.isDigit || c == '.' || c == '-'

/-- The name of the tag that opens here, and what follows the name. -/
def tagName? : List Char → Option (List Char × List Char)
  | '<' :: c :: cs =>
    if c.isAlpha then some (c :: cs.takeWhile isTagNameChar, cs.dropWhile isTagNameChar) else none
  | _ => none

def attrName? : List Char → Option (List Char × List Char)
  | [] => none
  | c :: cs =>
    if isAttrNameStart c then
      some (c :: cs.takeWhile isAttrNameChar, cs.dropWhile isAttrNameChar)
    else none

/-- A value without quotes, up to spacing or the end of the tag, and what follows it. -/
def unquoted : List Char → List Char × List Char
  | [] => ([], [])
  | c :: cs =>
    if isSpacing c || c == '>' || (c == '/' && cs.head? == some '>') then ([], c :: cs)
    else
      let r := unquoted cs
      (c :: r.1, r.2)

/-- The value behind the equals sign, and what follows it. -/
def attrValue? (cs : List Char) : Option (AttrValue × List Char) :=
  match cs.dropWhile isSpacing with
  | [] => none
  | c :: rest =>
    if c = '"' ∨ c = '\'' then
      (closeQuote c rest).map fun after => (.quoted (upTo rest after).dropLast, after)
    else if c = '\x7b' then
      (closeBrace rest).map fun after => (.braced (trim (upTo rest after).dropLast), after)
    else
      let r := unquoted (c :: rest)
      some (.quoted r.1, r.2)

/-- What follows an attribute's name: a value, or the next part of the tag. -/
def attrRest? (cs : List Char) : Option (AttrValue × List Char) :=
  match cs.dropWhile isSpacing with
  | '=' :: rest => attrValue? rest
  | rest => some (.bare, rest)

/-! Every part takes characters off the front. -/

theorem tagName?_length {cs name rest : List Char} (h : tagName? cs = some (name, rest)) :
    rest.length < cs.length := by
  unfold tagName? at h
  split at h
  · split at h
    · rename_i cs' _
      have := length_dropWhile_le isTagNameChar cs'
      cases h
      simp only [List.length_cons]; omega
    · cases h
  · cases h

theorem attrName?_length {cs name rest : List Char} (h : attrName? cs = some (name, rest)) :
    rest.length < cs.length := by
  unfold attrName? at h
  split at h
  · cases h
  · split at h
    · rename_i cs' _
      have := length_dropWhile_le isAttrNameChar cs'
      cases h
      simp only [List.length_cons]; omega
    · cases h

theorem length_unquoted_le (cs : List Char) : (unquoted cs).2.length ≤ cs.length := by
  induction cs with
  | nil => simp [unquoted]
  | cons c cs ih =>
    rw [unquoted]
    split
    · exact Nat.le_refl _
    · exact Nat.le_succ_of_le ih

theorem attrValue?_length {cs rest : List Char} {v : AttrValue}
    (h : attrValue? cs = some (v, rest)) : rest.length ≤ cs.length := by
  have hd := length_dropWhile_le isSpacing cs
  unfold attrValue? at h
  split at h
  · cases h
  · rename_i c r hc
    rw [hc] at hd
    simp only [List.length_cons] at hd
    split at h
    · obtain ⟨after, ha, heq⟩ := Option.map_eq_some_iff.mp h
      cases heq
      have := close_length_lt ha
      omega
    · split at h
      · obtain ⟨after, ha, heq⟩ := Option.map_eq_some_iff.mp h
        cases heq
        have := close_length_lt ha
        omega
      · have := length_unquoted_le (c :: r)
        cases h
        simp only [List.length_cons] at this; omega

theorem attrRest?_length {cs rest : List Char} {v : AttrValue}
    (h : attrRest? cs = some (v, rest)) : rest.length ≤ cs.length := by
  have hd := length_dropWhile_le isSpacing cs
  unfold attrRest? at h
  split at h
  · rename_i r hc
    rw [hc] at hd
    have := attrValue?_length h
    simp only [List.length_cons] at hd; omega
  · cases h; exact hd

/-- The attributes that stand here up to the end of the tag, whether the tag closes
itself, and what follows it. A new tag or the end of the text is an error. -/
def attrs? (cs : List Char) : Option (List Attr × Bool × List Char) :=
  match _hs : cs.dropWhile isSpacing with
  | [] => none
  | c :: rest =>
    if c = '>' then some ([], false, rest)
    else if c = '/' ∧ rest.head? = some '>' then some ([], true, rest.tail)
    else if c = '<' then none
    else
      match _hn : attrName? (c :: rest) with
      | none => attrs? rest
      | some (name, rest) =>
        match _hr : attrRest? rest with
        | none => none
        | some (value, rest) => (attrs? rest).map fun r => (⟨name, value⟩ :: r.1, r.2)
termination_by cs.length
decreasing_by
  · have := length_dropWhile_le isSpacing cs
    rw [_hs] at this
    exact this
  · have h1 := length_dropWhile_le isSpacing cs
    have h2 := attrName?_length _hn
    have h3 := attrRest?_length _hr
    rw [_hs] at h1
    omega

def tag? (cs : List Char) : Option (Tag × List Char) := do
  let (name, rest) ← tagName? cs
  let (attrs, selfClosing, rest) ← attrs? rest
  return (⟨name, attrs, selfClosing⟩, rest)

theorem attrs?_length {cs rest : List Char} {attrs : List Attr} {selfClosing : Bool}
    (h : attrs? cs = some (attrs, selfClosing, rest)) : rest.length < cs.length := by
  fun_induction attrs? cs generalizing attrs with
  | case1 => cases h
  | case2 cs rest' hs =>
    have := length_dropWhile_le isSpacing cs
    rw [hs] at this
    cases h
    exact this
  | case3 cs c rest' hs _ hc =>
    have := length_dropWhile_le isSpacing cs
    rw [hs] at this
    cases h
    simp only [List.length_tail, List.length_cons] at this ⊢
    omega
  | case4 => cases h
  | case5 cs c rest' hs _ _ _ _ ih =>
    have h1 := length_dropWhile_le isSpacing cs
    have h2 := ih h
    rw [hs] at h1
    simp only [List.length_cons] at h1; omega
  | case6 => cases h
  | case7 cs c rest' hs _ _ _ name r1 hn v r2 hr ih =>
    have h1 := length_dropWhile_le isSpacing cs
    have h2 := attrName?_length hn
    have h3 := attrRest?_length hr
    rw [hs] at h1
    obtain ⟨⟨as, sc, r⟩, ha, heq⟩ := Option.map_eq_some_iff.mp h
    cases heq
    have h4 := ih ha
    omega

theorem tag?_length {cs rest : List Char} {t : Tag} (h : tag? cs = some (t, rest)) :
    rest.length < cs.length := by
  simp only [tag?, Option.bind_eq_bind, Option.bind_eq_some_iff, Option.pure_def,
    Option.some.injEq, Prod.mk.injEq, Prod.exists] at h
  obtain ⟨name, r1, hn, attrs, sc, r2, ha, _, rfl⟩ := h
  have h1 := tagName?_length hn
  have h2 := attrs?_length ha
  omega

end Tandem.Markup
