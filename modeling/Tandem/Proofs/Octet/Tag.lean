import Tandem.Proofs.Markup.Named
import Tandem.Proofs.Octet.Block

/-!
# Tags by octet positions

A tag is read from a position like the characters there are read, with the position behind
it in place of what is left (`openTag_offset`). The ranges of its values end at closing
quotes and braces, which are ASCII, so they are texts (`close_ends`).
-/

namespace Tandem.Octet

open Text Markup

variable {text : List Char}

/-! ## Runs -/

/-- A class of ASCII characters has the octet at a position if it has the next character. -/
theorem class_offset {p : Char → Bool} (hp : ∀ c, p c = true → isAscii c = true) {c : Char}
    {cs : List Char} (h : c :: cs <:+ text) (hlt : offset text (c :: cs) < (encode text).length) :
    p (encode text)[offset text (c :: cs)] = p c := by
  have hany := any_offset hp h
  rwa [List.getElem?_eq_getElem hlt, List.head?_cons] at hany

theorem isAscii_of_isSpacing {c : Char} (h : isSpacing c = true) : isAscii c = true := by
  simp only [isSpacing, Bool.or_eq_true, beq_iff_eq] at h
  rcases h with (((rfl | rfl) | rfl) | rfl) | rfl <;> decide

theorem skipSpacing_offset {cs : List Char} (h : cs <:+ text) :
    skipSpacing text (offset text cs) = offset text (cs.dropWhile isSpacing) := by
  induction cs with
  | nil => rw [offset_nil, skipSpacing, dif_neg (Nat.lt_irrefl _), List.dropWhile_nil, offset_nil]
  | cons c cs ih =>
      have hlt := offset_lt_length h
      rw [skipSpacing, dif_pos hlt, class_offset (fun _ => isAscii_of_isSpacing) h hlt]
      cases hc : isSpacing c with
      | false =>
          rw [if_neg Bool.false_ne_true, List.dropWhile_cons_of_neg (by simp [hc])]
      | true =>
          rw [if_pos rfl, List.dropWhile_cons_of_pos hc,
            offset_cons_of_isAscii h (isAscii_of_isSpacing hc), ih (suffix_of_cons h)]

theorem unquoted_append (cs : List Char) : (unquoted cs).1 ++ (unquoted cs).2 = cs := by
  induction cs with
  | nil => rfl
  | cons c cs ih =>
      rw [unquoted]
      split
      · rfl
      · exact congrArg (c :: ·) ih

theorem unquoted_suffix (cs : List Char) : (unquoted cs).2 <:+ cs :=
  ⟨(unquoted cs).1, unquoted_append cs⟩

theorem unquotedEnd_offset {cs : List Char} (h : cs <:+ text) :
    unquotedEnd text (offset text cs) = offset text (unquoted cs).2 := by
  have hpasses : Passes text (unquotedEnd text) := by
    intro i hi hascii
    have hspacing : isSpacing (encode text)[i] = false :=
      class_eq_false (fun _ => isAscii_of_isSpacing) hascii
    have hne : ∀ {d : Char}, isAscii d = true → ((encode text)[i] == d) = false := fun hd =>
      beq_eq_false_iff_ne.mpr (ne_of_isAscii hascii hd)
    rw [unquotedEnd, dif_pos hi, hspacing, hne (by decide), hne (by decide), Bool.false_and,
      Bool.or_false, Bool.or_false, if_neg Bool.false_ne_true]
  induction cs with
  | nil => rw [offset_nil, unquotedEnd, dif_neg (Nat.lt_irrefl _), unquoted, offset_nil]
  | cons c cs ih =>
      rw [unquoted]
      cases hascii : isAscii c with
      | false =>
          have hspacing : isSpacing c = false :=
            class_eq_false (fun _ => isAscii_of_isSpacing) hascii
          have hne : ∀ {d : Char}, isAscii d = true → (c == d) = false := fun hd =>
            beq_eq_false_iff_ne.mpr (ne_of_isAscii hascii hd)
          rw [hpasses.offset_cons h hascii, ih (suffix_of_cons h), hspacing, hne (by decide),
            hne (by decide), Bool.false_and, Bool.or_false, Bool.or_false,
            if_neg Bool.false_ne_true]
      | true =>
          rw [unquotedEnd, dif_pos (offset_lt_length h), getElem_offset h hascii,
            offset_cons_of_isAscii h hascii, beq_offset (suffix_of_cons h) (by decide),
            ih (suffix_of_cons h)]
          split <;> rfl

/-! ## Attributes -/

/-- A range up to a closing character is what was read without that character. -/
theorem slice_closed {d q : Char} {cs rest : List Char} (h : d :: cs <:+ text)
    (hd : isAscii d = true) (hq : isAscii q = true) (hends : ∃ body, cs = body ++ q :: rest) :
    slice text (offset text (d :: cs) + 1) (offset text rest - 1) =
      .ok (upTo cs rest).dropLast := by
  obtain ⟨body, rfl⟩ := hends
  have hcs := suffix_of_cons h
  have hclose : q :: rest <:+ body ++ q :: rest := List.suffix_append body (q :: rest)
  have hbefore : offset text rest - 1 = offset text (q :: rest) := by
    rw [← offset_cons_of_isAscii (hclose.trans hcs) hq, Nat.add_sub_cancel]
  rw [hbefore, offset_cons_of_isAscii h hd, slice_offset hcs hclose, upTo_append,
    List.append_cons, upTo_append, List.dropLast_concat]

/-- The answer of a reader, with a position in place of what is left. -/
abbrev located {α : Type} (text : List Char) : Option (α × List Char) → Scan (α × Nat) :=
  answer fun r => (r.1, offset text r.2)

section

variable {c : Char} {rest : List Char}

theorem attrValue_quoted (h : c :: rest <:+ text) (hc : c = '"' ∨ c = '\'') :
    attrValue text (offset text (c :: rest)) =
      located text ((closeQuote c rest).map fun after =>
        (.quoted (upTo rest after).dropLast, after)) := by
  have hascii : isAscii c = true := isAscii_of_quote hc
  rw [attrValue, getElem?_offset h hascii]
  simp only [if_pos hc, skipString_offset hc h]
  cases hclose : closeQuote c rest with
  | none => rfl
  | some after =>
      have hends := closeQuote_ends hclose
      have hslice := slice_closed h hascii hascii hends
      obtain ⟨body, rfl⟩ := hends
      have hafter : c :: after <:+ text := (List.suffix_append body _).trans (suffix_of_cons h)
      have hcount := countDown_offset hafter hascii
      rw [← offset_cons_of_isAscii hafter hascii, Nat.add_sub_cancel] at hslice
      show (countDown (offset text after) >>= fun close => slice text
        (offset text (c :: (body ++ c :: after)) + 1) close >>= fun value =>
          pure (AttrValue.quoted value, offset text after)) = _
      rw [hcount]
      show (slice text (offset text (c :: (body ++ c :: after)) + 1) (offset text (c :: after)) >>=
        fun value => pure (AttrValue.quoted value, offset text after)) = _
      rw [hslice]
      rfl

theorem attrValue_braced (h : '\x7b' :: rest <:+ text) :
    attrValue text (offset text ('\x7b' :: rest)) =
      located text ((closeBrace rest).map fun after =>
        (.braced (trim (upTo rest after).dropLast), after)) := by
  have hquotes : ¬('\x7b' = '"' ∨ '\x7b' = '\'') := by decide
  rw [attrValue, getElem?_offset h (by decide)]
  simp only [if_neg hquotes, if_true, findBrace_offset h]
  cases hclose : closeBrace rest with
  | none => rfl
  | some after =>
      have hslice := slice_closed h (by decide) (by decide) (closeBrace_ends hclose)
      have hnext : offset text after - 1 + 1 = offset text after :=
        Nat.sub_add_cancel (Nat.one_le_of_lt (offset_pos h (close_suffix hclose)))
      show (slice text (offset text ('\x7b' :: rest) + 1) (offset text after - 1) >>=
        fun value => pure (AttrValue.braced (trim value), offset text after - 1 + 1)) = _
      rw [hslice, hnext]
      rfl

/-- What is looked at is an octet, which is no quote or brace if the character is none. -/
theorem attrValue_unquoted (h : c :: rest <:+ text) (hquotes : ¬(c = '"' ∨ c = '\''))
    (hopen : c ≠ '\x7b') :
    attrValue text (offset text (c :: rest)) =
      .ok (.quoted (unquoted (c :: rest)).1, offset text (unquoted (c :: rest)).2) := by
  have hlt := offset_lt_length h
  have hne : ∀ {d : Char}, isAscii d = true → c ≠ d →
      (encode text)[offset text (c :: rest)] ≠ d := by
    intro d hd hc heq
    exact hc ((getElem_offset_eq_iff h hd hlt).mp heq)
  obtain ⟨hquote, hquote'⟩ := not_or.mp hquotes
  have hvalue := upTo_append (unquoted (c :: rest)).1 (unquoted (c :: rest)).2
  rw [unquoted_append] at hvalue
  rw [attrValue, List.getElem?_eq_getElem hlt]
  simp only [if_neg (not_or.mpr ⟨hne (by decide) hquote, hne (by decide) hquote'⟩),
    if_neg (hne (by decide) hopen), unquotedEnd_offset h, slice_offset h (unquoted_suffix _),
    hvalue]
  rfl

end

theorem attrValue_offset {cs : List Char} (h : cs <:+ text) :
    attrValue text (skipSpacing text (offset text cs)) = located text (attrValue? cs) := by
  have hsuffix : cs.dropWhile isSpacing <:+ text := (List.dropWhile_suffix _).trans h
  rw [skipSpacing_offset h, attrValue?]
  cases hrest : cs.dropWhile isSpacing with
  | nil =>
      have hnone : (encode text)[offset text []]? = none := by
        rw [offset_nil, List.getElem?_eq_none (Nat.le_refl _)]
      rw [attrValue, hnone]
      rfl
  | cons c rest =>
      rw [hrest] at hsuffix
      simp only
      split
      next hquotes => exact attrValue_quoted hsuffix hquotes
      next hquotes =>
        split
        next hopen =>
          subst hopen
          exact attrValue_braced hsuffix
        next hopen => exact attrValue_unquoted hsuffix hquotes hopen

theorem attrName?_append_eq {cs name rest : List Char} (h : attrName? cs = some (name, rest)) :
    name ++ rest = cs ∧ name ≠ [] := by
  cases cs with
  | nil => cases h
  | cons c cs =>
      rw [attrName?] at h
      split at h
      · cases h
        exact ⟨congrArg (c :: ·) List.takeWhile_append_dropWhile, by simp⟩
      · cases h

theorem attrValue?_suffix {cs rest : List Char} {value : AttrValue}
    (h : attrValue? cs = some (value, rest)) : rest <:+ cs := by
  have hdrop := List.dropWhile_suffix (l := cs) isSpacing
  rw [attrValue?] at h
  split at h
  next => cases h
  next c after heq =>
    rw [heq] at hdrop
    split at h
    next =>
      obtain ⟨_, hclose, heq⟩ := Option.map_eq_some_iff.mp h
      cases heq
      exact (close_suffix hclose).trans ((List.suffix_cons c after).trans hdrop)
    next =>
      split at h
      next =>
        obtain ⟨_, hclose, heq⟩ := Option.map_eq_some_iff.mp h
        cases heq
        exact (close_suffix hclose).trans ((List.suffix_cons c after).trans hdrop)
      next =>
        cases h
        exact (unquoted_suffix _).trans hdrop

theorem attrRest?_suffix {cs rest : List Char} {value : AttrValue}
    (h : attrRest? cs = some (value, rest)) : rest <:+ cs := by
  have hdrop := List.dropWhile_suffix (l := cs) isSpacing
  rw [attrRest?] at h
  split at h
  next after heq =>
    rw [heq] at hdrop
    exact (attrValue?_suffix h).trans ((List.suffix_cons _ after).trans hdrop)
  next =>
    cases h
    exact hdrop

/-- The attribute that the characters at a position start, and what is behind it. -/
def attr? (c : Char) (cs : List Char) : Option (Option Attr × List Char) :=
  match attrName? (c :: cs) with
  | none => some (none, cs)
  | some (name, rest) => (attrRest? rest).map fun r => (some ⟨name, r.1⟩, r.2)

theorem attr?_suffix {c : Char} {cs rest : List Char} {attr : Option Attr}
    (h : attr? c cs = some (attr, rest)) : rest <:+ cs := by
  rw [attr?] at h
  split at h
  next =>
    cases h
    exact List.suffix_refl _
  next name after hname =>
    obtain ⟨happend, hne⟩ := attrName?_append_eq hname
    obtain ⟨⟨value, rest'⟩, hvalue, heq⟩ := Option.map_eq_some_iff.mp h
    cases heq
    obtain ⟨d, name, rfl⟩ := List.exists_cons_of_ne_nil hne
    obtain ⟨rfl, rfl⟩ := List.cons.inj happend
    exact (attrRest?_suffix hvalue).trans (List.suffix_append name after)

/-- The value or the end behind a name, with spacing in front of it. -/
theorem attrRest_offset {name rest : List Char} (h : rest <:+ text) :
    (if (encode text)[skipSpacing text (offset text rest)]? = some '=' then do
        let (value, next) ← attrValue text
          (skipSpacing text (skipSpacing text (offset text rest) + 1))
        return (some ⟨name, value⟩, next)
      else return (some ⟨name, .bare⟩, skipSpacing text (offset text rest))) =
      located text ((attrRest? rest).map fun r => (some (⟨name, r.1⟩ : Attr), r.2)) := by
  have hsuffix : rest.dropWhile isSpacing <:+ text := (List.dropWhile_suffix _).trans h
  rw [skipSpacing_offset h, attrRest?]
  by_cases hequals : (rest.dropWhile isSpacing).head? = some '='
  · rw [if_pos ((getElem?_offset_eq_some_iff hsuffix (by decide)).mpr hequals)]
    split
    next after heq =>
      rw [heq] at hsuffix ⊢
      rw [offset_cons_of_isAscii hsuffix (by decide), attrValue_offset (suffix_of_cons hsuffix)]
      cases attrValue? after <;> rfl
    next hnot =>
      cases hdrop : rest.dropWhile isSpacing with
      | nil => rw [hdrop] at hequals; cases hequals
      | cons d after =>
          rw [hdrop] at hequals
          cases hequals
          exact absurd hdrop (hnot after)
  · rw [if_neg fun heq => hequals ((getElem?_offset_eq_some_iff hsuffix (by decide)).mp heq)]
    split
    next after heq => exact absurd (by rw [heq]; rfl) hequals
    next => rfl

theorem nextAttr_offset {c : Char} {cs : List Char} (h : c :: cs <:+ text) :
    nextAttr text (offset text (c :: cs)) = located text (attr? c cs) := by
  rw [nextAttr, slice_offset_length h, attr?]
  show (match attrName? (c :: cs) with
    | none => pure (none, offset text (c :: cs) + c.utf8Size)
    | some (name, _) => _) = _
  cases hname : attrName? (c :: cs) with
  | none =>
      simp only
      rw [← offset_cons h]
      rfl
  | some p =>
      obtain ⟨name, rest⟩ := p
      obtain ⟨happend, -⟩ := attrName?_append_eq hname
      rw [← happend] at h ⊢
      simp only
      rw [← offset_append_right h]
      exact attrRest_offset ((List.suffix_append name rest).trans h)

/-! ## Tags -/

/-- The reader of attributes in one step, with what an attribute is taken out. -/
theorem attrs?_eq_attr? (cs : List Char) : attrs? cs =
    match cs.dropWhile isSpacing with
    | [] => none
    | c :: rest =>
      if c = '>' then some ([], false, rest)
      else if c = '/' ∧ rest.head? = some '>' then some ([], true, rest.tail)
      else if c = '<' then none
      else (attr? c rest).bind fun p =>
        (attrs? p.2).map fun r => (p.1.toList ++ r.1, r.2) := by
  rw [attrs?_eq]
  cases cs.dropWhile isSpacing with
  | nil => rfl
  | cons c rest =>
      simp only
      split
      · rfl
      split
      · rfl
      split
      · rfl
      rw [attr?]
      cases attrName? (c :: rest) with
      | none =>
          simp only [Option.bind_some, Option.toList_none, List.nil_append]
          exact (Option.map_id' ..).symm
      | some p =>
          obtain ⟨name, after⟩ := p
          simp only
          cases attrRest? after with
          | none => rfl
          | some r => rfl

/-- The program of attributes in one step. -/
theorem attrsFrom_cons {c : Char} {cs rest : List Char} (h : cs <:+ text)
    (hcs : cs.dropWhile isSpacing = c :: rest) :
    attrsFrom text (offset text cs) =
      if c = '>' then .ok ([], false, offset text rest)
      else if c = '/' ∧ rest.head? = some '>' then .ok ([], true, offset text rest.tail)
      else if c = '<' then .error .absent
      else nextAttr text (offset text (c :: rest)) >>= fun p =>
        if offset text (c :: rest) < p.2 then attrsFrom text p.2 >>= fun r =>
          pure (p.1.toList ++ r.1, r.2.1, r.2.2)
        else .error .stuck := by
  have hsuffix : c :: rest <:+ text := hcs ▸ (List.dropWhile_suffix _).trans h
  have hlt := offset_lt_length hsuffix
  have hgt := getElem_offset_eq_iff hsuffix (d := '>') (by decide) hlt
  have hopen := getElem_offset_eq_iff hsuffix (d := '<') (by decide) hlt
  have hend : (encode text)[offset text (c :: rest)] = '/' ∧
      (encode text)[offset text (c :: rest) + 1]? = some '>' ↔
        c = '/' ∧ rest.head? = some '>' := by
    rw [getElem_offset_eq_iff hsuffix (by decide) hlt]
    apply and_congr_right
    rintro rfl
    exact getElem?_offset_add_one hsuffix (by decide) (by decide)
  rw [attrsFrom, skipSpacing_offset h, hcs, dif_pos hlt]
  simp only [hgt, hend, hopen]
  split
  next heq =>
    subst heq
    rw [offset_cons_of_isAscii hsuffix (by decide)]
  split
  next heq =>
    obtain ⟨rfl, hhead⟩ := heq
    obtain ⟨after, rfl⟩ := List.head?_eq_some_iff.mp hhead
    rw [List.tail_cons, ← offset_cons_of_isAscii (suffix_of_cons hsuffix) (by decide),
      ← offset_cons_of_isAscii hsuffix (by decide)]
  next => rfl

theorem attrsFrom_offset {cs : List Char} (h : cs <:+ text) :
    attrsFrom text (offset text cs) =
      answer (fun r => (r.1, r.2.1, offset text r.2.2)) (attrs? cs) := by
  induction hlen : cs.length using Nat.strong_induction_on generalizing cs with
  | _ n ih =>
      have hdrop : cs.dropWhile isSpacing <:+ cs := List.dropWhile_suffix _
      rw [attrs?_eq_attr?]
      cases hcs : cs.dropWhile isSpacing with
      | nil =>
          rw [attrsFrom, skipSpacing_offset h, hcs, offset_nil, dif_neg (Nat.lt_irrefl _)]
          rfl
      | cons c rest =>
          rw [attrsFrom_cons h hcs]
          rw [hcs] at hdrop
          have hsuffix := hdrop.trans h
          simp only
          split
          next => rfl
          split
          next => rfl
          split
          next => rfl
          rw [nextAttr_offset hsuffix]
          cases hattr : attr? c rest with
          | none => rfl
          | some p =>
              obtain ⟨attr, after⟩ := p
              have hafter := attr?_suffix hattr
              have hlength : after.length < n := by
                rw [← hlen]
                exact Nat.lt_of_le_of_lt hafter.length_le hdrop.length_le
              show (if offset text (c :: rest) < offset text after then
                  attrsFrom text (offset text after) >>= fun r =>
                    pure (attr.toList ++ r.1, r.2.1, r.2.2)
                else .error .stuck) = _
              rw [if_pos (offset_pos hsuffix hafter),
                ih after.length hlength (hafter.trans (suffix_of_cons hsuffix)) rfl,
                Option.bind_some]
              cases attrs? after <;> rfl

/-- The reader of tags in one step. -/
theorem tag?_eq_bind (cs : List Char) : tag? cs = (tagName? cs).bind fun p =>
    (attrs? p.2).map fun r => (⟨p.1, r.1, r.2.1⟩, r.2.2) := by
  simp only [tag?, Option.bind_eq_bind, Option.pure_def]
  cases tagName? cs with
  | none => rfl
  | some p =>
      rw [Option.bind_some, Option.bind_some]
      cases attrs? p.2 <;> rfl

/-- **The tag at a position is the one that the characters there start.** -/
theorem openTag_offset {cs : List Char} (h : cs <:+ text) :
    openTag text (offset text cs) = located text (tag? cs) := by
  rw [openTag, slice_offset_length h, tag?_eq_bind]
  show (match tagName? cs with
    | none => Except.error Stop.absent
    | some (name, _) => _) = _
  cases hname : tagName? cs with
  | none => rfl
  | some p =>
      obtain ⟨name, rest⟩ := p
      obtain ⟨rfl, -⟩ := tagName?_eq_cons hname
      have hbehind := suffix_of_cons h
      have hrest : rest <:+ text := (List.suffix_append name rest).trans hbehind
      simp only [Option.bind_some]
      rw [offset_cons_of_isAscii h (by decide), ← offset_append_right hbehind,
        attrsFrom_offset hrest]
      cases attrs? rest <;> rfl

end Tandem.Octet
