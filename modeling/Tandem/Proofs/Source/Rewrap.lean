import Tandem.Proofs.Markup.Stack
import Tandem.Proofs.Source.Value
import Tandem.Proofs.Style.Sheet
import Tandem.Source.Outline

/-!
# Handlers in front of any text

The handler of a body is written into a tag as one attribute among others (`handlerText`). It should
be read as that, whatever follows (`ReadsAs`):

* **wrapped bodies** — `wrapped_reads_back`: the body is unwrapped again, and the attribute is read
  as it was written if it ends at the brace behind it;
* **bodies that were unwrapped** — `rereads_iff`: a trimmed body comes back from the tag exactly if
  the wrapped one ends at the brace behind it, or at its own last brace and the body in no other
  (`Rewraps`).

In the second case the brace behind the handler is passed over by the reader of attributes
(`attrs?_brace`), and the brace that is missing in it is not missed by the pattern that unwraps it.
-/

namespace Tandem.Source

open Text Markup

/-! ## A written handler in a tag -/

/-- A tag with a handler, up to what follows the handler. -/
def handlerText (pad : Nat → List Char) (level : Nat) (name : List Char) (body : String) :
    List Char :=
  openText ['T'] [⟨name, .braced (wrap pad level body)⟩]

/-- One expression is read behind the name, and then the rest of the tag. -/
def ReadsAs (cs name inside rest : List Char) : Prop :=
  tag? (cs ++ rest) =
    (attrs? rest).map fun r => (⟨['T'], ⟨name, .braced inside⟩ :: r.1, r.2.1⟩, r.2.2)

theorem tag?_handlerText (pad : Nat → List Char) (level : Nat) {name : List Char}
    (hname : isAttrName name = true) (body : String) (rest : List Char) :
    tag? (handlerText pad level name body ++ rest) =
      (Markup.attrValue? ('\x7b' :: (wrap pad level body ++ '\x7d' :: rest))).bind fun p =>
        (attrs? p.2).map fun r => (⟨['T'], ⟨name, p.1⟩ :: r.1, r.2.1⟩, r.2.2) :=
  tag?_brace (by decide) hname _ rest

theorem readsAs_of_closed {pad : Nat → List Char} (hpad : ∀ l, Blank (pad l)) (level : Nat)
    {name : List Char} (hname : isAttrName name = true) {body : String}
    (hclosed : closeBrace (wrap pad level body ++ ['\x7d']) = some []) (rest : List Char) :
    ReadsAs (handlerText pad level name body) name (wrap pad level body) rest := by
  rw [ReadsAs, tag?_handlerText pad level hname, attrValue?_braced hclosed, trim_wrap hpad,
    Option.bind_some]

/-- **A handler survives being wrapped and unwrapped.** The body that is taken from the handler
written around a body that is not blank is that body, trimmed, at every level and for every writer.
If the written handler ends at the brace behind it, then in a tag, under any name and in front of
any text, it is read as one attribute, as it was written. -/
theorem wrapped_reads_back (g : Writer) (level : Nat) {name : String}
    (hname : isAttrName name.toList = true) {body : String} (hbody : isBlankString body = false) :
    unwrap (String.ofList (wrap g.pad level body)) = String.ofList (trim body.toList) ∧
      (closeBrace (wrap g.pad level body ++ ['\x7d']) = some [] → ∀ rest,
        ReadsAs (handlerText g.pad level name.toList body) name.toList
          (wrap g.pad level body) rest) := by
  have hne : trim body.toList ≠ [] := by
    rw [Ne, trim_eq_nil_iff]
    exact Bool.eq_false_iff.mp hbody
  exact ⟨unwrap_wrap (Style.blank_pad g) level hne,
    readsAs_of_closed (Style.blank_pad g) level hname⟩

/-- A comment with an apostrophe and an opening brace in it, on a line of its own. -/
theorem wrapped_reads_back_of_note :
    let g : Writer := ⟨⟨4, "MyPage"⟩, fun _ => []⟩
    let body := " \n// don't \x7b\n  save()\n"
    isAttrName "on:click".toList = true ∧ isBlankString body = false ∧
      unwrap (String.ofList (wrap g.pad 1 body)) = "// don't \x7b\n  save()" ∧
      ∀ rest, ReadsAs (handlerText g.pad 1 "on:click".toList body) "on:click".toList
        (wrap g.pad 1 body) rest := by
  intro g body
  have hname : isAttrName "on:click".toList = true := by decide
  have hbody : isBlankString body = false := by decide
  obtain ⟨hunwrap, hread⟩ := wrapped_reads_back g 1 hname hbody
  refine ⟨hname, hbody, ?_, hread (by decide +kernel)⟩
  rw [hunwrap]
  decide +kernel

/-! ## Bodies that are read again -/

/-- Written again, the handler is read as one attribute with the same body, whatever follows. -/
def Rereads (pad : Nat → List Char) (level : Nat) (name : List Char) (body : String) : Prop :=
  ∀ rest, ∃ inside, ReadsAs (handlerText pad level name body) name inside rest ∧
    handler? (expressionValue inside) = some body

/-- The wrapped body ends at the brace behind it; or it ends at its own last brace, which is not
missed, as the one behind it is passed over and the body does not end in another. -/
def Rewraps (pad : Nat → List Char) (level : Nat) (body : String) : Prop :=
  closeBrace (wrap pad level body ++ ['\x7d']) = some [] ∨
    closeBrace (wrap pad level body) = some [] ∧ body.toList.getLast? ≠ some '\x7d'

theorem wrap_of_trimmed {pad : Nat → List Char} (hpad : ∀ l, Blank (pad l)) (level : Nat)
    {body : String} (hbody : trim body.toList = body.toList) :
    ∃ a z, wrap pad level body = opened (a ++ (body.toList ++ (z ++ ['\x7d']))) ∧
      Blank a ∧ Blank z ∧ (occurs "//".toList body.toList = true → z.head? = some '\n') := by
  obtain ⟨a, cs, z, hwrap, ha, hz, hcs, hbreak⟩ := wrap_cases hpad level body
  rw [hbody, or_self] at hcs
  subst hcs
  refine ⟨a, z, ?_, ha, hz, hbreak⟩
  rw [hwrap, arrow_eq, List.append_assoc, List.append_assoc]

/-- A brace is taken off a trimmed text if it ends in one. -/
theorem dropBrace_eq_self_iff {cs : List Char} (htrim : trim cs = cs) (hne : cs ≠ []) :
    dropBrace cs = cs ↔ cs.getLast? ≠ some '\x7d' := by
  rw [dropBrace]
  split
  next hlast =>
    refine iff_of_false ?_ (not_not_intro hlast)
    intro h
    have hle := length_trimEnd_le cs.dropLast
    have hpos := List.length_pos_iff.mpr hne
    rw [h, List.length_dropLast] at hle
    omega
  next hlast => exact iff_of_true (trimEnd_eq_self (htrim ▸ getLast?_trim cs)) hlast

theorem length_dropBrace_le (cs : List Char) : (dropBrace cs).length ≤ cs.length := by
  rw [dropBrace]
  split
  · have h := length_trimEnd_le cs.dropLast
    rw [List.length_dropLast] at h
    omega
  · exact length_trimEnd_le cs

/-- The reader of attributes passes over a brace. -/
theorem attrs?_brace (rest : List Char) : attrs? ('\x7d' :: rest) = attrs? rest := by
  rw [attrs?_eq, List.dropWhile_cons_of_neg (by decide)]
  simp [attrName?, isAttrNameStart]

theorem handler?_opened (cs : List Char) :
    handler? (expressionValue (trim (opened cs))) =
      some (String.ofList (dropBrace (trim cs))) := by
  have hnone : Json.ofText? (trim (opened cs)) = none := by
    rw [trim_opened]
    exact ofText?_parenthesis _
  rw [expressionValue, hnone, Option.getD_none, handler?, unwrap_trim, unwrap_opened]

/-- A handler with the body ends behind the body, at one of the braces there. -/
theorem end_of_body {a cs z inside after : List Char} (ha : Blank a) (hz : Blank z)
    (h : a ++ (cs ++ (z ++ ['\x7d', '\x7d', '>'])) = inside ++ '\x7d' :: after)
    (hcs : dropBrace (trim inside) = cs) :
    inside = a ++ (cs ++ z) ∨ inside = a ++ (cs ++ (z ++ ['\x7d'])) := by
  obtain ⟨front, rfl, hfront⟩ := exists_append_of_not_mem (ha.not_mem (by decide)) h
  -- What is left of a text is no longer than the text, so the brace stands behind the body.
  have hlength : cs.length ≤ front.length := by
    rw [← hcs, trim, trimStart_append ha, ← trim]
    exact Nat.le_trans (length_dropBrace_le _) (length_trim_le front)
  obtain ⟨behind, rfl⟩ : cs <+: front :=
    List.prefix_of_prefix_length_le (List.prefix_append cs _) (hfront ▸ List.prefix_append front _)
      hlength
  rw [List.append_assoc] at hfront
  obtain ⟨last, rfl, hlast⟩ :=
    exists_append_of_not_mem (hz.not_mem (by decide)) (List.append_cancel_left hfront)
  rcases last with _ | ⟨c, _ | ⟨d, last⟩⟩
  · left
    rw [List.append_nil]
  · right
    rw [(List.cons.inj hlast).1]
  · rcases last with _ | ⟨e, last⟩ <;> simp at hlast

section

variable {pad : Nat → List Char} {level : Nat} {name : List Char} {body : String}

theorem rewraps_of_rereads (hpad : ∀ l, Blank (pad l)) (hname : isAttrName name = true)
    (htrim : trim body.toList = body.toList) (hne : body.toList ≠ [])
    (h : Rereads pad level name body) : Rewraps pad level body := by
  obtain ⟨a, z, hwrap, ha, hz, -⟩ := wrap_of_trimmed hpad level htrim
  -- The end of the tag is right behind the handler.
  obtain ⟨read, hread, hbody⟩ := h ['>']
  have hend : attrs? ['>'] = some ([], false, []) := by decide +kernel
  rw [ReadsAs, hend, Option.map_some] at hread
  obtain ⟨inside, after, hinside, hclosed, rfl, -⟩ :=
    exists_of_tag?_brace (by decide) hname hread
  have hsplit : opened [] ++ (a ++ (body.toList ++ (z ++ ['\x7d', '\x7d', '>']))) =
      inside ++ '\x7d' :: after := by
    rw [← hinside, hwrap]
    simp [opened]
  obtain ⟨inside, rfl, hbehind⟩ := exists_append_of_not_mem (by decide) hsplit
  have hopened : opened [] ++ inside = opened inside := rfl
  rw [hopened, handler?_opened, Option.some.injEq] at hbody
  have hdrop : dropBrace (trim inside) = body.toList := by rw [← hbody, String.toList_ofList]
  obtain rfl | rfl := end_of_body ha hz hbehind hdrop
  · right
    constructor
    · rw [hwrap, ← hclosed]
      simp [opened, closeBrace]
    · rw [trim_surrounded ha hz htrim hne] at hdrop
      exact (dropBrace_eq_self_iff htrim hne).mp hdrop
  · left
    rw [hwrap]
    exact hclosed

theorem rereads_of_rewraps (hpad : ∀ l, Blank (pad l)) (hname : isAttrName name = true)
    (htrim : trim body.toList = body.toList) (hne : body.toList ≠ [])
    (h : Rewraps pad level body) : Rereads pad level name body := by
  intro rest
  obtain hclosed | ⟨hclosed, hlast⟩ := h
  · refine ⟨_, readsAs_of_closed hpad level hname hclosed rest, ?_⟩
    rw [expressionValue, ofText?_wrap hpad, Option.getD_none, handler?,
      unwrap_wrap hpad level (htrim.symm ▸ hne), htrim, String.ofList_toList]
  · obtain ⟨a, z, hwrap, ha, hz, -⟩ := wrap_of_trimmed hpad level htrim
    have hsplit : wrap pad level body = opened (a ++ (body.toList ++ z)) ++ ['\x7d'] := by
      rw [hwrap]
      simp [opened]
    have hinside : AttrValue.Closed (.braced (opened (a ++ (body.toList ++ z)))) := by
      rw [hsplit] at hclosed
      exact hclosed
    refine ⟨trim (opened (a ++ (body.toList ++ z))), ?_, ?_⟩
    · -- The brace behind the wrapped body is not missed.
      rw [ReadsAs, tag?_handlerText pad level hname, hsplit, List.append_assoc,
        List.singleton_append, attrValue?_braced hinside, Option.bind_some, attrs?_brace]
    · rw [handler?_opened, trim_surrounded ha hz htrim hne,
        (dropBrace_eq_self_iff htrim hne).mpr hlast, String.ofList_toList]

theorem rereads_iff (hpad : ∀ l, Blank (pad l)) (hname : isAttrName name = true)
    (htrim : trim body.toList = body.toList) (hne : body.toList ≠ []) :
    Rereads pad level name body ↔ Rewraps pad level body :=
  ⟨rewraps_of_rereads hpad hname htrim hne, rereads_of_rewraps hpad hname htrim hne⟩

end

end Tandem.Source
