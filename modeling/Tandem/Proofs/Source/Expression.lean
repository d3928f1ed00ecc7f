import Tandem.Proofs.Json.Length
import Tandem.Proofs.Source.Attribute

/-!
# Expressions in front of any text

What is written in braces has to be found again by a reader that knows strings, templates and
comments, and has to mean the same, as JSON if it is that and else as text. The tag around it is
that of the module on attributes, a void one with a class, in front of any text:

* **structures** — `structured_reads_back`: a number, `false`, an array or an object is always
  read back, because what is printed of a value closes all that it opens (`leads_print`);
* **text** — `expression_reads_back`: a text that is written in braces because it looks like code
  is read back exactly if it has no blanks around it, is no JSON, and ends at the brace behind it.

The second is decided by where the closing brace is found (`length_le_of_left`). If that is too
early, the value is too short, even as JSON (`length_expressionValue_le`); if it is too late, the
value has taken the class along.
-/

namespace Tandem.Source

open Text Markup

/-! ## Structures -/

/-- A value that is written in braces as JSON. -/
def IsStructured : Json → Prop
  | .num _ | .bool false | .arr _ | .obj _ => True
  | _ => False

theorem IsStructured.attrValue? {v : Json} (hv : IsStructured v) (name : String) :
    attrValue? name v = some (.braced (Json.print v)) := by
  cases v with
  | null => cases hv
  | str s => cases hv
  | num n => rw [Source.attrValue?, Json.print]
  | arr items => rw [Source.attrValue?]
  | obj fields => rw [Source.attrValue?]
  | bool b =>
      cases b with
      | true => cases hv
      | false => rw [Source.attrValue?, Json.print]

/-- **Structures are read back from braces.** A number, `false`, an array or an object, whose
numbers are whole ones of 64 bits and which is not nested too deeply, is written in braces, under
any name. In a tag with a class behind it and any text behind that, the tag is read as a void one
with two attributes, the text is left, and the first attribute has the value it was written from. -/
theorem structured_reads_back {name : String} (hname : isAttrName name.toList = true) {v : Json}
    (hstructured : IsStructured v) (hplain : v.Plain) (hdepth : v.raw.depth ≤ Json.depthLimit)
    (rest : List Char) :
    ∃ written read, attrValue? name v = some written ∧
      tag? (tagOf ⟨name.toList, written⟩ ++ rest) =
        some (⟨['T'], [⟨name.toList, .braced read⟩, mark], true⟩, rest) ∧
      expressionValue read = v := by
  have hreadable := readable_print hplain
  have hclosed : Attr.Closed ⟨name.toList, .braced (Json.print v)⟩ := ⟨hname, hreadable.closed⟩
  have htag := tag?_tagOf hclosed rest
  rw [Attr.tidy, hreadable.tidy_eq] at htag
  refine ⟨_, _, hstructured.attrValue? name, htag, ?_⟩
  rw [expressionValue, hplain.ofText?_print hdepth, Option.getD_some]

/-- An object with braces, quotes and the starts of comments in its texts. -/
def settings : Json :=
  .obj [("a\"\x7b", .arr [.str "\x7d // \x60", .num (.int (-5)), .null]), ("b", .str "/*\n")]

theorem structured_reads_back_of_settings :
    isAttrName "data-settings".toList = true ∧ IsStructured settings ∧ settings.Plain ∧
      settings.raw.depth ≤ Json.depthLimit ∧
      ∃ written read, attrValue? "data-settings" settings = some written ∧
        tag? (tagOf ⟨"data-settings".toList, written⟩ ++ "\x7d */".toList) =
          some (⟨['T'], [⟨"data-settings".toList, .braced read⟩, mark], true⟩, "\x7d */".toList) ∧
        expressionValue read = settings := by
  have hname : isAttrName "data-settings".toList = true := by decide
  have hplain : settings.Plain := by
    refine .obj _ (by simp +decide only [Ascending]) ?_
    have hitems : ∀ v ∈ [Json.str "\x7d // \x60", .num (.int (-5)), .null], v.Plain := by
      simpa using ⟨.str _, .int (-5) (by decide), .null⟩
    simpa using ⟨.arr _ hitems, .str _⟩
  have hdepth : settings.raw.depth ≤ Json.depthLimit := by decide
  have hstructured : IsStructured settings := trivial
  exact ⟨hname, hstructured, hplain, hdepth,
    structured_reads_back hname hstructured hplain hdepth _⟩

/-! ## Text -/

/-- The value of an expression that is a text is no longer than the expression. -/
theorem length_expressionValue_le {cs : List Char} {s : String}
    (h : expressionValue cs = .str s) :
    s.toList.length ≤ cs.length ∧ (s.toList.length = cs.length → Json.ofText? cs = none) := by
  rw [expressionValue] at h
  cases hvalue : Json.ofText? cs with
  | none =>
      rw [hvalue, Option.getD_none, Json.str.injEq] at h
      rw [← h, String.toList_ofList]
      exact ⟨Nat.le_refl _, fun _ => rfl⟩
  | some v =>
      rw [hvalue, Option.getD_some] at h
      have hlt := Json.length_lt_of_ofText? (h ▸ hvalue)
      exact ⟨Nat.le_of_lt hlt, fun heq => absurd heq (Nat.ne_of_lt hlt)⟩

/-- A brace that is found with more than `rest` left is not one behind the written one, if none
stands in between. -/
theorem length_le_of_left {cs inside behind rest after : List Char}
    (h : cs ++ '\x7d' :: (behind ++ rest) = inside ++ '\x7d' :: after) (hbehind : '\x7d' ∉ behind)
    (hafter : rest.length < after.length) : inside.length ≤ cs.length := by
  by_contra hlong
  -- The text up to the brace that is found goes on behind the written one.
  obtain ⟨between, hsplit⟩ : ∃ between, behind ++ rest = between ++ '\x7d' :: after := by
    obtain ⟨m, rfl, hm⟩ | ⟨m, rfl, hm⟩ := List.append_eq_append_iff.mp h
    · cases m with
      | nil => simp at hlong
      | cons d ds => exact ⟨ds, (List.cons.inj hm).2⟩
    · simp at hlong
  obtain ⟨ds, rfl, hrest⟩ := exists_append_of_not_mem hbehind hsplit
  rw [hrest] at hafter
  simp at hafter
  omega

/-- What is written of a text in braces is the text. -/
theorem written_of_braced {name s : String} {written : List Char}
    (h : attrValue? name (.str s) = some (.braced written)) : written = s.toList := by
  rw [attrValue?] at h
  split at h
  · cases h
  · split at h
    · cases h
      rfl
    · cases h

/-- **A text is read back from braces exactly if it has no blanks around it, is no JSON, and ends at
the brace behind it.** Let a text be written in braces, under any name, in a tag with a class behind
it and any text behind that. The tag is read as a void one with two attributes, the text is left,
and the value of the first attribute is the text that it was written from; but if that begins or
ends in a blank, is a number or a string in JSON, or has a brace, a quote or a comment in it that
takes the closing brace elsewhere, this is not so. -/
theorem expression_reads_back {name : String} (hname : isAttrName name.toList = true) {s : String}
    {written : List Char} (hwritten : attrValue? name (.str s) = some (.braced written))
    (rest : List Char) :
    (∃ read, tag? (tagOf ⟨name.toList, .braced written⟩ ++ rest) =
        some (⟨['T'], [⟨name.toList, .braced read⟩, mark], true⟩, rest) ∧
      expressionValue read = .str s) ↔
    trim s.toList = s.toList ∧ Json.ofText? s.toList = none ∧
      closeBrace (s.toList ++ ['\x7d']) = some [] := by
  obtain rfl : written = s.toList := written_of_braced hwritten
  constructor
  · rintro ⟨read, htag, hvalue⟩
    have hsplit : tagOf ⟨name.toList, .braced s.toList⟩ ++ rest =
        openText ['T'] [⟨name.toList, .braced s.toList⟩] ++ (" class=\"x\" />".toList ++ rest) := by
      simp [tagOf, openText, Attr.text, mark]
    rw [hsplit] at htag
    obtain ⟨inside, after, hinside, hclosed, rfl, hattrs⟩ :=
      exists_of_tag?_brace (by decide) hname htag
    have hleft : rest.length < after.length := attrs?_length hattrs
    have hle := length_le_of_left hinside (by decide) hleft
    -- The value is no longer than what was read, so nothing is missing and nothing was trimmed.
    obtain ⟨hshort, hplain⟩ := length_expressionValue_le hvalue
    have htrim := length_trim_le inside
    obtain rfl : inside = s.toList :=
      (List.append_inj_left hinside (by omega)).symm
    have hnone := hplain (by omega)
    rw [expressionValue, hnone, Option.getD_none, Json.str.injEq] at hvalue
    have hself : trim s.toList = s.toList := by
      rw [← String.toList_ofList (l := trim s.toList), hvalue]
    exact ⟨hself, hself ▸ hnone, hclosed⟩
  · rintro ⟨htrim, hnone, hclose⟩
    have hclosed : Attr.Closed ⟨name.toList, .braced s.toList⟩ := ⟨hname, hclose⟩
    have htag := tag?_tagOf hclosed rest
    rw [Attr.tidy, AttrValue.tidy, htrim] at htag
    refine ⟨_, htag, ?_⟩
    rw [expressionValue, hnone, Option.getD_none, String.ofList_toList]

/-- An expression with a brace in a string is read back, though what follows has quotes and a brace
in it. -/
theorem expression_reads_back_of_sum :
    let written := "users[0].name + \"\x7d\"".toList
    isAttrName "value".toList = true ∧
      attrValue? "value" (.str "users[0].name + \"\x7d\"") = some (.braced written) ∧
      ∃ read, tag? (tagOf ⟨"value".toList, .braced written⟩ ++ "'\x7d\">".toList) =
          some (⟨['T'], [⟨"value".toList, .braced read⟩, mark], true⟩, "'\x7d\">".toList) ∧
        expressionValue read = .str "users[0].name + \"\x7d\"" := by
  intro written
  have hname : isAttrName "value".toList = true := by decide
  have hwritten : attrValue? "value" (.str "users[0].name + \"\x7d\"") =
      some (.braced written) := by
    decide +kernel
  exact ⟨hname, hwritten, (expression_reads_back hname hwritten _).mpr (by decide +kernel)⟩

/-- A negative number that is a text has a point in it and looks like a member, so it is written in
braces, and a number is read back. -/
theorem expression_offset_turns_number :
    let offset := "-1.5".toList
    attrValue? "offset" (.str "-1.5") = some (.braced offset) ∧
      tag? (tagOf ⟨"offset".toList, .braced offset⟩) =
        some (⟨['T'], [⟨"offset".toList, .braced offset⟩, mark], true⟩, []) ∧
      (∃ x, expressionValue offset = .num x) ∧
      ¬∃ read, tag? (tagOf ⟨"offset".toList, .braced offset⟩) =
          some (⟨['T'], [⟨"offset".toList, .braced read⟩, mark], true⟩, []) ∧
        expressionValue read = .str "-1.5" := by
  intro offset
  have hread : tag? (tagOf ⟨"offset".toList, .braced offset⟩) = some (⟨['T'],
      [⟨"offset".toList, .braced offset⟩, mark], true⟩, []) := by decide +kernel
  have hnumber : ∃ x, expressionValue offset = .num x :=
    ⟨.float (.ofMagnitude true 4609434218613702656), by decide +kernel⟩
  refine ⟨by decide +kernel, hread, hnumber, ?_⟩
  rintro ⟨read, htag, hvalue⟩
  rw [hread] at htag
  cases htag
  obtain ⟨x, hx⟩ := hnumber
  rw [hx] at hvalue
  cases hvalue

end Tandem.Source
