import Tandem.Proofs.Source.Value

/-!
# Attributes in front of any text

A property is written as one attribute among others, and the reader has to stop at its end
whatever follows. That is said of a void tag with the attribute and a class behind it
(`tagOf`), in front of any text:

* **closed values** — `tag?_tagOf`: exactly the two attributes are read, and the text is left;
* **open quotes** — `tag?_tagOf_of_odd`: a quoted value that ends in an odd run of backslashes
  protects its closing quote, and the value goes on up to the quote of the class.

As escaping leaves backslashes alone, `quoted_reads_back` says which texts are lost in quotes.
-/

namespace Tandem.Source

open Text Markup

/-- A class, which is what stands behind every property. -/
def mark : Attr := ⟨"class".toList, .quoted ['x']⟩

/-- A void tag with the attribute and a class. -/
def tagOf (a : Attr) : List Char := openText ['T'] [a, mark] ++ " />".toList

theorem mark_readable : mark.Readable where
  name := by decide
  value := show closeQuote '"' ['x', '"'] = some [] by decide

/-- A closed attribute ends where it is meant to, whatever follows. -/
theorem tag?_tagOf {a : Attr} (ha : a.Closed) (rest : List Char) :
    tag? (tagOf a ++ rest) = some (⟨['T'], [a.tidy, mark], true⟩, rest) := by
  have hname : isTagName ['T'] = true := by decide
  have hattrs : ∀ b ∈ [a, mark], b.Closed := by
    simpa using ⟨ha, mark_readable.closed⟩
  have hvoid := tag?_void hname hattrs rest
  rw [List.map_cons, List.map_singleton, mark_readable.tidy_eq] at hvoid
  rw [tagOf, List.append_assoc]
  exact hvoid

/-- A value that ends in an odd run of backslashes goes on behind its quote. -/
theorem closed_of_odd {cs : List Char} (hquote : '"' ∉ cs) (hodd : backslashes cs % 2 = 1) :
    AttrValue.Closed (.quoted (cs ++ "\" class=".toList)) := by
  have hopen := leads_quoted hquote []
  rw [if_pos hodd] at hopen
  have hclass : Leads [.quoted '"'] [] (" class=".toList ++ ['"']) :=
    leads_closeQuote (by decide) (by decide) (by decide) []
  have hprotected : Leads [.escaped, .quoted '"'] [] ('"' :: (" class=".toList ++ ['"'])) :=
    .cons rfl hclass
  have hclose := (hopen.append hprotected).close []
  rw [List.append_nil] at hclose
  show closeQuote '"' _ = some []
  rw [closeQuote, ← hclose, List.append_assoc]
  rfl

theorem tag?_tagOf_of_odd {name : List Char} (hname : isAttrName name = true) {cs : List Char}
    (hquote : '"' ∉ cs) (hodd : backslashes cs % 2 = 1) (rest : List Char) :
    tag? (tagOf ⟨name, .quoted cs⟩ ++ rest) =
      (attrs? ("x\" />".toList ++ rest)).map fun r =>
        (⟨['T'], ⟨name, .quoted (cs ++ "\" class=".toList)⟩ :: r.1, r.2.1⟩, r.2.2) := by
  have htag : isTagName ['T'] = true := by decide
  have hsplit : tagOf ⟨name, .quoted cs⟩ ++ rest = '<' :: (['T'] ++ ' ' :: (name ++
      '=' :: '"' :: ((cs ++ "\" class=".toList) ++ '"' :: ("x\" />".toList ++ rest)))) := by
    simp [tagOf, openText, Attr.text, mark]
  have hvalue := attrValue?_quoted (closed_of_odd hquote hodd) ("x\" />".toList ++ rest)
  have hread : attrRest? ('=' :: '"' :: ((cs ++ "\" class=".toList) ++
      '"' :: ("x\" />".toList ++ rest))) =
        some (.quoted (cs ++ "\" class=".toList), "x\" />".toList ++ rest) := by
    rw [attrRest?, List.dropWhile_cons_of_neg (by decide)]
    exact hvalue
  rw [hsplit, tag?_name htag (stops_cons (by decide)),
    attrs?_name hname (stops_cons (by decide)) hread, Option.map_map]
  rfl

/-- What is written of a text in quotes is the escaped text. -/
theorem written_of_quoted {name s : String} {written : List Char}
    (h : attrValue? name (.str s) = some (.quoted written)) :
    written = escapeAttribute s.toList := by
  rw [attrValue?] at h
  split at h
  · cases h
  · split at h
    · cases h
    · cases h
      rfl

/-- **A text is read back from quotes exactly if no odd run of backslashes ends it.** Let a text be
written in quotes, under any name, in a tag with a class behind it and any text behind that. The
tag is read as a void one with two attributes, the text is left, and the first attribute is quoted
and stands for the text that it was written from; but if the backslashes at the end of that are odd
in number, this is not so. -/
theorem quoted_reads_back {name : String} (hname : isAttrName name.toList = true) {s : String}
    {written : List Char} (hwritten : attrValue? name (.str s) = some (.quoted written))
    (rest : List Char) :
    (∃ read, tag? (tagOf ⟨name.toList, .quoted written⟩ ++ rest) =
        some (⟨['T'], [⟨name.toList, .quoted read⟩, mark], true⟩, rest) ∧
      decode read = s.toList) ↔ backslashes s.toList % 2 = 0 := by
  obtain rfl : written = escapeAttribute s.toList := written_of_quoted hwritten
  constructor
  · rintro ⟨read, htag, hdecode⟩
    by_contra hodd
    have hescaped : backslashes (escapeAttribute s.toList) % 2 = 1 := by
      rw [backslashes_escapeAttribute]
      omega
    -- The value that is read goes on behind the text, so it is too long to stand for it.
    rw [tag?_tagOf_of_odd hname (quote_not_mem_escapeAttribute _) hescaped] at htag
    obtain ⟨r, _, heq⟩ := Option.map_eq_some_iff.mp htag
    simp only [Prod.mk.injEq, Tag.mk.injEq, List.cons.injEq, Attr.mk.injEq, AttrValue.quoted.injEq,
      true_and] at heq
    obtain ⟨⟨⟨hread, _⟩, _⟩, _⟩ := heq
    rw [← hread, escapeAttribute, isEscape_attributeReference.decode_append] at hdecode
    have hbehind : (decode "\" class=".toList).length = 8 := by decide
    have hlength := congrArg List.length hdecode
    rw [List.length_append, hbehind] at hlength
    omega
  · intro heven
    have hclosed : Attr.Closed ⟨name.toList, .quoted (escapeAttribute s.toList)⟩ :=
      ⟨hname, (readable_escapeAttribute heven).closed⟩
    exact ⟨_, tag?_tagOf hclosed rest, decode_escapeAttribute _⟩

/-- A path with quotes around its last part and two backslashes at its end is read back, though
what follows has a quote in it. -/
theorem quoted_reads_back_of_path :
    let written := "C:\\&quot;a&quot;\\\\".toList
    isAttrName "title".toList = true ∧
      attrValue? "title" (.str "C:\\\"a\"\\\\") = some (.quoted written) ∧
      ∃ read, tag? (tagOf ⟨"title".toList, .quoted written⟩ ++ "<b id=\"c\">".toList) =
          some (⟨['T'], [⟨"title".toList, .quoted read⟩, mark], true⟩, "<b id=\"c\">".toList) ∧
        decode read = "C:\\\"a\"\\\\".toList := by
  intro written
  have hname : isAttrName "title".toList = true := by decide
  have hwritten : attrValue? "title" (.str "C:\\\"a\"\\\\") = some (.quoted written) := by decide
  exact ⟨hname, hwritten, (quoted_reads_back hname hwritten _).mpr (by decide)⟩

/-- The path of a drive is written in quotes, and its backslash protects the closing one: the value
goes on to the quote of the class, and the class is lost. -/
theorem quoted_path_takes_class :
    let path := "C:\\".toList
    attrValue? "title" (.str "C:\\") = some (.quoted path) ∧
      tag? (tagOf ⟨"title".toList, .quoted path⟩) = some (⟨['T'],
        [⟨"title".toList, .quoted "C:\\\" class=".toList⟩, ⟨['x'], .bare⟩], true⟩, []) ∧
      ¬∃ read, tag? (tagOf ⟨"title".toList, .quoted path⟩) =
          some (⟨['T'], [⟨"title".toList, .quoted read⟩, mark], true⟩, []) ∧
        decode read = "C:\\".toList := by
  intro path
  have hread : tag? (tagOf ⟨"title".toList, .quoted path⟩) = some (⟨['T'],
      [⟨"title".toList, .quoted "C:\\\" class=".toList⟩, ⟨['x'], .bare⟩], true⟩, []) := by
    decide +kernel
  refine ⟨by decide, hread, ?_⟩
  rintro ⟨read, htag, _⟩
  rw [hread] at htag
  cases htag

end Tandem.Source
