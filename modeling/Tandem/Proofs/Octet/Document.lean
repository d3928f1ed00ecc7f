import Tandem.Proofs.Octet.Outline
import Tandem.Proofs.Source.Header
import Tandem.Proofs.Source.StyleBlock

/-!
# Documents by octet positions

The reader of documents cuts a body at a style header that it finds among pieces. The
program searches the characters for headers and asks of each position in front of one
whether it is outside tags. Inside a tag it says no, and behind a tag, whose last character
is no word character, both go on alike:

* **headers** — `firstOutside_styleHeads`, the first header outside tags is the one the
  reader finds, at the positions it has in the text;
* **bodies** — `bodyOf_eq`, from the positions of the header on;
* **documents** — `document_eq`: the program answers on every text, with what the reader
  answers.
-/

namespace Tandem.Octet

open Text Markup Source Style

variable {text : List Char}

/-! ## Style headers among characters -/

/-- Characters that start no tag are dropped alike from a text and from its pieces. -/
theorem dropMarks_pieces {word : List Char} (h : ∀ c ∈ word, c ≠ '<') (cs : List Char) :
    dropMarks word (pieces cs) = (word.isPrefixOf? cs).map pieces := by
  induction word generalizing cs with
  | nil => rfl
  | cons w word ih =>
      have hw : w ≠ '<' := h w List.mem_cons_self
      cases cs with
      | nil => rw [pieces_nil]; rfl
      | cons c cs =>
          rw [List.isPrefixOf?]
          by_cases hc : c = w
          · rw [hc, pieces_cons hw, dropMarks, if_pos rfl, if_pos (beq_self_eq_true w),
              ih fun d hd => h d (List.mem_cons_of_mem w hd)]
          · rw [if_neg (fun heq => hc (eq_of_beq heq).symm)]
            rcases pieces_cases c cs with ⟨front, rest, _, _, heq⟩ | ⟨_, heq⟩
            · rw [heq, dropMarks, if_neg (by simp), Option.map_none]
            · rw [heq, dropMarks, if_neg (by simpa using hc), Option.map_none]

theorem dropBlankMarks_pieces (cs : List Char) :
    dropBlankMarks (pieces cs) = pieces (cs.dropWhile isBlank) := by
  induction cs with
  | nil => rw [List.dropWhile_nil, pieces_nil]; rfl
  | cons c cs ih =>
      cases hc : isBlank c with
      | true =>
          have hne : c ≠ '<' := by rintro rfl; exact absurd hc (by decide)
          rw [pieces_cons hne, dropBlankMarks, if_pos hc, ih, List.dropWhile_cons_of_pos hc]
      | false =>
          rw [List.dropWhile_cons_of_neg (by simp [hc])]
          rcases pieces_cases c cs with ⟨front, rest, _, _, heq⟩ | ⟨_, heq⟩
          · rw [heq, dropBlankMarks]
          · rw [heq, dropBlankMarks, if_neg (by simp [hc])]

theorem braceRest?_pieces (cs : List Char) :
    dropMarks ['\x7b'] (pieces cs) = (braceRest? cs).map pieces := by
  rw [dropMarks_pieces (by simp)]
  cases cs with
  | nil => rfl
  | cons c cs =>
      by_cases hc : c = '\x7b'
      · rw [hc]
        rfl
      · have hbeq : ('\x7b' == c) = false := beq_false_of_ne (Ne.symm hc)
        rw [List.isPrefixOf?, hbeq, if_neg Bool.false_ne_true, braceRest?.eq_def]
        split
        next heq => exact absurd (List.cons.inj heq).1 hc
        next => rfl

theorem styleHeader?_pieces (cs : List Char) :
    styleHeader? (pieces cs) = (styleHead? cs).map pieces := by
  have hstyle : dropMarks "style".toList (pieces cs) =
      ("style".toList.isPrefixOf? cs).map pieces := dropMarks_pieces (by simp) cs
  rw [styleHeader?, styleHead?, hstyle, dropKeyword]
  cases "style".toList.isPrefixOf? cs with
  | none => rfl
  | some cs =>
      have hscoped : dropMarks "scoped".toList (pieces (cs.dropWhile isBlank)) =
          ("scoped".toList.isPrefixOf? (cs.dropWhile isBlank)).map pieces :=
        dropMarks_pieces (by simp) _
      simp only [Option.map_some, Option.bind_some, dropBlankMarks_pieces, hscoped, dropKeyword]
      cases "scoped".toList.isPrefixOf? (cs.dropWhile isBlank) with
      | none => exact braceRest?_pieces _
      | some cs => simp only [Option.map_some, dropBlankMarks_pieces]; exact braceRest?_pieces _

/-! ## The first header outside tags -/

theorem isOutside_append (ps qs : List Piece) (n : Nat) :
    isOutside ((textOf ps).length + n) (ps ++ qs) = isOutside n qs := by
  have hzero : ∀ ps, isOutside 0 ps = true := fun ps => by cases ps <;> rfl
  induction ps with
  | nil => rw [List.nil_append]; exact congrArg (isOutside · qs) (Nat.zero_add n)
  | cons p ps ih =>
      have hlength : (textOf (p :: ps)).length = p.text.length + (textOf ps).length :=
        List.length_append
      rw [List.cons_append, isOutside]
      split
      next hnone =>
        have hn : n = 0 := by omega
        rw [hn, hzero]
      next =>
        rw [if_neg (by omega), ← ih]
        congr 1
        omega

/-- A tag ends in its bracket, with something before it. -/
theorem tag_ends {t : List Char} (h : tagRest? t = some []) :
    ∃ body, t = '<' :: (body ++ ['>']) := by
  rw [tagRest?] at h
  split at h
  next hstart =>
    obtain ⟨body, hbody⟩ : ∃ body, t.tail = body ++ ['>'] := by
      refine close_ends (P := (· = .tag)) ?_ (s := []) rfl h
      rintro f c stack rfl hstep
      rw [step, tagStep] at hstep
      split at hstep
      next => cases hstep; exact .inr ⟨[.quoted c], .tag, rfl, rfl⟩
      next =>
        split at hstep
        next => cases hstep; exact .inr ⟨[.code false], .tag, rfl, rfl⟩
        next =>
          split at hstep
          next hc => cases hstep; exact .inl ⟨rfl, hc⟩
          next =>
            split at hstep
            next => cases hstep
            next => cases hstep; exact .inr ⟨[], .tag, rfl, rfl⟩
    refine ⟨body, ?_⟩
    obtain ⟨c, rest, _, rfl | rfl⟩ := startsTag_eq_true hstart
    · rw [← hbody]; rfl
    · rw [← hbody]; rfl
  next => cases h

/-- A header is passed over if its position is not outside tags. -/
theorem firstOutside_styleHeads_cons {c : Char} {front cs : List Char}
    (htext : text = front ++ c :: cs) (hinside : isOutside front.length (pieces text) = false)
    (afterWord : Bool) :
    firstOutside text (styleHeads text afterWord (c :: cs)) =
      firstOutside text (styleHeads text (isWord c) cs) := by
  have houtside := outsideTags_offset (htext ▸ List.suffix_refl text)
  rw [← htext, offset_self, hinside] at houtside
  rw [styleHeads]
  split
  next => rw [firstOutside, houtside]; rfl
  next => rfl

/-- Inside a tag the search goes on character by character, up to the bracket. -/
theorem firstOutside_styleHeads_inside {front ahead rest : List Char}
    (htext : text = front ++ (ahead ++ '>' :: rest))
    (hinside : ∀ behind tail, ahead = behind ++ tail →
      isOutside (front ++ behind).length (pieces text) = false) (afterWord : Bool) :
    firstOutside text (styleHeads text afterWord (ahead ++ '>' :: rest)) =
      firstOutside text (styleHeads text false rest) := by
  have hself : isOutside front.length (pieces text) = false := by
    have h := hinside [] ahead rfl
    rwa [List.append_nil] at h
  induction ahead generalizing front afterWord with
  | nil => exact firstOutside_styleHeads_cons htext hself afterWord
  | cons c ahead ih =>
      have hbehind : ∀ behind tail, ahead = behind ++ tail →
          isOutside (front ++ [c] ++ behind).length (pieces text) = false := by
        intro behind tail htail
        rw [← List.append_cons]
        exact hinside (c :: behind) tail (by rw [htail, List.cons_append])
      have hnext := hbehind [] ahead rfl
      rw [List.append_nil] at hnext
      rw [List.cons_append] at htext ⊢
      rw [firstOutside_styleHeads_cons htext hself]
      exact ih (by rw [htext, ← List.append_cons]) hbehind (isWord c) hnext

/-- No header inside a tag counts, and none behind it is behind a word character. -/
theorem firstOutside_styleHeads_tag {ps : List Piece} {t : List Char} {rest : List Char}
    (htext : pieces text = ps ++ .tag t :: pieces rest) (ht : tagRest? t = some [])
    (afterWord : Bool) :
    firstOutside text (styleHeads text afterWord (t ++ rest)) =
      firstOutside text (styleHeads text false rest) := by
  obtain ⟨body, rfl⟩ := tag_ends ht
  have hsplit : text = (textOf ps ++ ['<']) ++ (body ++ '>' :: rest) := by
    calc text = textOf (ps ++ .tag ('<' :: (body ++ ['>'])) :: pieces rest) := by
          rw [← htext, textOf_pieces]
      _ = textOf ps ++ ('<' :: (body ++ ['>']) ++ textOf (pieces rest)) := textOf_append ps _
      _ = _ := by rw [textOf_pieces]; simp
  have hinside : ∀ behind tail, body = behind ++ tail →
      isOutside (textOf ps ++ ['<'] ++ behind).length (pieces text) = false := by
    intro behind tail hbody
    rw [← List.append_cons, List.length_append, htext, isOutside_append, isOutside,
      if_neg (by simp), if_pos]
    rw [hbody]
    simp only [Piece.text, List.length_cons, List.length_append]
    omega
  have hhead : ∀ cs, styleHead? ('<' :: cs) = none := fun _ => rfl
  rw [List.cons_append, styleHeads]
  simp only [hhead, ite_self]
  rw [List.append_assoc]
  exact firstOutside_styleHeads_inside hsplit hinside _

/-- The positions around a header that was found among the pieces behind others. -/
def headAt (text : List Char) (ps : List Piece) (s : List Piece × List Piece) : Nat × Nat :=
  (octetLength (textOf (ps ++ s.1)), offset text (textOf s.2))

theorem map_headAt (text : List Char) (ps : List Piece) (p : Piece)
    (found : Option (List Piece × List Piece)) :
    (found.map fun s => (p :: s.1, s.2)).map (headAt text ps) =
      found.map (headAt text (ps ++ [p])) := by
  cases found with
  | none => rfl
  | some s =>
      simp only [Option.map_some, headAt, List.append_assoc, List.singleton_append]

/-- A header that starts with a character is found in front of it, or behind it. -/
theorem firstOutside_styleHeads_mark {ps : List Piece} {c : Char} {cs : List Char}
    (heq : pieces (c :: cs) = .mark c :: pieces cs)
    (htext : pieces text = ps ++ .mark c :: pieces cs)
    (hcs : firstOutside text (styleHeads text (isWord c) cs) =
      .ok ((findStyle (isWord c) (pieces cs)).map (headAt text (ps ++ [.mark c]))))
    (afterWord : Bool) :
    firstOutside text (styleHeads text afterWord (c :: cs)) =
      .ok ((findStyle afterWord (.mark c :: pieces cs)).map (headAt text ps)) := by
  have hsplit : text = textOf ps ++ c :: cs := by
    rw [← textOf_pieces text, htext, ← heq, textOf_append, textOf_pieces]
  have hheader : (if afterWord = true then none else styleHeader? (.mark c :: pieces cs)) =
      (if afterWord = true then none else styleHead? (c :: cs)).map pieces := by
    rw [← heq, styleHeader?_pieces]
    cases afterWord <;> rfl
  rw [styleHeads, findStyle, hheader]
  cases if afterWord = true then none else styleHead? (c :: cs) with
  | none =>
      simp only [Option.map_none]
      rw [hcs, map_headAt]
      rfl
  | some rest =>
      have hstart : offset text (c :: cs) = octetLength (textOf ps) := by
        rw [hsplit, offset_append]
      have htrue := isOutside_append ps (.mark c :: pieces cs) 0
      have houtside := outsideTags_offset (hsplit ▸ List.suffix_refl text)
      rw [← hsplit, offset_self, htext, ← Nat.add_zero (textOf ps).length, htrue,
        hstart] at houtside
      simp only [Option.map_some, firstOutside, hstart, houtside, headAt, List.append_nil,
        textOf_pieces]
      rfl

/-- **The first style header outside tags** is where the reader finds one. -/
theorem firstOutside_styleHeads {ps : List Piece} {cs : List Char}
    (htext : pieces text = ps ++ pieces cs) (afterWord : Bool) :
    firstOutside text (styleHeads text afterWord cs) =
      .ok ((findStyle afterWord (pieces cs)).map (headAt text ps)) := by
  induction hlen : cs.length using Nat.strong_induction_on generalizing ps cs afterWord with
  | _ n ih =>
      cases cs with
      | nil => rw [pieces_nil]; rfl
      | cons c cs =>
          rcases pieces_cases c cs with ⟨t, rest, hcs, ht, heq⟩ | ⟨hnone, heq⟩
          · have hlt : rest.length < n := by
              obtain ⟨body, rfl⟩ := tag_ends ht
              rw [← hlen, hcs, List.length_append, List.length_cons]
              omega
            have hheader : styleHeader? (.tag t :: pieces rest) = none := rfl
            rw [heq] at htext ⊢
            rw [hcs, firstOutside_styleHeads_tag htext ht,
              ih rest.length hlt (by rw [htext, List.append_cons]) false rfl, findStyle, hheader,
              ite_self]
            simp only
            rw [map_headAt]
            rfl
          · have hlt : cs.length < n := hlen ▸ Nat.lt_succ_self _
            rw [heq] at htext ⊢
            have hcs := ih cs.length hlt (by rw [htext, List.append_cons]) (isWord c) rfl
            exact firstOutside_styleHeads_mark heq htext hcs afterWord

/-! ## Bodies -/

theorem findStyle_prefix {afterWord : Bool} {ps before rest : List Piece}
    (h : findStyle afterWord ps = some (before, rest)) : before <+: ps := by
  induction ps generalizing afterWord before with
  | nil => cases h
  | cons p ps ih =>
      rw [findStyle] at h
      split at h
      next => cases h; exact List.nil_prefix
      next =>
        obtain ⟨⟨before', rest'⟩, hps, heq⟩ := Option.map_eq_some_iff.mp h
        cases heq
        exact List.cons_prefix_cons.mpr ⟨rfl, ih hps⟩

/-- **A body is cut like the reader cuts it.** -/
theorem bodyOf_eq (base : Nat) (text : List Char) :
    bodyOf base text = .ok (Body.read? base text) := by
  have hhead : firstOutside text (styleHeads text false text) = _ :=
    firstOutside_styleHeads (List.nil_append _).symm false
  rw [bodyOf, hhead, Body.read?]
  cases hfind : findStyle false (pieces text) with
  | none => rfl
  | some found =>
      obtain ⟨before, rest⟩ := found
      obtain ⟨front, hfront⟩ := findStyle_suffix hfind
      obtain ⟨tail, htail⟩ := findStyle_prefix hfind
      have hrest : pieces (textOf rest) = rest := by
        have hsplit : pieces text = (front ++ [.mark '{']) ++ rest := by
          rw [← hfront, List.append_cons]
        exact pieces_textOf_right hsplit
      have hopen : '{' :: textOf rest <:+ text := by
        refine ⟨textOf front, ?_⟩
        rw [← textOf_pieces text, ← hfront, textOf_append]
        rfl
      have hbefore : text = textOf before ++ textOf tail := by
        rw [← textOf_append, htail, textOf_pieces]
      have hbrace := countDown_offset hopen (by decide)
      have hstart : octetLength (textOf before) = offset text (textOf tail) := by
        rw [hbefore, offset_append]
      have hslice := slice_offset (List.suffix_refl text) ⟨textOf before, hbefore.symm⟩
      rw [offset_self, ← hstart] at hslice
      simp only [bind, Except.bind, Option.map_some, headAt, List.nil_append, hbrace,
        findBlockEnd_offset hopen, hrest, optional_answer]
      cases hblock : splitBlock 0 rest with
      | none =>
          rw [blockRest?, hblock]
          rfl
      | some found =>
          obtain ⟨inside, after⟩ := found
          obtain ⟨hinside, hafter⟩ := slice_block hopen (hrest.symm ▸ hblock)
          have hfront : upTo text (textOf tail) = textOf before := by rw [hbefore, upTo_append]
          rw [blockRest?, hblock]
          simp only [Option.map_some, hinside, hafter, hslice, hfront]
          rfl

/-! ## Documents -/

/-- The outlines of the elements in a body are its roots. -/
theorem outlines_of_body (b : Body) :
    ∃ roots, unwrapRoots (fragments b.markup) = .ok roots ∧
      roots.mapM (outlineOf (Sheet.ofRules (rules b.style))) = .ok b.roots := by
  obtain ⟨roots, hroots, hread⟩ := unwrapRoots_eq (fragments b.markup)
  refine ⟨roots, hroots, ?_⟩
  rw [mapM_eq_ok fun f _ => outlineOf_eq _ f, Body.roots, outlines_eq_map, readAll_eq, ← hread,
    List.map_map]
  rfl

/-- **The program answers on every text, with the answer of the reader.** So every range
that it takes out of a text is one, no count of open blocks and no position becomes
negative, and no loop stands still. -/
theorem document_eq (source : String) : document source = .ok (Document.read? source) := by
  rw [document, Document.read?]
  simp only
  cases hheader : header? source.toList with
  | none => rfl
  | some h =>
      have hopen := header?_suffix hheader
      have hbrace := countDown_offset hopen (by decide)
      have hstart : octetLength source.toList - octetLength h.rest =
          offset source.toList ('\x7b' :: h.rest) + 1 := by
        rw [offset_cons_of_isAscii hopen (by decide)]
        rfl
      simp only [bind, Except.bind, hbrace, hstart, findBlockEnd_offset hopen, optional_answer,
        blockInside?]
      cases hblock : splitBlock 0 (pieces h.rest) with
      | none =>
          rw [blockRest?, hblock]
          rfl
      | some found =>
          obtain ⟨inside, after⟩ := found
          obtain ⟨hinside, _⟩ := slice_block hopen hblock
          rw [blockRest?, hblock]
          simp only [Option.map_some, hinside, bodyOf_eq]
          generalize offset source.toList ('\x7b' :: h.rest) + 1 = start
          cases hbody : Body.read? start (textOf inside) with
          | error e => rfl
          | ok b =>
              obtain ⟨roots, hroots, houtlines⟩ := outlines_of_body b
              simp only [elements_zero, hroots, houtlines]
              rfl

end Tandem.Octet
