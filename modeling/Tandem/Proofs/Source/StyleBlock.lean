import Tandem.Proofs.Markup.Cut

/-!
# The style block of a body that is closed

A body is cut at the brace that closes it, and that brace was found on the whole text.
The body alone is cut into the same pieces, and a block opened in it is closed in it. A
style header outside tags is made of pieces of its own, so its brace is among them:

* **for the reader** — the error for a style block without an end is never given, and a block
  is taken out of the markup wherever it stands (`Body.read?_block`);
* **for every header** — each style header outside tags has its closing brace in the body.
-/

namespace Tandem.Source

open Text Markup

/-- The text up to the brace of a style block: `style {` or `style scoped {`, with any blank
characters between the words. -/
inductive StyleHeader : List Char → Prop where
  | bare {pad : List Char} (hpad : Blank pad) :
      StyleHeader ("style".toList ++ (pad ++ ['\x7b']))
  | withScope {pad pad' : List Char} (hpad : Blank pad) (hpad' : Blank pad') :
      StyleHeader ("style".toList ++ (pad ++ ("scoped".toList ++ (pad' ++ ['\x7b']))))

/-- A header ends in its brace and has no other character that ends a block or starts a tag. -/
theorem StyleHeader.eq_append {cs : List Char} (h : StyleHeader cs) :
    ∃ front, cs = front ++ ['\x7b'] ∧ Unmarked front := by
  have hstyle : Unmarked "style".toList := by simp [Unmarked]
  have hscoped : Unmarked "scoped".toList := by simp [Unmarked]
  cases h with
  | bare hpad =>
      refine ⟨"style".toList ++ _, (List.append_assoc _ _ _).symm, ?_⟩
      exact hstyle.append (unmarked_of_blank hpad)
  | @withScope pad pad' hpad hpad' =>
      refine ⟨"style".toList ++ (pad ++ ("scoped".toList ++ pad')), by simp, ?_⟩
      exact hstyle.append ((unmarked_of_blank hpad).append
        (hscoped.append (unmarked_of_blank hpad')))

/-- The third letter of a header does not occur in it again. -/
theorem StyleHeader.eq_cons {cs : List Char} (h : StyleHeader cs) :
    ∃ tail, cs = 's' :: 't' :: 'y' :: tail ∧ 'y' ∉ tail := by
  have hletters : "style".toList = ['s', 't', 'y', 'l', 'e'] := by decide
  cases h with
  | bare hpad =>
      have hnot := hpad.not_mem (c := 'y') (by decide)
      exact ⟨_, by rw [hletters]; rfl, by simp [hnot]⟩
  | withScope hpad hpad' =>
      have hnot := hpad.not_mem (c := 'y') (by decide)
      have hnot' := hpad'.not_mem (c := 'y') (by decide)
      exact ⟨_, by rw [hletters]; rfl, by simp [hnot, hnot']⟩

/-- No header ends in a shorter one. -/
theorem StyleHeader.not_append {front cs : List Char} (hcs : StyleHeader cs) (hne : front ≠ []) :
    ¬StyleHeader (front ++ cs) := by
  intro h
  obtain ⟨tail, rfl, _⟩ := hcs.eq_cons
  obtain ⟨tail', heq, hnot⟩ := h.eq_cons
  match front with
  | [] => exact hne rfl
  | [a] => simp at heq
  | [a, b] => simp at heq
  | a :: b :: c :: front =>
      refine hnot ?_
      have htail : front ++ 's' :: 't' :: 'y' :: tail = tail' := by
        simp only [List.cons_append, List.cons.injEq] at heq
        exact heq.2.2.2
      rw [← htail]
      simp

/-! ## Where the reader finds a header -/

theorem dropMarks_eq_some_iff {cs : List Char} {ps qs : List Piece} :
    dropMarks cs ps = some qs ↔ ps = cs.map .mark ++ qs := by
  induction cs generalizing ps with
  | nil => simp [dropMarks]
  | cons c cs ih =>
      cases ps with
      | nil => simp [dropMarks]
      | cons p ps =>
          rw [dropMarks, List.map_cons, List.cons_append, List.cons.injEq]
          split
          next hp => rw [ih]; simp [hp]
          next hp => simp [hp]

theorem dropBlankMarks_append {pad : List Char} (hpad : Blank pad) (ps : List Piece) :
    dropBlankMarks (pad.map .mark ++ ps) = dropBlankMarks ps := by
  induction pad with
  | nil => rfl
  | cons c pad ih =>
      obtain ⟨hc, hpad⟩ := List.forall_mem_cons.mp hpad
      rw [List.map_cons, List.cons_append, dropBlankMarks, if_pos hc, ih hpad]

theorem exists_dropBlankMarks (ps : List Piece) :
    ∃ pad, Blank pad ∧ ps = pad.map .mark ++ dropBlankMarks ps := by
  induction ps with
  | nil => exact ⟨[], blank_nil, rfl⟩
  | cons p ps ih =>
      cases p with
      | tag t => exact ⟨[], blank_nil, rfl⟩
      | mark c =>
          rw [dropBlankMarks]
          split
          next hc =>
            obtain ⟨pad, hpad, heq⟩ := ih
            refine ⟨c :: pad, hpad.cons hc, ?_⟩
            rw [List.map_cons, List.cons_append, ← heq]
          next => exact ⟨[], blank_nil, rfl⟩

/-- What the reader takes for the header of a style block is one. -/
theorem exists_of_styleHeader? {ps rest : List Piece} (h : styleHeader? ps = some rest) :
    ∃ header, StyleHeader header ∧ ps = header.map .mark ++ rest := by
  obtain ⟨behind, hword, hrest⟩ := Option.bind_eq_some_iff.mp h
  obtain ⟨pad, hpad, hbehind⟩ := exists_dropBlankMarks behind
  rw [dropMarks_eq_some_iff.mp hword, hbehind]
  rw [dropMarks_eq_some_iff] at hrest
  split at hrest
  next after hscoped =>
    obtain ⟨pad', hpad', hafter⟩ := exists_dropBlankMarks after
    refine ⟨_, .withScope hpad hpad', ?_⟩
    rw [dropMarks_eq_some_iff.mp hscoped, hafter, hrest]
    simp only [List.map_append, List.append_assoc]
  next =>
    refine ⟨_, .bare hpad, ?_⟩
    rw [hrest]
    simp only [List.map_append, List.append_assoc]

theorem StyleHeader.styleHeader?_append {header : List Char} (h : StyleHeader header)
    (ps : List Piece) : styleHeader? (header.map .mark ++ ps) = some ps := by
  have hword : ∀ (word : List Char) (qs : List Piece),
      dropMarks word (word.map .mark ++ qs) = some qs := fun _ _ => dropMarks_eq_some_iff.mpr rfl
  rw [styleHeader?]
  cases h with
  | @bare pad hpad =>
      have hstop : dropBlankMarks (['\x7b'].map .mark ++ ps) = ['\x7b'].map .mark ++ ps := rfl
      have hnone : dropMarks "scoped".toList (['\x7b'].map .mark ++ ps) = none := rfl
      simp only [List.map_append, List.append_assoc, hword, Option.bind_some,
        dropBlankMarks_append hpad, hstop, hnone]
  | @withScope pad pad' hpad hpad' =>
      have hstop : ∀ qs, dropBlankMarks ("scoped".toList.map .mark ++ qs) =
          "scoped".toList.map .mark ++ qs := fun _ => rfl
      have hstop' : dropBlankMarks (['\x7b'].map .mark ++ ps) = ['\x7b'].map .mark ++ ps := rfl
      simp only [List.map_append, List.append_assoc, hword, Option.bind_some,
        dropBlankMarks_append hpad, hstop, dropBlankMarks_append hpad', hstop']

theorem styleHeader?_suffix {ps rest : List Piece} (h : styleHeader? ps = some rest) :
    .mark '\x7b' :: rest <:+ ps := by
  obtain ⟨header, hheader, rfl⟩ := exists_of_styleHeader? h
  obtain ⟨front, rfl, _⟩ := hheader.eq_append
  exact ⟨front.map .mark, by simp⟩

/-- A header is found behind a text without braces and tags, if no word ends there. -/
theorem findStyle_append {front header : List Char} (hfront : Unmarked front)
    (hheader : StyleHeader header) {afterWord : Bool} (hstart : front = [] → afterWord = false)
    (hend : ∀ c ∈ front.getLast?, isWord c = false) (ps : List Piece) :
    findStyle afterWord (front.map .mark ++ (header.map .mark ++ ps)) =
      some (front.map .mark, ps) := by
  induction front generalizing afterWord with
  | nil =>
      have hfound := hheader.styleHeader?_append ps
      obtain ⟨tail, hcons, _⟩ := hheader.eq_cons
      rw [hstart rfl, List.map_nil, List.nil_append]
      rw [hcons, List.map_cons, List.cons_append] at hfound ⊢
      rw [findStyle, if_neg Bool.false_ne_true, hfound]
  | cons c cs ih =>
      obtain ⟨_, hcs⟩ := List.forall_mem_cons.mp hfront
      -- A header that started here would end at the same brace.
      have hnone : styleHeader? ((c :: cs).map .mark ++ (header.map .mark ++ ps)) = none := by
        cases hfound : styleHeader? ((c :: cs).map .mark ++ (header.map .mark ++ ps)) with
        | none => rfl
        | some rest =>
            obtain ⟨header', hheader', heq⟩ := exists_of_styleHeader? hfound
            refine absurd ?_ (hheader.not_append (List.cons_ne_nil c cs))
            obtain ⟨inside, rfl, hinside⟩ := hheader.eq_append
            obtain ⟨inside', rfl, hinside'⟩ := hheader'.eq_append
            have hbrace : ∀ {cs rest : List Char}, Unmarked cs →
                (cs ++ '\x7b' :: rest).takeWhile (· ≠ '\x7b') = cs := fun hcs =>
              (stops_cons (by decide)).takeWhile_append fun c hc => by simpa using (hcs c hc).2.1
            have hsame : c :: cs ++ inside = inside' := by
              have htexts := congrArg textOf heq
              simp only [textOf_append, textOf_marks, List.append_assoc, List.singleton_append]
                at htexts
              rw [← List.append_assoc] at htexts
              rw [← @hbrace _ (textOf ps) (hfront.append hinside), htexts, hbrace hinside']
            rw [← List.append_assoc, hsame]
            exact hheader'
      have hrest : findStyle (isWord c) (cs.map .mark ++ (header.map .mark ++ ps)) =
          some (cs.map .mark, ps) := by
        refine ih hcs ?_ ?_
        · rintro rfl
          exact hend c rfl
        · intro d hd
          refine hend d ?_
          cases cs with
          | nil => cases hd
          | cons e cs => exact hd
      rw [List.map_cons, List.cons_append] at hnone ⊢
      rw [findStyle, hnone, ite_self]
      show Option.map _ (findStyle (isWord c) _) = _
      rw [hrest]
      rfl

theorem findStyle_eq_none {ps : List Piece} (h : .mark '\x7b' ∉ ps) (afterWord : Bool) :
    findStyle afterWord ps = none := by
  induction ps generalizing afterWord with
  | nil => rfl
  | cons p ps ih =>
      have hnone : styleHeader? (p :: ps) = none := by
        cases hfound : styleHeader? (p :: ps) with
        | none => rfl
        | some rest => exact absurd ((styleHeader?_suffix hfound).subset List.mem_cons_self) h
      rw [findStyle, hnone, ite_self]
      simp only
      rw [ih fun hp => h (List.mem_cons_of_mem _ hp)]
      rfl

theorem findStyle_suffix {afterWord : Bool} {ps before rest : List Piece}
    (h : findStyle afterWord ps = some (before, rest)) : .mark '\x7b' :: rest <:+ ps := by
  induction ps generalizing afterWord before with
  | nil => cases h
  | cons p ps ih =>
      rw [findStyle] at h
      split at h
      next hheader =>
        cases h
        split at hheader
        next => cases hheader
        next => exact styleHeader?_suffix hheader
      next =>
        obtain ⟨⟨before', rest'⟩, hps, heq⟩ := Option.map_eq_some_iff.mp h
        cases heq
        exact (ih hps).trans (List.suffix_cons p ps)

/-! ## The body -/

/-- The body alone is cut into the pieces that it has in the whole text. -/
theorem splitBlock_of_blockInside? {cs inside : List Char} (h : blockInside? cs = some inside) :
    ∃ after, splitBlock 0 (pieces cs) = some (pieces inside, after) := by
  obtain ⟨⟨ps, after⟩, hsplit, rfl⟩ := Option.map_eq_some_iff.mp h
  refine ⟨after, ?_⟩
  rw [pieces_textOf (splitBlock_eq_append hsplit)]
  exact hsplit

/-- A style block is taken out of the markup, wherever it stands. -/
theorem Body.read?_block (start : Nat) {front header style markup : List Char}
    (hfront : Unmarked front) (hend : ∀ c ∈ front.getLast?, isWord c = false)
    (hheader : StyleHeader header) (hstyle : Whole style) :
    Body.read? start (front ++ (header ++ (style ++ '\x7d' :: markup))) =
      .ok ⟨trim (front ++ markup), style⟩ := by
  obtain ⟨ps, rfl, hps, hpieces⟩ := hstyle
  have hplain : ∀ c ∈ header, c ≠ '<' := by
    obtain ⟨inside, rfl, hinside⟩ := hheader.eq_append
    intro c hc
    rcases List.mem_append.mp hc with hc | hc
    · exact ne_of_unmarked hinside c hc
    · rw [List.mem_singleton.mp hc]
      decide
  have hall : pieces (front ++ (header ++ (textOf ps ++ '\x7d' :: markup))) =
      front.map .mark ++ (header.map .mark ++ (ps ++ .mark '\x7d' :: pieces markup)) := by
    rw [pieces_marks (ne_of_unmarked hfront), pieces_marks hplain, hpieces,
      pieces_cons (by decide)]
  rw [Body.read?, hall, findStyle_append hfront hheader (fun _ => rfl) hend]
  simp only
  rw [hps.splitBlock_close]
  simp only [textOf_marks, textOf_pieces]

/-- A body that is closed can be read. -/
theorem Body.exists_read?_eq_ok {cs inside : List Char} (h : blockInside? cs = some inside)
    (start : Nat) : ∃ b, Body.read? start inside = .ok b := by
  obtain ⟨after, hsplit⟩ := splitBlock_of_blockInside? h
  rw [Body.read?]
  split
  next => exact ⟨_, rfl⟩
  next before rest hfind =>
    obtain ⟨front, hfront⟩ := findStyle_suffix hfind
    rw [← hfront] at hsplit
    obtain ⟨⟨block, behind⟩, hblock⟩ :=
      Option.isSome_iff_exists.mp (isSome_splitBlock_of_open hsplit)
    rw [hblock]
    exact ⟨_, rfl⟩

theorem isSome_blockInside?_of_styleHeader {cs before header after : List Char}
    (h : blockInside? cs = some (before ++ header ++ after)) (hheader : StyleHeader header)
    (houtside : isOutside before.length (pieces (before ++ header ++ after)) = true) :
    (blockInside? after).isSome = true := by
  obtain ⟨front, rfl, hfront⟩ := hheader.eq_append
  obtain ⟨behind, hsplit⟩ := splitBlock_of_blockInside? h
  have hmarks : pieces (front ++ ['\x7b'] ++ after) =
      front.map .mark ++ .mark '\x7b' :: pieces after := by
    rw [List.append_assoc, pieces_marks (ne_of_unmarked hfront), List.singleton_append,
      pieces_cons (by decide)]
  rw [List.append_assoc] at hsplit houtside
  rw [pieces_append_of_isOutside houtside, hmarks, ← List.append_assoc] at hsplit
  rw [blockInside?, Option.isSome_map]
  exact isSome_splitBlock_of_open hsplit

/-- **The error for a style block without an end is never given.** And in every body that is
closed, each style header outside tags has its own closing brace. -/
theorem style_block_closed (source : String) :
    (∀ offset, Document.read? source ≠ .error (.unterminatedStyleBlock offset)) ∧
    ∀ (h : Header) (inside : List Char),
      header? source.toList = some h → blockInside? h.rest = some inside →
      ∀ before header after : List Char, inside = before ++ header ++ after →
        StyleHeader header → isOutside before.length (pieces inside) = true →
        (blockInside? after).isSome = true := by
  refine ⟨fun offset herr => ?_, ?_⟩
  · unfold Document.read? at herr
    simp only at herr
    split at herr
    next => cases herr
    next h _ =>
      split at herr
      next => cases herr
      next inside hinside =>
        obtain ⟨b, hb⟩ := Body.exists_read?_eq_ok hinside
          (octetLength source.toList - octetLength h.rest)
        rw [hb] at herr
        cases herr
  · rintro h inside _ hinside before header after rfl hheader houtside
    exact isSome_blockInside?_of_styleHeader hinside hheader houtside

theorem style_block_closed_behind_row :
    (blockInside? " .b \x7b\x7d \x7d".toList).isSome = true := by
  refine (style_block_closed "page A \x7b<Row /> style \x7b .b \x7b\x7d \x7d\x7d").2
    ⟨.page, "A", "<Row /> style \x7b .b \x7b\x7d \x7d\x7d".toList⟩
    "<Row /> style \x7b .b \x7b\x7d \x7d".toList (by decide +kernel) (by decide +kernel)
    "<Row /> ".toList "style \x7b".toList " .b \x7b\x7d \x7d".toList rfl ?_ (by decide +kernel)
  have hspace : Blank [' '] := by
    intro c hc
    rw [List.mem_singleton.mp hc]
    decide
  exact .bare hspace

end Tandem.Source
