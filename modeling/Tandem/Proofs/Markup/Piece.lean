import Tandem.Proofs.Markup.Element
import Tandem.Source.Reader

/-!
# Blocks around written markup

Written markup has its braces inside tags only, so it is cut into pieces none of which
is a brace (`braceFree_linesAll`). A block around such pieces, or around further whole
blocks, ends at its own brace (`Nested`).
-/

namespace Tandem.Markup

open Text

/-! ## Pieces of a text -/

theorem pieces_cons {c : Char} (hc : c ≠ '<') (rest : List Char) :
    pieces (c :: rest) = .mark c :: pieces rest := by
  have hstart : startsTag (c :: rest) = false := by
    rw [startsTag.eq_def]
    split
    next heq => cases heq; exact absurd rfl hc
    next heq => cases heq; exact absurd rfl hc
    next => rfl
  have hnone : tagRest? (c :: rest) = none := by simp [tagRest?, hstart]
  rw [pieces]
  split
  next h => rw [hnone] at h; cases h
  next => rfl

theorem pieces_marks {cs : List Char} (hcs : ∀ c ∈ cs, c ≠ '<') (rest : List Char) :
    pieces (cs ++ rest) = cs.map .mark ++ pieces rest := by
  induction cs with
  | nil => rfl
  | cons c cs ih =>
      rw [List.cons_append, pieces_cons (hcs c List.mem_cons_self),
        ih fun d hd => hcs d (List.mem_cons_of_mem _ hd)]
      rfl

theorem textOf_marks (cs : List Char) : textOf (cs.map .mark) = cs := by
  induction cs with
  | nil => rfl
  | cons c cs ih => exact congrArg (c :: ·) ih

theorem textOf_append (ps qs : List Piece) : textOf (ps ++ qs) = textOf ps ++ textOf qs :=
  List.flatMap_append

/-- A tag whose end the bracket machine finds is a piece. -/
theorem pieces_tag {cs : List Char} (hstart : ∀ rest, startsTag ('<' :: (cs ++ rest)) = true)
    (hend : Leads [.tag] [] cs) (rest : List Char) :
    pieces ('<' :: (cs ++ rest)) = .tag ('<' :: cs) :: pieces rest := by
  have hrest : tagRest? ('<' :: (cs ++ rest)) = some rest := by
    rw [tagRest?, hstart, if_pos rfl]
    exact hend.close rest
  rw [pieces]
  split
  next after h =>
    rw [hrest] at h
    cases h
    rw [← List.cons_append, upTo_append]
  next h => rw [hrest] at h; cases h

/-- No piece is a brace. -/
def NoBrace (ps : List Piece) : Prop := ∀ p ∈ ps, p ≠ .mark '\x7b' ∧ p ≠ .mark '\x7d'

/-- The text is cut into pieces on its own, whatever follows it, and none is a brace. -/
def BraceFree (cs : List Char) : Prop :=
  ∃ ps, textOf ps = cs ∧ NoBrace ps ∧ ∀ rest, pieces (cs ++ rest) = ps ++ pieces rest

theorem BraceFree.nil : BraceFree [] := ⟨[], rfl, (fun _ h => by cases h), fun _ => rfl⟩

theorem BraceFree.append {a b : List Char} (ha : BraceFree a) (hb : BraceFree b) :
    BraceFree (a ++ b) := by
  obtain ⟨ps, rfl, hps, hpieces⟩ := ha
  obtain ⟨qs, rfl, hqs, hpieces'⟩ := hb
  refine ⟨ps ++ qs, textOf_append ps qs, ?_, fun rest => ?_⟩
  · intro p hp
    rcases List.mem_append.mp hp with h | h
    · exact hps p h
    · exact hqs p h
  · rw [List.append_assoc, hpieces, hpieces', List.append_assoc]

theorem noBrace_of_unmarked {cs : List Char} (hcs : Unmarked cs) : NoBrace (cs.map .mark) := by
  intro p hp
  obtain ⟨c, hc, rfl⟩ := List.mem_map.mp hp
  simpa using (hcs c hc).2

theorem Unmarked.braceFree {cs : List Char} (h : Unmarked cs) : BraceFree cs :=
  ⟨cs.map .mark, textOf_marks cs, noBrace_of_unmarked h, pieces_marks (ne_of_unmarked h)⟩

theorem braceFree_tag {cs : List Char} (hstart : ∀ rest, startsTag ('<' :: (cs ++ rest)) = true)
    (hend : Leads [.tag] [] cs) : BraceFree ('<' :: cs) := by
  refine ⟨[.tag ('<' :: cs)], by simp [textOf, Piece.text], ?_, fun rest => ?_⟩
  · intro p hp
    rw [List.mem_singleton.mp hp]
    simp
  · exact pieces_tag hstart hend rest

theorem startsTag_of_isAlpha {c : Char} (hc : c.isAlpha = true) (rest : List Char) :
    startsTag ('<' :: c :: rest) = true := by
  rw [startsTag.eq_def]
  split
  next heq =>
    cases heq
    exact absurd hc (by decide)
  next heq =>
    cases heq
    exact hc
  next _ h => exact absurd rfl (h _ _)

theorem braceFree_openText {n : List Char} (hn : isTagName n = true) {attrs : List Attr}
    (hattrs : ∀ a ∈ attrs, a.Closed) {tail : List Char} (htail : Leads [.tag] [] tail) :
    BraceFree (openText n attrs ++ tail) := by
  rw [openText_eq_cons]
  refine braceFree_tag (fun rest => ?_) ((leads_openText hn hattrs []).append htail)
  obtain ⟨c, cs, rfl, hc, _⟩ := isTagName_eq_true hn
  exact startsTag_of_isAlpha hc _

theorem braceFree_closeText {n : List Char} (hn : isTagName n = true) :
    BraceFree (closeText n) := by
  have hend : Leads [.tag] [] ('/' :: (n ++ ['>'])) := by
    have hname : Leads [.tag] [.tag] n := by
      have h := leads_openText hn (List.forall_mem_nil Attr.Closed) []
      rwa [attrsText, List.flatMap_nil, List.append_nil] at h
    have hgt : Leads [.tag] [] ['>'] := leads_singleton rfl
    exact .cons rfl (hname.append hgt)
  refine braceFree_tag (fun rest => ?_) hend
  obtain ⟨c, cs, rfl, hc, _⟩ := isTagName_eq_true hn
  exact hc

section

variable {pad : Nat → List Char}

/-- The lines of a closed element have braces in tags only. -/
theorem Element.Closed.braceFree (hpad : ∀ l, Blank (pad l)) {e : Element} (he : e.Closed)
    (level : Nat) : BraceFree (linesText (e.lines pad level)) := by
  refine he.lines_induction hpad Unmarked.braceFree BraceFree.append ?_ ?_ level
  · intro n attrs hn hattrs
    exact braceFree_openText hn hattrs (.cons rfl (.cons rfl (leads_singleton rfl)))
  · intro n attrs inner hn hattrs hinner
    rw [List.append_cons]
    exact (braceFree_openText hn hattrs (leads_singleton rfl)).append
      (hinner.append (braceFree_closeText hn))

theorem braceFree_linesAll (hpad : ∀ l, Blank (pad l)) {es : List Element}
    (hes : ∀ e ∈ es, e.Closed) (level : Nat) :
    BraceFree (linesText (Element.linesAll pad level es)) :=
  forall_linesAll level .nil (fun _ _ => BraceFree.append)
    fun e he => (hes e he).braceFree hpad level

end

/-! ## Blocks -/

/-- A block goes on behind the pieces as it was before them. -/
def Nested (ps : List Piece) : Prop :=
  ∀ depth qs, splitBlock depth (ps ++ qs) = (splitBlock depth qs).map fun s => (ps ++ s.1, s.2)

theorem Nested.nil : Nested [] := by
  intro depth qs
  simp

theorem Nested.append {ps qs : List Piece} (hps : Nested ps) (hqs : Nested qs) :
    Nested (ps ++ qs) := by
  intro depth rs
  rw [List.append_assoc, hps, hqs, Option.map_map]
  simp [Function.comp_def]

theorem splitBlock_cons {p : Piece} (hp : p ≠ .mark '\x7d') (depth : Nat) (ps : List Piece) :
    splitBlock depth (p :: ps) =
      (splitBlock (if p = .mark '\x7b' then depth + 1 else depth) ps).map
        fun s => (p :: s.1, s.2) := by
  cases depth <;> rw [splitBlock, if_neg hp]

theorem splitBlock_close_succ (depth : Nat) (ps : List Piece) :
    splitBlock (depth + 1) (.mark '\x7d' :: ps) =
      (splitBlock depth ps).map fun s => (.mark '\x7d' :: s.1, s.2) := by
  rw [splitBlock, if_pos rfl]

theorem NoBrace.nested {ps : List Piece} (h : NoBrace ps) : Nested ps := by
  induction ps with
  | nil => exact Nested.nil
  | cons p ps ih =>
      intro depth qs
      obtain ⟨hopen, hclose⟩ := h p List.mem_cons_self
      have htail := ih (fun q hq => h q (List.mem_cons_of_mem _ hq)) depth qs
      rw [List.cons_append, splitBlock_cons hclose, if_neg hopen, htail, Option.map_map]
      rfl

theorem Nested.block {ps : List Piece} (h : Nested ps) :
    Nested (.mark '\x7b' :: (ps ++ [.mark '\x7d'])) := by
  intro depth qs
  have hsplit : (.mark '\x7b' :: (ps ++ [.mark '\x7d'])) ++ qs =
      .mark '\x7b' :: (ps ++ .mark '\x7d' :: qs) := by simp
  rw [hsplit, splitBlock_cons (by decide), if_pos rfl, h, splitBlock_close_succ]
  simp [Function.comp_def]

/-- A block ends at the first brace that closes it. -/
theorem Nested.splitBlock_close {ps : List Piece} (h : Nested ps) (qs : List Piece) :
    splitBlock 0 (ps ++ .mark '\x7d' :: qs) = some (ps, qs) := by
  rw [h, splitBlock, if_pos rfl, Option.map_some, List.append_nil]

/-- The text is cut into pieces on its own, whatever follows it, and all blocks that are
opened in it are closed in it. -/
def Whole (cs : List Char) : Prop :=
  ∃ ps, textOf ps = cs ∧ Nested ps ∧ ∀ rest, pieces (cs ++ rest) = ps ++ pieces rest

theorem BraceFree.whole {cs : List Char} (h : BraceFree cs) : Whole cs := by
  obtain ⟨ps, htext, hps, hpieces⟩ := h
  exact ⟨ps, htext, hps.nested, hpieces⟩

theorem Whole.append {a b : List Char} (ha : Whole a) (hb : Whole b) : Whole (a ++ b) := by
  obtain ⟨ps, rfl, hps, hpieces⟩ := ha
  obtain ⟨qs, rfl, hqs, hpieces'⟩ := hb
  refine ⟨ps ++ qs, textOf_append ps qs, hps.append hqs, fun rest => ?_⟩
  rw [List.append_assoc, hpieces, hpieces', List.append_assoc]

/-- A whole text in braces is whole. -/
theorem Whole.block {cs : List Char} (h : Whole cs) : Whole ('\x7b' :: (cs ++ ['\x7d'])) := by
  obtain ⟨ps, rfl, hps, hpieces⟩ := h
  refine ⟨.mark '\x7b' :: (ps ++ [.mark '\x7d']), ?_, hps.block, fun rest => ?_⟩
  · simp [textOf, Piece.text]
  · have hsplit : '\x7b' :: (textOf ps ++ ['\x7d']) ++ rest =
        '\x7b' :: (textOf ps ++ '\x7d' :: rest) := by simp
    rw [hsplit, pieces_cons (by decide), hpieces, pieces_cons (by decide)]
    simp

/-- The inside of a block that a brace ends behind a whole text. -/
theorem Whole.blockInside? {cs : List Char} (h : Whole cs) (rest : List Char) :
    blockInside? (cs ++ '\x7d' :: rest) = some cs := by
  obtain ⟨ps, rfl, hps, hpieces⟩ := h
  rw [Markup.blockInside?, hpieces, pieces_cons (by decide), hps.splitBlock_close]
  rfl

end Tandem.Markup
