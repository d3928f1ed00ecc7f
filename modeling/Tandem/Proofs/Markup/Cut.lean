import Tandem.Proofs.Markup.Piece

/-!
# Pieces of a text that is cut

What the bracket machine answers on a text it answers on the part up to the closing
character as well (`close_split`), so a tag that is a piece of a text is a piece of every
part that holds it. A tag that is not closed stays one when the text is cut: its scan may
have run far beyond the cut, but a scan that ends on the part would have ended on the whole
text (`tagRest?_append`). So the pieces of a part that ends between two pieces are those
that it was cut from:

* **cutting behind pieces** — `pieces_textOf`;
* **cutting in front of pieces** — `pieces_append_of_isOutside`, from a position that is
  outside tags;
* **blocks** — a block that is opened inside a block is closed inside it
  (`isSome_splitBlock_of_open`).
-/

namespace Tandem.Markup

open Text

/-! ## Tags on a part of the text -/

/-- Where a tag starts, two or three characters say so, and they are not the end of it. -/
theorem startsTag_eq_true {cs : List Char} (h : startsTag cs = true) :
    ∃ c rest, c.isAlpha = true ∧ (cs = '<' :: c :: rest ∨ cs = '<' :: '/' :: c :: rest) := by
  rw [startsTag.eq_def] at h
  split at h
  next c rest => exact ⟨c, rest, h, .inr rfl⟩
  next c rest _ => exact ⟨c, rest, h, .inl rfl⟩
  next => cases h

theorem startsTag_append {cs : List Char} (h : startsTag cs = true) (more : List Char) :
    startsTag (cs ++ more) = true := by
  obtain ⟨c, rest, hc, rfl | rfl⟩ := startsTag_eq_true h
  · exact startsTag_of_isAlpha hc (rest ++ more)
  · exact hc

theorem tagRest?_append {cs rest : List Char} (h : tagRest? cs = some rest) (more : List Char) :
    tagRest? (cs ++ more) = some (rest ++ more) := by
  rw [tagRest?] at h
  split at h
  next hstart =>
    have htail : (cs ++ more).tail = cs.tail ++ more := by
      obtain ⟨c, tail, _, rfl | rfl⟩ := startsTag_eq_true hstart
      · rfl
      · rfl
    rw [tagRest?, startsTag_append hstart, if_pos rfl, htail]
    exact close_append_right h more
  next => cases h

theorem ne_nil_of_close {f : Frame} {below : List Frame} {cs rest : List Char}
    (h : close (f :: below) cs = some rest) : cs ≠ [] := by
  rintro rfl
  cases h

/-- The text of a tag is a tag on its own. -/
theorem tagRest?_split {cs rest : List Char} (h : tagRest? cs = some rest) :
    ∃ front, cs = front ++ rest ∧ tagRest? front = some [] := by
  rw [tagRest?] at h
  split at h
  next hstart =>
    obtain ⟨c, tail, hc, rfl | rfl⟩ := startsTag_eq_true hstart
    · obtain ⟨body, hbody, hclose⟩ := close_split h
      obtain ⟨d, body, rfl⟩ := List.exists_cons_of_ne_nil (ne_nil_of_close hclose)
      obtain ⟨rfl, rfl⟩ := List.cons.inj hbody
      refine ⟨'<' :: c :: body, rfl, ?_⟩
      rw [tagRest?, startsTag_of_isAlpha hc, if_pos rfl]
      exact hclose
    · -- The machine goes on behind the slash, so the letter belongs to the tag.
      obtain ⟨body, hbody, hclose⟩ := close_split h
      obtain ⟨d, body, rfl⟩ := List.exists_cons_of_ne_nil (ne_nil_of_close hclose)
      obtain ⟨rfl, htail⟩ := List.cons.inj hbody
      have hnext : close [.tag] body = some [] := hclose
      obtain ⟨d, body, rfl⟩ := List.exists_cons_of_ne_nil (ne_nil_of_close hnext)
      obtain ⟨rfl, rfl⟩ := List.cons.inj htail
      refine ⟨'<' :: '/' :: c :: body, rfl, ?_⟩
      have hstart : startsTag ('<' :: '/' :: c :: body) = true := hc
      rw [tagRest?, hstart, if_pos rfl]
      exact hclose
  next => cases h

/-! ## The pieces of a part -/

theorem pieces_of_tagRest? {cs front rest : List Char} (h : tagRest? cs = some rest)
    (hcs : cs = front ++ rest) : pieces cs = .tag front :: pieces rest := by
  cases cs with
  | nil => cases h
  | cons c cs =>
      rw [pieces]
      split
      next after h' =>
        rw [h] at h'
        cases h'
        rw [hcs, upTo_append]
      next h' => rw [h] at h'; cases h'

theorem pieces_of_tagRest?_none {c : Char} {cs : List Char} (h : tagRest? (c :: cs) = none) :
    pieces (c :: cs) = .mark c :: pieces cs := by
  rw [pieces]
  split
  next h' => rw [h] at h'; cases h'
  next => rfl

/-- A text that is not empty starts with a tag that is one on its own, or with a character
that starts no tag. -/
theorem pieces_cases (c : Char) (cs : List Char) :
    (∃ front rest, c :: cs = front ++ rest ∧ tagRest? front = some [] ∧
      pieces (c :: cs) = .tag front :: pieces rest) ∨
    (tagRest? (c :: cs) = none ∧ pieces (c :: cs) = .mark c :: pieces cs) := by
  cases h : tagRest? (c :: cs) with
  | none => exact .inr ⟨rfl, pieces_of_tagRest?_none h⟩
  | some rest =>
      obtain ⟨front, hcs, hfront⟩ := tagRest?_split h
      exact .inl ⟨front, rest, hcs, hfront, pieces_of_tagRest? h hcs⟩

theorem pieces_nil : pieces [] = [] := by rw [pieces]

theorem textOf_pieces (cs : List Char) : textOf (pieces cs) = cs := by
  induction cs using pieces.induct with
  | case1 => rw [pieces_nil]; rfl
  | case2 c cs rest h ih =>
      obtain ⟨front, hcs, _⟩ := tagRest?_split h
      rw [pieces_of_tagRest? h hcs, hcs]
      exact congrArg (front ++ ·) ih
  | case3 c cs h ih =>
      rw [pieces_of_tagRest?_none h]
      exact congrArg (c :: ·) ih

theorem pieces_mark_append {c : Char} {cs : List Char} (more : List Char)
    (h : tagRest? (c :: (cs ++ more)) = none) : tagRest? (c :: cs) = none := by
  cases hcs : tagRest? (c :: cs) with
  | none => rfl
  | some rest =>
      have hmore := tagRest?_append hcs more
      rw [List.cons_append, h] at hmore
      cases hmore

/-- The text cut behind some of its pieces has just these pieces. -/
theorem pieces_textOf {cs : List Char} {ps qs : List Piece} (h : pieces cs = ps ++ qs) :
    pieces (textOf ps) = ps := by
  induction ps generalizing cs with
  | nil => exact pieces_nil
  | cons p ps ih =>
      cases cs with
      | nil => rw [pieces_nil] at h; cases h
      | cons c cs =>
          rcases pieces_cases c cs with ⟨front, rest, _, hfront, heq⟩ | ⟨hnone, heq⟩
          · rw [heq, List.cons_append] at h
            obtain ⟨rfl, hrest⟩ := List.cons.inj h
            have htag : tagRest? (front ++ textOf ps) = some (textOf ps) :=
              tagRest?_append hfront (textOf ps)
            have hpieces : pieces (front ++ textOf ps) = .tag front :: pieces (textOf ps) :=
              pieces_of_tagRest? htag rfl
            rw [ih hrest] at hpieces
            exact hpieces
          · rw [heq, List.cons_append] at h
            obtain ⟨rfl, hrest⟩ := List.cons.inj h
            have hcs : cs = textOf ps ++ textOf qs := by
              rw [← textOf_append, ← hrest, textOf_pieces]
            rw [hcs] at hnone
            have hpieces := pieces_of_tagRest?_none (pieces_mark_append _ hnone)
            rw [ih hrest] at hpieces
            exact hpieces

/-- The text that some of the last pieces make up has just these pieces. -/
theorem pieces_textOf_right {cs : List Char} {ps qs : List Piece} (h : pieces cs = ps ++ qs) :
    pieces (textOf qs) = qs := by
  induction ps generalizing cs with
  | nil =>
      rw [List.nil_append] at h
      rw [← h, textOf_pieces]
  | cons p ps ih =>
      cases cs with
      | nil => rw [pieces_nil] at h; cases h
      | cons c cs =>
          rw [List.cons_append] at h
          rcases pieces_cases c cs with ⟨front, rest, _, _, heq⟩ | ⟨_, heq⟩
          · rw [heq] at h
            exact ih (List.cons.inj h).2
          · rw [heq] at h
            exact ih (List.cons.inj h).2

/-- A tag in front of a position outside tags lies before it whole. -/
theorem exists_behind_of_isOutside {before rest front after : List Char} (hne : before ≠ [])
    (hcs : before ++ rest = front ++ after)
    (h : isOutside before.length (.tag front :: pieces after) = true) :
    ∃ behind, before = front ++ behind ∧ after = behind ++ rest ∧
      isOutside behind.length (pieces (behind ++ rest)) = true := by
  rw [isOutside, if_neg (by simpa using hne)] at h
  split at h
  next => cases h
  next hle =>
    obtain ⟨behind, rfl⟩ : front <+: before :=
      List.prefix_of_prefix_length_le ⟨after, hcs.symm⟩ (List.prefix_append before rest)
        (Nat.le_of_not_lt hle)
    rw [List.append_assoc] at hcs
    have hafter : after = behind ++ rest := (List.append_cancel_left hcs).symm
    have hlength : (front ++ behind).length - (Piece.tag front).text.length = behind.length := by
      rw [List.length_append, Piece.text, Nat.add_sub_cancel_left]
    rw [hlength, hafter] at h
    exact ⟨behind, rfl, hafter, h⟩

/-- The pieces in front of a position outside tags make up the text in front of it. -/
theorem exists_pieces_of_isOutside {before rest : List Char}
    (h : isOutside before.length (pieces (before ++ rest)) = true) :
    ∃ ps, pieces (before ++ rest) = ps ++ pieces rest ∧ textOf ps = before := by
  induction hlen : before.length using Nat.strong_induction_on generalizing before with
  | _ n ih =>
      cases before with
      | nil => exact ⟨[], rfl, rfl⟩
      | cons c before =>
          rw [List.cons_append] at h ⊢
          rcases pieces_cases c (before ++ rest) with ⟨front, after, hcs, hfront, heq⟩ | ⟨_, heq⟩
          · rw [heq] at h ⊢
            obtain ⟨behind, hbefore, rfl, houtside⟩ :=
              exists_behind_of_isOutside (List.cons_ne_nil c before) hcs h
            have hlt : behind.length < n := by
              have hpos : 0 < front.length := by
                cases front with
                | nil => cases hfront
                | cons => exact Nat.succ_pos _
              rw [← hlen, hbefore, List.length_append]
              omega
            obtain ⟨ps, hps, htext⟩ := ih behind.length hlt houtside rfl
            refine ⟨.tag front :: ps, ?_, ?_⟩
            · rw [hps, List.cons_append]
            · rw [hbefore, ← htext]
              rfl
          · rw [heq] at h ⊢
            rw [isOutside, if_neg (by simp), if_neg (by simp [Piece.text])] at h
            have hlt : before.length < n := hlen ▸ Nat.lt_succ_self _
            obtain ⟨ps, hps, htext⟩ := ih before.length hlt h rfl
            refine ⟨.mark c :: ps, ?_, ?_⟩
            · rw [hps, List.cons_append]
            · rw [← htext]
              rfl

/-- At a position outside tags the text falls into two that are cut into pieces alone. -/
theorem pieces_append_of_isOutside {before rest : List Char}
    (h : isOutside before.length (pieces (before ++ rest)) = true) :
    pieces (before ++ rest) = pieces before ++ pieces rest := by
  obtain ⟨ps, hps, rfl⟩ := exists_pieces_of_isOutside h
  rw [pieces_textOf hps, hps]

/-! ## Blocks in blocks -/

/-- A piece in front of a block's end is the brace that ends it, a brace that ends a block
in it, or any other piece. -/
theorem splitBlock_cons_eq_some {depth : Nat} {p : Piece} {ps inside after : List Piece}
    (h : splitBlock depth (p :: ps) = some (inside, after)) :
    (p = .mark '\x7d' ∧ depth = 0 ∧ inside = [] ∧ ps = after) ∨
    (∃ d inside', p = .mark '\x7d' ∧ depth = d + 1 ∧ inside = p :: inside' ∧
      splitBlock d ps = some (inside', after)) ∨
    (∃ inside', p ≠ .mark '\x7d' ∧ inside = p :: inside' ∧
      splitBlock (if p = .mark '\x7b' then depth + 1 else depth) ps = some (inside', after)) := by
  by_cases hp : p = .mark '\x7d'
  · subst hp
    cases depth with
    | zero =>
        cases h
        exact .inl ⟨rfl, rfl, rfl, rfl⟩
    | succ d =>
        rw [splitBlock_close_succ, Option.map_eq_some_iff] at h
        obtain ⟨⟨inside', _⟩, hps, heq⟩ := h
        cases heq
        exact .inr (.inl ⟨d, inside', rfl, rfl, rfl, hps⟩)
  · rw [splitBlock_cons hp, Option.map_eq_some_iff] at h
    obtain ⟨⟨inside', _⟩, hps, heq⟩ := h
    cases heq
    exact .inr (.inr ⟨inside', hp, rfl, hps⟩)

theorem splitBlock_nil (depth : Nat) : splitBlock depth [] = none := by cases depth <;> rfl

/-- What is inside a block goes up to its closing brace. -/
theorem splitBlock_eq_append {depth : Nat} {ps inside after : List Piece}
    (h : splitBlock depth ps = some (inside, after)) :
    ps = inside ++ .mark '\x7d' :: after := by
  induction ps generalizing depth inside with
  | nil => rw [splitBlock_nil] at h; cases h
  | cons p ps ih =>
      obtain ⟨rfl, _, rfl, rfl⟩ | ⟨d, inside', _, _, rfl, hps⟩ | ⟨inside', _, rfl, hps⟩ :=
        splitBlock_cons_eq_some h
      · rfl
      · rw [List.cons_append, ← ih hps]
      · rw [List.cons_append, ← ih hps]

/-- With further blocks open, all but the outermost end inside it. -/
theorem isSome_splitBlock_of_lt {depth e : Nat} {ps inside after : List Piece}
    (h : splitBlock depth ps = some (inside, after)) (he : e < depth) :
    (splitBlock e inside).isSome = true := by
  induction ps generalizing depth e inside with
  | nil => rw [splitBlock_nil] at h; cases h
  | cons p ps ih =>
      obtain ⟨_, rfl, _, _⟩ | ⟨d, inside', rfl, rfl, rfl, hps⟩ | ⟨inside', hp, rfl, hps⟩ :=
        splitBlock_cons_eq_some h
      · exact absurd he (Nat.not_lt_zero e)
      · cases e with
        | zero => rfl
        | succ e =>
            rw [splitBlock_close_succ, Option.isSome_map]
            exact ih hps (Nat.lt_of_succ_lt_succ he)
      · rw [splitBlock_cons hp, Option.isSome_map]
        by_cases hopen : p = .mark '\x7b'
        · rw [if_pos hopen] at hps ⊢
          exact ih hps (Nat.succ_lt_succ he)
        · rw [if_neg hopen] at hps ⊢
          exact ih hps he

/-- **A block opened inside a block is closed inside it.** -/
theorem isSome_splitBlock_of_open {depth : Nat} {ps before rest after : List Piece}
    (h : splitBlock depth ps = some (before ++ .mark '\x7b' :: rest, after)) :
    (splitBlock 0 rest).isSome = true := by
  induction before generalizing depth ps with
  | nil =>
      cases ps with
      | nil => rw [splitBlock_nil] at h; cases h
      | cons p ps =>
          obtain ⟨_, _, hnil, _⟩ | ⟨d, _, rfl, _, heq, _⟩ | ⟨inside', _, heq, hps⟩ :=
            splitBlock_cons_eq_some h
          · cases hnil
          · cases heq
          · cases heq
            rw [if_pos rfl] at hps
            exact isSome_splitBlock_of_lt hps (Nat.succ_pos depth)
  | cons q before ih =>
      cases ps with
      | nil => rw [splitBlock_nil] at h; cases h
      | cons p ps =>
          obtain ⟨_, _, hnil, _⟩ | ⟨d, inside', _, _, heq, hps⟩ | ⟨inside', _, heq, hps⟩ :=
            splitBlock_cons_eq_some h
          · cases hnil
          · cases heq
            exact ih hps
          · cases heq
            exact ih hps

end Tandem.Markup
