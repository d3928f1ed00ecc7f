import Tandem.Proofs.Markup.Grammar
import Tandem.Proofs.Markup.Stack
import Tandem.Proofs.Octet.Bracket

/-!
# The closing brace of an expression, octet by octet

The grammar of expressions knows ASCII characters only, so it may as well be read off the octets
of a text. A backslash takes one octet with it there and not one character, and what is left of
the character is passed over like everything that is not ASCII. So the octets are closed where
the text is:

* **one character** — `close_ofChar`: its octets do what the character does;
* **a text** — `close_encode`, for the stacks that the machine can have (`Aligned`);
* **a position** — `findBrace_recognises`: the brace that is found is the last octet of a block.
-/

namespace Tandem.Octet

open Text Markup

variable {s t : List Frame} {f : Frame} {below : List Frame} {text : List Char}

/-! ## Stacks between characters -/

/-- The frame stays what it is behind what is not ASCII. -/
def Steady (f : Frame) : Prop :=
  ∀ b, isAscii b = false → ∀ below, step (f :: below) b = some (f :: below)

theorem steady_quoted {q : Char} (hq : isAscii q = true) : Steady (.quoted q) := by
  intro b hb below
  have hback : b ≠ '\\' := ne_of_isAscii hb (by decide)
  have hquote : b ≠ q := ne_of_isAscii hb hq
  simp [step, hback, hquote]

theorem templateStep_of_isAscii {b : Char} (hb : isAscii b = false) (dollar : Bool)
    (below : List Frame) : templateStep dollar below b = .template false :: below := by
  have hne : ∀ {d : Char}, isAscii d = true → b ≠ d := ne_of_isAscii hb
  simp [templateStep, hne (d := '\\') (by decide), hne (d := '\x60') (by decide),
    hne (d := '\x7b') (by decide), hne (d := '$') (by decide)]

theorem codeStep_of_isAscii {b : Char} (hb : isAscii b = false) (slash : Bool)
    (below : List Frame) : codeStep slash below b = .code false :: below := by
  have hmarks : b ∉ marks := not_mem_of_class (p := fun c => !isAscii c) (by decide) (by simp [hb])
  exact codeStep_of_not_mem hmarks slash below

theorem steady_template : Steady (.template false) := fun _ hb below =>
  congrArg some (templateStep_of_isAscii hb false below)

/-- The stack is one that the machine has between two characters: quotes are ASCII, and what
follows a backslash stands in something steady. -/
def Aligned : List Frame → Prop
  | [] => True
  | f :: below =>
    (match f with
      | .quoted q => isAscii q = true
      | .escaped => ∃ g, below.head? = some g ∧ Steady g
      | _ => True) ∧ Aligned below

theorem Aligned.step {c : Char} (h : Aligned s) (hstep : step s c = some t) : Aligned t := by
  obtain ⟨f, below, rfl⟩ := exists_cons_of_step hstep
  obtain ⟨hf, hbelow⟩ := h
  cases f with
  | code slash =>
      have hcode : ∀ slash, Aligned (.code slash :: below) := fun _ => ⟨trivial, hbelow⟩
      obtain rfl : codeStep slash below c = t := Option.some.inj hstep
      unfold codeStep
      split
      next hc => exact ⟨isAscii_of_quote hc, hcode false⟩
      repeat' split
      all_goals first
        | exact hbelow
        | exact hcode _
        | exact ⟨trivial, hcode _⟩
  | quoted q =>
      obtain rfl := Option.some.inj hstep
      split
      next => exact ⟨⟨_, rfl, steady_quoted hf⟩, hf, hbelow⟩
      split
      next => exact hbelow
      next => exact ⟨hf, hbelow⟩
  | template dollar =>
      obtain rfl : templateStep dollar below c = t := Option.some.inj hstep
      unfold templateStep
      split
      next => exact ⟨⟨_, rfl, steady_template⟩, trivial, hbelow⟩
      repeat' split
      all_goals first
        | exact hbelow
        | exact ⟨trivial, hbelow⟩
        | exact ⟨trivial, trivial, hbelow⟩
  | escaped =>
      cases hstep
      exact hbelow
  | lineNote =>
      obtain rfl := Option.some.inj hstep
      split
      next => exact hbelow
      next => exact ⟨trivial, hbelow⟩
  | blockNote star =>
      obtain rfl := Option.some.inj hstep
      split
      next => exact hbelow
      next => exact ⟨trivial, hbelow⟩
  | tag =>
      have htag : tagStep below c = some t := hstep
      unfold tagStep at htag
      split at htag
      next hc =>
        obtain rfl := Option.some.inj htag
        exact ⟨isAscii_of_quote hc, trivial, hbelow⟩
      repeat' split at htag
      all_goals cases htag
      all_goals first
        | exact hbelow
        | exact ⟨trivial, hbelow⟩
        | exact ⟨trivial, trivial, hbelow⟩

/-! ## Characters beyond ASCII -/

/-- Behind what is not ASCII the machine has one stack, and more of it does not change that. -/
theorem exists_passing (h : Aligned (f :: below)) :
    ∃ t, ∀ b, isAscii b = false → step (f :: below) b = some t ∧ step t b = some t := by
  have hne : ∀ {b d : Char}, isAscii b = false → isAscii d = true → b ≠ d := ne_of_isAscii
  cases f with
  | code slash =>
      refine ⟨.code false :: below, fun b hb => ⟨?_, ?_⟩⟩
      · exact congrArg some (codeStep_of_isAscii hb slash below)
      · exact congrArg some (codeStep_of_isAscii hb false below)
  | quoted q =>
      have hsteady := steady_quoted h.1
      exact ⟨_, fun b hb => ⟨hsteady b hb below, hsteady b hb below⟩⟩
  | template dollar =>
      refine ⟨.template false :: below, fun b hb => ⟨?_, steady_template b hb below⟩⟩
      exact congrArg some (templateStep_of_isAscii hb dollar below)
  | escaped =>
      obtain ⟨⟨g, hg, hsteady⟩, _⟩ := h
      obtain ⟨below, rfl⟩ := List.head?_eq_some_iff.mp hg
      -- The backslash takes the first octet, and what it stands in takes the others.
      exact ⟨_, fun b hb => ⟨rfl, hsteady b hb below⟩⟩
  | lineNote =>
      have hsteady : ∀ b, isAscii b = false →
          step (.lineNote :: below) b = some (.lineNote :: below) := fun b hb => by
        simp [step, hne hb (d := '\n') (by decide)]
      exact ⟨_, fun b hb => ⟨hsteady b hb, hsteady b hb⟩⟩
  | blockNote star =>
      have hsteady : ∀ star b, isAscii b = false →
          step (.blockNote star :: below) b = some (.blockNote false :: below) := by
        intro star b hb
        simp [step, hne hb (d := '/') (by decide), hne hb (d := '*') (by decide)]
      exact ⟨_, fun b hb => ⟨hsteady star b hb, hsteady false b hb⟩⟩
  | tag =>
      have hsteady : ∀ b, isAscii b = false →
          step (.tag :: below) b = some (.tag :: below) := fun b hb =>
        step_tag_of_not_mem (not_mem_of_class (p := fun c => !isAscii c) (by decide) (by simp [hb]))
          below
      exact ⟨_, fun b hb => ⟨hsteady b hb, hsteady b hb⟩⟩

/-- The octets of a character do what the character does. -/
theorem close_ofChar (h : Aligned (f :: below)) (c : Char) (rest : List Char) :
    close (f :: below) (ofChar c ++ rest) =
      (step (f :: below) c).bind fun t => close t rest := by
  cases hc : isAscii c with
  | true =>
      rw [ofChar_of_isAscii hc, List.singleton_append, close]
      cases step (f :: below) c <;> rfl
  | false =>
      -- The first octet does the step of the character, and the others change nothing.
      obtain ⟨t, ht⟩ := exists_passing h
      rw [(ht c hc).1, Option.bind_some]
      have hoctets : ∀ b ∈ ofChar c, isAscii b = false := fun b hb =>
        isAscii_eq_false_of_mem hc hb
      cases hoctet : ofChar c with
      | nil =>
          have hlength := length_ofChar c
          rw [hoctet] at hlength
          exact absurd hlength.symm (Nat.ne_of_gt (Char.utf8Size_pos c))
      | cons b bs =>
          rw [hoctet] at hoctets
          obtain ⟨g, t, rfl⟩ := exists_cons_of_step (ht c hc).2
          rw [List.cons_append, close_cons (ht b (hoctets b List.mem_cons_self)).1]
          exact leads_self (fun d hd => (ht d (hoctets d (List.mem_cons_of_mem _ hd))).2) rest

/-- **The octets of a text are closed where the text is.** -/
theorem close_encode (h : Aligned s) (cs : List Char) :
    close s (encode cs) = (close s cs).map encode := by
  induction cs generalizing s with
  | nil => cases s <;> rfl
  | cons c cs ih =>
      cases s with
      | nil => rw [close_nil, close_nil]; rfl
      | cons f below =>
          rw [encode_cons, close_ofChar h, close]
          cases hstep : step (f :: below) c with
          | none => rfl
          | some t => exact ih (h.step hstep)

/-! ## Positions of blocks -/

/-- The octets from a position up to another one are an expression with its braces. -/
def BlockAt (octets : List Char) (i j : Nat) : Prop :=
  ∃ front block rest, octets = front ++ (block ++ rest) ∧ front.length = i ∧
    (front ++ block).length = j + 1 ∧ Block block

theorem closeBrace_encode (cs : List Char) :
    closeBrace (encode cs) = (closeBrace cs).map encode := by
  have haligned : Aligned [.code false] := ⟨trivial, trivial⟩
  exact close_encode haligned cs

/-- What is left of a text has as many octets as there are behind its position. -/
theorem offset_add_length {rest : List Char} (h : rest <:+ text) :
    offset text rest + (encode rest).length = (encode text).length := by
  rw [offset, length_encode, length_encode]
  obtain ⟨front, rfl⟩ := h
  rw [octetLength_append]
  omega

/-- A block that starts at a brace ends where the machine closes that brace. -/
theorem blockAt_offset {cs : List Char} (h : '\x7b' :: cs <:+ text) {j : Nat} :
    BlockAt (encode text) (offset text ('\x7b' :: cs)) j ↔
      ∃ rest, closeBrace cs = some rest ∧ offset text rest = j + 1 := by
  have hdrop := drop_offset h
  rw [encode_cons, ofChar_of_isAscii (by decide), List.singleton_append] at hdrop
  have hsuffix : ∀ {rest}, closeBrace cs = some rest → rest <:+ text := fun hrest =>
    (close_suffix hrest).trans (suffix_of_cons h)
  constructor
  · rintro ⟨front, block, rest, htext, hfront, hlength, hblock⟩
    rw [htext, ← hfront, List.drop_left] at hdrop
    have hclose : closeBrace (encode cs) = some rest :=
      closeBrace_eq_some_iff.mpr ⟨block, hdrop.symm, hblock⟩
    rw [closeBrace_encode] at hclose
    obtain ⟨rest, hrest, rfl⟩ := Option.map_eq_some_iff.mp hclose
    refine ⟨rest, hrest, ?_⟩
    have hbehind := offset_add_length (hsuffix hrest)
    rw [htext, ← List.append_assoc, List.length_append, hlength] at hbehind
    omega
  · rintro ⟨rest, hrest, hj⟩
    have hclose : closeBrace (encode cs) = some (encode rest) := by
      rw [closeBrace_encode, hrest]
      rfl
    obtain ⟨block, htext, hblock⟩ := closeBrace_eq_some_iff.mp hclose
    have hsplit : encode text =
        (encode text).take (offset text ('\x7b' :: cs)) ++ (block ++ encode rest) := by
      rw [← htext, ← hdrop, List.take_append_drop]
    have hfront : ((encode text).take (offset text ('\x7b' :: cs))).length =
        offset text ('\x7b' :: cs) :=
      List.length_take_of_le (Nat.le_of_lt (offset_lt_length h))
    refine ⟨_, block, encode rest, hsplit, hfront, ?_, hblock⟩
    have hbehind := offset_add_length (hsuffix hrest)
    rw [hsplit, ← List.append_assoc, List.length_append] at hbehind
    omega

/-- The program finds the last octet of a block, or nothing. -/
theorem findBrace_cases (text : List Char) (i : Nat) :
    (∃ j, findBrace text i = .ok j ∧ BlockAt (encode text) i j) ∨
      (findBrace text i = .error .absent ∧ ∀ j, ¬BlockAt (encode text) i j) := by
  by_cases hopen : (encode text)[i]? = some '\x7b'
  · obtain ⟨cs, h, rfl⟩ := exists_suffix_of_getElem? (by decide) hopen
    rw [findBrace_offset h]
    cases hclose : closeBrace cs with
    | none =>
        refine .inr ⟨rfl, fun j hj => ?_⟩
        obtain ⟨rest, hrest, _⟩ := (blockAt_offset h).mp hj
        rw [hclose] at hrest
        cases hrest
    | some rest =>
        have hpos := offset_pos h (close_suffix hclose)
        refine .inl ⟨offset text rest - 1, rfl, (blockAt_offset h).mpr ⟨rest, hclose, ?_⟩⟩
        omega
  · refine .inr ⟨by rw [findBrace, if_neg hopen], ?_⟩
    rintro j ⟨front, block, rest, htext, rfl, _, inside, rfl, _⟩
    refine hopen ?_
    rw [htext, List.getElem?_append_right (Nat.le_refl _), Nat.sub_self]
    rfl

theorem BlockAt.unique {octets : List Char} {i j k : Nat} (hj : BlockAt octets i j)
    (hk : BlockAt octets i k) : j = k := by
  obtain ⟨front, block, rest, rfl, hfront, hlength, hblock⟩ := hj
  obtain ⟨front', block', rest', htext, hfront', hlength', hblock'⟩ := hk
  obtain ⟨rfl, hbehind⟩ := List.append_inj htext (hfront.trans hfront'.symm)
  obtain rfl := hblock.eq_of_append_eq hblock' hbehind
  exact Nat.succ.inj (hlength.symm.trans hlength')

/-- **Braces are closed where blocks end.** A brace that the reader closes is closed behind the
block that it starts, and so it is by position: what is found is the last octet of the block
there, of which there is one at most, and without a block nothing is found. -/
theorem braces_close_blocks :
    (∀ cs rest, closeBrace cs = some rest ↔
      ∃ block, '\x7b' :: cs = block ++ rest ∧ Block block) ∧
    ∀ text i,
      (∀ j, findBrace text i = .ok j ↔ BlockAt (encode text) i j) ∧
      (∀ j k, BlockAt (encode text) i j → BlockAt (encode text) i k → j = k) ∧
      (findBrace text i = .error .absent ↔ ∀ j, ¬BlockAt (encode text) i j) := by
  refine ⟨fun cs rest => closeBrace_eq_some_iff, fun text i => ?_⟩
  refine ⟨fun j => ?_, fun j k => BlockAt.unique, ?_⟩
  · rcases findBrace_cases text i with ⟨k, hfound, hk⟩ | ⟨habsent, hnone⟩
    · rw [hfound, Except.ok.injEq]
      exact ⟨fun h => h ▸ hk, hk.unique⟩
    · rw [habsent]
      exact iff_of_false (fun h => by cases h) (hnone j)
  · rcases findBrace_cases text i with ⟨k, hfound, hk⟩ | ⟨habsent, hnone⟩
    · rw [hfound]
      exact iff_of_false (fun h => by cases h) fun h => h k hk
    · exact iff_of_true habsent hnone

/-- A brace in a comment closes nothing, and one in a string of a template literal neither. -/
theorem braces_close_blocks_of_note :
    BlockAt (encode "\x7ba // \x7d\n\x7d".toList) 0 8 ∧
      BlockAt (encode "\x7b\x60$\x7b'\x7d'\x7d\x60\x7d".toList) 0 9 :=
  ⟨((braces_close_blocks.2 _ 0).1 8).mp (by decide +kernel),
    ((braces_close_blocks.2 _ 0).1 9).mp (by decide +kernel)⟩

end Tandem.Octet
