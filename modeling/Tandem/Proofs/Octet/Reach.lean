import Tandem.Proofs.Octet.Grammar

/-!
# How far a scan looks

The loops of a scan look an octet or two ahead, jump behind what a backslash protects, search for
the end of a comment and call one another through templates. All the same, what they find they tell
from the octets up to the closing one. From every octet, also one inside a character, a scan
answers what the bracket machine answers on the octets ahead, and the machine never looks ahead:

* **readings** — `reading_eq_ok_iff`: that the machine stops at a position says something of the
  octets in front of it only;
* **scans** — `skipString_eq`, `findBrace_eq`, `tagEnd_eq`: from any octet they are readings;
* **texts that agree** — `scans_look_no_further`.
-/

namespace Tandem.Octet

open Text Markup

variable {text octets others : List Char} {f : Frame} {below : List Frame} {i e : Nat}

/-! ## Readings -/

/-- The position behind the octets from a position on that close all that is open. -/
def reading (stack : List Frame) (octets : List Char) (i : Nat) : Scan Nat :=
  answer (fun rest => octets.length - rest.length) (close stack (octets.drop i))

/-- **A reading stops at a position exactly if the octets up to there close what is open**, and
just that. -/
theorem reading_eq_ok_iff : reading (f :: below) octets i = .ok e ↔
    e ≤ octets.length ∧ close (f :: below) ((octets.take e).drop i) = some [] := by
  rw [reading, answer_eq_ok_iff]
  constructor
  · rintro ⟨rest, hclose, rfl⟩
    obtain ⟨own, hdrop, hown⟩ := close_split hclose
    have hpos : 0 < own.length := List.length_pos_of_ne_nil (ne_nil_of_close hown)
    have hlength := congrArg List.length hdrop
    rw [List.length_drop, List.length_append] at hlength
    have hread : octets.length - rest.length - i = own.length := by omega
    refine ⟨Nat.sub_le _ _, ?_⟩
    rwa [List.drop_take, hdrop, hread, List.take_left]
  · rintro ⟨he, hclose⟩
    have hpos := List.length_pos_of_ne_nil (ne_nil_of_close hclose)
    rw [List.length_drop, List.length_take_of_le he] at hpos
    have hi : i ≤ (octets.take e).length := by
      rw [List.length_take_of_le he]
      omega
    refine ⟨octets.drop e, ?_, ?_⟩
    · rw [← List.take_append_drop e octets, List.drop_append_of_le_length hi,
        List.take_append_drop]
      exact close_append_right hclose (octets.drop e)
    · rw [List.length_drop, Nat.sub_sub_self he]

theorem lt_of_reading (h : reading (f :: below) octets i = .ok e) : i < e := by
  obtain ⟨-, hclose⟩ := reading_eq_ok_iff.mp h
  have hpos := List.length_pos_of_ne_nil (ne_nil_of_close hclose)
  rw [List.length_drop, List.length_take] at hpos
  omega

/-- Octets that agree as far as a reading goes have the same reading. -/
theorem reading_agrees (h : reading (f :: below) octets i = .ok e)
    (hagree : others.take e = octets.take e) : reading (f :: below) others i = .ok e := by
  obtain ⟨he, hclose⟩ := reading_eq_ok_iff.mp h
  rw [reading_eq_ok_iff, hagree]
  refine ⟨?_, hclose⟩
  have hlength := congrArg List.length hagree
  rw [List.length_take, List.length_take_of_le he] at hlength
  omega

/-- The octet that ends a reading is the one that closes what is open. -/
theorem reading_ends {q : Char}
    (hq : ∀ cs rest, close [f] cs = some rest → ∃ body, cs = body ++ q :: rest)
    (h : reading [f] octets i = .ok e) : octets[e - 1]? = some q := by
  obtain ⟨he, hclose⟩ := reading_eq_ok_iff.mp h
  obtain ⟨body, hbody⟩ := hq _ _ hclose
  have hlength := congrArg List.length hbody
  rw [List.length_drop, List.length_take_of_le he, List.length_append, List.length_singleton]
    at hlength
  have hget : ((octets.take e).drop i)[body.length]? = some q := by
    rw [hbody, List.getElem?_append_right (Nat.le_refl _), Nat.sub_self]
    rfl
  have hplace : i + body.length = e - 1 := by omega
  rwa [List.getElem?_drop, hplace, List.getElem?_take_of_lt (by omega)] at hget

theorem reading_of_length_le (h : octets.length ≤ i) :
    reading (f :: below) octets i = .error .absent := by
  rw [reading, List.drop_of_length_le h]
  rfl

theorem reading_nil (h : i ≤ octets.length) : reading [] octets i = .ok i := by
  rw [reading, close_nil, answer, List.length_drop, Nat.sub_sub_self h]

theorem reading_step {s : List Frame} (h : i < octets.length)
    (hstep : step (f :: below) octets[i] = some s) :
    reading (f :: below) octets i = reading s octets (i + 1) := by
  rw [reading, reading, List.drop_eq_getElem_cons h, close_cons hstep]

/-- In front of what is left of a text a reading of its octets is one of its characters. -/
theorem reading_offset {stack : List Frame} (hstack : Aligned stack) {cs : List Char}
    (h : cs <:+ text) :
    reading stack (encode text) (offset text cs) = found text (close stack cs) := by
  rw [reading, drop_offset h, close_encode hstack]
  cases hclose : close stack cs with
  | none => rfl
  | some rest =>
      have hlength := offset_add_length ((close_suffix hclose).trans h)
      have hend : (encode text).length - (encode rest).length = offset text rest := by omega
      exact congrArg Except.ok hend

/-! ## Scans of what an octet opens -/

/-- The scan for the end of what the octet at a position opens. -/
def scanOpened (opens : Option Char → Option Frame) (octets : List Char) (i : Nat) : Scan Nat :=
  match opens octets[i]? with
  | some f => reading [f] octets (i + 1)
  | none => .error .absent

section

variable {opens : Option Char → Option Frame}

theorem scanOpened_agrees (h : scanOpened opens octets i = .ok e)
    (hagree : others.take e = octets.take e) : scanOpened opens others i = .ok e := by
  rw [scanOpened] at h
  split at h
  next f hf =>
    have hi : i < e := Nat.lt_of_succ_lt (lt_of_reading h)
    have hstart : others[i]? = octets[i]? := by
      rw [← List.getElem?_take_of_lt hi, hagree, List.getElem?_take_of_lt hi]
    rw [scanOpened, hstart, hf]
    exact reading_agrees h hagree
  next => cases h

theorem scanOpened_cases (opens : Option Char → Option Frame) (octets : List Char) (i : Nat) :
    (∃ e, scanOpened opens octets i = .ok e) ∨ scanOpened opens octets i = .error .absent := by
  rw [scanOpened]
  split
  next f _ =>
    rw [reading]
    cases close [f] (octets.drop (i + 1)) with
    | none => exact .inr rfl
    | some rest => exact .inl ⟨_, rfl⟩
  next => exact .inr rfl

end

/-! ## The scans of a text -/

theorem skipQuoted_eq (text : List Char) (q : Char) (i : Nat) :
    skipQuoted text q i = reading [.quoted q] (encode text) i := by
  fun_induction skipQuoted text q i with
  | case1 i h hback ih =>
      have hstep : step [.quoted q] (encode text)[i] = some [.escaped, .quoted q] := by
        simp [step, hback]
      rw [ih, reading_step h hstep]
      -- The loop jumps over the octet that the machine reads as a protected one.
      by_cases hnext : i + 1 < (encode text).length
      · exact (reading_step hnext rfl).symm
      · rw [reading_of_length_le (Nat.le_of_not_lt hnext),
          reading_of_length_le (Nat.le_succ_of_le (Nat.le_of_not_lt hnext))]
  | case2 i h hback hend =>
      have hq : q ≠ '\\' := hend ▸ hback
      have hstep : step [.quoted q] (encode text)[i] = some [] := by simp [step, hend, hq]
      rw [reading_step h hstep, reading_nil h]
  | case3 i h hback hend ih =>
      have hstep : step [.quoted q] (encode text)[i] = some [.quoted q] := by
        simp [step, hback, hend]
      rw [ih, reading_step h hstep]
  | case4 i h => exact (reading_of_length_le (Nat.le_of_not_lt h)).symm

/-- Whatever octet there is at a position, it is taken for a quote. -/
theorem skipString_eq (text : List Char) (i : Nat) :
    skipString text i = scanOpened (·.map .quoted) (encode text) i := by
  rw [skipString, scanOpened]
  cases (encode text)[i]? with
  | none => rfl
  | some q => exact skipQuoted_eq text q (i + 1)

/-- What is open behind an octet, if it is an opening brace. -/
def braceFrame (octet : Option Char) : Option Frame :=
  if octet = some '\x7b' then some (.code false) else none

theorem findBrace_eq (text : List Char) (i : Nat) :
    (findBrace text i).map (· + 1) = scanOpened braceFrame (encode text) i := by
  rw [scanOpened, braceFrame]
  by_cases hopen : (encode text)[i]? = some '\x7b'
  · have haligned : Aligned [.code false] := ⟨trivial, trivial⟩
    obtain ⟨cs, h, rfl⟩ := exists_suffix_of_getElem? (by decide) hopen
    rw [if_pos hopen, findBrace_offset h]
    simp only
    rw [offset_cons_of_isAscii h (by decide), reading_offset haligned (suffix_of_cons h)]
    show _ = found text (closeBrace cs)
    cases hclose : closeBrace cs with
    | none => rfl
    | some rest =>
        have hpos := offset_pos h (close_suffix hclose)
        exact congrArg Except.ok (Nat.sub_add_cancel (Nat.one_le_of_lt hpos))
  · rw [if_neg hopen, findBrace, if_neg hopen]
    rfl

/-- What is left of a character that the scan starts inside of is passed over. -/
theorem tagEnd_eq (text : List Char) (i : Nat) :
    tagEnd text i = reading [.tag] (encode text) i := by
  -- The induction is on the octets ahead; at an ASCII octet the characters decide.
  induction hahead : (encode text).length - i generalizing i with
  | zero =>
      have hend : (encode text).length ≤ i := Nat.le_of_sub_eq_zero hahead
      rw [reading_of_length_le hend, tagEnd, dif_neg (Nat.not_lt_of_le hend)]
  | succ n ih =>
      have hi : i < (encode text).length := by omega
      cases hascii : isAscii (encode text)[i] with
      | true =>
          have haligned : Aligned [.tag] := ⟨trivial, trivial⟩
          obtain ⟨cs, h, hoffset⟩ :=
            exists_suffix_of_getElem? hascii (List.getElem?_eq_getElem hi)
          have heq := (tagEnd_offset h).trans (reading_offset haligned h).symm
          rwa [hoffset] at heq
      | false =>
          have hmarks : (encode text)[i] ∉ tagMarks :=
            not_mem_of_class (p := fun c => !isAscii c) (by decide) (by simp [hascii])
          rw [passes_tagEnd i hi hascii, reading_step hi (step_tag_of_not_mem hmarks [])]
          apply ih
          omega

/-! ## Texts that agree -/

/-- What the scan finds it tells from the octets up to the closing one, `reach` being the position
behind that octet for an answer. -/
structure LooksNoFurther (scan : List Char → Nat → Scan Nat)
    (closing : List Char → Nat → Option Char) (reach : Nat → Nat) : Prop where
  /-- The octet in front of that position is there, and is the closing one. -/
  ends {text : List Char} {i e : Nat} (h : scan text i = .ok e) :
    i + 1 < reach e ∧ reach e ≤ (encode text).length ∧
      (encode text)[reach e - 1]? = closing text i
  /-- A text that goes the same way up to there, and then any way, has the same answer. -/
  agrees {text other : List Char} {i e : Nat} (h : scan text i = .ok e)
    (hagree : (encode other).take (reach e) = (encode text).take (reach e)) : scan other i = .ok e
  /-- In a part from the front of a text the scan finds what it finds in all of it, or nothing. -/
  front {part text : List Char} (h : part <+: text) (i : Nat) :
    scan part i = scan text i ∨ scan part i = .error .absent

/-- A scan that reads what an octet opens looks no further than it reads. -/
theorem looksNoFurther_of_eq (opens : Option Char → Option Frame)
    {scan : List Char → Nat → Scan Nat} {closing : List Char → Nat → Option Char}
    {reach : Nat → Nat} (hreach : Function.Injective reach)
    (hscan : ∀ text i, (scan text i).map reach = scanOpened opens (encode text) i)
    (hclosing : ∀ text i f, opens (encode text)[i]? = some f → ∃ q, closing text i = some q ∧
      ∀ cs rest, close [f] cs = some rest → ∃ body, cs = body ++ q :: rest) :
    LooksNoFurther scan closing reach := by
  have hok : ∀ {text i e}, scan text i = .ok e ↔
      scanOpened opens (encode text) i = .ok (reach e) := by
    intro text i e
    rw [← hscan]
    cases scan text i with
    | error stop => simp [Except.map]
    | ok a => simp [Except.map, hreach.eq_iff]
  have hagrees : ∀ {text other i e}, scan text i = .ok e →
      (encode other).take (reach e) = (encode text).take (reach e) → scan other i = .ok e := by
    intro text other i e h hagree
    exact hok.mpr (scanOpened_agrees (hok.mp h) hagree)
  have hends : ∀ {text i e}, scan text i = .ok e → i + 1 < reach e ∧
      reach e ≤ (encode text).length ∧ (encode text)[reach e - 1]? = closing text i := by
    intro text i e h
    have hopened := hok.mp h
    rw [scanOpened] at hopened
    split at hopened
    next f hf =>
      obtain ⟨q, hq, hcloses⟩ := hclosing text i f hf
      refine ⟨lt_of_reading hopened, (reading_eq_ok_iff.mp hopened).1, ?_⟩
      rw [hq, reading_ends hcloses hopened]
    next => cases hopened
  refine ⟨hends, hagrees, ?_⟩
  rintro part text ⟨more, rfl⟩ i
  cases hpart : scan part i with
  | ok e =>
      left
      symm
      apply hagrees hpart
      rw [encode_append, List.take_append_of_le_length (hends hpart).2.1]
  | error stop =>
      right
      have hmap := hscan part i
      rw [hpart] at hmap
      obtain ⟨e, he⟩ | habsent := scanOpened_cases opens (encode part) i
      · rw [he] at hmap
        cases hmap
      · rw [habsent] at hmap
        exact congrArg Except.error (Except.error.inj hmap)

/-- **Scans look no further than the closing octet of what they find.** What the bracket machine
reads in front of one text it reads in front of any other. So from every octet of a text, one
inside a character or behind the end included, a quoted text, an expression and a tag end where
they do in every other text that goes the same way up to the closing quote, brace or angle bracket,
and in a part from the front of the text they end there or not at all. -/
theorem scans_look_no_further :
    (∀ stack own rest other, close stack (own ++ rest) = some rest →
      close stack (own ++ other) = some other) ∧
    LooksNoFurther skipString (fun text i => (encode text)[i]?) id ∧
    LooksNoFurther findBrace (fun _ _ => some '\x7d') (· + 1) ∧
    LooksNoFurther (fun text i => tagEnd text (i + 1)) (fun _ _ => some '>') id := by
  refine ⟨?_, ?_, ?_, ?_⟩
  · intro stack own rest other h
    exact close_append_right (close_of_close_append h) other
  · apply looksNoFurther_of_eq (·.map .quoted) Function.injective_id
    · intro text i
      rw [← skipString_eq, Except.map_id]
      rfl
    · intro text i f hf
      obtain ⟨q, hq, rfl⟩ := Option.map_eq_some_iff.mp hf
      exact ⟨q, hq, fun cs rest => closeQuote_ends⟩
  · apply looksNoFurther_of_eq braceFrame (fun _ _ => Nat.succ.inj) findBrace_eq
    intro text i f hf
    rw [braceFrame] at hf
    split at hf
    next =>
      cases hf
      exact ⟨_, rfl, fun cs rest => closeBrace_ends⟩
    next => cases hf
  · apply looksNoFurther_of_eq (fun _ => some .tag) Function.injective_id
    · intro text i
      rw [tagEnd_eq, Except.map_id]
      rfl
    · intro text i f hf
      cases hf
      exact ⟨_, rfl, fun cs rest => closeTag_ends⟩

/-- A brace behind a comment, a quote inside a character, and a bracket behind one in quotes. -/
theorem scans_look_no_further_of_note :
    (findBrace "\x7ba // \x7d\n\x7d tail".toList 0 = .ok 8 ∧
      findBrace "\x7ba // \x7d\n\x7d".toList 0 = .ok 8) ∧
    (skipString "éaé".toList 1 = .ok 5 ∧ skipString "éaéé\"".toList 1 = .ok 5) ∧
    (tagEnd "<a b='>'> '".toList 1 = .ok 9 ∧ tagEnd "<a b='>'>\x7b".toList 1 = .ok 9) := by
  obtain ⟨-, hstring, hbrace, htag⟩ := scans_look_no_further
  have hnote : findBrace "\x7ba // \x7d\n\x7d tail".toList 0 = .ok 8 := by decide +kernel
  have hinside : skipString "éaé".toList 1 = .ok 5 := by decide +kernel
  have hquoted : tagEnd "<a b='>'> '".toList 1 = .ok 9 := by decide +kernel
  exact ⟨⟨hnote, hbrace.agrees hnote (by decide +kernel)⟩,
    ⟨hinside, hstring.agrees hinside (by decide +kernel)⟩,
    ⟨hquoted, htag.agrees (i := 0) hquoted (by decide +kernel)⟩⟩

end Tandem.Octet
