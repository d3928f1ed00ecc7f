import Mathlib.Data.List.TakeWhile
import Tandem.Text.Blank
import Tandem.Text.Word

/-!
# Trimming and runs of characters

What the readers take from the front of a text is a maximal run of a class, so a run
is found again when what follows it does not go on with the class (`Stops`). Trimming
finds a text again among blanks if neither of its ends is one (`trim_surrounded`).
-/

namespace Tandem.Text

/-! ## Runs -/

/-- The text does not start with a character of the class. -/
def Stops (p : Char → Bool) (cs : List Char) : Prop := ∀ c ∈ cs.head?, p c = false

section

variable {p : Char → Bool} {run rest : List Char}

theorem stops_cons {c : Char} (h : p c = false) : Stops p (c :: rest) := by
  intro d hd
  cases hd
  exact h

theorem Stops.dropWhile (h : Stops p rest) : rest.dropWhile p = rest := by
  cases rest with
  | nil => rfl
  | cons c cs => rw [List.dropWhile_cons, if_neg (by simp [h c rfl])]

theorem Stops.takeWhile (h : Stops p rest) : rest.takeWhile p = [] := by
  cases rest with
  | nil => rfl
  | cons c cs => rw [List.takeWhile_cons, if_neg (by simp [h c rfl])]

/-- A run that the rest does not go on with is found whole. -/
theorem Stops.takeWhile_append (h : Stops p rest) (hrun : ∀ c ∈ run, p c = true) :
    (run ++ rest).takeWhile p = run := by
  rw [List.takeWhile_append_of_pos hrun, h.takeWhile, List.append_nil]

theorem Stops.dropWhile_append (h : Stops p rest) (hrun : ∀ c ∈ run, p c = true) :
    (run ++ rest).dropWhile p = rest := by
  rw [List.dropWhile_append_of_pos hrun, h.dropWhile]

theorem stops_dropWhile (p : Char → Bool) (cs : List Char) : Stops p (cs.dropWhile p) := by
  intro c hc
  have h := List.head?_dropWhile_not p cs
  rw [Option.mem_def.mp hc] at h
  simpa using h

/-- A run ends in front of a character of another class, whatever stands behind that. -/
theorem takeWhile_append_cons {c : Char} (hc : p c = false) (cs rest : List Char) :
    (cs ++ c :: rest).takeWhile p = cs.takeWhile p := by
  induction cs with
  | nil => rw [List.nil_append, List.takeWhile_cons, hc]; rfl
  | cons d cs ih => rw [List.cons_append, List.takeWhile_cons, List.takeWhile_cons, ih]

theorem dropWhile_append_cons {c : Char} (hc : p c = false) (cs rest : List Char) :
    (cs ++ c :: rest).dropWhile p = cs.dropWhile p ++ c :: rest := by
  induction cs with
  | nil => rw [List.nil_append, List.dropWhile_cons, hc]; rfl
  | cons d cs ih =>
      rw [List.cons_append, List.dropWhile_cons, List.dropWhile_cons, ih]
      split <;> rfl

end

/-- A character that the front does not have stands behind it. -/
theorem exists_append_of_not_mem {front cs inside after : List Char} {c : Char} (hc : c ∉ front)
    (h : front ++ cs = inside ++ c :: after) :
    ∃ between, inside = front ++ between ∧ cs = between ++ c :: after := by
  rcases List.append_eq_append_iff.mp h with h | ⟨m, rfl, hm⟩
  · exact h
  · cases m with
    | nil => exact ⟨[], by simp, hm.symm⟩
    | cons d m =>
        obtain ⟨rfl, _⟩ := List.cons.inj hm
        simp at hc

/-! ## Trimming -/

def Blank (cs : List Char) : Prop := ∀ c ∈ cs, isBlank c = true

theorem Blank.append {a b : List Char} (ha : Blank a) (hb : Blank b) : Blank (a ++ b) := by
  intro c hc
  rcases List.mem_append.mp hc with h | h
  · exact ha c h
  · exact hb c h

theorem Blank.cons {c : Char} {cs : List Char} (hc : isBlank c = true) (hcs : Blank cs) :
    Blank (c :: cs) := List.forall_mem_cons.mpr ⟨hc, hcs⟩

theorem Blank.not_mem {c : Char} {cs : List Char} (h : Blank cs) (hc : isBlank c = false) :
    c ∉ cs := by
  intro hmem
  rw [h c hmem] at hc
  cases hc

theorem blank_nil : Blank [] := List.forall_mem_nil _

theorem blank_takeWhile (cs : List Char) : Blank (cs.takeWhile isBlank) :=
  List.all_eq_true.mp List.all_takeWhile

theorem trimStart_append {a cs : List Char} (ha : Blank a) : trimStart (a ++ cs) = trimStart cs :=
  List.dropWhile_append_of_pos ha

theorem trimEnd_append {cs b : List Char} (hb : Blank b) : trimEnd (cs ++ b) = trimEnd cs := by
  rw [trimEnd, List.reverse_append, List.dropWhile_append_of_pos]
  · rfl
  · exact fun c hc => hb c (List.mem_reverse.mp hc)

theorem trimStart_trimStart (cs : List Char) : trimStart (trimStart cs) = trimStart cs :=
  (stops_dropWhile isBlank cs).dropWhile

theorem trimEnd_eq_self {cs : List Char} (h : ∀ c ∈ cs.getLast?, isBlank c = false) :
    trimEnd cs = cs := by
  have hstops : Stops isBlank cs.reverse := by
    intro c hc
    rw [List.head?_reverse] at hc
    exact h c hc
  rw [trimEnd, hstops.dropWhile, List.reverse_reverse]

/-- Behind a character that is no blank, only what follows it is trimmed at the end. -/
theorem trimEnd_append_cons {c : Char} (hc : isBlank c = false) (front cs : List Char) :
    trimEnd (front ++ c :: cs) = front ++ c :: trimEnd cs := by
  have hstops : Stops isBlank (c :: front.reverse) := stops_cons hc
  have hreverse : (front ++ c :: cs).reverse = cs.reverse ++ c :: front.reverse := by simp
  rw [trimEnd, hreverse, List.dropWhile_append, hstops.dropWhile]
  split
  next h => simp [trimEnd, List.isEmpty_iff.mp h]
  next => simp [trimEnd]

/-- In front of a text that is not all blanks nothing is trimmed at the end. -/
theorem trimEnd_append_of_not_blank {cs : List Char} (h : ¬Blank cs) (front : List Char) :
    trimEnd (front ++ cs) = front ++ trimEnd cs := by
  obtain ⟨c, hmem, hc⟩ : ∃ c ∈ cs, isBlank c = false := by simpa [Blank] using h
  obtain ⟨a, b, rfl⟩ := List.append_of_mem hmem
  rw [← List.append_assoc, trimEnd_append_cons hc, trimEnd_append_cons hc, List.append_assoc]

/-- Blanks behind a text that ends in none are trimmed away. -/
theorem trim_append {cs b : List Char} (hb : Blank b)
    (hlast : ∃ c ∈ cs.getLast?, isBlank c = false) : trim (cs ++ b) = trimStart cs := by
  obtain ⟨c, hc, hblank⟩ := hlast
  have hmem : c ∈ cs := List.mem_of_getLast? hc
  -- The run of blanks at the front ends before the last character.
  have hne : trimStart cs ≠ [] := by
    intro hnil
    have hall := List.dropWhile_eq_nil_iff.mp hnil c hmem
    rw [hblank] at hall
    cases hall
  have hfront : trimStart (cs ++ b) = trimStart cs ++ b := by
    rw [trimStart, List.dropWhile_append, if_neg]
    · rfl
    · simpa [trimStart] using hne
  have hsuffix : trimStart cs <:+ cs := List.dropWhile_suffix isBlank
  have hlast' : (trimStart cs).getLast? = some c := by
    rw [← Option.mem_def.mp hc, List.getLast?_eq_some_getLast hne,
      hsuffix.getLast hne, List.getLast?_eq_some_getLast]
  rw [trim, hfront, trimEnd_append hb, trimEnd_eq_self]
  intro d hd
  rw [hlast'] at hd
  cases hd
  exact hblank

theorem trim_eq_self {cs : List Char} (hstart : Stops isBlank cs)
    (hlast : ∀ c ∈ cs.getLast?, isBlank c = false) : trim cs = cs := by
  rw [trim, trimStart, hstart.dropWhile, trimEnd_eq_self hlast]

theorem stops_trim (cs : List Char) : Stops isBlank (trim cs) := by
  intro c hc
  have hprefix : trim cs <+: trimStart cs := by
    rw [trim, trimEnd, ← List.reverse_suffix, List.reverse_reverse]
    exact List.dropWhile_suffix isBlank
  obtain ⟨t, ht⟩ := hprefix
  refine stops_dropWhile isBlank cs c ?_
  show c ∈ (trimStart cs).head?
  rw [← ht, Option.mem_def, List.head?_append, Option.mem_def.mp hc]
  rfl

theorem getLast?_trim (cs : List Char) : ∀ c ∈ (trim cs).getLast?, isBlank c = false := by
  intro c hc
  rw [trim, trimEnd, List.getLast?_reverse] at hc
  exact stops_dropWhile isBlank _ c hc

theorem exists_eq_trimEnd (cs : List Char) : ∃ b, cs = trimEnd cs ++ b ∧ Blank b := by
  refine ⟨(cs.reverse.takeWhile isBlank).reverse, ?_, ?_⟩
  · rw [trimEnd, ← List.reverse_append, List.takeWhile_append_dropWhile, List.reverse_reverse]
  · intro c hc
    exact List.all_eq_true.mp List.all_takeWhile c (List.mem_reverse.mp hc)

/-- A text is its trimmed self among blanks. -/
theorem exists_eq_trim (cs : List Char) :
    ∃ a b, cs = a ++ (trim cs ++ b) ∧ Blank a ∧ Blank b := by
  obtain ⟨b, hsplit, hb⟩ := exists_eq_trimEnd (trimStart cs)
  refine ⟨cs.takeWhile isBlank, b, ?_, blank_takeWhile cs, hb⟩
  rw [trim, ← hsplit, trimStart, List.takeWhile_append_dropWhile]

/-- It does not matter which end is trimmed first. -/
theorem trimStart_trimEnd (cs : List Char) : trimStart (trimEnd cs) = trim cs := by
  have hfront := blank_takeWhile cs
  have hsplit : cs.takeWhile isBlank ++ trimStart cs = cs := List.takeWhile_append_dropWhile
  rw [trim]
  cases hrest : trimStart cs with
  | nil =>
      rw [hrest, List.append_nil] at hsplit
      rw [hsplit] at hfront
      rw [← List.nil_append cs, trimEnd_append hfront]
      rfl
  | cons c rest =>
      have hstops : Stops isBlank (c :: rest) := hrest ▸ stops_dropWhile isBlank cs
      have hc : isBlank c = false := hstops c rfl
      have hend : trimEnd (c :: rest) = c :: trimEnd rest := trimEnd_append_cons hc [] rest
      rw [← hsplit, hrest, trimEnd_append_cons hc, trimStart_append hfront, hend]
      exact (stops_cons hc).dropWhile

theorem trim_eq_nil_iff {cs : List Char} : trim cs = [] ↔ cs.all isBlank = true := by
  rw [List.all_eq_true]
  constructor
  · intro hnil
    obtain ⟨a, b, hsplit, ha, hb⟩ := exists_eq_trim cs
    rw [hsplit, hnil]
    exact ha.append hb
  · intro hblank
    have hfront : trim (cs ++ []) = trim [] := by rw [trim, trimStart_append hblank, ← trim]
    rwa [List.append_nil] at hfront

theorem mem_of_mem_trimEnd {c : Char} {cs : List Char} (h : c ∈ trimEnd cs) : c ∈ cs := by
  rw [trimEnd, List.mem_reverse] at h
  exact List.mem_reverse.mp ((List.dropWhile_suffix isBlank).subset h)

theorem mem_of_mem_trim {c : Char} {cs : List Char} (h : c ∈ trim cs) : c ∈ cs :=
  (List.dropWhile_suffix isBlank).subset (mem_of_mem_trimEnd h)

/-- A trimmed text is found again among blanks. -/
theorem trim_surrounded {a cs b : List Char} (ha : Blank a) (hb : Blank b)
    (hcs : trim cs = cs) (hne : cs ≠ []) : trim (a ++ (cs ++ b)) = cs := by
  have hlast : ∀ c ∈ cs.getLast?, isBlank c = false := hcs ▸ getLast?_trim cs
  have hstart : Stops isBlank cs := hcs ▸ stops_trim cs
  rw [trim, trimStart_append ha, ← trim, trim_append hb, trimStart, hstart.dropWhile]
  have hget := List.getLast?_eq_some_getLast hne
  exact ⟨cs.getLast hne, hget, hlast _ hget⟩

/-! ## Words -/

theorem words_eq_singleton {cs : List Char} (hne : cs ≠ []) (h : ∀ c ∈ cs, isBlank c = false) :
    words cs = [cs] := by
  have hfrom : ∀ word, word ++ cs ≠ [] → wordsFrom word cs = [word.reverse ++ cs] := by
    clear hne
    induction cs with
    | nil =>
        intro word hword
        rw [List.append_nil] at hword
        rw [wordsFrom, if_neg (by simpa using hword), List.append_nil]
    | cons c cs ih =>
        intro word _
        rw [wordsFrom, if_neg (by simp [h c]), ih (fun d hd => h d (List.mem_cons_of_mem _ hd))]
        · simp
        · simp
  rw [words, hfrom [] hne]
  rfl

/-- The blanks by their codes. -/
theorem isBlank_eq_true {c : Char} (h : isBlank c = true) :
    c.toNat ∈ List.range' 9 5 ++ [0x20, 0x85, 0xA0, 0x1680] ++ List.range' 0x2000 11
      ++ [0x2028, 0x2029, 0x202F, 0x205F, 0x3000] := by
  simp only [isBlank, Bool.or_eq_true, Bool.and_eq_true, decide_eq_true_eq, beq_iff_eq] at h
  simp only [List.mem_append, List.mem_range'_1, List.mem_cons, List.not_mem_nil, or_false]
  omega

theorem isBlank_of_isWord {c : Char} (h : isWord c = true) : isBlank c = false := by
  have hnone : ∀ n ∈ List.range' 9 5 ++ [0x20, 0x85, 0xA0, 0x1680] ++ List.range' 0x2000 11
      ++ [0x2028, 0x2029, 0x202F, 0x205F, 0x3000], isWord (Char.ofNat n) = false := by
    decide +kernel
  cases hblank : isBlank c with
  | false => rfl
  | true =>
      have hword := hnone _ (isBlank_eq_true hblank)
      rw [Char.ofNat_toNat, h] at hword
      cases hword

end Tandem.Text
