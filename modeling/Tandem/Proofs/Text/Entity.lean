import Tandem.Proofs.Text.Blank
import Tandem.Text.Entity

/-!
# Escaping loses nothing

Both ways of escaping replace some characters by known references and leave the
others alone (`IsEscape`), and whatever does that is undone by `decode`. The
characters with a meaning in the place that the text is written to do not stand in
the escaped text, and escaping does not make blanks at its ends.
-/

namespace Tandem.Text

/-- A known reference is decoded to its character, whatever follows it. -/
theorem decodeFrom_reference {r : List Char} {c : Char} (h : (r, c) ∈ references)
    (rest : List Char) : decodeFrom 0 ('&' :: (r ++ rest)) = c :: decodeFrom 0 rest := by
  simp only [references, List.mem_cons, Prod.mk.injEq, List.not_mem_nil, or_false] at h
  rcases h with ⟨rfl, rfl⟩ | ⟨rfl, rfl⟩ | ⟨rfl, rfl⟩ | ⟨rfl, rfl⟩ | ⟨rfl, rfl⟩ | ⟨rfl, rfl⟩ |
    ⟨rfl, rfl⟩ <;> rfl

/-- Every character is replaced by a reference for it, or is left alone and is no `&`. -/
def IsEscape (f : Char → List Char) : Prop :=
  ∀ c, (∃ r, (r, c) ∈ references ∧ f c = '&' :: r) ∨ f c = [c] ∧ c ≠ '&'

/-- What is written character by character with references is read back, and so is what
follows it. -/
theorem IsEscape.decode_append {f : Char → List Char} (hf : IsEscape f) (cs rest : List Char) :
    Text.decode (cs.flatMap f ++ rest) = cs ++ Text.decode rest := by
  show decodeFrom 0 _ = cs ++ decodeFrom 0 rest
  induction cs with
  | nil => rfl
  | cons c cs ih =>
      rw [List.flatMap_cons, List.append_assoc]
      rcases hf c with ⟨r, hr, hc⟩ | ⟨hc, hne⟩
      · rw [hc, List.cons_append, decodeFrom_reference hr, ih, List.cons_append]
      · rw [hc, List.singleton_append, decodeFrom, if_neg hne, ih, List.cons_append]

theorem IsEscape.decode {f : Char → List Char} (hf : IsEscape f) (cs : List Char) :
    decode (cs.flatMap f) = cs := by
  have hnil : Text.decode [] = [] := rfl
  have happend := hf.decode_append cs []
  rwa [hnil, List.append_nil, List.append_nil] at happend

/-- The characters of a reference are letters, digits, `#` and `;`. -/
theorem mem_reference {r : List Char} {c d : Char} (h : (r, c) ∈ references) (hd : d ∈ r) :
    d.isAlphanum = true ∨ d = '#' ∨ d = ';' := by
  have hall : ∀ p ∈ references, ∀ d ∈ p.1, d.isAlphanum = true ∨ d = '#' ∨ d = ';' := by
    simp [references]
  exact hall _ h d hd

/-- A reference ends in a semicolon. -/
theorem exists_concat_of_mem_references {r : List Char} {c : Char} (h : (r, c) ∈ references) :
    ∃ front, r = front ++ [';'] := by
  have hall : ∀ p ∈ references, p.1 = p.1.dropLast ++ [';'] := by simp [references]
  exact ⟨r.dropLast, hall _ h⟩

/-- A character that is replaced does not stand in the escaped text, unless references
are written with it. -/
theorem IsEscape.not_mem {f : Char → List Char} (hf : IsEscape f) {d : Char} (hd : f d ≠ [d])
    (hplain : d.isAlphanum = false ∧ d ≠ '#' ∧ d ≠ ';' ∧ d ≠ '&') (cs : List Char) :
    d ∉ cs.flatMap f := by
  intro hmem
  obtain ⟨c, _, hc⟩ := List.mem_flatMap.mp hmem
  obtain ⟨hletter, hhash, hsemi, hamp⟩ := hplain
  rcases hf c with ⟨r, hr, heq⟩ | ⟨heq, _⟩
  · rw [heq] at hc
    rcases List.mem_cons.mp hc with h | h
    · exact hamp h
    · rcases mem_reference hr h with h | h | h
      · rw [hletter] at h; cases h
      · exact hhash h
      · exact hsemi h
  · rw [heq, List.mem_singleton] at hc
    exact hd (hc ▸ heq)

theorem isEscape_attributeReference : IsEscape attributeReference := by
  intro c
  rw [attributeReference.eq_def]
  split
  · exact .inl ⟨_, by decide, rfl⟩
  · exact .inl ⟨_, by decide, rfl⟩
  · exact .inl ⟨_, by decide, rfl⟩
  · exact .inl ⟨_, by decide, rfl⟩
  · exact .inl ⟨_, by decide, rfl⟩
  next hamp _ _ _ _ => exact .inr ⟨rfl, hamp⟩

theorem isEscape_textReference : IsEscape textReference := by
  intro c
  rw [textReference.eq_def]
  split
  · exact .inl ⟨_, by decide, rfl⟩
  · exact .inl ⟨_, by decide, rfl⟩
  · exact .inl ⟨_, by decide, rfl⟩
  · exact .inl ⟨_, by decide, rfl⟩
  · exact .inl ⟨_, by decide, rfl⟩
  next hamp _ _ _ _ => exact .inr ⟨rfl, hamp⟩

theorem decode_eq_self {cs : List Char} (h : '&' ∉ cs) : decode cs = cs := by
  -- Such a text is left alone by the way of escaping that replaces `&` only.
  have hplain : IsEscape fun c => if c = '&' then "&amp;".toList else [c] := by
    intro c
    by_cases hc : c = '&'
    · subst hc
      exact .inl ⟨"amp;".toList, by decide, rfl⟩
    · exact .inr ⟨if_neg hc, hc⟩
  have hsame : cs.flatMap (fun c => if c = '&' then "&amp;".toList else [c]) = cs := by
    induction cs with
    | nil => rfl
    | cons c cs ih =>
        have hc : c ≠ '&' := fun heq => h (heq ▸ List.mem_cons_self)
        rw [List.flatMap_cons, if_neg hc, ih fun hmem => h (List.mem_cons_of_mem _ hmem)]
        rfl
  have hdecode := hplain.decode cs
  rwa [hsame] at hdecode

theorem decode_escapeAttribute (cs : List Char) : decode (escapeAttribute cs) = cs :=
  isEscape_attributeReference.decode cs

theorem decode_escapeText (cs : List Char) : decode (escapeText cs) = cs :=
  isEscape_textReference.decode cs

theorem quote_not_mem_escapeAttribute (cs : List Char) : '"' ∉ escapeAttribute cs :=
  isEscape_attributeReference.not_mem (by decide) (by decide) cs

/-- Escaped element text has no angle bracket and no brace in it. -/
theorem not_mem_escapeText {d : Char} (hd : d = '<' ∨ d = '>' ∨ d = '\x7b' ∨ d = '\x7d')
    (cs : List Char) : d ∉ escapeText cs := by
  refine isEscape_textReference.not_mem ?_ ?_ cs
  · rcases hd with rfl | rfl | rfl | rfl <;> decide
  · rcases hd with rfl | rfl | rfl | rfl <;> decide

/-- Escaping does not change whether a text starts or ends with a blank. -/
theorem IsEscape.trim {f : Char → List Char} (hf : IsEscape f) {cs : List Char}
    (hcs : trim cs = cs) : trim (cs.flatMap f) = cs.flatMap f := by
  have hends : ∀ c, isBlank c = false →
      Stops isBlank (f c) ∧ ∀ d ∈ (f c).getLast?, isBlank d = false := by
    intro c hc
    rcases hf c with ⟨r, hr, heq⟩ | ⟨heq, _⟩
    · rw [heq]
      obtain ⟨front, rfl⟩ := exists_concat_of_mem_references hr
      refine ⟨stops_cons (by decide), fun d hd => ?_⟩
      rw [← List.cons_append, List.getLast?_concat] at hd
      cases hd
      decide
    · rw [heq]
      exact ⟨stops_cons hc, fun d hd => by cases hd; exact hc⟩
  have hne : ∀ c, f c ≠ [] := by
    intro c hnil
    rcases hf c with ⟨_, _, heq⟩ | ⟨heq, _⟩
    · rw [heq] at hnil; cases hnil
    · rw [heq] at hnil; cases hnil
  refine trim_eq_self ?_ ?_
  · cases cs with
    | nil => intro c hc; cases hc
    | cons c cs =>
        have hc : isBlank c = false := (hcs ▸ stops_trim (c :: cs)) c rfl
        intro d hd
        obtain ⟨e, es, he⟩ := List.exists_cons_of_ne_nil (hne c)
        refine (hends c hc).1 d ?_
        rw [List.flatMap_cons, he] at hd
        rw [he]
        exact hd
  · intro d hd
    rcases List.eq_nil_or_concat cs with rfl | ⟨front, c, rfl⟩
    · cases hd
    · have hc : isBlank c = false := by
        refine (hcs ▸ getLast?_trim (front.concat c)) c ?_
        simp
      rw [List.concat_eq_append, List.flatMap_append, List.flatMap_singleton,
        List.getLast?_append, List.getLast?_eq_some_getLast (hne c)] at hd
      refine (hends c hc).2 d ?_
      rw [List.getLast?_eq_some_getLast (hne c)]
      exact hd

end Tandem.Text
