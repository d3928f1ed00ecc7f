import Mathlib.Data.List.Basic
import Tandem.Proofs.Text.Blank
import Tandem.Source.Header

/-!
# What a header is made of

Whatever header is found, what follows it is what is left of the text behind its opening
brace (`header?_suffix`), and its name is made of word characters (`header?_eq_some`).
-/

namespace Tandem.Source

open Text

/-- A search ends at some place of the text where it succeeds. -/
theorem searchWord_eq_some {α : Type} {p : List Char → Option α} {afterWord : Bool}
    {cs : List Char} {a : α} (h : searchWord p afterWord cs = some a) :
    ∃ rest, rest <:+ cs ∧ p rest = some a := by
  induction cs generalizing afterWord with
  | nil => cases h
  | cons c cs ih =>
      rw [searchWord] at h
      split at h
      next found =>
        cases h
        split at found
        next => cases found
        next => exact ⟨c :: cs, List.suffix_refl _, found⟩
      next =>
        obtain ⟨rest, hrest, hp⟩ := ih h
        exact ⟨rest, hrest.trans (List.suffix_cons c cs), hp⟩

/-- A name that is made of word characters, before the rest of the text. -/
def NameBefore (name rest cs : List Char) : Prop :=
  rest <:+ cs ∧ name ≠ [] ∧ ∀ c ∈ name, isWord c = true

theorem NameBefore.of_suffix {name rest cs after : List Char} (h : NameBefore name rest cs)
    (hafter : after <:+ rest) : NameBefore name after cs :=
  ⟨hafter.trans h.1, h.2⟩

/-- What is read of a keyword and a name is blanks between them and behind them. -/
theorem named?_eq_append {keyword : String} {cs name rest : List Char}
    (h : named? keyword cs = some (name, rest)) :
    ∃ c blanks blanks', isBlank c = true ∧ Blank blanks ∧ name ≠ [] ∧
      (∀ d ∈ name, isWord d = true) ∧ Blank blanks' ∧
      cs = keyword.toList ++ c :: (blanks ++ (name ++ (blanks' ++ rest))) := by
  rw [named?] at h
  split at h
  next c after hkeyword =>
    split at h
    next hc =>
      dsimp only at h
      split at h
      next => cases h
      next hempty =>
        cases h
        refine ⟨c, after.takeWhile isBlank,
          ((after.dropWhile isBlank).dropWhile isWord).takeWhile isBlank, hc,
          List.all_eq_true.mp List.all_takeWhile, by simpa using hempty,
          List.all_eq_true.mp List.all_takeWhile, List.all_eq_true.mp List.all_takeWhile, ?_⟩
        rw [List.takeWhile_append_dropWhile, List.takeWhile_append_dropWhile,
          List.takeWhile_append_dropWhile]
        exact (List.isPrefixOf?_eq_some_iff_append_eq.mp hkeyword).symm
    next => cases h
  next => cases h

theorem named?_eq_some {keyword : String} {cs name rest : List Char}
    (h : named? keyword cs = some (name, rest)) : NameBefore name rest cs := by
  obtain ⟨c, blanks, blanks', _, _, hne, hname, _, rfl⟩ := named?_eq_append h
  refine ⟨⟨keyword.toList ++ c :: (blanks ++ (name ++ blanks')), ?_⟩, hne, hname⟩
  simp only [List.append_assoc, List.cons_append]

theorem page?_eq_some {cs name rest : List Char} (h : page? cs = some (name, rest)) :
    NameBefore name ('\x7b' :: rest) cs := by
  rw [page?] at h
  split at h
  next name' rest' hnamed =>
    cases h
    exact named?_eq_some hnamed
  next => cases h

theorem componentName?_eq_some {cs name rest : List Char}
    (h : componentName? cs = some (name, rest)) : NameBefore name rest cs := by
  rw [componentName?] at h
  split at h
  next name' rest' hnamed =>
    cases h
    exact (named?_eq_some hnamed).of_suffix (List.suffix_cons _ _)
  next => cases h

theorem component?_eq_some {cs name rest : List Char} (h : component? cs = some (name, rest)) :
    NameBefore name ('\x7b' :: rest) cs := by
  rw [component?] at h
  split at h
  next name' rest' hname =>
    split at h
    next paren after hparen =>
      split at h
      next rest'' hbrace =>
        cases h
        have hafter : '\x7b' :: rest <:+ after := hbrace ▸ List.dropWhile_suffix isBlank
        have hrest : paren :: after <:+ rest' := hparen ▸ List.dropWhile_suffix _
        exact (componentName?_eq_some hname).of_suffix
          (hafter.trans ((List.suffix_cons paren after).trans hrest))
      next => cases h
    next => cases h
  next => cases h

/-- A header is one of a page or of a component at some place of the text. -/
theorem header?_eq_some {cs : List Char} {h : Header} (hcs : header? cs = some h) :
    ∃ name, h.name = String.ofList name ∧ NameBefore name ('\x7b' :: h.rest) cs := by
  rw [header?] at hcs
  split at hcs
  next name rest hpage =>
    cases hcs
    obtain ⟨after, hafter, hname⟩ := searchWord_eq_some hpage
    have hbefore := page?_eq_some hname
    exact ⟨name, rfl, hbefore.1.trans hafter, hbefore.2⟩
  next =>
    obtain ⟨⟨name, rest⟩, hcomponent, rfl⟩ := Option.map_eq_some_iff.mp hcs
    obtain ⟨after, hafter, hname⟩ := searchWord_eq_some hcomponent
    have hbefore := component?_eq_some hname
    exact ⟨name, rfl, hbefore.1.trans hafter, hbefore.2⟩

/-- **A header ends with a brace**, behind which the body starts. -/
theorem header?_suffix {cs : List Char} {h : Header} (hcs : header? cs = some h) :
    '\x7b' :: h.rest <:+ cs := by
  obtain ⟨_, _, hbefore⟩ := header?_eq_some hcs
  exact hbefore.1

end Tandem.Source
