import Tandem.Json.Reader
import Tandem.Proofs.Text.Blank
import Tandem.Source.Handler

/-!
# Handlers that are wrapped are unwrapped again

Both forms of a wrapped handler are an arrow, an opening brace, and the body among
blanks before the closing brace (`wrap_cases`), and from such a text the trimmed body is
taken (`unwrap_arrow`). A wrapped handler is no JSON, so it is kept as text.
-/

namespace Tandem.Source

open Text

theorem trim_trim (cs : List Char) : trim (trim cs) = trim cs :=
  trim_eq_self (stops_trim cs) (getLast?_trim cs)

theorem unwrap_trim (cs : List Char) :
    unwrap (String.ofList (trim cs)) = unwrap (String.ofList cs) := by
  simp only [unwrap, String.toList_ofList, trim_trim]

/-- An arrow and the brace of a body, in front of a text. -/
def opened (cs : List Char) : List Char :=
  '(' :: ')' :: ' ' :: '=' :: '>' :: ' ' :: '\x7b' :: cs

theorem trim_opened (cs : List Char) : trim (opened cs) = opened (trimEnd cs) := by
  have hstart : trimStart (opened cs) = opened cs :=
    (stops_cons (by decide) : Stops isBlank (opened cs)).dropWhile
  rw [trim, hstart]
  exact trimEnd_append_cons (by decide) ['(', ')', ' ', '=', '>', ' '] cs

/-- What stands behind the opening brace is the body, up to a brace at its end. -/
theorem unwrap_opened (cs : List Char) :
    unwrap (String.ofList (opened cs)) = String.ofList (dropBrace (trim cs)) := by
  have hrest : arrowRest? (opened (trimEnd cs)) = some (trim cs) := by
    rw [← trimStart_trimEnd]
    rfl
  rw [unwrap, String.toList_ofList, trim_opened, hrest, Option.map_some, Option.getD_some]

/-- An arrow function around a body. -/
def arrow (inside : List Char) : List Char :=
  '(' :: ')' :: ' ' :: '=' :: '>' :: ' ' :: '\x7b' :: (inside ++ ['\x7d'])

theorem arrow_eq (inside : List Char) : arrow inside = opened (inside ++ ['\x7d']) := rfl

theorem trim_arrow (inside : List Char) : trim (arrow inside) = arrow inside := by
  have hend : trimEnd (inside ++ ['\x7d']) = inside ++ ['\x7d'] :=
    trimEnd_append_cons (by decide) inside []
  rw [arrow_eq, trim_opened, hend]

/-- The body of an arrow function is taken out without the blanks around it. -/
theorem unwrap_arrow {a cs b : List Char} (ha : Blank a) (hb : Blank b) (hcs : trim cs ≠ []) :
    unwrap (String.ofList (arrow (a ++ (cs ++ b)))) = String.ofList (trim cs) := by
  have hfront : trimStart cs ≠ [] := by
    intro hnil
    rw [trim, hnil] at hcs
    exact hcs rfl
  have hstart : trimStart (a ++ (cs ++ b) ++ ['\x7d']) = (trimStart cs ++ b) ++ ['\x7d'] := by
    rw [List.append_assoc, trimStart_append ha, List.append_assoc, trimStart,
      List.dropWhile_append, if_neg]
    · rw [List.append_assoc]
      rfl
    · simpa [trimStart] using hfront
  have hbrace : trim (a ++ (cs ++ b) ++ ['\x7d']) = (trimStart cs ++ b) ++ ['\x7d'] := by
    rw [trim, hstart]
    exact trimEnd_append_cons (by decide) _ []
  rw [arrow_eq, unwrap_opened, hbrace, dropBrace, List.getLast?_concat, if_pos rfl,
    List.dropLast_concat, trimEnd_append hb]
  rfl

/-- The body is put between blanks as it is or trimmed, and behind two slashes in a row the line is
broken. -/
theorem wrap_cases {pad : Nat → List Char} (hpad : ∀ l, Blank (pad l)) (level : Nat)
    (body : String) :
    ∃ a cs b, wrap pad level body = arrow (a ++ (cs ++ b)) ∧ Blank a ∧ Blank b ∧
      (cs = body.toList ∨ cs = trim body.toList) ∧
      (occurs "//".toList body.toList = true → b.head? = some '\n') := by
  have hbreak : ∀ l, Blank ('\n' :: pad l) := fun l => (hpad l).cons (by decide)
  have hspace : Blank [' '] := blank_nil.cons (by decide)
  rw [wrap]
  split
  · refine ⟨'\n' :: pad (level + 1), trim body.toList, '\n' :: pad level, ?_, hbreak _, hbreak _,
      .inr rfl, fun _ => rfl⟩
    simp [arrow]
  next hnote =>
    exact ⟨[' '], body.toList, [' '], by simp [arrow], hspace, hspace, .inl rfl,
      fun h => absurd h hnote⟩

/-- A wrapped handler is an arrow function with its body among blanks. -/
theorem wrap_eq {pad : Nat → List Char} (hpad : ∀ l, Blank (pad l)) (level : Nat) (body : String) :
    ∃ a cs b, wrap pad level body = arrow (a ++ (cs ++ b)) ∧ Blank a ∧ Blank b ∧
      trim cs = trim body.toList := by
  obtain ⟨a, cs, b, hwrap, ha, hb, hcs, -⟩ := wrap_cases hpad level body
  refine ⟨a, cs, b, hwrap, ha, hb, ?_⟩
  obtain rfl | rfl := hcs
  · rfl
  · exact trim_trim _

/-- **A handler that is wrapped and unwrapped is its trimmed body.** -/
theorem unwrap_wrap {pad : Nat → List Char} (hpad : ∀ l, Blank (pad l)) (level : Nat)
    {body : String} (hbody : trim body.toList ≠ []) :
    unwrap (String.ofList (wrap pad level body)) = String.ofList (trim body.toList) := by
  obtain ⟨a, cs, b, hwrap, ha, hb, hcs⟩ := wrap_eq hpad level body
  rw [hwrap, unwrap_arrow ha hb (hcs ▸ hbody), hcs]

theorem trim_wrap {pad : Nat → List Char} (hpad : ∀ l, Blank (pad l)) (level : Nat)
    (body : String) : trim (wrap pad level body) = wrap pad level body := by
  obtain ⟨a, cs, b, hwrap, _⟩ := wrap_eq hpad level body
  rw [hwrap, trim_arrow]

/-- A text that starts with a parenthesis is no JSON. -/
theorem ofText?_parenthesis (cs : List Char) : Json.ofText? ('(' :: cs) = none := by
  have htoken : Json.token? ('(' :: cs) = none := rfl
  have htokens : Json.tokens? ('(' :: cs) = none := by
    rw [Json.tokens?, if_neg (by decide)]
    split
    next => rfl
    next h => rw [htoken] at h; cases h
  rw [Json.ofText?, Json.Raw.ofText?, htokens]
  rfl

theorem ofText?_wrap {pad : Nat → List Char} (hpad : ∀ l, Blank (pad l)) (level : Nat)
    (body : String) : Json.ofText? (wrap pad level body) = none := by
  obtain ⟨a, cs, b, hwrap, _⟩ := wrap_eq hpad level body
  rw [hwrap]
  exact ofText?_parenthesis _

end Tandem.Source
