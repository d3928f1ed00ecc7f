import Tandem.Json.Reader

/-!
# Strings are longer in JSON

A character of a string takes at least one character of the text that writes it, and the quotes
come on top, so a text that writes a string alone is longer than the string
(`length_lt_of_ofText?`). No text is a string in JSON and stands for itself.

* **one string** — `length_add_length_codes?`, by the recursion of the reader of strings;
* **all tokens** — `length_lt_of_mem_tokens?`;
* **the machine** — what it ends with is a string only if that was one of its tokens
  (`mem_of_run_eq_after_str`).
-/

namespace Tandem.Json

theorem length_add_length_codes? {cs rest : List Char} {ns : List Nat}
    (h : codes? cs = some (ns, rest)) : ns.length + rest.length < cs.length := by
  fun_induction codes? cs generalizing ns with
  | case1 => cases h
  | case2 => cases h; simp
  | case3 => cases h
  | case4 rest' n r he _ ih =>
    obtain ⟨⟨ns', r'⟩, hc, heq⟩ := Option.map_eq_some_iff.mp h
    cases heq
    have htail := ih hc
    have hescape := escape?_length he
    simp only [List.length_cons] at htail ⊢
    omega
  | case5 => cases h
  | case6 c rest' _ _ _ ih =>
    obtain ⟨⟨ns', r'⟩, hc, heq⟩ := Option.map_eq_some_iff.mp h
    cases heq
    have htail := ih hc
    simp only [List.length_cons] at htail ⊢
    omega

/-- Joining the halves of pairs makes no more characters than there are codes. -/
theorem length_joinHalves_le {ns : List Nat} {cs : List Char} (h : joinHalves ns = some cs) :
    cs.length ≤ ns.length := by
  fun_induction joinHalves ns generalizing cs with
  | case1 => cases h; exact Nat.le_refl _
  | case2 => cases h
  | case3 => cases h
  | case4 n _ _ m rest _ ih =>
    obtain ⟨ds, hds, rfl⟩ := Option.map_eq_some_iff.mp h
    have htail := ih hds
    simp only [List.length_cons]
    omega
  | case5 => cases h
  | case6 n rest _ _ ih =>
    obtain ⟨ds, hds, rfl⟩ := Option.map_eq_some_iff.mp h
    exact Nat.succ_le_succ (ih hds)

theorem length_lt_of_token? {cs rest : List Char} {s : String}
    (h : token? cs = some (.str (some s), rest)) : s.toList.length < cs.length := by
  unfold token? at h
  split at h
  · cases h
  · rename_i c cs'
    split at h
    case h_7 =>
      obtain ⟨⟨ns, r⟩, hcodes, heq⟩ := Option.map_eq_some_iff.mp h
      simp only [Prod.mk.injEq, Token.str.injEq] at heq
      obtain ⟨chars, hjoin, rfl⟩ := Option.map_eq_some_iff.mp heq.1
      have hcode := length_add_length_codes? hcodes
      have hchar := length_joinHalves_le hjoin
      rw [String.toList_ofList, List.length_cons]
      omega
    case h_8 | h_9 | h_10 | h_11 =>
      obtain ⟨p, _, heq⟩ := Option.map_eq_some_iff.mp h
      cases heq
    all_goals cases h

theorem length_lt_of_mem_tokens? {cs : List Char} {ts : List Token} (h : tokens? cs = some ts)
    {s : String} (hs : .str (some s) ∈ ts) : s.toList.length < cs.length := by
  fun_induction tokens? cs generalizing ts with
  | case1 => cases h; cases hs
  | case2 c rest _ ih => exact Nat.lt_succ_of_lt (ih h hs)
  | case3 => cases h
  | case4 c rest _ t rest' ht ih =>
    obtain ⟨ts', hts', rfl⟩ := Option.map_eq_some_iff.mp h
    rcases List.mem_cons.mp hs with rfl | hs
    · exact length_lt_of_token? ht
    · exact Nat.lt_trans (ih hts' hs) (token?_length ht)

/-- A step ends a string only at its token. -/
theorem eq_str_of_step {state : State} {t : Token} {s : Option String} {stack : List Open}
    (h : state.step t = some (.after (.str s) stack)) : t = .str s := by
  have hbegin : ∀ stack', State.begin stack' t = some (.after (.str s) stack) → t = .str s := by
    intro stack' hbegin
    cases t <;> cases hbegin
    rfl
  cases state with
  | value stack' => exact hbegin _ h
  | arrayStart stack' => cases t <;> first | exact hbegin _ h | cases h
  | objectStart stack' => cases t <;> cases h
  | name fields stack' => cases t <;> cases h
  | colon fields k stack' => cases t <;> cases h
  | after v stack' =>
    cases stack' with
    | nil => cases t <;> cases h
    | cons top below => cases top <;> cases t <;> cases h

theorem mem_of_run_eq_after_str {ts : List Token} {state : State} {s : Option String}
    {stack : List Open} (h : state.run ts = some (.after (.str s) stack)) :
    state = .after (.str s) stack ∨ .str s ∈ ts := by
  induction ts generalizing state with
  | nil => exact .inl (Option.some.inj h)
  | cons t ts ih =>
    obtain ⟨next, hstep, hrun⟩ := Option.bind_eq_some_iff.mp h
    rcases ih hrun with rfl | hmem
    · exact .inr (eq_str_of_step hstep ▸ List.mem_cons_self)
    · exact .inr (List.mem_cons_of_mem _ hmem)

/-- **A text that writes a string is longer than the string.** -/
theorem length_lt_of_ofText? {cs : List Char} {s : String} (h : ofText? cs = some (.str s)) :
    s.toList.length < cs.length := by
  obtain ⟨tree, htree, hvalue⟩ := Option.bind_eq_some_iff.mp h
  obtain ⟨ts, htokens, hbuild⟩ := Option.bind_eq_some_iff.mp htree
  -- Only a string has a string for its value.
  obtain rfl : tree = .str (some s) := by
    cases tree with
    | str t =>
      rw [Raw.value?] at hvalue
      obtain ⟨_, rfl, heq⟩ := Option.map_eq_some_iff.mp hvalue
      cases heq
      rfl
    | null => rw [Raw.value?] at hvalue; cases hvalue
    | bool b => rw [Raw.value?] at hvalue; cases hvalue
    | num n =>
      rw [Raw.value?] at hvalue
      obtain ⟨_, _, heq⟩ := Option.map_eq_some_iff.mp hvalue
      cases heq
    | arr items =>
      rw [depthLimit, Raw.value?] at hvalue
      obtain ⟨_, _, heq⟩ := Option.map_eq_some_iff.mp hvalue
      cases heq
    | obj fields =>
      rw [depthLimit, Raw.value?] at hvalue
      obtain ⟨_, _, heq⟩ := Option.map_eq_some_iff.mp hvalue
      cases heq
  rw [Raw.ofTokens?] at hbuild
  split at hbuild
  next v hrun =>
    cases hbuild
    rcases mem_of_run_eq_after_str hrun with heq | hmem
    · cases heq
    · exact length_lt_of_mem_tokens? htokens hmem
  next => cases hbuild

end Tandem.Json
