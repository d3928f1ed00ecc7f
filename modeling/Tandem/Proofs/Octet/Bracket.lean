import Tandem.Proofs.Markup.Cut
import Tandem.Proofs.Octet.Program

/-!
# Closing brackets by octet positions

From a position between characters every bracket scan ends where the bracket machine ends,
so behind a closing character, and none of its ranges or counts goes wrong:

* **strings** — `skipQuoted_offset`, a protected octet being passed with its character;
* **expressions and templates** — `scan_expression`, where the count of open braces is the
  height of the machine's stack;
* **tags** — `tagEnd_offset`.
-/

namespace Tandem.Octet

open Text Markup

/-! ## Comments -/

/-- A comment ends behind the first star and slash in it. -/
theorem close_blockNote (below : List Frame) (cs : List Char) :
    (find? ['*', '/'] cs = none ∧ close (.blockNote false :: below) cs = none) ∨
    ∃ p rest, find? ['*', '/'] cs = some p ∧ rest <:+ cs ∧
      octetLength cs = p + 2 + octetLength rest ∧
      close (.blockNote false :: below) cs = close below rest := by
  induction cs with
  | nil => exact .inl ⟨rfl, rfl⟩
  | cons c cs ih =>
      by_cases hend : ['*', '/'].isPrefixOf (c :: cs) = true
      · obtain ⟨rest, hrest⟩ := List.isPrefixOf_iff_prefix.mp hend
        cases hrest
        refine .inr ⟨0, rest, by rw [find?, if_pos hend], ?_, ?_, ?_⟩
        · exact (List.suffix_cons _ _).trans (List.suffix_cons _ _)
        · have hword : octetLength ['*', '/'] = 2 := by decide
          exact (octetLength_append ['*', '/'] rest).trans (by rw [hword])
        · exact (close_cons rfl _).trans (close_cons rfl _)
      · have hother : ¬(c = '*' ∧ cs.head? = some '/') := by
          rintro ⟨rfl, hnext⟩
          obtain ⟨ds, rfl⟩ := List.head?_eq_some_iff.mp hnext
          exact hend rfl
        rw [find?, if_neg hend, close_blockNote_cons below hother]
        rcases ih with ⟨hnone, hclose⟩ | ⟨p, rest, hsome, hrest, hlength, hclose⟩
        · exact .inl ⟨by rw [hnone]; rfl, hclose⟩
        · refine .inr ⟨c.utf8Size + p, rest, by rw [hsome]; rfl,
            hrest.trans (List.suffix_cons c cs), ?_, hclose⟩
          rw [octetLength_cons, hlength]
          omega

/-! ## Positions that are found -/

variable {text : List Char}

/-- The answer of a scan that finds what stands for it, or nothing. -/
def answer {α β : Type} (f : α → β) : Option α → Scan β
  | some a => .ok (f a)
  | none => .error .absent

theorem answer_eq_ok_iff {α β : Type} {f : α → β} {o : Option α} {b : β} :
    answer f o = .ok b ↔ ∃ a, o = some a ∧ f a = b := by
  cases o with
  | none => exact iff_of_false (fun h => by cases h) fun ⟨_, h, _⟩ => by cases h
  | some a => simp [answer]

/-- The position in front of what is left, if anything was found. -/
abbrev found (text : List Char) : Option (List Char) → Scan Nat := answer (offset text)

/-- The position of the closing octet itself. -/
abbrev foundBefore (text : List Char) : Option (List Char) → Scan Nat :=
  answer fun rest => offset text rest - 1

theorem offset_pos {c : Char} {cs rest : List Char} (h : c :: cs <:+ text) (hrest : rest <:+ cs) :
    offset text (c :: cs) < offset text rest :=
  offset_lt h (hrest.trans (List.suffix_cons c cs)) (Nat.lt_succ_of_le hrest.length_le)

theorem suffix_of_cons {c : Char} {cs : List Char} (h : c :: cs <:+ text) : cs <:+ text :=
  (List.suffix_cons c cs).trans h

/-- In front of what is left behind an octet the octet can be stepped back over. -/
theorem countDown_offset {c : Char} {cs : List Char} (h : c :: cs <:+ text)
    (hc : isAscii c = true) : countDown (offset text cs) = .ok (offset text (c :: cs)) := by
  rw [← offset_cons_of_isAscii h hc, countDown]

/-- A loop that goes on behind what a scan found moves on. -/
theorem bind_found {β : Type} {c : Char} {cs : List Char} (h : c :: cs <:+ text)
    {o : Option (List Char)} (ho : ∀ rest, o = some rest → rest <:+ cs) {k : Nat → Scan β}
    {f : List Char → β} {g : List Char → Option (List Char)}
    (hk : ∀ rest, rest <:+ cs → k (offset text rest) = answer f (g rest)) :
    (found text o >>= fun next =>
      if offset text (c :: cs) < next then k next else .error .stuck) = answer f (o.bind g) := by
  cases o with
  | none => rfl
  | some rest =>
      have hrest := ho rest rfl
      show (if offset text (c :: cs) < offset text rest then k (offset text rest)
        else .error .stuck) = answer f (g rest)
      rw [if_pos (offset_pos h hrest), hk rest hrest]

/-- The same for a loop that goes on behind the closing octet that a scan found. -/
theorem bind_foundBefore {β : Type} {c : Char} {cs : List Char} (h : c :: cs <:+ text)
    {o : Option (List Char)} (ho : ∀ rest, o = some rest → rest <:+ cs) {k : Nat → Scan β}
    {f : List Char → β} {g : List Char → Option (List Char)}
    (hk : ∀ rest, rest <:+ cs → k (offset text rest) = answer f (g rest)) :
    (foundBefore text o >>= fun close =>
      if offset text (c :: cs) < close + 1 then k (close + 1) else .error .stuck) =
        answer f (o.bind g) := by
  cases o with
  | none => rfl
  | some rest =>
      have hlt := offset_pos h (ho rest rfl)
      have hnext : offset text rest - 1 + 1 = offset text rest :=
        Nat.sub_add_cancel (Nat.one_le_of_lt hlt)
      show (if offset text (c :: cs) < offset text rest - 1 + 1 then k (offset text rest - 1 + 1)
        else .error .stuck) = answer f (g rest)
      rw [hnext, if_pos hlt, hk rest (ho rest rfl)]

theorem close_suffix {stack : List Frame} {cs rest : List Char} (h : close stack cs = some rest) :
    rest <:+ cs := by
  obtain ⟨front, hcs, _⟩ := close_split h
  exact ⟨front, hcs.symm⟩

/-- A class of ASCII characters has no other. -/
theorem class_eq_false {p : Char → Bool} (hp : ∀ c, p c = true → isAscii c = true) {c : Char}
    (hc : isAscii c = false) : p c = false := by
  cases hpc : p c with
  | false => rfl
  | true => rw [hp c hpc] at hc; cases hc

/-- What is asked of the octet at a position is asked of the next character, if no other
than ASCII characters are in the class. -/
theorem any_offset {p : Char → Bool} (hp : ∀ c, p c = true → isAscii c = true)
    {rest : List Char} (h : rest <:+ text) :
    (encode text)[offset text rest]?.any p = rest.head?.any p := by
  rw [← Nat.add_zero (offset text rest), getElem?_offset_add h]
  cases rest with
  | nil => rfl
  | cons c cs =>
      rw [encode_cons, List.head?_cons, Option.any_some]
      cases hc : isAscii c with
      | true => rw [ofChar_of_isAscii hc]; rfl
      | false =>
          have hpos : 0 < (ofChar c).length := by
            rw [length_ofChar]
            exact Char.utf8Size_pos c
          rw [List.getElem?_append_left hpos, List.getElem?_eq_getElem hpos, Option.any_some,
            class_eq_false hp hc,
            class_eq_false hp (isAscii_eq_false_of_mem hc (List.getElem_mem hpos))]

/-- An ASCII octet stands at a position exactly if its character is next. -/
theorem beq_offset {rest : List Char} (h : rest <:+ text) {d : Char} (hd : isAscii d = true) :
    ((encode text)[offset text rest]? == some d) = (rest.head? == some d) := by
  have hany : ∀ o : Option Char, (o == some d) = o.any (· == d) := fun o => by cases o <;> rfl
  rw [hany, hany]
  refine any_offset (fun c hc => ?_) h
  rw [beq_iff_eq.mp hc]
  exact hd

theorem getElem?_offset_eq_some_iff {rest : List Char} (h : rest <:+ text) {d : Char}
    (hd : isAscii d = true) : (encode text)[offset text rest]? = some d ↔ rest.head? = some d := by
  rw [← beq_iff_eq, beq_offset h hd, beq_iff_eq]

theorem getElem_offset_eq_iff {c d : Char} {cs : List Char} (h : c :: cs <:+ text)
    (hd : isAscii d = true) (hlt : offset text (c :: cs) < (encode text).length) :
    (encode text)[offset text (c :: cs)] = d ↔ c = d := by
  have hget := getElem?_offset_eq_some_iff h hd
  rw [List.getElem?_eq_getElem hlt, List.head?_cons, Option.some_inj, Option.some_inj] at hget
  exact hget

theorem getElem?_offset_add_one {c d : Char} {cs : List Char} (h : c :: cs <:+ text)
    (hc : isAscii c = true) (hd : isAscii d = true) :
    (encode text)[offset text (c :: cs) + 1]? = some d ↔ cs.head? = some d := by
  rw [offset_cons_of_isAscii h hc, getElem?_offset_eq_some_iff (suffix_of_cons h) hd]

/-! ## Strings -/

theorem isAscii_of_quote {q : Char} (hq : q = '"' ∨ q = '\'') : isAscii q = true := by
  rcases hq with rfl | rfl <;> decide

theorem passes_skipQuoted {q : Char} (hq : isAscii q = true) : Passes text (skipQuoted text q) := by
  intro i hi hascii
  rw [skipQuoted, dif_pos hi, if_neg (ne_of_isAscii hascii (by decide)),
    if_neg (ne_of_isAscii hascii hq)]

/-- Behind a backslash a loop goes on behind the character that it protects. -/
theorem Passes.offset_cons_add_two {α : Type} {f : Nat → α} (hf : Passes text f) {c d : Char}
    {cs : List Char} (h : c :: d :: cs <:+ text) (hc : isAscii c = true) :
    f (offset text (c :: d :: cs) + 2) = f (offset text cs) := by
  have hnext : offset text (c :: d :: cs) + 2 = offset text (d :: cs) + 1 := by
    rw [← offset_cons_of_isAscii h hc]
  rw [hnext, hf.offset_cons_add_one (suffix_of_cons h)]

theorem skipQuoted_of_le {q : Char} {i : Nat} (h : (encode text).length ≤ i) :
    skipQuoted text q i = .error .absent := by
  rw [skipQuoted, dif_neg (Nat.not_lt_of_le h)]

/-- Behind a backslash the character that it protects is passed over, if there is one. -/
theorem skipQuoted_backslash {q : Char} (hq : isAscii q = true) {cs : List Char}
    (h : '\\' :: cs <:+ text)
    (hcs : ∀ rest, rest <:+ cs → skipQuoted text q (offset text rest) =
      found text (closeQuote q rest)) :
    skipQuoted text q (offset text ('\\' :: cs)) = found text (closeQuote q ('\\' :: cs)) := by
  rw [skipQuoted, dif_pos (offset_lt_length h), getElem_offset h (by decide), if_pos rfl,
    closeQuote, close_cons rfl]
  cases cs with
  | nil =>
      have hend : (encode text).length ≤ offset text ['\\'] + 2 := by
        rw [← offset_nil, ← offset_cons_of_isAscii h (by decide)]
        exact Nat.le_succ _
      rw [skipQuoted_of_le hend]
      rfl
  | cons d ds =>
      rw [(passes_skipQuoted hq).offset_cons_add_two h (by decide), hcs ds (List.suffix_cons d ds),
        closeQuote, if_pos rfl, close_cons rfl]

/-- A quoted text is passed over like the machine does it. -/
theorem skipQuoted_offset {q : Char} (hq : q = '"' ∨ q = '\'') {cs : List Char}
    (h : cs <:+ text) : skipQuoted text q (offset text cs) = found text (closeQuote q cs) := by
  have hascii : isAscii q = true := isAscii_of_quote hq
  refine suffix_induction (P := fun cs => skipQuoted text q (offset text cs) =
    found text (closeQuote q cs)) ?_ ?_ h
  · rw [offset_nil, skipQuoted_of_le (Nat.le_refl _)]
    rfl
  intro c cs h hcs
  by_cases hback : c = '\\'
  · subst hback
    exact skipQuoted_backslash hascii h hcs
  by_cases hend : c = q
  · subst hend
    have hstep : step [.quoted c] c = some [] := by simp [step, hback]
    rw [skipQuoted, dif_pos (offset_lt_length h), getElem_offset h hascii, if_neg hback,
      if_pos rfl, closeQuote, close_cons hstep, offset_cons_of_isAscii h hascii, close_nil]
    rfl
  have hstep : step [.quoted q] c = some [.quoted q] := by simp [step, hback, hend]
  rw [closeQuote, close_cons hstep, ← closeQuote, ← hcs cs (List.suffix_refl cs)]
  cases hc : isAscii c with
  | false => exact (passes_skipQuoted hascii).offset_cons h hc
  | true =>
      rw [skipQuoted, dif_pos (offset_lt_length h), getElem_offset h hc, if_neg hback,
        if_neg hend, offset_cons_of_isAscii h hc]

theorem skipString_offset {q : Char} (hq : q = '"' ∨ q = '\'') {cs : List Char}
    (h : q :: cs <:+ text) :
    skipString text (offset text (q :: cs)) = found text (closeQuote q cs) := by
  have hascii : isAscii q = true := isAscii_of_quote hq
  rw [skipString, getElem?_offset h hascii]
  simp only
  rw [offset_cons_of_isAscii h hascii, skipQuoted_offset hq (suffix_of_cons h)]

/-! ## Expressions and templates -/

theorem passes_matchBrace (depth : Nat) : Passes text (matchBrace text depth) := by
  intro i hi hascii
  have hne : ∀ {d : Char}, isAscii d = true → (encode text)[i] ≠ d := ne_of_isAscii hascii
  rw [matchBrace, dif_pos hi, if_neg (not_or.mpr ⟨hne (by decide), hne (by decide)⟩),
    if_neg (hne (by decide)), if_neg (fun h => hne (by decide) h.1),
    if_neg (fun h => hne (by decide) h.1), if_neg (hne (by decide)), if_neg (hne (by decide))]

theorem passes_skipTemplate : Passes text (skipTemplate text) := by
  intro i hi hascii
  have hne : ∀ {d : Char}, isAscii d = true → (encode text)[i] ≠ d := ne_of_isAscii hascii
  rw [skipTemplate, dif_pos hi, if_neg (hne (by decide)), if_neg (hne (by decide)),
    if_neg (fun h => hne (by decide) h.1)]

theorem lineEnd_offset {cs : List Char} (h : cs <:+ text) :
    lineEnd text (offset text cs) = offset text (cs.dropWhile (· ≠ '\n')) := by
  have hpasses : Passes text (lineEnd text) := by
    intro i hi hascii
    rw [lineEnd, dif_pos hi, if_neg (ne_of_isAscii hascii (by decide))]
  induction cs with
  | nil => rw [offset_nil, lineEnd, dif_neg (Nat.lt_irrefl _), List.dropWhile_nil, offset_nil]
  | cons c cs ih =>
      by_cases hc : c = '\n'
      · subst hc
        rw [List.dropWhile_cons_of_neg (by decide), lineEnd, dif_pos (offset_lt_length h),
          getElem_offset h (by decide), if_pos rfl]
      · rw [List.dropWhile_cons_of_pos (by simpa using hc), ← ih (suffix_of_cons h)]
        cases hascii : isAscii c with
        | false => exact hpasses.offset_cons h hascii
        | true =>
            rw [lineEnd, dif_pos (offset_lt_length h), getElem_offset h hascii, if_neg hc,
              offset_cons_of_isAscii h hascii]

theorem matchBrace_open {cs : List Char} (h : '\x7b' :: cs <:+ text) (depth : Nat) :
    matchBrace text depth (offset text ('\x7b' :: cs)) =
      matchBrace text (depth + 1) (offset text cs) := by
  rw [matchBrace, dif_pos (offset_lt_length h), getElem_offset h (by decide),
    if_neg (by decide), if_neg (by decide), if_neg (fun h => absurd h.1 (by decide)),
    if_neg (fun h => absurd h.1 (by decide)), if_pos rfl, offset_cons_of_isAscii h (by decide)]

/-- Expressions and template literals are passed over like the machine does it. -/
structure ScansExpression (text cs : List Char) : Prop where
  expression : ∀ depth, matchBrace text (depth + 1) (offset text cs) =
    foundBefore text (close (braces (depth + 1)) cs)
  template : skipTemplate text (offset text cs) = found text (close [.template false] cs)

section

variable {c : Char} {cs : List Char}

theorem close_braces_cons {s : List Frame} {depth : Nat}
    (h : codeStep false (braces depth) c = s) (cs : List Char) :
    close (braces (depth + 1)) (c :: cs) = close s cs := by
  rw [← h]
  exact close_cons rfl cs

theorem matchBrace_quote (h : c :: cs <:+ text)
    (hcs : ∀ rest, rest <:+ cs → ScansExpression text rest)
    (hc : c = '"' ∨ c = '\'') (depth : Nat) :
    matchBrace text (depth + 1) (offset text (c :: cs)) =
      foundBefore text (close (braces (depth + 1)) (c :: cs)) := by
  have hascii : isAscii c = true := isAscii_of_quote hc
  have hstep : codeStep false (braces depth) c = [.quoted c] ++ braces (depth + 1) := by
    rw [codeStep, if_pos hc]
    rfl
  rw [matchBrace, dif_pos (offset_lt_length h), getElem_offset h hascii, if_pos hc,
    skipString_offset hc h, close_braces_cons hstep, close_stack_append]
  exact bind_found h (fun _ => close_suffix) fun rest hrest => (hcs rest hrest).expression depth

theorem matchBrace_template (h : '\x60' :: cs <:+ text)
    (hcs : ∀ rest, rest <:+ cs → ScansExpression text rest) (depth : Nat) :
    matchBrace text (depth + 1) (offset text ('\x60' :: cs)) =
      foundBefore text (close (braces (depth + 1)) ('\x60' :: cs)) := by
  have hstep : codeStep false (braces depth) '\x60' = [.template false] ++ braces (depth + 1) := rfl
  rw [matchBrace, dif_pos (offset_lt_length h), getElem_offset h (by decide), if_neg (by decide),
    if_pos rfl, offset_cons_of_isAscii h (by decide), (hcs cs (List.suffix_refl _)).template,
    close_braces_cons hstep, close_stack_append]
  exact bind_found h (fun _ => close_suffix) fun rest hrest => (hcs rest hrest).expression depth

theorem matchBrace_lineNote (h : '/' :: '/' :: cs <:+ text)
    (hcs : ∀ rest, rest <:+ cs → ScansExpression text rest) (depth : Nat) :
    matchBrace text (depth + 1) (offset text ('/' :: '/' :: cs)) =
      foundBefore text (close (braces (depth + 1)) ('/' :: '/' :: cs)) := by
  have hnext : (encode text)[offset text ('/' :: '/' :: cs) + 1]? = some '/' :=
    (getElem?_offset_add_one h (by decide) (by decide)).mpr rfl
  have hline : ('/' :: '/' :: cs).dropWhile (· ≠ '\n') = cs.dropWhile (· ≠ '\n') := by
    rw [List.dropWhile_cons_of_pos (by decide), List.dropWhile_cons_of_pos (by decide)]
  have hrest : cs.dropWhile (· ≠ '\n') <:+ cs := List.dropWhile_suffix _
  have hmachine : close (braces (depth + 1)) ('/' :: '/' :: cs) =
      close (.lineNote :: .code false :: braces depth) cs :=
    (close_braces_cons rfl _).trans (close_cons rfl cs)
  rw [matchBrace, dif_pos (offset_lt_length h), getElem_offset h (by decide), if_neg (by decide),
    if_neg (by decide), if_pos ⟨rfl, hnext⟩, lineEnd_offset h, hline,
    if_pos (offset_pos h (hrest.trans (List.suffix_cons _ _))), (hcs _ hrest).expression depth,
    hmachine, close_lineNote, ← braces_succ]

theorem offset_add {rest : List Char} (h : cs <:+ text) {n : Nat}
    (hn : octetLength cs = n + octetLength rest) : offset text cs + n = offset text rest := by
  obtain ⟨front, rfl⟩ := h
  simp only [offset, octetLength_append]
  omega

theorem matchBrace_blockNote (h : '/' :: '*' :: cs <:+ text)
    (hcs : ∀ rest, rest <:+ cs → ScansExpression text rest) (depth : Nat) :
    matchBrace text (depth + 1) (offset text ('/' :: '*' :: cs)) =
      foundBefore text (close (braces (depth + 1)) ('/' :: '*' :: cs)) := by
  have hnext : (encode text)[offset text ('/' :: '*' :: cs) + 1]? = some '*' :=
    (getElem?_offset_add_one h (by decide) (by decide)).mpr rfl
  have hinside : offset text ('/' :: '*' :: cs) + 2 = offset text cs := by
    rw [← offset_cons_of_isAscii (suffix_of_cons h) (by decide),
      ← offset_cons_of_isAscii h (by decide)]
  have hsuffix : cs <:+ text := suffix_of_cons (suffix_of_cons h)
  have hmachine : close (braces (depth + 1)) ('/' :: '*' :: cs) =
      close (.blockNote false :: braces (depth + 1)) cs :=
    (close_braces_cons rfl _).trans (close_cons rfl cs)
  rw [matchBrace, dif_pos (offset_lt_length h), getElem_offset h (by decide), if_neg (by decide),
    if_neg (by decide), if_neg (fun heq => absurd (hnext.symm.trans heq.2) (by decide)),
    if_pos ⟨rfl, hnext⟩, hinside, slice_offset_length hsuffix, hmachine]
  simp only [bind, Except.bind]
  obtain ⟨hnone, hclose⟩ | ⟨p, rest, hsome, hrest, hlength, hclose⟩ :=
    close_blockNote (braces (depth + 1)) cs
  · rw [hnone, hclose]
    rfl
  · rw [hsome, hclose, ← (hcs rest hrest).expression depth, ← offset_add hsuffix hlength]
    rfl

/-- A slash that starts no comment is passed over. -/
theorem matchBrace_slash (h : '/' :: cs <:+ text) (hslash : cs.head? ≠ some '/')
    (hstar : cs.head? ≠ some '*') (hcs : ScansExpression text cs) (depth : Nat) :
    matchBrace text (depth + 1) (offset text ('/' :: cs)) =
      foundBefore text (close (braces (depth + 1)) ('/' :: cs)) := by
  have hnext : ∀ {d : Char}, isAscii d = true → cs.head? ≠ some d →
      (encode text)[offset text ('/' :: cs) + 1]? ≠ some d := fun hd hne heq =>
    hne ((getElem?_offset_add_one h (by decide) hd).mp heq)
  have hpass : close (braces (depth + 1)) ('/' :: cs) = close (braces (depth + 1)) cs :=
    (close_braces_cons rfl cs).trans (close_code_true (braces depth) hslash hstar)
  rw [matchBrace, dif_pos (offset_lt_length h), getElem_offset h (by decide), if_neg (by decide),
    if_neg (by decide), if_neg (fun heq => hnext (by decide) hslash heq.2),
    if_neg (fun heq => hnext (by decide) hstar heq.2), if_neg (by decide), if_neg (by decide),
    offset_cons_of_isAscii h (by decide), hcs.expression depth, hpass]

/-- A closing brace ends the expression or the innermost open brace in it. -/
theorem matchBrace_close (h : '\x7d' :: cs <:+ text) (hcs : ScansExpression text cs)
    (depth : Nat) :
    matchBrace text (depth + 1) (offset text ('\x7d' :: cs)) =
      foundBefore text (close (braces (depth + 1)) ('\x7d' :: cs)) := by
  have hone := offset_cons_of_isAscii h (by decide)
  rw [matchBrace, dif_pos (offset_lt_length h), getElem_offset h (by decide), if_neg (by decide),
    if_neg (by decide), if_neg (fun heq => absurd heq.1 (by decide)),
    if_neg (fun heq => absurd heq.1 (by decide)), if_neg (by decide), if_pos rfl,
    close_braces_cons rfl]
  show (if depth = 0 then .ok (offset text ('\x7d' :: cs))
    else matchBrace text depth (offset text ('\x7d' :: cs) + 1)) =
      foundBefore text (close (braces depth) cs)
  rw [hone]
  cases depth with
  | zero =>
      have hbefore : offset text ('\x7d' :: cs) = offset text cs - 1 := by
        rw [← hone, Nat.add_sub_cancel]
      have hend : close (braces 0) cs = some cs := close_nil cs
      rw [if_pos rfl, hend, hbefore]
      rfl
  | succ d =>
      rw [if_neg (Nat.succ_ne_zero d)]
      exact hcs.expression d

/-- Every other character of an expression is passed over. -/
theorem matchBrace_other (h : c :: cs <:+ text) (hquotes : ¬(c = '"' ∨ c = '\''))
    (hother : c ≠ '\x60' ∧ c ≠ '/' ∧ c ≠ '\x7b' ∧ c ≠ '\x7d') (hcs : ScansExpression text cs)
    (depth : Nat) :
    matchBrace text (depth + 1) (offset text (c :: cs)) =
      foundBefore text (close (braces (depth + 1)) (c :: cs)) := by
  obtain ⟨htick, hslash, hopen, hclose⟩ := hother
  have hstep : codeStep false (braces depth) c = braces (depth + 1) := by
    rw [codeStep, if_neg hquotes, if_neg htick, if_neg hopen, if_neg hclose, if_neg hslash,
      if_neg (fun heq => Bool.false_ne_true heq.2)]
    rfl
  rw [close_braces_cons hstep, ← hcs.expression depth]
  cases hascii : isAscii c with
  | false => exact (passes_matchBrace (depth + 1)).offset_cons h hascii
  | true =>
      rw [matchBrace, dif_pos (offset_lt_length h), getElem_offset h hascii, if_neg hquotes,
        if_neg htick, if_neg (fun heq => hslash heq.1), if_neg (fun heq => hslash heq.1),
        if_neg hopen, if_neg hclose, offset_cons_of_isAscii h hascii]

theorem matchBrace_cons (h : c :: cs <:+ text)
    (hcs : ∀ rest, rest <:+ cs → ScansExpression text rest) (depth : Nat) :
    matchBrace text (depth + 1) (offset text (c :: cs)) =
      foundBefore text (close (braces (depth + 1)) (c :: cs)) := by
  have hself := hcs cs (List.suffix_refl cs)
  by_cases hquotes : c = '"' ∨ c = '\''
  · exact matchBrace_quote h hcs hquotes depth
  by_cases htick : c = '\x60'
  · subst htick
    exact matchBrace_template h hcs depth
  by_cases hslash : c = '/'
  · subst hslash
    cases cs with
    | nil => exact matchBrace_slash h (by simp) (by simp) hself depth
    | cons d ds =>
        have hds : ∀ rest, rest <:+ ds → ScansExpression text rest := fun rest hrest =>
          hcs rest (hrest.trans (List.suffix_cons d ds))
        by_cases hd : d = '/'
        · subst hd
          exact matchBrace_lineNote h hds depth
        by_cases hd' : d = '*'
        · subst hd'
          exact matchBrace_blockNote h hds depth
        · exact matchBrace_slash h (by simpa using hd) (by simpa using hd') hself depth
  by_cases hopen : c = '\x7b'
  · subst hopen
    have hmachine : close (braces (depth + 1)) ('\x7b' :: cs) = close (braces (depth + 2)) cs :=
      close_braces_cons rfl cs
    rw [matchBrace_open h, hself.expression (depth + 1), hmachine]
  by_cases hclose : c = '\x7d'
  · subst hclose
    exact matchBrace_close h hself depth
  · exact matchBrace_other h hquotes ⟨htick, hslash, hopen, hclose⟩ hself depth

theorem findBrace_of_scans (h : '\x7b' :: cs <:+ text) (hcs : ScansExpression text cs) :
    findBrace text (offset text ('\x7b' :: cs)) = foundBefore text (closeBrace cs) := by
  rw [findBrace, getElem?_offset h (by decide), if_pos rfl, matchBrace_open h, hcs.expression 0]
  rfl

/-- In a template, `$` and a brace start an expression, and other characters stand for
themselves. -/
theorem skipTemplate_dollar (h : '$' :: cs <:+ text)
    (hcs : ∀ rest, rest <:+ cs → ScansExpression text rest) :
    skipTemplate text (offset text ('$' :: cs)) =
      found text (close [.template false] ('$' :: cs)) := by
  have hnext := getElem?_offset_add_one h (d := '\x7b') (by decide) (by decide)
  rw [skipTemplate, dif_pos (offset_lt_length h), getElem_offset h (by decide), if_neg (by decide),
    if_neg (by decide), offset_cons_of_isAscii h (by decide), close_cons rfl]
  show _ = found text (close [.template true] cs)
  by_cases hopen : cs.head? = some '\x7b'
  · obtain ⟨ds, rfl⟩ : ∃ ds, cs = '\x7b' :: ds := by
      cases cs with
      | nil => cases hopen
      | cons d ds => cases hopen; exact ⟨ds, rfl⟩
    have hsuffix := suffix_of_cons h
    have hds := hcs ds (List.suffix_cons _ ds)
    have hget := (getElem?_offset_eq_some_iff hsuffix (by decide)).mpr hopen
    rw [if_pos ⟨rfl, hget⟩, matchBrace_open hsuffix, hds.expression 0, close_cons rfl]
    show _ = found text (close ([.code false] ++ [.template false]) ds)
    rw [close_stack_append]
    refine bind_foundBefore h ?_ fun rest hrest => (hcs rest hrest).template
    exact fun rest hrest => (close_suffix hrest).trans (List.suffix_cons _ ds)
  · have hget : ¬(encode text)[offset text cs]? = some '\x7b' := fun heq =>
      hopen ((getElem?_offset_eq_some_iff (suffix_of_cons h) (by decide)).mp heq)
    rw [if_neg (fun heq => hget heq.2), (hcs cs (List.suffix_refl cs)).template,
      close_template_true [] hopen]

theorem skipTemplate_cons (h : c :: cs <:+ text)
    (hcs : ∀ rest, rest <:+ cs → ScansExpression text rest) :
    skipTemplate text (offset text (c :: cs)) = found text (close [.template false] (c :: cs)) := by
  have hself := (hcs cs (List.suffix_refl cs)).template
  by_cases hback : c = '\\'
  · subst hback
    rw [skipTemplate, dif_pos (offset_lt_length h), getElem_offset h (by decide), if_pos rfl,
      close_cons rfl]
    show _ = found text (close [.escaped, .template false] cs)
    cases cs with
    | nil =>
        have hend : (encode text).length ≤ offset text ['\\'] + 2 := by
          rw [← offset_nil, ← offset_cons_of_isAscii h (by decide)]
          exact Nat.le_succ _
        rw [skipTemplate, dif_neg (Nat.not_lt_of_le hend)]
        rfl
    | cons d ds =>
        rw [passes_skipTemplate.offset_cons_add_two h (by decide),
          (hcs ds (List.suffix_cons d ds)).template, close_cons rfl]
  by_cases htick : c = '\x60'
  · subst htick
    rw [skipTemplate, dif_pos (offset_lt_length h), getElem_offset h (by decide),
      if_neg (by decide), if_pos rfl, offset_cons_of_isAscii h (by decide), close_cons rfl]
    show _ = found text (close [] cs)
    rw [close_nil]
    rfl
  by_cases hdollar : c = '$'
  · subst hdollar
    exact skipTemplate_dollar h hcs
  · have hstep : step [.template false] c = some [.template false] := by
      simp [step, templateStep, hback, htick, hdollar]
    rw [close_cons hstep, ← hself]
    cases hascii : isAscii c with
    | false => exact passes_skipTemplate.offset_cons h hascii
    | true =>
        rw [skipTemplate, dif_pos (offset_lt_length h), getElem_offset h hascii, if_neg hback,
          if_neg htick, if_neg (fun heq => hdollar heq.1), offset_cons_of_isAscii h hascii]

end

/-- **Expressions and template literals in one another are passed over like the machine
does it**, and no range or count in them goes wrong. -/
theorem scan_expression {cs : List Char} (h : cs <:+ text) : ScansExpression text cs := by
  -- What is scanned behind a character is shorter, whichever of the two it is.
  refine suffix_induction ?_ ?_ h
  · constructor
    · intro depth
      rw [offset_nil, matchBrace, dif_neg (Nat.lt_irrefl _)]
      rfl
    · rw [offset_nil, skipTemplate, dif_neg (Nat.lt_irrefl _)]
      rfl
  · intro c cs h hcs
    exact ⟨matchBrace_cons h hcs, skipTemplate_cons h hcs⟩

theorem findBrace_offset {cs : List Char} (h : '\x7b' :: cs <:+ text) :
    findBrace text (offset text ('\x7b' :: cs)) = foundBefore text (closeBrace cs) :=
  findBrace_of_scans h (scan_expression (suffix_of_cons h))

/-! ## Tags -/

theorem passes_tagEnd : Passes text (tagEnd text) := by
  intro i hi hascii
  have hne : ∀ {d : Char}, isAscii d = true → (encode text)[i] ≠ d := ne_of_isAscii hascii
  rw [tagEnd, dif_pos hi, if_neg (not_or.mpr ⟨hne (by decide), hne (by decide)⟩),
    if_neg (hne (by decide)), if_neg (hne (by decide)), if_neg (hne (by decide))]

theorem tagEnd_cons {c : Char} {cs : List Char} (h : c :: cs <:+ text)
    (hcs : ∀ rest, rest <:+ cs → tagEnd text (offset text rest) = found text (closeTag rest)) :
    tagEnd text (offset text (c :: cs)) = found text (closeTag (c :: cs)) := by
  by_cases hquotes : c = '"' ∨ c = '\''
  · have hascii : isAscii c = true := isAscii_of_quote hquotes
    rw [tagEnd, dif_pos (offset_lt_length h), getElem_offset h hascii, if_pos hquotes,
      skipString_offset hquotes h, closeTag_quote hquotes]
    exact bind_found h (fun _ => close_suffix) hcs
  by_cases hopen : c = '\x7b'
  · subst hopen
    rw [tagEnd, dif_pos (offset_lt_length h), getElem_offset h (by decide), if_neg (by decide),
      if_pos rfl, findBrace_offset h, closeTag_brace]
    exact bind_foundBefore h (fun _ => close_suffix) hcs
  by_cases hgt : c = '>'
  · subst hgt
    rw [tagEnd, dif_pos (offset_lt_length h), getElem_offset h (by decide), if_neg (by decide),
      if_neg (by decide), if_pos rfl, offset_cons_of_isAscii h (by decide), closeTag_gt]
    rfl
  by_cases hlt : c = '<'
  · subst hlt
    rw [tagEnd, dif_pos (offset_lt_length h), getElem_offset h (by decide), if_neg (by decide),
      if_neg (by decide), if_neg (by decide), if_pos rfl]
    rfl
  have hmarks : c ∉ tagMarks := by
    rw [not_or] at hquotes
    simp [tagMarks, hquotes, hopen, hgt, hlt]
  rw [closeTag_cons hmarks, ← hcs cs (List.suffix_refl cs)]
  cases hascii : isAscii c with
  | false => exact passes_tagEnd.offset_cons h hascii
  | true =>
      rw [tagEnd, dif_pos (offset_lt_length h), getElem_offset h hascii, if_neg hquotes,
        if_neg hopen, if_neg hgt, if_neg hlt, offset_cons_of_isAscii h hascii]

/-- **A tag is passed over like the machine does it.** -/
theorem tagEnd_offset {cs : List Char} (h : cs <:+ text) :
    tagEnd text (offset text cs) = found text (closeTag cs) := by
  refine suffix_induction (P := fun cs => tagEnd text (offset text cs) =
    found text (closeTag cs)) ?_ (fun c cs => tagEnd_cons) h
  rw [offset_nil, tagEnd, dif_neg (Nat.lt_irrefl _)]
  rfl

end Tandem.Octet
