import Mathlib.Data.List.Induction
import Tandem.Markup.Bracket

/-!
# Reading a piece of text with the bracket machine

Only the top of the stack decides what a character does, so what is read over one
stack is read in the same way over a longer one, whatever follows
(`leads_of_close`), and what was open is closed by its own closing character (`close_ends`).
A text that takes one stack to another is described by `Leads`, and such texts compose.
-/

namespace Tandem.Markup

/-! ## The top of the stack decides -/

theorem codeStep_append (slash : Bool) (below extra : List Frame) (c : Char) :
    codeStep slash (below ++ extra) c = codeStep slash below c ++ extra := by
  unfold codeStep
  repeat' split
  all_goals rfl

theorem templateStep_append (dollar : Bool) (below extra : List Frame) (c : Char) :
    templateStep dollar (below ++ extra) c = templateStep dollar below c ++ extra := by
  unfold templateStep
  repeat' split
  all_goals rfl

theorem tagStep_append (below extra : List Frame) (c : Char) :
    tagStep (below ++ extra) c = (tagStep below c).map (· ++ extra) := by
  unfold tagStep
  repeat' split
  all_goals rfl

theorem step_append (f : Frame) (below extra : List Frame) (c : Char) :
    step (f :: below ++ extra) c = (step (f :: below) c).map (· ++ extra) := by
  cases f with
  | code slash => exact congrArg some (codeStep_append slash below extra c)
  | template dollar => exact congrArg some (templateStep_append dollar below extra c)
  | tag => exact tagStep_append below extra c
  | escaped => rfl
  | quoted q =>
      simp only [step, List.cons_append]
      repeat' split
      all_goals rfl
  | lineNote =>
      simp only [step, List.cons_append]
      split <;> rfl
  | blockNote star =>
      simp only [step, List.cons_append]
      split <;> rfl

theorem close_nil (cs : List Char) : close [] cs = some cs := by rw [close]

theorem close_cons {f : Frame} {below : List Frame} {c : Char} {s : List Frame}
    (h : step (f :: below) c = some s) (cs : List Char) :
    close (f :: below) (c :: cs) = close s cs := by
  rw [close, h]

/-- Over a longer stack the machine goes on with the rest. -/
theorem close_stack_append (s t : List Frame) (cs : List Char) :
    close (s ++ t) cs = (close s cs).bind (close t) := by
  induction cs generalizing s with
  | nil =>
      cases s with
      | nil => cases t <;> rfl
      | cons f below => rfl
  | cons c cs ih =>
      cases s with
      | nil =>
          rw [List.nil_append]
          cases t <;> rfl
      | cons f below =>
          rw [List.cons_append, close, close, ← List.cons_append, step_append]
          cases step (f :: below) c with
          | none => rfl
          | some stack => exact ih stack

/-- A text after which nothing is open is read over any stack, and what follows it is
read over what was below. -/
theorem close_append {stack : List Frame} {cs : List Char} (h : close stack cs = some [])
    (below : List Frame) (rest : List Char) :
    close (stack ++ below) (cs ++ rest) = close below rest := by
  induction cs generalizing stack with
  | nil =>
      cases stack with
      | nil => rfl
      | cons f s => cases h
  | cons c cs ih =>
      cases stack with
      | nil => cases h
      | cons f s =>
          rw [close] at h
          rw [List.cons_append, List.cons_append, close, ← List.cons_append, step_append]
          cases hstep : step (f :: s) c with
          | none => rw [hstep] at h; cases h
          | some s' =>
              rw [hstep] at h
              exact ih h

/-! ## The machine on a part of the text -/

/-- What is read is a text of its own that leaves nothing open. -/
theorem close_split {stack : List Frame} {cs rest : List Char} (h : close stack cs = some rest) :
    ∃ front, cs = front ++ rest ∧ close stack front = some [] := by
  induction cs generalizing stack with
  | nil =>
      cases stack with
      | nil =>
          cases h
          exact ⟨[], rfl, rfl⟩
      | cons f below => cases h
  | cons c cs ih =>
      cases stack with
      | nil =>
          cases h
          exact ⟨[], rfl, rfl⟩
      | cons f below =>
          rw [close] at h
          cases hstep : step (f :: below) c with
          | none => rw [hstep] at h; cases h
          | some stack =>
              rw [hstep] at h
              obtain ⟨front, hfront, hclose⟩ := ih h
              refine ⟨c :: front, by rw [hfront, List.cons_append], ?_⟩
              rw [close, hstep]
              exact hclose

/-- What is read is read in the same way in front of more text. -/
theorem close_append_right {stack : List Frame} {cs rest : List Char}
    (h : close stack cs = some rest) (more : List Char) :
    close stack (cs ++ more) = some (rest ++ more) := by
  obtain ⟨front, rfl, hfront⟩ := close_split h
  have hend := close_append hfront [] (rest ++ more)
  rw [List.append_nil, close] at hend
  rw [List.append_assoc, hend]

/-- A text up to the end of what was read leaves nothing open. -/
theorem close_of_close_append {stack : List Frame} {front rest : List Char}
    (h : close stack (front ++ rest) = some rest) : close stack front = some [] := by
  obtain ⟨front', hfront, hclose⟩ := close_split h
  rwa [List.append_cancel_right hfront]

/-! ## Slashes, dollar signs and comments -/

/-- A slash that starts no comment is a character like any other. -/
theorem close_code_true (below : List Frame) {cs : List Char} (hslash : cs.head? ≠ some '/')
    (hstar : cs.head? ≠ some '*') :
    close (.code true :: below) cs = close (.code false :: below) cs := by
  cases cs with
  | nil => rfl
  | cons c cs =>
      have hc : c ≠ '/' := fun h => hslash (h ▸ rfl)
      have hc' : c ≠ '*' := fun h => hstar (h ▸ rfl)
      have hstep : codeStep true below c = codeStep false below c := by
        simp [codeStep, hc, hc']
      rw [close, close, step, step, hstep]

theorem close_template_true (below : List Frame) {cs : List Char} (h : cs.head? ≠ some '\x7b') :
    close (.template true :: below) cs = close (.template false :: below) cs := by
  cases cs with
  | nil => rfl
  | cons c cs =>
      have hc : c ≠ '\x7b' := fun heq => h (heq ▸ rfl)
      have hstep : templateStep true below c = templateStep false below c := by
        simp [templateStep, hc]
      rw [close, close, step, step, hstep]

theorem close_blockNote_true (below : List Frame) {cs : List Char} (h : cs.head? ≠ some '/') :
    close (.blockNote true :: below) cs = close (.blockNote false :: below) cs := by
  cases cs with
  | nil => rfl
  | cons c cs =>
      have hc : c ≠ '/' := fun heq => h (heq ▸ rfl)
      simp [close, step, hc]

/-- A line comment ends in front of its line break as well as behind it. -/
theorem close_lineNote (below : List Frame) (cs : List Char) :
    close (.lineNote :: .code false :: below) cs =
      close (.code false :: below) (cs.dropWhile (· ≠ '\n')) := by
  induction cs with
  | nil => rfl
  | cons c cs ih =>
      by_cases hc : c = '\n'
      · subst hc
        rw [List.dropWhile_cons_of_neg (by decide)]
        exact (close_cons rfl cs).trans (close_cons rfl cs).symm
      · have hstep : step (.lineNote :: .code false :: below) c =
            some (.lineNote :: .code false :: below) := by simp [step, hc]
        rw [List.dropWhile_cons_of_pos (by simpa using hc), close_cons hstep, ih]

/-- A comment goes on behind a character that does not start its end. -/
theorem close_blockNote_cons (below : List Frame) {c : Char} {cs : List Char}
    (h : ¬(c = '*' ∧ cs.head? = some '/')) :
    close (.blockNote false :: below) (c :: cs) = close (.blockNote false :: below) cs := by
  by_cases hc : c = '*'
  · have hstep : step (.blockNote false :: below) c = some (.blockNote true :: below) := by
      rw [hc]
      rfl
    rw [close_cons hstep, close_blockNote_true below fun hnext => h ⟨hc, hnext⟩]
  · have hstep : step (.blockNote false :: below) c = some (.blockNote false :: below) := by
      simp [step, hc]
    exact close_cons hstep cs

/-! ## Tags -/

/-- A character of a class is not among others. -/
theorem not_mem_of_class {p : Char → Bool} {others : List Char}
    (hp : others.all (fun d => !p d) = true) {c : Char} (hc : p c = true) : c ∉ others := by
  intro hmem
  have hnot := List.all_eq_true.mp hp c hmem
  rw [hc] at hnot
  cases hnot

/-- The characters that have a meaning wherever they stand in a tag. -/
def tagMarks : List Char := ['"', '\'', '\x7b', '>', '<']

theorem step_tag_of_not_mem {c : Char} (h : c ∉ tagMarks) (below : List Frame) :
    step (.tag :: below) c = some (.tag :: below) := by
  simp only [tagMarks, List.mem_cons, List.not_mem_nil, or_false, not_or] at h
  obtain ⟨h1, h2, h3, h4, h5⟩ := h
  simp [step, tagStep, h1, h2, h3, h4, h5]

theorem closeTag_cons {c : Char} (h : c ∉ tagMarks) (cs : List Char) :
    closeTag (c :: cs) = closeTag cs :=
  close_cons (step_tag_of_not_mem h []) cs

theorem closeTag_quote {c : Char} (hc : c = '"' ∨ c = '\'') (cs : List Char) :
    closeTag (c :: cs) = (closeQuote c cs).bind closeTag := by
  have hstep : step [.tag] c = some ([.quoted c] ++ [.tag]) := by
    rw [step, tagStep, if_pos hc]
    rfl
  rw [closeTag, close_cons hstep, close_stack_append]
  rfl

theorem closeTag_brace (cs : List Char) :
    closeTag ('\x7b' :: cs) = (closeBrace cs).bind closeTag := by
  have hstep : step [.tag] '\x7b' = some ([.code false] ++ [.tag]) := rfl
  rw [closeTag, close_cons hstep, close_stack_append]
  rfl

theorem closeTag_gt (cs : List Char) : closeTag ('>' :: cs) = some cs :=
  (close_cons rfl cs).trans (close_nil cs)

/-! ## Open braces -/

/-- The stack of an expression with `depth` open braces. -/
def braces (depth : Nat) : List Frame := List.replicate depth (.code false)

theorem braces_succ (depth : Nat) : braces (depth + 1) = .code false :: braces depth := rfl

/-! ## Closing characters -/

/-- What is open at the bottom of the stack is closed by its closing character. -/
theorem close_ends {P : Frame → Prop} {q : Char}
    (hP : ∀ f c stack, P f → step [f] c = some stack →
      (stack = [] ∧ c = q) ∨ ∃ s g, stack = s ++ [g] ∧ P g)
    {s : List Frame} {f : Frame} (hf : P f) {cs rest : List Char}
    (h : close (s ++ [f]) cs = some rest) : ∃ body, cs = body ++ q :: rest := by
  induction cs generalizing s f with
  | nil => cases s <;> cases h
  | cons c cs ih =>
      have hcons : ∀ {stack s g}, stack = s ++ [g] → P g → close stack cs = some rest →
          ∃ body, c :: cs = body ++ q :: rest := by
        rintro stack s g rfl hg hclose
        obtain ⟨body, rfl⟩ := ih hg hclose
        exact ⟨c :: body, rfl⟩
      cases s with
      | nil =>
          rw [List.nil_append, close] at h
          cases hstep : step [f] c with
          | none => rw [hstep] at h; cases h
          | some stack =>
              rw [hstep] at h
              obtain ⟨rfl, rfl⟩ | ⟨s, g, hstack, hg⟩ := hP f c stack hf hstep
              · have hend : some cs = some rest := (close_nil cs).symm.trans h
                cases hend
                exact ⟨[], rfl⟩
              · exact hcons hstack hg h
      | cons g s =>
          rw [List.cons_append, close, ← List.cons_append, step_append] at h
          cases hstep : step (g :: s) c with
          | none => rw [hstep] at h; cases h
          | some stack =>
              rw [hstep] at h
              exact hcons rfl hf h

theorem closeQuote_ends {q : Char} {cs rest : List Char} (h : closeQuote q cs = some rest) :
    ∃ body, cs = body ++ q :: rest := by
  refine close_ends (P := (· = .quoted q)) ?_ (s := []) rfl h
  rintro f c stack rfl hstep
  simp only [step, Option.some.injEq] at hstep
  split at hstep
  next => exact .inr ⟨[.escaped], .quoted q, hstep.symm, rfl⟩
  next =>
    split at hstep
    next hc => exact .inl ⟨hstep.symm, hc⟩
    next => exact .inr ⟨[], .quoted q, hstep.symm, rfl⟩

theorem closeBrace_ends {cs rest : List Char} (h : closeBrace cs = some rest) :
    ∃ body, cs = body ++ '\x7d' :: rest := by
  refine close_ends (P := fun f => ∃ slash, f = .code slash) ?_ (s := []) ⟨false, rfl⟩ h
  rintro f c stack ⟨slash, rfl⟩ hstep
  have hstack : codeStep slash [] c = stack := Option.some.inj hstep
  by_cases hc : c = '\x7d'
  · subst hc
    exact .inl ⟨hstack.symm, rfl⟩
  · -- Whatever else the character opens, it opens it over the expression.
    right
    rw [← hstack]
    unfold codeStep
    repeat' split
    all_goals first
      | exact absurd ‹c = '\x7d'› hc
      | exact ⟨[_], .code false, rfl, false, rfl⟩
      | exact ⟨[], .code _, rfl, _, rfl⟩

theorem closeTag_ends {cs rest : List Char} (h : closeTag cs = some rest) :
    ∃ body, cs = body ++ '>' :: rest := by
  refine close_ends (P := (· = .tag)) ?_ (s := []) rfl h
  rintro f c stack rfl hstep
  have hstack : tagStep [] c = some stack := hstep
  unfold tagStep at hstack
  split at hstack
  next => cases hstack; exact .inr ⟨[_], .tag, rfl, rfl⟩
  split at hstack
  next => cases hstack; exact .inr ⟨[_], .tag, rfl, rfl⟩
  split at hstack
  next hc => cases hstack; exact .inl ⟨rfl, hc⟩
  split at hstack
  next => cases hstack
  next => cases hstack; exact .inr ⟨[], .tag, rfl, rfl⟩

/-! ## Texts that take one stack to another -/

/-- The text takes one stack to another, whatever follows it. -/
def Leads (s s' : List Frame) (cs : List Char) : Prop :=
  ∀ rest, close s (cs ++ rest) = close s' rest

theorem Leads.nil (s : List Frame) : Leads s s [] := fun _ => rfl

theorem Leads.append {s t u : List Frame} {a b : List Char} (ha : Leads s t a)
    (hb : Leads t u b) : Leads s u (a ++ b) := by
  intro rest
  rw [List.append_assoc, ha, hb]

theorem leads_singleton {f : Frame} {s s' : List Frame} {c : Char}
    (h : step (f :: s) c = some s') : Leads (f :: s) s' [c] := by
  intro rest
  rw [List.singleton_append, close, h]

theorem Leads.cons {f : Frame} {s t u : List Frame} {c : Char} {cs : List Char}
    (h : step (f :: s) c = some t) (hcs : Leads t u cs) : Leads (f :: s) u (c :: cs) :=
  (leads_singleton h).append hcs

theorem leads_self {f : Frame} {s : List Frame} {cs : List Char}
    (h : ∀ c ∈ cs, step (f :: s) c = some (f :: s)) : Leads (f :: s) (f :: s) cs := by
  induction cs with
  | nil => exact Leads.nil _
  | cons c cs ih =>
      exact .cons (h c List.mem_cons_self) (ih fun d hd => h d (List.mem_cons_of_mem _ hd))

theorem leads_of_close {stack : List Frame} {cs : List Char} (h : close stack cs = some [])
    (below : List Frame) : Leads (stack ++ below) below cs :=
  close_append h below

/-- A text that empties the stack ends what was open, and what follows is the rest. -/
theorem Leads.close {s : List Frame} {cs : List Char} (h : Leads s [] cs) (rest : List Char) :
    close s (cs ++ rest) = some rest := by
  rw [h, Markup.close]

/-! ## Quoted values -/

/-- How many backslashes the text ends in. -/
def backslashes (cs : List Char) : Nat := (cs.reverse.takeWhile (· == '\\')).length

theorem backslashes_concat (cs : List Char) (c : Char) :
    backslashes (cs ++ [c]) = if c = '\\' then backslashes cs + 1 else 0 := by
  rw [backslashes, List.reverse_append, List.reverse_singleton, List.singleton_append,
    List.takeWhile_cons]
  by_cases h : c = '\\'
  · simp [h, backslashes]
  · simp [h]

theorem backslashes_eq_zero {cs : List Char} (h : '\\' ∉ cs) : backslashes cs = 0 := by
  cases cs using List.reverseRecOn with
  | nil => rfl
  | append_singleton cs c =>
      have hc : c ≠ '\\' := fun heq => h (by simp [heq])
      rw [backslashes_concat, if_neg hc]

/-- Inside quotes, a text without the quote protects the character behind it exactly if
it ends in an odd run of backslashes. -/
theorem leads_quoted {q : Char} {cs : List Char} (hq : q ∉ cs) (below : List Frame) :
    Leads (.quoted q :: below)
      (if backslashes cs % 2 = 1 then .escaped :: .quoted q :: below else .quoted q :: below)
      cs := by
  induction cs using List.reverseRecOn with
  | nil => exact Leads.nil _
  | append_singleton cs c ih =>
      have hc : c ≠ q := fun h => hq (by simp [h])
      refine (ih fun h => hq (List.mem_append_left _ h)).append ?_
      rw [backslashes_concat]
      by_cases hodd : backslashes cs % 2 = 1
      · -- The run protects `c`, so it ends there even if `c` is a backslash.
        have heven : ¬(if c = '\\' then backslashes cs + 1 else 0) % 2 = 1 := by
          split <;> omega
        rw [if_pos hodd, if_neg heven]
        exact leads_singleton rfl
      · rw [if_neg hodd]
        by_cases hb : c = '\\'
        · have hnext : (backslashes cs + 1) % 2 = 1 := by omega
          rw [if_pos hb, if_pos hnext, hb]
          exact leads_singleton rfl
        · rw [if_neg hb, if_neg (by decide)]
          exact leads_singleton (by simp [step, hb, hc])

/-- A quoted value ends at its closing quote if it has no quote in it and does not end in
an odd run of backslashes. -/
theorem leads_closeQuote {q : Char} {cs : List Char} (hq : q ∉ cs) (hslash : q ≠ '\\')
    (heven : backslashes cs % 2 = 0) (below : List Frame) :
    Leads (.quoted q :: below) below (cs ++ [q]) := by
  have h := leads_quoted hq below
  rw [if_neg (by omega)] at h
  exact h.append (leads_singleton (by simp [step, hslash]))

end Tandem.Markup
