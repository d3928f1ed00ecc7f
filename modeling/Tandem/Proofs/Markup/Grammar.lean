import Tandem.Proofs.Markup.Bracket

/-!
# The grammar of expressions in braces

What stands between a brace and the one that closes it is a sequence of items: strings, template
literals, comments, expressions in braces of their own, and characters that start none of these.
`Inside` says so for everything that can be open, without a stack. It is what the bracket machine
reads:

* **one character** — `close_other` for those that start nothing, and a step of the machine for
  each of the others;
* **completeness** — `Inside.close_eq`, by induction on how the text is made up;
* **soundness** — `inside_of_close`, by induction on its length, for what an item leaves is
  shorter, whatever the item is.

Together, `close_eq_some_iff`: the machine ends where the grammar does. As the machine has one
answer, a text starts with one block at most (`Block.eq_of_append_eq`).
-/

namespace Tandem.Markup

/-! ## The grammar -/

/-- What can be open inside an expression. -/
inductive Opener where
  | brace | backtick | double | single
  deriving DecidableEq

namespace Opener

/-- The character that opens it. -/
def char : Opener → Char
  | brace => '\x7b'
  | backtick => '\x60'
  | double => '"'
  | single => '\''

/-- The character that closes it. -/
def closer : Opener → Char
  | brace => '\x7d'
  | o => o.char

/-- Inside of what is open, the character in front of `next` starts more than itself. -/
def Starts : Opener → (c : Char) → (next : Option Char) → Prop
  | brace, c, next =>
    (∃ o : Opener, c = o.char) ∨ (c = '/' ∧ (next = some '/' ∨ next = some '*'))
  | backtick, c, next => c = '\\' ∨ (c = '$' ∧ next = some '\x7b')
  | _, c, _ => c = '\\'

end Opener

/-- The text behind an opening character, up to the character that closes it. -/
inductive Inside : Opener → List Char → Prop
  | close (o : Opener) : Inside o [o.closer]
  /-- In strings and templates a backslash takes the next character with it. -/
  | pair {o : Opener} {cs : List Char} (ho : o ≠ .brace) (c : Char) (h : Inside o cs) :
      Inside o ('\\' :: c :: cs)
  /-- A string, a template literal or an expression in braces. -/
  | item {o : Opener} {inside cs : List Char} (hinside : Inside o inside)
      (h : Inside .brace cs) : Inside .brace (o.char :: (inside ++ cs))
  /-- An expression in a template literal. -/
  | substitution {inside cs : List Char} (hinside : Inside .brace inside)
      (h : Inside .backtick cs) : Inside .backtick ('$' :: '\x7b' :: (inside ++ cs))
  | lineNote {body cs : List Char} (hbody : '\n' ∉ body) (h : Inside .brace cs) :
      Inside .brace ('/' :: '/' :: (body ++ '\n' :: cs))
  /-- A comment up to the first star and slash in it. -/
  | blockNote {body cs : List Char} (hbody : ¬['*', '/'] <:+: body ++ ['*'])
      (h : Inside .brace cs) : Inside .brace ('/' :: '*' :: (body ++ '*' :: '/' :: cs))
  | other {o : Opener} {c : Char} {cs : List Char} (hclose : c ≠ o.closer)
      (hstart : ¬o.Starts c cs.head?) (h : Inside o cs) : Inside o (c :: cs)

/-- An expression with its braces. -/
def Block (cs : List Char) : Prop := ∃ inside, cs = '\x7b' :: inside ∧ Inside .brace inside

/-! ## One character -/

/-- The machine's name for what is open. -/
def Opener.frame : Opener → Frame
  | brace => .code false
  | backtick => .template false
  | double => .quoted '"'
  | single => .quoted '\''

theorem close_closer (o : Opener) (cs : List Char) :
    close [o.frame] (o.closer :: cs) = some cs := by
  have hstep : step [o.frame] o.closer = some [] := by cases o <;> rfl
  rw [close_cons hstep, close_nil]

theorem close_pair {o : Opener} (ho : o ≠ .brace) (c : Char) (cs : List Char) :
    close [o.frame] ('\\' :: c :: cs) = close [o.frame] cs := by
  have hstep : step [o.frame] '\\' = some [.escaped, o.frame] := by
    cases o with
    | brace => exact absurd rfl ho
    | backtick => rfl
    | double => rfl
    | single => rfl
  rw [close_cons hstep, close_cons rfl]

theorem close_item (o : Opener) (cs : List Char) :
    close [Opener.brace.frame] (o.char :: cs) = close ([o.frame] ++ [Opener.brace.frame]) cs := by
  have hstep : step [.code false] o.char = some ([o.frame] ++ [.code false]) := by
    cases o <;> rfl
  exact close_cons hstep cs

theorem close_substitution (cs : List Char) :
    close [Opener.backtick.frame] ('$' :: '\x7b' :: cs) =
      close ([Opener.brace.frame] ++ [Opener.backtick.frame]) cs :=
  (close_cons rfl _).trans (close_cons rfl cs)

theorem close_slashes (cs : List Char) :
    close [Opener.brace.frame] ('/' :: '/' :: cs) =
      close [Opener.brace.frame] (cs.dropWhile (· ≠ '\n')) :=
  (close_cons rfl _).trans ((close_cons rfl cs).trans (close_lineNote [] cs))

theorem close_slash_star (cs : List Char) :
    close [Opener.brace.frame] ('/' :: '*' :: cs) =
      close [.blockNote false, Opener.brace.frame] cs :=
  (close_cons rfl _).trans (close_cons rfl cs)

/-- The machine passes over a character that neither closes nor starts anything. -/
theorem close_other {o : Opener} {c : Char} {cs : List Char} (hclose : c ≠ o.closer)
    (hstart : ¬o.Starts c cs.head?) : close [o.frame] (c :: cs) = close [o.frame] cs := by
  cases o with
  | brace =>
      obtain ⟨hopen, hnote⟩ := not_or.mp hstart
      have hne : ∀ o : Opener, c ≠ o.char := not_exists.mp hopen
      have hbacktick : c ≠ '\x60' := hne .backtick
      have hopening : c ≠ '\x7b' := hne .brace
      have hclosing : c ≠ '\x7d' := hclose
      have hquotes : ¬(c = '"' ∨ c = '\'') := not_or.mpr ⟨hne .double, hne .single⟩
      by_cases hslash : c = '/'
      · have hstep : step [.code false] c = some [.code true] := by
          rw [hslash]
          rfl
        obtain ⟨hline, hblock⟩ := not_or.mp fun h => hnote ⟨hslash, h⟩
        exact (close_cons hstep cs).trans (close_code_true [] hline hblock)
      · have hstep : step [.code false] c = some [.code false] := by
          simp [step, codeStep, hquotes, hbacktick, hopening, hclosing, hslash]
        exact close_cons hstep cs
  | backtick =>
      obtain ⟨hback, hdollar⟩ := not_or.mp hstart
      have hbacktick : c ≠ '\x60' := hclose
      by_cases hc : c = '$'
      · have hstep : step [.template false] c = some [.template true] := by
          rw [hc]
          rfl
        exact (close_cons hstep cs).trans (close_template_true [] fun h => hdollar ⟨hc, h⟩)
      · have hstep : step [.template false] c = some [.template false] := by
          simp [step, templateStep, hback, hbacktick, hc]
        exact close_cons hstep cs
  | double =>
      have hback : c ≠ '\\' := hstart
      have hquote : c ≠ '"' := hclose
      have hstep : step [.quoted '"'] c = some [.quoted '"'] := by simp [step, hback, hquote]
      exact close_cons hstep cs
  | single =>
      have hback : c ≠ '\\' := hstart
      have hquote : c ≠ '\'' := hclose
      have hstep : step [.quoted '\''] c = some [.quoted '\''] := by simp [step, hback, hquote]
      exact close_cons hstep cs

/-! ## Comments -/

/-- A star in front of what a comment still holds ends it if a slash is next. -/
theorem ends_comment_iff {c : Char} {body cs : List Char} :
    (c = '*' ∧ (body ++ '*' :: cs).head? = some '/') ↔ ['*', '/'] <+: c :: (body ++ ['*']) := by
  cases body with
  | nil => simp [List.cons_prefix_cons]
  | cons d ds => simp [List.cons_prefix_cons, eq_comm]

/-- A comment is passed over up to its first star and slash. -/
theorem close_blockNote_body (below : List Frame) {body : List Char}
    (hbody : ¬['*', '/'] <:+: body ++ ['*']) (cs : List Char) :
    close (.blockNote false :: below) (body ++ '*' :: '/' :: cs) = close below cs := by
  induction body with
  | nil => exact (close_cons rfl _).trans (close_cons rfl _)
  | cons c body ih =>
      rw [List.cons_append, List.infix_cons_iff, not_or, ← ends_comment_iff] at hbody
      rw [List.cons_append, close_blockNote_cons below hbody.1, ih hbody.2]

/-- A comment that is closed has a first star and slash. -/
theorem exists_blockNote_body {below : List Frame} {cs rest : List Char}
    (h : close (.blockNote false :: below) cs = some rest) :
    ∃ body behind, cs = body ++ '*' :: '/' :: behind ∧ ¬['*', '/'] <:+: body ++ ['*'] := by
  induction cs with
  | nil => cases h
  | cons c cs ih =>
      by_cases hend : c = '*' ∧ cs.head? = some '/'
      · obtain ⟨rfl, hhead⟩ := hend
        obtain ⟨behind, rfl⟩ := List.head?_eq_some_iff.mp hhead
        exact ⟨[], behind, rfl, by decide⟩
      · rw [close_blockNote_cons below hend] at h
        obtain ⟨body, behind, rfl, hbody⟩ := ih h
        refine ⟨c :: body, behind, rfl, ?_⟩
        rw [List.cons_append, List.infix_cons_iff, not_or, ← ends_comment_iff]
        exact ⟨hend, hbody⟩

/-! ## The machine and the grammar -/

/-- **What the grammar closes the machine closes.** -/
theorem Inside.close_eq {o : Opener} {cs : List Char} (h : Inside o cs) :
    Markup.close [o.frame] cs = some [] := by
  induction h with
  | close o => exact close_closer o []
  | pair ho c h ih => rw [close_pair ho, ih]
  | item hinside h ihinside ih => rw [close_item, close_append ihinside, ih]
  | substitution hinside h ihinside ih => rw [close_substitution, close_append ihinside, ih]
  | lineNote hbody h ih =>
      rw [close_slashes,
        List.dropWhile_append_of_pos fun c hc => by simpa using ne_of_mem_of_not_mem hc hbody,
        List.dropWhile_cons_of_neg (by decide), ← ih]
      exact close_cons rfl _
  | blockNote hbody h ih => rw [close_slash_star, close_blockNote_body _ hbody, ih]
  | other hclose hstart h ih => rw [close_other hclose hstart, ih]

/-- What is closed over another frame is closed in front of what closes that frame. -/
theorem exists_close_split {f g : Frame} {cs : List Char} (h : close ([f] ++ [g]) cs = some []) :
    ∃ inside rest, cs = inside ++ rest ∧ close [f] inside = some [] ∧
      close [g] rest = some [] := by
  rw [close_stack_append] at h
  obtain ⟨rest, hrest, hclose⟩ := Option.bind_eq_some_iff.mp h
  obtain ⟨inside, rfl, hinside⟩ := close_split hrest
  exact ⟨inside, rest, rfl, hinside, hclose⟩

/-- Of texts shorter than `n`, what the machine closes the grammar closes. -/
def SoundBelow (n : Nat) : Prop :=
  ∀ (o : Opener) (cs : List Char), cs.length < n → close [o.frame] cs = some [] → Inside o cs

namespace SoundBelow

variable {o : Opener} {c : Char} {cs : List Char}

theorem item (hsound : SoundBelow (cs.length + 1))
    (h : close [Opener.brace.frame] (o.char :: cs) = some []) : Inside .brace (o.char :: cs) := by
  rw [close_item] at h
  obtain ⟨inside, rest, rfl, hinside, hrest⟩ := exists_close_split h
  rw [List.length_append] at hsound
  exact .item (hsound o inside (by omega) hinside) (hsound .brace rest (by omega) hrest)

theorem substitution (hsound : SoundBelow (cs.length + 2))
    (h : close [Opener.backtick.frame] ('$' :: '\x7b' :: cs) = some []) :
    Inside .backtick ('$' :: '\x7b' :: cs) := by
  rw [close_substitution] at h
  obtain ⟨inside, rest, rfl, hinside, hrest⟩ := exists_close_split h
  rw [List.length_append] at hsound
  exact .substitution (hsound .brace inside (by omega) hinside)
    (hsound .backtick rest (by omega) hrest)

theorem pair (hsound : SoundBelow (cs.length + 1)) (ho : o ≠ .brace)
    (h : close [o.frame] ('\\' :: cs) = some []) : Inside o ('\\' :: cs) := by
  cases cs with
  | nil =>
      cases o with
      | brace => exact absurd rfl ho
      | backtick => cases h
      | double => cases h
      | single => cases h
  | cons c cs =>
      rw [close_pair ho] at h
      exact .pair ho c (hsound o cs (Nat.lt_succ_of_lt (Nat.lt_succ_self _)) h)

/-- A line comment that is closed has a line break. -/
theorem lineNote (hsound : SoundBelow (cs.length + 2))
    (h : close [Opener.brace.frame] ('/' :: '/' :: cs) = some []) :
    Inside .brace ('/' :: '/' :: cs) := by
  rw [close_slashes] at h
  have hbody : '\n' ∉ cs.takeWhile (· ≠ '\n') := fun hmem => by
    simpa using List.all_eq_true.mp List.all_takeWhile _ hmem
  have hsplit : cs.takeWhile (· ≠ '\n') ++ cs.dropWhile (· ≠ '\n') = cs :=
    List.takeWhile_append_dropWhile
  cases hdrop : cs.dropWhile (· ≠ '\n') with
  | nil => rw [hdrop] at h; cases h
  | cons c rest =>
      have hc : c = '\n' := by
        have hhead := List.head?_dropWhile_not (· ≠ '\n') cs
        rw [hdrop] at hhead
        simpa using hhead
      subst hc
      rw [hdrop] at h hsplit
      have hlength : cs.length = (cs.takeWhile (· ≠ '\n')).length + (rest.length + 1) := by
        rw [← List.length_cons, ← List.length_append, hsplit]
      have hrest : close [Opener.brace.frame] rest = some [] := (close_cons rfl rest).symm.trans h
      rw [← hsplit]
      exact .lineNote hbody (hsound .brace rest (by omega) hrest)

theorem blockNote (hsound : SoundBelow (cs.length + 2))
    (h : close [Opener.brace.frame] ('/' :: '*' :: cs) = some []) :
    Inside .brace ('/' :: '*' :: cs) := by
  rw [close_slash_star] at h
  obtain ⟨body, rest, rfl, hbody⟩ := exists_blockNote_body h
  rw [close_blockNote_body _ hbody] at h
  rw [List.length_append, List.length_cons, List.length_cons] at hsound
  exact .blockNote hbody (hsound .brace rest (by omega) h)

/-- Whatever a character starts, what is left behind it is shorter. -/
theorem starts (hsound : SoundBelow (cs.length + 1)) (hstart : o.Starts c cs.head?)
    (h : close [o.frame] (c :: cs) = some []) : Inside o (c :: cs) := by
  -- Two characters start a comment or a substitution, so the second is one that is left.
  have hnext : ∀ {d : Char}, cs.head? = some d → ∃ ds, cs = d :: ds := List.head?_eq_some_iff.mp
  cases o with
  | brace =>
      rcases hstart with ⟨o, rfl⟩ | ⟨rfl, hslash | hstar⟩
      · exact hsound.item h
      · obtain ⟨ds, rfl⟩ := hnext hslash
        exact lineNote hsound h
      · obtain ⟨ds, rfl⟩ := hnext hstar
        exact blockNote hsound h
  | backtick =>
      rcases hstart with rfl | ⟨rfl, hopen⟩
      · exact hsound.pair (by decide) h
      · obtain ⟨ds, rfl⟩ := hnext hopen
        exact substitution hsound h
  | double =>
      obtain rfl : c = '\\' := hstart
      exact hsound.pair (by decide) h
  | single =>
      obtain rfl : c = '\\' := hstart
      exact hsound.pair (by decide) h

end SoundBelow

theorem soundBelow (n : Nat) : SoundBelow n := by
  induction n with
  | zero => exact fun _ cs h => absurd h (Nat.not_lt_zero cs.length)
  | succ n ih =>
      intro o cs hlength h
      cases cs with
      | nil => cases h
      | cons c cs =>
          have hsound : SoundBelow (cs.length + 1) := fun o ds hds =>
            ih o ds (Nat.lt_of_lt_of_le hds (Nat.le_of_lt_succ hlength))
          by_cases hclose : c = o.closer
          · subst hclose
            rw [close_closer, Option.some_inj] at h
            rw [h]
            exact .close o
          by_cases hstart : o.Starts c cs.head?
          · exact hsound.starts hstart h
          · rw [close_other hclose hstart] at h
            exact .other hclose hstart (hsound o cs (Nat.lt_succ_self _) h)

/-- **The machine ends where the grammar does**, whatever follows. -/
theorem close_eq_some_iff {o : Opener} {cs rest : List Char} :
    close [o.frame] cs = some rest ↔ ∃ inside, cs = inside ++ rest ∧ Inside o inside := by
  constructor
  · intro h
    obtain ⟨inside, rfl, hinside⟩ := close_split h
    exact ⟨inside, rfl, soundBelow _ o inside (Nat.lt_succ_self _) hinside⟩
  · rintro ⟨inside, rfl, hinside⟩
    exact (leads_of_close hinside.close_eq []).close rest

theorem closeBrace_eq_some_iff {cs rest : List Char} :
    closeBrace cs = some rest ↔ ∃ block, '\x7b' :: cs = block ++ rest ∧ Block block := by
  rw [closeBrace, ← Opener.frame.eq_1, close_eq_some_iff]
  constructor
  · rintro ⟨inside, rfl, hinside⟩
    exact ⟨'\x7b' :: inside, rfl, inside, rfl, hinside⟩
  · rintro ⟨block, htext, inside, rfl, hinside⟩
    exact ⟨inside, List.cons_inj_right _ |>.mp htext, hinside⟩

/-- A text starts with one block at most. -/
theorem Block.eq_of_append_eq {a b rest rest' : List Char} (ha : Block a) (hb : Block b)
    (h : a ++ rest = b ++ rest') : a = b := by
  obtain ⟨inside, rfl, hinside⟩ := ha
  have hfirst : closeBrace (inside ++ rest) = some rest :=
    closeBrace_eq_some_iff.mpr ⟨_, rfl, inside, rfl, hinside⟩
  have hsecond : closeBrace (inside ++ rest) = some rest' :=
    closeBrace_eq_some_iff.mpr ⟨b, h, hb⟩
  obtain rfl := Option.some.inj (hfirst.symm.trans hsecond)
  exact List.append_cancel_right h

end Tandem.Markup
