import Tandem.Proofs.Markup.Tag

/-!
# What a text leaves open

The stack behind a text is that of one step for each character (`stackAfter?`). A text that is read
up to its end leaves a stack behind each of its fronts (`exists_stackAfter?`), and inside an
expression only some stacks can arise (`InExpression`). Between two of its parts, in a line comment
at most, an expression rests (`Rests`), and so it does

* **in front of its closing brace** — `rests_of_closed`;
* **in front of blanks** behind which it rests — `Rests.of_blanks`;
* **in front of a brace** behind which it rests, in the braces that this one closes, unless it
  stands in a comment — `Rests.of_brace`.

The other way round, an expression that rests is closed by a brace behind blanks, if these end the
comment that it may be in (`Rests.stackAfter?_shut`). A line comment is known by its two slashes
(`occurs_slashes`).
-/

namespace Tandem.Markup

open Text

/-! ## The stack behind a text -/

/-- The stack behind a text, if something is open all along. -/
def stackAfter? (s : List Frame) (cs : List Char) : Option (List Frame) := cs.foldlM step s

variable {s t : List Frame} {cs : List Char}

theorem stackAfter?_append (s : List Frame) (a b : List Char) :
    stackAfter? s (a ++ b) = (stackAfter? s a).bind (stackAfter? · b) :=
  List.foldlM_append

theorem stackAfter?_cons (s : List Frame) (c : Char) (cs : List Char) :
    stackAfter? s (c :: cs) = (step s c).bind (stackAfter? · cs) :=
  List.foldlM_cons

theorem stackAfter?_concat (s : List Frame) (cs : List Char) (c : Char) :
    stackAfter? s (cs ++ [c]) = (stackAfter? s cs).bind (step · c) := by
  rw [stackAfter?_append]
  congr 1
  funext t
  rw [stackAfter?_cons]
  cases step t c <;> rfl

/-- A step is made over a frame. -/
theorem exists_cons_of_step {c : Char} (h : step s c = some t) : ∃ f below, s = f :: below := by
  cases s with
  | nil => cases h
  | cons f below => exact ⟨f, below, rfl⟩

theorem leads_of_stackAfter? (h : stackAfter? s cs = some t) : Leads s t cs := by
  induction cs generalizing s with
  | nil =>
      obtain rfl := Option.some.inj h
      exact Leads.nil s
  | cons c cs ih =>
      rw [stackAfter?_cons] at h
      obtain ⟨next, hstep, hrest⟩ := Option.bind_eq_some_iff.mp h
      obtain ⟨f, below, rfl⟩ := exists_cons_of_step hstep
      exact .cons hstep (ih hrest)

/-- What stands below the stack stays there. -/
theorem stackAfter?_below (h : stackAfter? s cs = some t) (below : List Frame) :
    stackAfter? (s ++ below) cs = some (t ++ below) := by
  induction cs generalizing s with
  | nil => rw [Option.some.inj h]; rfl
  | cons c cs ih =>
      rw [stackAfter?_cons] at h ⊢
      obtain ⟨next, hstep, hrest⟩ := Option.bind_eq_some_iff.mp h
      obtain ⟨f, s', rfl⟩ := exists_cons_of_step hstep
      rw [step_append, hstep, Option.map_some, Option.bind_some]
      exact ih hrest

/-- In front of the end of what is read something is open. -/
theorem exists_stackAfter? {a b : List Char} (h : close s (a ++ b) = some []) :
    ∃ t, stackAfter? s a = some t ∧ close t b = some [] := by
  induction a generalizing s with
  | nil => exact ⟨s, rfl, h⟩
  | cons c a ih =>
      cases s with
      | nil =>
          rw [close_nil] at h
          simp at h
      | cons f below =>
          rw [List.cons_append, close] at h
          cases hstep : step (f :: below) c with
          | none => rw [hstep] at h; cases h
          | some next =>
              rw [hstep] at h
              obtain ⟨t, ht, hclose⟩ := ih h
              exact ⟨t, by rw [stackAfter?_cons, hstep, Option.bind_some, ht], hclose⟩

/-! ## Stacks inside an expression -/

/-- What a frame can stand on inside an expression. Only the topmost frame remembers a slash, and
nothing is opened in a line comment. -/
def Frame.Fits (f : Frame) (below : List Frame) : Prop :=
  (below.head? ≠ some (.code true) ∧ below.head? ≠ some .lineNote) ∧
  match f with
  | .quoted q => q = '"' ∨ q = '\''
  | .escaped => (∃ q, below.head? = some (.quoted q)) ∨ ∃ d, below.head? = some (.template d)
  | .lineNote => below.head? = some (.code false)
  | .tag => False
  | _ => True

/-- A stack that a text can leave open inside an expression. -/
def InExpression : List Frame → Prop
  | [] => True
  | f :: below => f.Fits below ∧ InExpression below

theorem inExpression_braces (n : Nat) : InExpression (braces n) := by
  induction n with
  | zero => trivial
  | succ n ih =>
      refine ⟨⟨?_, trivial⟩, ih⟩
      cases n with
      | zero => simp
      | succ n => simp [List.replicate_succ]

theorem InExpression.step {c : Char} (h : InExpression s) (hstep : step s c = some t) :
    InExpression t := by
  obtain ⟨f, below, rfl⟩ := exists_cons_of_step hstep
  obtain ⟨⟨hhead, hf⟩, hbelow⟩ := h
  -- A frame that stays, with another flag at most, and what may be opened over it.
  have hcode : ∀ slash, InExpression (.code slash :: below) := fun _ => ⟨⟨hhead, trivial⟩, hbelow⟩
  have htemplate : ∀ dollar, InExpression (.template dollar :: below) :=
    fun _ => ⟨⟨hhead, trivial⟩, hbelow⟩
  have hovercode : (some (Frame.code false) ≠ some (.code true)) ∧
      some (Frame.code false) ≠ some .lineNote := by decide
  cases f with
  | code slash =>
      obtain rfl : codeStep slash below c = t := Option.some.inj hstep
      unfold codeStep
      split
      next hc => exact ⟨⟨hovercode, hc⟩, hcode false⟩
      split
      next => exact ⟨⟨hovercode, trivial⟩, hcode false⟩
      split
      next => exact ⟨⟨hovercode, trivial⟩, hcode false⟩
      split
      next => exact hbelow
      split
      next =>
        split
        next => exact ⟨⟨hovercode, rfl⟩, hcode false⟩
        next => exact hcode true
      split
      next => exact ⟨⟨hovercode, trivial⟩, hcode false⟩
      next => exact hcode false
  | quoted q =>
      have hquoted : InExpression (.quoted q :: below) := ⟨⟨hhead, hf⟩, hbelow⟩
      obtain rfl := Option.some.inj hstep
      split
      next => exact ⟨⟨by simp, .inl ⟨q, rfl⟩⟩, hquoted⟩
      split
      next => exact hbelow
      next => exact hquoted
  | template dollar =>
      obtain rfl : templateStep dollar below c = t := Option.some.inj hstep
      unfold templateStep
      split
      next => exact ⟨⟨by simp, .inr ⟨false, rfl⟩⟩, htemplate false⟩
      split
      next => exact hbelow
      split
      next => exact ⟨⟨by simp, trivial⟩, htemplate false⟩
      next => exact htemplate _
  | escaped =>
      cases hstep
      exact hbelow
  | lineNote =>
      obtain rfl := Option.some.inj hstep
      split
      next => exact hbelow
      next => exact ⟨⟨hhead, hf⟩, hbelow⟩
  | blockNote star =>
      obtain rfl := Option.some.inj hstep
      split
      next => exact hbelow
      next => exact ⟨⟨hhead, trivial⟩, hbelow⟩
  | tag => exact hf.elim

theorem InExpression.stackAfter? (hs : InExpression s) (h : stackAfter? s cs = some t) :
    InExpression t := by
  induction cs generalizing s with
  | nil => exact Option.some.inj h ▸ hs
  | cons c cs ih =>
      rw [stackAfter?_cons] at h
      obtain ⟨next, hstep, hrest⟩ := Option.bind_eq_some_iff.mp h
      exact ih (hs.step hstep) hrest

/-! ## Plain characters -/

/-- The characters that open or close something in an expression, alone or behind another. -/
def marks : List Char := ['"', '\'', '\x60', '\x7b', '\x7d', '/', '*']

theorem codeStep_of_not_mem {c : Char} (h : c ∉ marks) (slash : Bool) (below : List Frame) :
    codeStep slash below c = .code false :: below := by
  simp only [marks, List.mem_cons, List.not_mem_nil, or_false, not_or] at h
  obtain ⟨h1, h2, h3, h4, h5, h6, h7⟩ := h
  simp [codeStep, h1, h2, h3, h4, h5, h6, h7]

theorem not_mem_marks_of_isBlank {c : Char} (h : isBlank c = true) : c ∉ marks :=
  not_mem_of_class (by decide) h

theorem not_mem_marks_of_blank (h : Blank cs) : ∀ c ∈ cs, c ∉ marks := fun c hc =>
  not_mem_marks_of_isBlank (h c hc)

/-- Plain characters leave the braces as they are. -/
theorem stackAfter?_plain_append (h : ∀ c ∈ cs, c ∉ marks) (n : Nat) (rest : List Char) :
    stackAfter? (braces (n + 1)) (cs ++ rest) = stackAfter? (braces (n + 1)) rest := by
  induction cs with
  | nil => rfl
  | cons c cs ih =>
      rw [List.cons_append, stackAfter?_cons, braces_succ, step,
        codeStep_of_not_mem (h c List.mem_cons_self), Option.bind_some, ← braces_succ]
      exact ih fun d hd => h d (List.mem_cons_of_mem _ hd)

/-! ## Line comments -/

/-- A slash is remembered behind a slash, and a second one starts a line comment. -/
theorem InExpression.head?_step {c : Char} (h : InExpression s) (hstep : Markup.step s c = some t) :
    (t.head? = some (.code true) → c = '/') ∧
      (t.head? = some .lineNote →
        s.head? = some .lineNote ∨ (s.head? = some (.code true) ∧ c = '/')) := by
  obtain ⟨f, below, rfl⟩ := exists_cons_of_step hstep
  obtain ⟨⟨⟨hslash, hnote⟩, hf⟩, _⟩ := h
  -- What was below the topmost frame is on top without a slash, and is no line comment.
  have hbelow : ∀ {P Q : Prop}, (below.head? = some (.code true) → P) ∧
      (below.head? = some .lineNote → Q) :=
    ⟨fun h => absurd h hslash, fun h => absurd h hnote⟩
  cases f with
  | code slash =>
      obtain rfl : codeStep slash below c = t := Option.some.inj hstep
      unfold codeStep
      repeat' split
      all_goals first
        | exact hbelow
        | simp_all
  | quoted q =>
      obtain rfl := Option.some.inj hstep
      repeat' split
      all_goals first
        | exact hbelow
        | simp
  | template dollar =>
      obtain rfl : templateStep dollar below c = t := Option.some.inj hstep
      unfold templateStep
      repeat' split
      all_goals first
        | exact hbelow
        | simp
  | escaped =>
      cases hstep
      exact hbelow
  | lineNote =>
      obtain rfl := Option.some.inj hstep
      split
      next => exact hbelow
      next => exact ⟨by simp, fun _ => .inl rfl⟩
  | blockNote star =>
      obtain rfl := Option.some.inj hstep
      split
      next => exact hbelow
      next => simp
  | tag => exact hf.elim

theorem occurs_of_isInfix {word cs : List Char} (h : word <:+: cs) : occurs word cs = true := by
  induction cs with
  | nil =>
      rw [List.infix_nil.mp h]
      rfl
  | cons c cs ih =>
      rw [occurs, Bool.or_eq_true]
      rcases List.infix_cons_iff.mp h with h | h
      · exact .inl (List.isPrefixOf_iff_prefix.mpr h)
      · exact .inr (ih h)

/-- A line comment that is open behind a text starts in it, unless it was open before. -/
theorem occurs_slashes (hs : InExpression s) (hslash : s.head? ≠ some (.code true))
    (hnote : s.head? ≠ some .lineNote) (h : stackAfter? s cs = some t)
    (ht : t.head? = some .lineNote) : occurs "//".toList cs = true := by
  refine occurs_of_isInfix ?_
  have hboth : (t.head? = some (.code true) → cs.getLast? = some '/') ∧
      (t.head? = some .lineNote → ['/', '/'] <:+: cs) := by
    clear ht
    induction cs using List.reverseRecOn generalizing t with
    | nil =>
        obtain rfl := Option.some.inj h
        exact ⟨fun h => absurd h hslash, fun h => absurd h hnote⟩
    | append_singleton cs c ih =>
        rw [stackAfter?_concat] at h
        obtain ⟨u, hu, hstep⟩ := Option.bind_eq_some_iff.mp h
        obtain ⟨hbefore, hinside⟩ := ih hu
        obtain ⟨hc, hstart⟩ := (hs.stackAfter? hu).head?_step hstep
        refine ⟨fun h => by rw [List.getLast?_concat, hc h], fun h => ?_⟩
        rcases hstart h with hopen | ⟨hfirst, rfl⟩
        · exact (hinside hopen).trans (List.prefix_append cs [c]).isInfix
        · obtain ⟨front, rfl⟩ := List.getLast?_eq_some_iff.mp (hbefore hfirst)
          rw [List.append_assoc]
          exact (List.suffix_append front _).isInfix
  exact hboth.2 ht

/-! ## Resting between the parts of an expression -/

/-- The expression is between two of its parts, in a line comment at most. -/
inductive Rests (below : List Frame) : List Frame → Prop
  | code (slash : Bool) : Rests below (.code slash :: below)
  | note : Rests below (.lineNote :: .code false :: below)

theorem rests_append_iff {below : List Frame} (more : List Frame) :
    Rests (below ++ more) (s ++ more) ↔ Rests below s := by
  constructor
  · intro h
    generalize hlong : s ++ more = long at h
    cases h with
    | code slash =>
        obtain rfl : s = .code slash :: below := List.append_cancel_right hlong
        exact .code slash
    | note =>
        obtain rfl : s = .lineNote :: .code false :: below := List.append_cancel_right hlong
        exact .note
  · rintro (slash | _)
    · exact .code slash
    · exact .note

/-- A blank does not bring an expression to rest that was not resting before. -/
theorem Rests.of_blank {below : List Frame} (hs : InExpression s) {c : Char}
    (hc : isBlank c = true) (hstep : step s c = some t) (ht : Rests below t) : Rests below s := by
  obtain ⟨f, s, rfl⟩ := exists_cons_of_step hstep
  obtain ⟨⟨⟨_, _⟩, hf⟩, _⟩ := hs
  have hne : ∀ {d : Char}, isBlank d = false → c ≠ d := ne_of_class hc
  cases f with
  | code slash =>
      rw [step, codeStep_of_not_mem (not_mem_marks_of_isBlank hc), Option.some.injEq] at hstep
      subst hstep
      cases ht
      exact .code slash
  | quoted q =>
      have hq : c ≠ q := by rcases hf with rfl | rfl <;> exact hne (by decide)
      simp only [Markup.step, if_neg (hne (d := '\\') (by decide)), if_neg hq,
        Option.some.injEq] at hstep
      subst hstep
      cases ht
  | template d =>
      simp only [Markup.step, templateStep, if_neg (hne (d := '\\') (by decide)),
        if_neg (hne (d := '\x60') (by decide)), hne (d := '\x7b') (by decide), false_and, if_false,
        Option.some.injEq] at hstep
      subst hstep
      cases ht
  | escaped =>
      cases hstep
      cases ht <;> simp at hf
  | lineNote =>
      simp only [Markup.step, Option.some.injEq] at hstep
      split at hstep
      · subst hstep
        cases ht with
        | code slash =>
            simp only [List.head?_cons, Option.some.injEq, Frame.code.injEq] at hf
            subst hf
            exact .note
        | note => simp at hf
      · subst hstep
        cases ht
        exact .note
  | blockNote star =>
      simp only [Markup.step, hne (d := '/') (by decide), false_and, if_false,
        Option.some.injEq] at hstep
      subst hstep
      cases ht
  | tag => exact hf.elim

theorem Rests.of_blanks {below : List Frame} (hs : InExpression s) {a b : List Char}
    (hb : Blank b) (h : stackAfter? s (a ++ b) = some t) (ht : Rests below t) :
    ∃ u, stackAfter? s a = some u ∧ Rests below u := by
  induction b using List.reverseRecOn generalizing t with
  | nil => exact ⟨t, by rwa [List.append_nil] at h, ht⟩
  | append_singleton b c ih =>
      rw [← List.append_assoc, stackAfter?_concat] at h
      obtain ⟨u, hu, hstep⟩ := Option.bind_eq_some_iff.mp h
      have hc : isBlank c = true := hb c (by simp)
      exact ih (fun d hd => hb d (List.mem_append_left _ hd)) hu
        (ht.of_blank (hs.stackAfter? hu) hc hstep)

/-- An expression that rests behind a brace has been closed by it, or the brace stands in a
comment. -/
theorem Rests.of_brace {below : List Frame} (hs : InExpression s)
    (hstep : step s '\x7d' = some t) (ht : Rests below t) :
    (Rests (.code false :: below) s ∧ t = .code false :: below) ∨
      (Rests below s ∧ t = .lineNote :: .code false :: below) := by
  obtain ⟨f, s, rfl⟩ := exists_cons_of_step hstep
  obtain ⟨⟨⟨hslash, hnote⟩, hf⟩, _⟩ := hs
  cases f with
  | code slash =>
      cases hstep
      cases ht with
      | code slash' =>
          cases slash' with
          | true => simp at hslash
          | false => exact .inl ⟨.code slash, rfl⟩
      | note => simp at hnote
  | quoted q =>
      have hq : '\x7d' ≠ q := by rcases hf with rfl | rfl <;> decide
      simp only [Markup.step, if_neg (show '\x7d' ≠ '\\' by decide), if_neg hq,
        Option.some.injEq] at hstep
      subst hstep
      cases ht
  | template d =>
      cases hstep
      cases ht
  | escaped =>
      cases hstep
      cases ht <;> simp at hf
  | lineNote =>
      cases hstep
      cases ht
      exact .inr ⟨.note, rfl⟩
  | blockNote star =>
      cases hstep
      cases ht
  | tag => exact hf.elim

/-- A brace behind blanks closes what rests, if the first blank ends a line comment. -/
theorem Rests.stackAfter?_shut {below : List Frame} (h : Rests below s) {z : List Char}
    (hz : Blank z) (hbreak : s.head? = some .lineNote → z.head? = some '\n') :
    stackAfter? s (z ++ ['\x7d']) = some below := by
  have hcode : ∀ slash {z : List Char}, Blank z →
      stackAfter? (.code slash :: below) (z ++ ['\x7d']) = some below := by
    intro slash z hz
    induction z generalizing slash with
    | nil => rfl
    | cons c z ih =>
        have hc : isBlank c = true := hz c List.mem_cons_self
        rw [List.cons_append, stackAfter?_cons, step,
          codeStep_of_not_mem (not_mem_marks_of_isBlank hc), Option.bind_some]
        exact ih false fun d hd => hz d (List.mem_cons_of_mem _ hd)
  cases h with
  | code slash => exact hcode slash hz
  | note =>
      obtain ⟨z, rfl⟩ := List.head?_eq_some_iff.mp (hbreak rfl)
      exact hcode false fun d hd => hz d (List.mem_cons_of_mem _ hd)

/-- In front of its closing brace an expression rests. -/
theorem rests_of_closed {cs : List Char} (h : closeBrace (cs ++ ['\x7d']) = some []) :
    ∃ t, stackAfter? (braces 1) cs = some t ∧ Rests [] t := by
  obtain ⟨t, ht, hclose⟩ := exists_stackAfter? h
  obtain ⟨f, s, rfl⟩ : ∃ f s, t = f :: s := by
    cases t with
    | nil => simp [close_nil] at hclose
    | cons f s => exact ⟨f, s, rfl⟩
  refine ⟨_, ht, ?_⟩
  -- Over a further brace the closed expression is one that rests.
  have hbelow : stackAfter? (braces 2) cs = some (f :: s ++ braces 1) := stackAfter?_below ht _
  have hinside : InExpression (f :: s ++ braces 1) := (inExpression_braces 2).stackAfter? hbelow
  have hstep : step (f :: s ++ braces 1) '\x7d' = some (braces 1) := by
    rw [close] at hclose
    rw [step_append]
    cases hnext : step (f :: s) '\x7d' with
    | none => rw [hnext] at hclose; cases hclose
    | some next =>
        rw [hnext] at hclose
        cases next with
        | nil => rfl
        | cons g r => cases hclose
  obtain ⟨hrests, _⟩ | ⟨_, hnote⟩ := Rests.of_brace hinside hstep (.code false)
  · exact (rests_append_iff (braces 1)).mp hrests
  · cases hnote

end Tandem.Markup
