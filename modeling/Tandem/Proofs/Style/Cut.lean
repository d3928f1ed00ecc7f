import Tandem.Proofs.Style.Sheet

/-!
# Values that are cut

A value may hold anything but braces and the start of a tag. Written behind its property it is
read up to the first semicolon in it, and what stands behind that is read as further
declarations, but of the same rule (`declared`):

* **a semicolon** parts the declarations before it from those behind it, wherever it stands
  (`declarations_semicolon`), so every written declaration is read on its own
  (`declarations_bodyText`);
* **a rule** ends at its brace: the rules of nodes are read as one for each node that has a
  name for it (`rules_nodes`), for a rule without a name is passed over
  (`rules_nameless`).
-/

namespace Tandem.Style

open Text Markup

/-! ## Semicolons -/

/-- In front of a semicolon the same declaration stands as without it. What is left goes on to
the semicolon, or begins behind it. -/
theorem declaration?_semicolon (cs rest : List Char) :
    (declaration? cs = none → declaration? (cs ++ ';' :: rest) = none) ∧
    ∀ d after, declaration? cs = some (d, after) →
      ∃ after', declaration? (cs ++ ';' :: rest) = some (d, after') ∧
        (after' = after ++ ';' :: rest ∨ after = [] ∧ after' = rest) := by
  have hname : isPropertyChar ';' = false := by decide
  have hgap : isBlank ';' = false := by decide
  simp only [declaration?, takeWhile_append_cons hname, dropWhile_append_cons hname,
    dropWhile_append_cons hgap]
  by_cases hempty : (cs.takeWhile isPropertyChar).isEmpty = true
  · simp [hempty]
  rw [if_neg hempty, if_neg hempty]
  cases (cs.dropWhile isPropertyChar).dropWhile isBlank with
  | nil => simp
  | cons c value =>
      by_cases hc : c = ':'
      · subst hc
        have htake := @takeWhile_append_cons (fun c => decide (c ≠ ';')) ';' (by decide) value rest
        have hdrop := @dropWhile_append_cons (fun c => decide (c ≠ ';')) ';' (by decide) value rest
        simp only [List.cons_append, htake, hdrop]
        by_cases hvalue : (value.takeWhile fun c => decide (c ≠ ';')).isEmpty = true
        · simp only [if_pos hvalue]
          exact ⟨fun _ => trivial, fun _ _ heq => by cases heq⟩
        simp only [if_neg hvalue]
        refine ⟨fun heq => (by cases heq), fun d after heq => ?_⟩
        cases heq
        refine ⟨_, rfl, ?_⟩
        cases value.dropWhile fun c => decide (c ≠ ';') with
        | nil => exact .inr ⟨rfl, rfl⟩
        | cons e after => exact .inl rfl
      · have hother : ∀ tail : List Char, c :: tail ≠ ':' :: tail := by simp [hc]
        simp [hc]

/-- **A semicolon parts declarations.** -/
theorem declarations_semicolon (cs rest : List Char) :
    declarations (cs ++ ';' :: rest) = declarations cs ++ declarations rest := by
  have hskip : declarations (';' :: rest) = declarations rest := by
    have hnone : declaration? (';' :: rest) = none := by
      have hchar : isPropertyChar ';' = false := by decide
      simp [declaration?, hchar]
    rw [declarations_cons, hnone]
  fun_induction declarations cs with
  | case1 => rw [List.nil_append, hskip, List.nil_append]
  | case2 c cs d after h ih =>
    obtain ⟨after', hread, hafter⟩ := (declaration?_semicolon (c :: cs) rest).2 d after h
    rw [List.cons_append] at hread ⊢
    rw [declarations_cons, hread]
    simp only
    rcases hafter with rfl | ⟨rfl, rfl⟩
    · rw [ih, List.cons_append]
    · rw [declarations, List.singleton_append]
  | case3 c cs h ih =>
    have hread := (declaration?_semicolon (c :: cs) rest).1 h
    rw [List.cons_append] at hread ⊢
    rw [declarations_cons, hread]
    exact ih

/-! ## Declarations that are written -/

/-- What a written declaration is read as: the property has the value up to the first semicolon,
and the other parts of the value are read as declarations again. -/
def declared (e : String × String) : List Declaration :=
  match splitOn ';' e.2.toList with
  | [] => []
  | first :: others => (e.1.toList, trim first) :: others.flatMap declarations

/-- The parts of a text have no separator in them and make up the text with one in between. -/
theorem splitOn_eq (sep : Char) (cs : List Char) :
    ∃ first others, splitOn sep cs = first :: others ∧
      cs = first ++ others.flatMap (sep :: ·) ∧ ∀ part ∈ first :: others, sep ∉ part := by
  induction cs with
  | nil => exact ⟨[], [], rfl, rfl, by simp⟩
  | cons c cs ih =>
      obtain ⟨first, others, hsplit, heq, hparts⟩ := ih
      rw [splitOn, hsplit]
      by_cases hc : c = sep
      · subst hc
        refine ⟨[], first :: others, if_pos rfl, ?_, ?_⟩
        · rw [List.nil_append, List.flatMap_cons, List.cons_append, ← heq]
        · exact List.forall_mem_cons.mpr ⟨List.not_mem_nil, hparts⟩
      · obtain ⟨hfirst, hothers⟩ := List.forall_mem_cons.mp hparts
        refine ⟨c :: first, others, if_neg hc, ?_, List.forall_mem_cons.mpr ⟨?_, hothers⟩⟩
        · rw [List.cons_append, ← heq]
        · simp [hfirst, Ne.symm hc]

theorem declarations_parts (cs : List Char) (others : List (List Char)) :
    declarations (cs ++ others.flatMap (';' :: ·)) =
      declarations cs ++ others.flatMap declarations := by
  induction others generalizing cs with
  | nil => simp
  | cons part others ih =>
      have hsplit : cs ++ (part :: others).flatMap (';' :: ·) =
          cs ++ ';' :: (part ++ others.flatMap (';' :: ·)) := by
        simp
      rw [hsplit, declarations_semicolon, ih, List.flatMap_cons]

/-- A value without a semicolon goes on to the end. -/
theorem declarations_last {name value : List Char} (hname : isPropertyName name = true)
    (hvalue : ';' ∉ value) : declarations (name ++ ':' :: ' ' :: value) = [(name, trim value)] := by
  obtain ⟨hne, hchars⟩ := isPropertyName_eq_true hname
  have hcolon : Stops isPropertyChar (':' :: ' ' :: value) := stops_cons (by decide)
  have hplain : ∀ c ∈ ' ' :: value, decide (c ≠ ';') = true := by
    have hspace : ' ' ≠ ';' := by decide
    rintro c hc
    have hcne : c ≠ ';' := ne_of_mem_of_not_mem hc (by simp [hvalue])
    simpa using hcne
  have htrim : trim (' ' :: value) = trim value := by
    have hspace : Blank [' '] := blank_nil.cons (by decide)
    rw [← List.singleton_append, trim, trimStart_append hspace, ← trim]
  have hread : declaration? (name ++ ':' :: ' ' :: value) = some ((name, trim value), []) := by
    simp only [declaration?, hcolon.takeWhile_append hchars, hcolon.dropWhile_append hchars]
    rw [if_neg (by simpa using hne), List.dropWhile_cons_of_neg (by decide)]
    simp only [List.takeWhile_eq_self_iff.mpr hplain, List.dropWhile_eq_nil_iff.mpr hplain, htrim]
    rfl
  obtain ⟨c, cs, rfl⟩ := List.exists_cons_of_ne_nil hne
  rw [List.cons_append] at hread ⊢
  rw [declarations_cons, hread]
  simp only
  rw [declarations]

theorem declarations_declared {name : List Char} (hname : isPropertyName name = true)
    (value : String) : declarations (name ++ ':' :: ' ' :: value.toList) =
      declared (String.ofList name, value) := by
  obtain ⟨first, others, hsplit, heq, hparts⟩ := splitOn_eq ';' value.toList
  have hfirst : ';' ∉ first := hparts first List.mem_cons_self
  have happend : name ++ ':' :: ' ' :: value.toList =
      (name ++ ':' :: ' ' :: first) ++ others.flatMap (';' :: ·) := by
    rw [heq]
    simp
  rw [happend, declarations_parts, declarations_last hname hfirst, declared, hsplit,
    List.singleton_append, String.toList_ofList]

/-- The declarations of a written rule are what its own entries are read as. -/
theorem declarations_bodyText {pad : Nat → List Char} (hpad : ∀ l, Blank (pad l))
    {styles : Dict String} (hstyles : ∀ e ∈ styles.entries, isPropertyName e.1.toList = true) :
    declarations (bodyText pad styles) = styles.entries.flatMap declared := by
  rw [bodyText]
  generalize styles.entries = entries at hstyles ⊢
  induction entries with
  | nil =>
      have hnil := declarations_blank ((hpad 2).cons (c := '\n') (by decide)) []
      rw [List.append_nil, declarations] at hnil
      exact hnil
  | cons e es ih =>
      obtain ⟨hname, hes⟩ := List.forall_mem_cons.mp hstyles
      have hsplit : (e :: es).flatMap (declarationText (pad 3)) ++ '\n' :: pad 2 =
          ('\n' :: pad 3) ++ ((e.1.toList ++ ':' :: ' ' :: e.2.toList) ++ ';' ::
            (es.flatMap (declarationText (pad 3)) ++ '\n' :: pad 2)) := by
        simp [declarationText]
      rw [hsplit, declarations_blank ((hpad 3).cons (by decide)), declarations_semicolon,
        declarations_declared hname, ih hes, String.ofList_toList, List.flatMap_cons]

/-- No value that is read has a semicolon. -/
theorem declaration?_plain {cs rest : List Char} {d : Declaration}
    (h : declaration? cs = some (d, rest)) : ';' ∉ d.2 := by
  simp only [declaration?] at h
  split at h
  next => cases h
  next =>
    split at h
    next after _ =>
      split at h
      next => cases h
      next =>
        cases h
        intro hmem
        have hne := List.mem_takeWhile_imp (mem_of_mem_trim hmem)
        simp at hne
    next => cases h

theorem declarations_plain (cs : List Char) : ∀ d ∈ declarations cs, ';' ∉ d.2 := by
  fun_induction declarations cs with
  | case1 => exact List.forall_mem_nil _
  | case2 c rest d after h ih => exact List.forall_mem_cons.mpr ⟨declaration?_plain h, ih⟩
  | case3 c rest h ih => exact ih

theorem declared_plain (e : String × String) : ∀ d ∈ declared e, ';' ∉ d.2 := by
  obtain ⟨first, others, hsplit, _, hparts⟩ := splitOn_eq ';' e.2.toList
  rw [declared, hsplit]
  refine List.forall_mem_cons.mpr ⟨fun hmem => ?_, fun d hd => ?_⟩
  · exact hparts first List.mem_cons_self (mem_of_mem_trim hmem)
  · obtain ⟨part, _, hmem⟩ := List.mem_flatMap.mp hd
    exact declarations_plain part d hmem

/-- Without a semicolon a trimmed value is read as it is. -/
theorem declared_of_plain {e : String × String} (hplain : ';' ∉ e.2.toList)
    (htrim : trim e.2.toList = e.2.toList) : declared e = [(e.1.toList, e.2.toList)] := by
  obtain ⟨first, others, hsplit, heq, _⟩ := splitOn_eq ';' e.2.toList
  cases others with
  | nil =>
      rw [List.flatMap_nil, List.append_nil] at heq
      rw [declared, hsplit, ← heq]
      simp only [htrim, List.flatMap_nil]
  | cons part others =>
      refine absurd ?_ hplain
      rw [heq]
      simp

/-- What the styles of a node are read back as: what its own declarations are read as, if its id
can name a rule. -/
def rereadStyles (id : String) (styles : Dict String) : Dict String :=
  if id.isEmpty then .empty else ofDeclarations (styles.entries.flatMap declared)

/-- Styles are read back as they were exactly if they are named and have no semicolon. -/
theorem rereadStyles_eq_iff {id : String} {styles : Dict String}
    (htrim : ∀ e ∈ styles.entries, trim e.2.toList = e.2.toList) :
    rereadStyles id styles = styles ↔
      (styles.isEmpty = false → id ≠ "" ∧ ∀ e ∈ styles.entries, ';' ∉ e.2.toList) := by
  constructor
  · intro h hsome
    have hid : id ≠ "" := by
      rintro rfl
      have hempty : styles = .empty := h.symm
      rw [hempty] at hsome
      cases hsome
    refine ⟨hid, fun e he => ?_⟩
    have hget := Dict.mem_entries_iff.mp he
    rw [← h, rereadStyles, if_neg (by simpa using hid)] at hget
    refine forall_get?_ofDeclarations (P := fun d => ';' ∉ d.2) (fun d hd => ?_) hget
    obtain ⟨entry, _, hmem⟩ := List.mem_flatMap.mp hd
    exact declared_plain entry d hmem
  · intro h
    cases hempty : styles.isEmpty with
    | true =>
        rw [Dict.isEmpty_iff.mp hempty, rereadStyles]
        split <;> rfl
    | false =>
        obtain ⟨hid, hplain⟩ := h hempty
        have hdeclared : styles.entries.flatMap declared =
            styles.entries.map fun e => (e.1.toList, e.2.toList) := by
          rw [List.map_eq_flatMap]
          exact List.flatMap_congr fun e he => declared_of_plain (hplain e he) (htrim e he)
        rw [rereadStyles, if_neg (by simpa using hid), hdeclared, ofDeclarations_entries]

/-! ## Rules -/

/-- A text without an opening brace in front of a closing one has no rule. -/
theorem rules_close {cs : List Char} (hcs : '\x7b' ∉ cs) (rest : List Char) :
    rules (cs ++ '\x7d' :: rest) = rules rest := by
  induction cs with
  | nil => exact rules_skip (by decide) rest
  | cons c cs ih =>
      have hrest := ih fun hmem => hcs (List.mem_cons_of_mem _ hmem)
      by_cases hc : c = '.'
      · subst hc
        have hname : isClassChar '\x7d' = false := by decide
        have hgap : isBlank '\x7d' = false := by decide
        have hnone : ruleText? ('.' :: (cs ++ '\x7d' :: rest)) = none := by
          simp only [ruleText?, dropWhile_append_cons hname, dropWhile_append_cons hgap]
          split
          next => rfl
          next =>
            -- What stands where the rule would open is a character of the text, or the brace.
            cases hbehind : (cs.dropWhile isClassChar).dropWhile isBlank with
            | nil => rfl
            | cons d behind =>
                have hmem : d ∈ cs := by
                  refine (List.dropWhile_suffix isClassChar).subset ?_
                  refine (List.dropWhile_suffix isBlank).subset ?_
                  rw [hbehind]
                  exact List.mem_cons_self
                have hd : d ≠ '\x7b' := by
                  rintro rfl
                  exact hcs (List.mem_cons_of_mem _ hmem)
                rw [List.cons_append]
                split
                next heq => cases heq; exact absurd rfl hd
                next => rfl
        rw [List.cons_append, rules_cons, hnone]
        exact hrest
      · rw [List.cons_append, rules_skip hc]
        exact hrest

/-- A rule without a name is passed over. -/
theorem rules_nameless {indent gap body : List Char} (hindent : Blank indent) (hgap : Blank gap)
    (hbody : '\x7b' ∉ body) (rest : List Char) :
    rules (indent ++ '.' :: (gap ++ '\x7b' :: (body ++ '\x7d' :: rest))) = rules rest := by
  have hopen := stops_gap (fun _ => isBlank_of_isClassChar) hgap (c := '\x7b') (by decide)
    (body ++ '\x7d' :: rest)
  have hnone : ruleText? ('.' :: (gap ++ '\x7b' :: (body ++ '\x7d' :: rest))) = none := by
    simp only [ruleText?, hopen.takeWhile]
    rfl
  rw [rules_blank hindent, rules_cons, hnone]
  simp only
  rw [rules_blank hgap, rules_skip (by decide), rules_close hbody]

/-- The rule that is read of a node. -/
def cutRule (n : Node) : Rule := ⟨n.id.toList, n.widget.styles.entries.flatMap declared⟩

/-- **The written rules of nodes are read as one for each node that has a name for it.** -/
theorem rules_nodes (g : Source.Writer) {nodes : List Node}
    (h : ∀ n ∈ nodes, (∀ c ∈ n.id.toList, isClassChar c = true) ∧
      UnmarkedStyles n.widget.styles ∧
      ∀ e ∈ n.widget.styles.entries, isPropertyName e.1.toList = true)
    {tail : List Char} (htail : Blank tail) :
    rules (linesText (nodes.flatMap g.ruleLines) ++ tail) =
      (nodes.filter fun n => !n.id.isEmpty).map cutRule := by
  induction nodes with
  | nil =>
      have hnil := rules_blank htail []
      rw [List.append_nil, rules] at hnil
      exact hnil
  | cons n ns ih =>
      obtain ⟨⟨hid, hunmarked, hnames⟩, hns⟩ := List.forall_mem_cons.mp h
      have hindent := blank_indent (blank_pad g) 2
      have hspace : Blank [' '] := blank_nil.cons (by decide)
      have hinside := unmarked_bodyText g hunmarked
      have hsplit : linesText ((n :: ns).flatMap g.ruleLines) ++ tail =
          ('\n' :: g.pad 2) ++ '.' :: (n.id.toList ++ ([' '] ++ '\x7b' ::
            (bodyText g.pad n.widget.styles ++ '\x7d' ::
              (linesText (ns.flatMap g.ruleLines) ++ tail)))) := by
        rw [List.flatMap_cons, linesText_append, linesText_ruleLines]
        simp
      rw [hsplit, List.filter_cons]
      cases hempty : n.id.isEmpty with
      | true =>
          have hnil : n.id.toList = [] := by simpa using hempty
          rw [hnil, List.nil_append,
            rules_nameless hindent hspace fun hmem => (hinside _ hmem).2.1 rfl, ih hns]
          rfl
      | false =>
          have hname : isClassName n.id.toList = true := by
            rw [isClassName, List.all_eq_true.mpr hid]
            simpa using hempty
          rw [rules_append hindent hname hspace fun hmem => (hinside _ hmem).2.2 rfl,
            declarations_bodyText (blank_pad g) hnames, ih hns]
          rfl

end Tandem.Style
