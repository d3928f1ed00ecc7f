import Tandem.Proofs.Dict
import Tandem.Proofs.Markup.Element
import Tandem.Source.Writer

/-!
# Written rules are read back

A declaration and a rule are read with blanks wherever they may stand (`declarations_append`,
`rules_append`), and so the rules of nodes are read as one rule for each node
(`rules_ruleLines`). What can be written into a rule is said by `isClassName`,
`isPropertyName` and `ReadableValue`.
-/

namespace Tandem.Style

open Text Markup

/-- A name that can be written as a class. -/
def isClassName (cs : List Char) : Bool := !cs.isEmpty && cs.all isClassChar

def isPropertyName (cs : List Char) : Bool := !cs.isEmpty && cs.all isPropertyChar

/-- A value that can be written behind a property: trimmed, not empty, and without the
characters that end a value, a rule or a block or start a tag. -/
structure ReadableValue (cs : List Char) : Prop where
  trimmed : trim cs = cs
  nonempty : cs ≠ []
  plain : ∀ c ∈ cs, c ≠ ';' ∧ c ≠ '\x7b' ∧ c ≠ '\x7d' ∧ c ≠ '<'

def ReadableStyles (styles : Dict String) : Prop :=
  ∀ e ∈ styles.entries, isPropertyName e.1.toList = true ∧ ReadableValue e.2.toList

/-- Nothing in the styles ends a rule or a block or starts a tag. -/
def UnmarkedStyles (styles : Dict String) : Prop :=
  ∀ e ∈ styles.entries, Unmarked e.1.toList ∧ Unmarked e.2.toList

theorem isClassName_eq_true {cs : List Char} (h : isClassName cs = true) :
    cs ≠ [] ∧ ∀ c ∈ cs, isClassChar c = true := by
  obtain ⟨hne, hall⟩ := Bool.and_eq_true_iff.mp h
  exact ⟨by simpa using hne, List.all_eq_true.mp hall⟩

theorem isPropertyName_eq_true {cs : List Char} (h : isPropertyName cs = true) :
    cs ≠ [] ∧ ∀ c ∈ cs, isPropertyChar c = true := by
  obtain ⟨hne, hall⟩ := Bool.and_eq_true_iff.mp h
  exact ⟨by simpa using hne, List.all_eq_true.mp hall⟩

theorem unmarked_of_isClassChar {cs : List Char} (h : ∀ c ∈ cs, isClassChar c = true) :
    Unmarked cs := by
  intro c hc
  have hchar := h c hc
  exact ⟨ne_of_class hchar (by decide), ne_of_class hchar (by decide),
    ne_of_class hchar (by decide)⟩

theorem unmarked_of_isPropertyName {cs : List Char} (h : isPropertyName cs = true) :
    Unmarked cs := by
  intro c hc
  have hchar := (isPropertyName_eq_true h).2 c hc
  exact ⟨ne_of_class hchar (by decide), ne_of_class hchar (by decide),
    ne_of_class hchar (by decide)⟩

theorem ReadableValue.unmarked {cs : List Char} (h : ReadableValue cs) : Unmarked cs := by
  intro c hc
  have hplain := h.plain c hc
  exact ⟨hplain.2.2.2, hplain.2.1, hplain.2.2.1⟩

theorem isBlank_of_isClassChar {c : Char} (h : isClassChar c = true) : isBlank c = false := by
  simp only [isClassChar, Bool.or_eq_true, beq_iff_eq] at h
  rcases h with (h | rfl) | rfl
  · exact isBlank_of_isWord (by simp [isWord, h])
  · decide
  · decide

theorem isBlank_of_isPropertyChar {c : Char} (h : isPropertyChar c = true) :
    isBlank c = false := by
  simp only [isPropertyChar, Bool.or_eq_true, beq_iff_eq] at h
  rcases h with h | rfl
  · exact isBlank_of_isWord (by simp [isWord, Char.isAlphanum, h])
  · decide

/-- A run of a class without blanks stops at blanks with a character behind them that is not of
the class. -/
theorem stops_gap {p : Char → Bool} (hp : ∀ c, p c = true → isBlank c = false) {gap : List Char}
    (hgap : Blank gap) {c : Char} (hc : p c = false) (rest : List Char) :
    Stops p (gap ++ c :: rest) := by
  cases gap with
  | nil => exact stops_cons hc
  | cons d gap =>
      refine stops_cons ?_
      cases hd : p d with
      | false => rfl
      | true =>
          have hblank := hgap d List.mem_cons_self
          rw [hp d hd] at hblank
          cases hblank

/-! ## Declarations -/

/-- The line of a declaration, with its line break. -/
def declarationText (indent : List Char) (e : String × String) : List Char :=
  '\n' :: (indent ++ e.1.toList ++ ": ".toList ++ e.2.toList ++ [';'])

theorem declaration?_append {name value gap before after : List Char}
    (hname : isPropertyName name = true) (hvalue : ReadableValue value) (hgap : Blank gap)
    (hbefore : Blank before) (hafter : Blank after) (rest : List Char) :
    declaration? (name ++ (gap ++ ':' :: (before ++ (value ++ (after ++ ';' :: rest))))) =
      some ((name, value), rest) := by
  obtain ⟨hne, hchars⟩ := isPropertyName_eq_true hname
  have hcolon := stops_gap (fun _ => isBlank_of_isPropertyChar) hgap (c := ':') (by decide)
    (before ++ (value ++ (after ++ ';' :: rest)))
  have hstop : Stops isBlank (':' :: (before ++ (value ++ (after ++ ';' :: rest)))) :=
    stops_cons (by decide)
  have hsemi : Stops (fun c => decide (c ≠ ';')) (';' :: rest) := stops_cons (by decide)
  have hplain : ∀ c ∈ before ++ (value ++ after), decide (c ≠ ';') = true := by
    have hblank : ∀ {cs : List Char}, Blank cs → ∀ c ∈ cs, c ≠ ';' := fun hcs c hc =>
      ne_of_mem_of_not_mem hc (hcs.not_mem (by decide))
    intro c hc
    simp only [List.mem_append] at hc
    rcases hc with hc | hc | hc
    · simpa using hblank hbefore c hc
    · simpa using (hvalue.plain c hc).1
    · simpa using hblank hafter c hc
  have hsplit : before ++ (value ++ (after ++ ';' :: rest)) =
      (before ++ (value ++ after)) ++ ';' :: rest := by
    simp only [List.append_assoc]
  have hsome : (before ++ (value ++ after)).isEmpty = false := by
    simp [hvalue.nonempty]
  simp only [declaration?, hcolon.takeWhile_append hchars, hcolon.dropWhile_append hchars,
    hstop.dropWhile_append hgap]
  rw [if_neg (by simpa using hne), hsplit, hsemi.takeWhile_append hplain,
    hsemi.dropWhile_append hplain, hsome,
    trim_surrounded hbefore hafter hvalue.trimmed hvalue.nonempty]
  rfl

/-- The reader of declarations in one step. -/
theorem declarations_cons (c : Char) (rest : List Char) :
    declarations (c :: rest) =
      match declaration? (c :: rest) with
      | some (d, after) => d :: declarations after
      | none => declarations rest := by
  rw [declarations]
  split
  next h => rw [h]
  next h => rw [h]

theorem declarations_blank {cs : List Char} (hcs : Blank cs) (rest : List Char) :
    declarations (cs ++ rest) = declarations rest := by
  induction cs with
  | nil => rfl
  | cons c cs ih =>
      have hc : isPropertyChar c = false := by
        cases h : isPropertyChar c with
        | false => rfl
        | true =>
            have hblank := hcs c List.mem_cons_self
            rw [isBlank_of_isPropertyChar h] at hblank
            cases hblank
      have hnone : declaration? (c :: (cs ++ rest)) = none := by
        simp [declaration?, hc]
      rw [List.cons_append, declarations_cons, hnone]
      exact ih fun d hd => hcs d (List.mem_cons_of_mem _ hd)

/-- A declaration behind blanks is read, and then what follows it. -/
theorem declarations_append {indent name gap before value after : List Char}
    (hindent : Blank indent) (hname : isPropertyName name = true) (hgap : Blank gap)
    (hbefore : Blank before) (hvalue : ReadableValue value) (hafter : Blank after)
    (rest : List Char) :
    declarations
        (indent ++ (name ++ (gap ++ ':' :: (before ++ (value ++ (after ++ ';' :: rest)))))) =
      (name, value) :: declarations rest := by
  obtain ⟨c, cs, hcons⟩ := List.exists_cons_of_ne_nil (isPropertyName_eq_true hname).1
  have hread := declaration?_append hname hvalue hgap hbefore hafter rest
  rw [declarations_blank hindent]
  rw [hcons, List.cons_append] at hread ⊢
  rw [declarations_cons, hread]

/-- The declarations of a body are those that were written into it. -/
theorem declarations_flatMap {indent : List Char} (hindent : Blank indent)
    {entries : List (String × String)}
    (h : ∀ e ∈ entries, isPropertyName e.1.toList = true ∧ ReadableValue e.2.toList)
    {tail : List Char} (htail : Blank tail) :
    declarations (entries.flatMap (declarationText indent) ++ tail) =
      entries.map fun e => (e.1.toList, e.2.toList) := by
  induction entries with
  | nil =>
      have hnil := declarations_blank htail []
      rw [List.append_nil, declarations] at hnil
      exact hnil
  | cons e es ih =>
      obtain ⟨⟨hname, hvalue⟩, hes⟩ := List.forall_mem_cons.mp h
      have hsplit : (e :: es).flatMap (declarationText indent) ++ tail =
          ('\n' :: indent) ++ (e.1.toList ++ ([] ++ ':' :: ([' '] ++ (e.2.toList ++ ([] ++ ';' ::
            (es.flatMap (declarationText indent) ++ tail)))))) := by
        simp [declarationText]
      have hspace : Blank [' '] := blank_nil.cons (by decide)
      rw [hsplit, declarations_append (hindent.cons (by decide)) hname blank_nil hspace hvalue
        blank_nil, ih hes, List.map_cons]

/-! ## Rules -/

def bodyText (pad : Nat → List Char) (styles : Dict String) : List Char :=
  styles.entries.flatMap (declarationText (pad 3)) ++ '\n' :: pad 2

/-- The rule of a node as it is read back. -/
def ruleOf (n : Node) : Rule :=
  ⟨n.id.toList, n.widget.styles.entries.map fun e => (e.1.toList, e.2.toList)⟩

theorem linesText_ruleLines (g : Source.Writer) (n : Node) :
    linesText (g.ruleLines n) = ('\n' :: g.pad 2) ++ '.' :: (n.id.toList ++ ' ' :: '\x7b' ::
      (bodyText g.pad n.widget.styles ++ ['\x7d'])) := by
  have hmap : ∀ entries : List (String × String),
      linesText (entries.map fun e => g.pad 3 ++ e.1.toList ++ ": ".toList ++ e.2.toList ++ [';'])
        = entries.flatMap (declarationText (g.pad 3)) := by
    intro entries
    rw [linesText, List.flatMap_map]
    rfl
  rw [Source.Writer.ruleLines, List.cons_append, linesText_cons, linesText_append, hmap, bodyText]
  simp [linesText]

theorem blank_pad (g : Source.Writer) (level : Nat) : Blank (g.pad level) := by
  intro c hc
  rw [(List.mem_replicate.mp hc).2]
  decide

theorem ReadableStyles.unmarked {styles : Dict String} (h : ReadableStyles styles) :
    UnmarkedStyles styles := by
  intro e he
  obtain ⟨hname, hvalue⟩ := h e he
  exact ⟨unmarked_of_isPropertyName hname, hvalue.unmarked⟩

theorem unmarked_bodyText (g : Source.Writer) {styles : Dict String} (h : UnmarkedStyles styles) :
    Unmarked (bodyText g.pad styles) := by
  refine Unmarked.append ?_ (unmarked_of_blank (blank_indent (blank_pad g) 2))
  intro c hc
  obtain ⟨e, he, hmem⟩ := List.mem_flatMap.mp hc
  obtain ⟨hname, hvalue⟩ := h e he
  simp only [declarationText, List.mem_cons, List.mem_append, List.not_mem_nil, or_false] at hmem
  rcases hmem with rfl | (((hc | hc) | hc) | hc) | rfl
  · decide
  · exact unmarked_of_blank (blank_pad g 3) c hc
  · exact hname c hc
  · have hcolon : ∀ d ∈ ": ".toList, d ≠ '<' ∧ d ≠ '\x7b' ∧ d ≠ '\x7d' := by simp
    exact hcolon c hc
  · exact hvalue c hc
  · decide

theorem rules_cons (c : Char) (rest : List Char) :
    rules (c :: rest) =
      match ruleText? (c :: rest) with
      | some (name, body, after) => ⟨name, declarations body⟩ :: rules after
      | none => rules rest := by
  rw [rules]
  split
  next h => rw [h]
  next h => rw [h]

/-- A rule starts with its dot only. -/
theorem rules_skip {c : Char} (hc : c ≠ '.') (rest : List Char) :
    rules (c :: rest) = rules rest := by
  have hnone : ruleText? (c :: rest) = none := by
    rw [ruleText?.eq_def]
    split
    next heq => cases heq; exact absurd rfl hc
    next => rfl
  rw [rules_cons, hnone]

theorem rules_blank {cs : List Char} (hcs : Blank cs) (rest : List Char) :
    rules (cs ++ rest) = rules rest := by
  induction cs with
  | nil => rfl
  | cons c cs ih =>
      have hc : c ≠ '.' := ne_of_mem_of_not_mem List.mem_cons_self (hcs.not_mem (by decide))
      rw [List.cons_append, rules_skip hc]
      exact ih fun d hd => hcs d (List.mem_cons_of_mem _ hd)

theorem ruleText?_append {name gap body : List Char} (hname : isClassName name = true)
    (hgap : Blank gap) (hbody : '\x7d' ∉ body) (rest : List Char) :
    ruleText? ('.' :: (name ++ (gap ++ '\x7b' :: (body ++ '\x7d' :: rest)))) =
      some (name, body, rest) := by
  obtain ⟨hne, hchars⟩ := isClassName_eq_true hname
  have hopen := stops_gap (fun _ => isBlank_of_isClassChar) hgap (c := '\x7b') (by decide)
    (body ++ '\x7d' :: rest)
  have hstop : Stops isBlank ('\x7b' :: (body ++ '\x7d' :: rest)) := stops_cons (by decide)
  have hend : Stops (fun c => decide (c ≠ '\x7d')) ('\x7d' :: rest) := stops_cons (by decide)
  have hinside : ∀ c ∈ body, decide (c ≠ '\x7d') = true := fun c hc => by
    simpa using ne_of_mem_of_not_mem hc hbody
  simp only [ruleText?, hopen.takeWhile_append hchars, hopen.dropWhile_append hchars,
    hstop.dropWhile_append hgap]
  rw [if_neg (by simpa using hne)]
  simp only [hend.dropWhile_append hinside, hend.takeWhile_append hinside]

/-- A rule behind blanks is read, and then what follows it. -/
theorem rules_append {indent name gap body : List Char} (hindent : Blank indent)
    (hname : isClassName name = true) (hgap : Blank gap) (hbody : '\x7d' ∉ body)
    (rest : List Char) :
    rules (indent ++ '.' :: (name ++ (gap ++ '\x7b' :: (body ++ '\x7d' :: rest)))) =
      ⟨name, declarations body⟩ :: rules rest := by
  rw [rules_blank hindent, rules_cons, ruleText?_append hname hgap hbody]

/-- The written rules of nodes are read as their rules, up to blanks behind them. -/
theorem rules_ruleLines (g : Source.Writer) {nodes : List Node}
    (h : ∀ n ∈ nodes, isClassName n.id.toList = true ∧ ReadableStyles n.widget.styles)
    {tail : List Char} (htail : Blank tail) :
    rules (linesText (nodes.flatMap g.ruleLines) ++ tail) = nodes.map ruleOf := by
  induction nodes with
  | nil =>
      have hnil := rules_blank htail []
      rw [List.append_nil, rules] at hnil
      exact hnil
  | cons n ns ih =>
      obtain ⟨⟨hid, hstyles⟩, hns⟩ := List.forall_mem_cons.mp h
      have hbody : declarations (bodyText g.pad n.widget.styles) = (ruleOf n).declarations :=
        declarations_flatMap (blank_pad g 3) hstyles (blank_indent (blank_pad g) 2)
      have hinside : '\x7d' ∉ bodyText g.pad n.widget.styles := fun hmem =>
        (unmarked_bodyText g hstyles.unmarked _ hmem).2.2 rfl
      have hsplit : linesText ((n :: ns).flatMap g.ruleLines) ++ tail =
          ('\n' :: g.pad 2) ++ '.' :: (n.id.toList ++ ([' '] ++ '\x7b' ::
            (bodyText g.pad n.widget.styles ++ '\x7d' ::
              (linesText (ns.flatMap g.ruleLines) ++ tail)))) := by
        rw [List.flatMap_cons, linesText_append, linesText_ruleLines]
        simp
      have hspace : Blank [' '] := blank_nil.cons (by decide)
      rw [hsplit, rules_append (blank_indent (blank_pad g) 2) hid hspace hinside, hbody, ih hns]
      rfl

theorem ofDeclarations_entries (styles : Dict String) :
    ofDeclarations (styles.entries.map fun e => (e.1.toList, e.2.toList)) = styles := by
  rw [ofDeclarations, List.map_map]
  have hid : (fun d : Declaration => (String.ofList d.1, String.ofList d.2)) ∘
      (fun e : String × String => (e.1.toList, e.2.toList)) = id := by
    funext e
    simp
  rw [hid, List.map_id, Dict.ofList_entries]

/-- What holds of all declarations holds of what they set. -/
theorem forall_get?_ofDeclarations {P : Declaration → Prop} {ds : List Declaration}
    (hds : ∀ d ∈ ds, P d) {k v : String} (hget : (ofDeclarations ds).get? k = some v) :
    P (k.toList, v.toList) := by
  rw [ofDeclarations, Dict.get?_ofList] at hget
  obtain ⟨front, behind, hsplit, _⟩ := List.lookup_eq_some_iff.mp hget
  have hmem : (k, v) ∈ (ds.map fun d => (String.ofList d.1, String.ofList d.2)).reverse := by
    rw [hsplit]
    exact List.mem_append_right _ List.mem_cons_self
  obtain ⟨d, hd, heq⟩ := List.mem_map.mp (List.mem_reverse.mp hmem)
  cases heq
  rw [String.toList_ofList, String.toList_ofList]
  exact hds d hd

end Tandem.Style
