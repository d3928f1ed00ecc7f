import Mathlib.Data.List.Nodup
import Tandem.Proofs.Markup.Piece
import Tandem.Proofs.Style.Sheet

/-!
# Which declaration wins

The text of a style block is a sequence of rules with blanks wherever they may stand
(`SheetText`), and its rules are read as they stand there (`SheetText.rules`). What a list of
classes then sets a property to is said by the rules alone (`styleOf?`):

* **within a class** — `value?_ofRules`: of all rules of the class, in any number of them and
  with others in between, the last declaration;
* **among classes** — `get?_cascade`: the last listed class that declares the property,
  wherever its rules stand;
* **inline** — only what no listed class declares.

If no two nodes have the same id then the class of a node's id adds up to what the node was
styled with (`cascade_ruleOf`).
-/

namespace Tandem.Style

open Text Markup

/-! ## The text of a style block -/

/-- Texts of the items of a list, one behind the other. -/
inductive Sequence {α : Type} (text : α → List Char → Prop) : List α → List Char → Prop where
  | nil : Sequence text [] []
  | cons {a : α} {cs : List Char} {as : List α} {rest : List Char} (head : text a cs)
      (tail : Sequence text as rest) : Sequence text (a :: as) (cs ++ rest)

/-- A declaration, with any blanks in front of it and between its parts. -/
inductive DeclarationText : Declaration → List Char → Prop where
  | mk {indent name gap before value after : List Char} (hindent : Blank indent)
      (hname : isPropertyName name = true) (hgap : Blank gap) (hbefore : Blank before)
      (hvalue : ReadableValue value) (hafter : Blank after) :
      DeclarationText (name, value)
        (indent ++ (name ++ (gap ++ ':' :: (before ++ (value ++ (after ++ [';']))))))

/-- A rule of any declarations, with any blanks in front of it and between its parts. -/
inductive RuleText : Rule → List Char → Prop where
  | mk {indent name gap body tail : List Char} {ds : List Declaration} (hindent : Blank indent)
      (hname : isClassName name = true) (hgap : Blank gap)
      (hbody : Sequence DeclarationText ds body) (htail : Blank tail) :
      RuleText ⟨name, ds⟩
        (indent ++ '.' :: (name ++ (gap ++ '\x7b' :: (body ++ (tail ++ ['\x7d'])))))

/-- The inside of a style block that is a sequence of rules. -/
def SheetText (rs : List Rule) (cs : List Char) : Prop :=
  ∃ body tail, cs = body ++ tail ∧ Sequence RuleText rs body ∧ Blank tail

section

variable {α : Type} {text : α → List Char → Prop}

/-- What holds of the text of every item, and of texts one behind the other, holds of a
sequence. -/
theorem Sequence.induction {P : List Char → Prop} (hnil : P [])
    (happend : ∀ a b, P a → P b → P (a ++ b)) (htext : ∀ a cs, text a cs → P cs) {as : List α}
    {cs : List Char} (h : Sequence text as cs) : P cs := by
  induction h with
  | nil => exact hnil
  | cons head _ ih => exact happend _ _ (htext _ _ head) ih

/-- A reader that takes the items one by one takes the sequence. -/
theorem Sequence.read {read : List Char → List α}
    (hread : ∀ a cs rest, text a cs → read (cs ++ rest) = a :: read rest) {as : List α}
    {cs : List Char} (h : Sequence text as cs) (rest : List Char) :
    read (cs ++ rest) = as ++ read rest := by
  induction h with
  | nil => rfl
  | cons head _ ih => rw [List.append_assoc, hread _ _ _ head, ih, List.cons_append]

end

theorem DeclarationText.declarations_append {d : Declaration} {cs : List Char}
    (h : DeclarationText d cs) (rest : List Char) :
    declarations (cs ++ rest) = d :: declarations rest := by
  obtain ⟨hindent, hname, hgap, hbefore, hvalue, hafter⟩ := h
  simp only [List.append_assoc, List.cons_append, List.nil_append]
  exact Style.declarations_append hindent hname hgap hbefore hvalue hafter rest

theorem DeclarationText.unmarked {d : Declaration} {cs : List Char} (h : DeclarationText d cs) :
    Unmarked cs := by
  obtain ⟨hindent, hname, hgap, hbefore, hvalue, hafter⟩ := h
  have hcolon : Unmarked [':'] := by simp [Unmarked]
  have hsemi : Unmarked [';'] := by simp [Unmarked]
  rw [List.append_cons]
  exact (unmarked_of_blank hindent).append ((unmarked_of_isPropertyName hname).append
    (((unmarked_of_blank hgap).append hcolon).append ((unmarked_of_blank hbefore).append
      (hvalue.unmarked.append ((unmarked_of_blank hafter).append hsemi)))))

theorem Sequence.unmarked {ds : List Declaration} {cs : List Char}
    (h : Sequence DeclarationText ds cs) : Unmarked cs :=
  h.induction (List.forall_mem_nil _) (fun _ _ => Unmarked.append)
    fun _ _ hd => hd.unmarked

theorem RuleText.rules_append {r : Rule} {cs : List Char} (h : RuleText r cs)
    (rest : List Char) : rules (cs ++ rest) = r :: rules rest := by
  cases h with
  | @mk indent name gap body tail ds hindent hname hgap hbody htail =>
      have hinside : '\x7d' ∉ body ++ tail := fun hmem =>
        (hbody.unmarked.append (unmarked_of_blank htail) _ hmem).2.2 rfl
      have hread : declarations (body ++ tail) = ds := by
        have hnil := declarations_blank htail []
        rw [List.append_nil, declarations] at hnil
        rw [hbody.read (fun _ _ rest hd => hd.declarations_append rest) tail, hnil,
          List.append_nil]
      have hrule := Style.rules_append hindent hname hgap hinside rest
      rw [hread] at hrule
      simpa only [List.append_assoc, List.cons_append, List.nil_append] using hrule

theorem RuleText.whole {r : Rule} {cs : List Char} (h : RuleText r cs) : Whole cs := by
  cases h with
  | @mk indent name gap body tail ds hindent hname hgap hbody htail =>
      have hdot : Unmarked ['.'] := by simp [Unmarked]
      have hfront : Unmarked (indent ++ (['.'] ++ (name ++ gap))) :=
        (unmarked_of_blank hindent).append (hdot.append
          ((unmarked_of_isClassChar (isClassName_eq_true hname).2).append (unmarked_of_blank hgap)))
      have hinside := (hbody.unmarked.append (unmarked_of_blank htail)).braceFree.whole
      have hsplit : indent ++ '.' :: (name ++ (gap ++ '\x7b' :: (body ++ (tail ++ ['\x7d'])))) =
          (indent ++ (['.'] ++ (name ++ gap))) ++ '\x7b' :: (body ++ tail ++ ['\x7d']) := by
        simp
      rw [hsplit]
      exact hfront.braceFree.whole.append hinside.block

/-- The rules of a style block are read as they stand there. -/
theorem SheetText.rules {rs : List Rule} {cs : List Char} (h : SheetText rs cs) :
    rules cs = rs := by
  obtain ⟨body, tail, rfl, hbody, htail⟩ := h
  have hnil := rules_blank htail []
  rw [List.append_nil, Style.rules] at hnil
  rw [hbody.read (fun _ _ rest hr => hr.rules_append rest) tail, hnil, List.append_nil]

theorem SheetText.whole {rs : List Rule} {cs : List Char} (h : SheetText rs cs) : Whole cs := by
  obtain ⟨body, tail, rfl, hbody, htail⟩ := h
  exact (hbody.induction BraceFree.nil.whole (fun _ _ => Whole.append) fun _ _ hr =>
    hr.whole).append (unmarked_of_blank htail).braceFree.whole

/-! ## Within a class -/

/-- The value that declarations give a property: the last one. -/
def lastValue? (key : String) (ds : List Declaration) : Option String :=
  (ds.reverse.find? (·.1 = key.toList)).map fun d => String.ofList d.2

theorem lastValue?_append (key : String) (ds es : List Declaration) :
    lastValue? key (ds ++ es) = (lastValue? key es).or (lastValue? key ds) := by
  rw [lastValue?, List.reverse_append, List.find?_append, Option.map_or]
  rfl

theorem get?_ofDeclarations (ds : List Declaration) (key : String) :
    (ofDeclarations ds).get? key = lastValue? key ds := by
  rw [ofDeclarations, Dict.get?_ofList, ← List.map_reverse, lastValue?]
  induction ds.reverse with
  | nil => rfl
  | cons d rest ih =>
      rw [List.map_cons, lookup_cons_ite, ih, List.find?_cons]
      by_cases hd : d.1 = key.toList
      · simp [hd]
      · have hkey : key ≠ String.ofList d.1 := by
          rintro rfl
          exact hd String.toList_ofList.symm
        simp [hd, hkey]

/-- All declarations of a class, in the order of its rules. -/
def declarationsOf (rs : List Rule) (c : String) : List Declaration :=
  (rs.filter (·.name = c.toList)).flatMap (·.declarations)

theorem declarationsOf_cons (r : Rule) (rs : List Rule) (c : String) :
    declarationsOf (r :: rs) c =
      if r.name = c.toList then r.declarations ++ declarationsOf rs c
      else declarationsOf rs c := by
  rw [declarationsOf, List.filter_cons]
  by_cases hc : r.name = c.toList
  · rw [if_pos (by simpa using hc), if_pos hc, List.flatMap_cons]
    rfl
  · rw [if_neg (by simpa using hc), if_neg hc]
    rfl

/-- What a class sets a property to. -/
def Sheet.value? (s : Sheet) (c key : String) : Option String :=
  ((s.get? c).getD .empty).get? key

/-- A rule comes over the earlier ones of its class and leaves the other classes. -/
theorem Sheet.value?_addRule (s : Sheet) (r : Rule) (c key : String) :
    (s.addRule r).value? c key =
      if r.name = c.toList then (lastValue? key r.declarations).or (s.value? c key)
      else s.value? c key := by
  have hname : c = String.ofList r.name ↔ r.name = c.toList := by
    constructor
    · rintro rfl
      exact String.toList_ofList.symm
    · intro h
      rw [h, String.ofList_toList]
  rw [Sheet.addRule]
  split
  next hnone =>
    rw [List.isEmpty_iff.mp hnone]
    split <;> rfl
  next =>
    rw [Sheet.value?, Dict.get?_insert]
    by_cases hc : r.name = c.toList
    · rw [if_pos (hname.mpr hc), if_pos hc, Option.getD_some, Dict.get?_merge,
        get?_ofDeclarations, ← hname.mpr hc]
      rfl
    · rw [if_neg (fun h => hc (hname.mp h)), if_neg hc]
      rfl

/-- Of all rules of a class the last declaration of a property counts. -/
theorem value?_ofRules (rs : List Rule) (c key : String) :
    (Sheet.ofRules rs).value? c key = lastValue? key (declarationsOf rs c) := by
  have hfold : ∀ s : Sheet, (rs.foldl Sheet.addRule s).value? c key =
      (lastValue? key (declarationsOf rs c)).or (s.value? c key) := by
    induction rs with
    | nil => exact fun s => rfl
    | cons r rs ih =>
        intro s
        rw [List.foldl_cons, ih, Sheet.value?_addRule, declarationsOf_cons]
        split
        next => rw [lastValue?_append, Option.or_assoc]
        next => rfl
  rw [Sheet.ofRules, hfold]
  exact Option.or_none

/-! ## Among classes -/

/-- What a property is set to: by the last listed class that declares it, and if none does, by
the inline declarations. -/
def styleOf? (rs : List Rule) (classes : List String) (inline : List Declaration)
    (key : String) : Option String :=
  (classes.reverse.findSome? fun c => lastValue? key (declarationsOf rs c)).or
    (lastValue? key inline)

theorem Sheet.get?_cascade (s : Sheet) (inline : Dict String) (classes : List String)
    (key : String) : (s.cascade inline classes).get? key =
      (classes.reverse.findSome? fun c => s.value? c key).or (inline.get? key) := by
  rw [Sheet.cascade]
  induction classes generalizing inline with
  | nil => rfl
  | cons c classes ih =>
      rw [List.foldl_cons, ih, Dict.get?_merge, List.reverse_cons, List.findSome?_append,
        List.findSome?_singleton, Option.or_assoc]
      rfl

/-- **The cascade by the rules alone.** -/
theorem get?_cascade_ofRules (rs : List Rule) (inline : List Declaration)
    (classes : List String) (key : String) :
    ((Sheet.ofRules rs).cascade (ofDeclarations inline) classes).get? key =
      styleOf? rs classes inline key := by
  rw [Sheet.get?_cascade, get?_ofDeclarations]
  simp only [value?_ofRules]
  rfl

/-! ## Rules of different classes -/

theorem declarationsOf_eq_nil {rs : List Rule} {c : String} (h : ∀ r ∈ rs, r.name ≠ c.toList) :
    declarationsOf rs c = [] := by
  rw [declarationsOf, List.filter_eq_nil_iff.mpr fun r hr => by simpa using h r hr]
  rfl

/-- Where no two nodes have the same id, the class of a node has the declarations of its own
rule, if there is one. -/
theorem declarationsOf_nodes {nodes : List Node} (hdistinct : (nodes.map (·.id)).Nodup)
    (p : Node → Bool) (ds : Node → List Declaration) {n : Node} (hn : n ∈ nodes) :
    declarationsOf ((nodes.filter p).map fun m => ⟨m.id.toList, ds m⟩) n.id =
      if p n then ds n else [] := by
  induction nodes with
  | nil => cases hn
  | cons m ms ih =>
      obtain ⟨hm, hms⟩ := List.nodup_cons.mp hdistinct
      have hother : ∀ o ∈ ms, o.id.toList ≠ m.id.toList := fun o ho hname =>
        hm (List.mem_map.mpr ⟨o, ho, String.toList_inj.mp hname⟩)
      rw [List.filter_cons]
      by_cases heq : m = n
      · subst heq
        have hothers : declarationsOf ((ms.filter p).map fun m => ⟨m.id.toList, ds m⟩) m.id =
            [] :=
          declarationsOf_eq_nil (List.forall_mem_map.mpr fun o ho =>
            hother o (List.mem_filter.mp ho).1)
        split
        next => rw [List.map_cons, declarationsOf_cons, if_pos rfl, hothers, List.append_nil]
        next => exact hothers
      · have hmem := List.mem_of_ne_of_mem (Ne.symm heq) hn
        have hname := (hother n hmem).symm
        split
        next => rw [List.map_cons, declarationsOf_cons, if_neg hname, ih hms hmem]
        next => exact ih hms hmem

/-- One class adds up to its own declarations. -/
theorem cascade_singleton (rs : List Rule) (c : String) :
    (Sheet.ofRules rs).cascade .empty [c] = ofDeclarations (declarationsOf rs c) := by
  refine Dict.ext_get? fun key => ?_
  rw [Sheet.get?_cascade, get?_ofDeclarations, List.reverse_singleton, List.findSome?_singleton,
    value?_ofRules, Dict.get?_empty, Option.or_none]

/-- **What a node was styled with is what its id adds up to.** -/
theorem cascade_ruleOf {nodes : List Node} (hdistinct : (nodes.map (·.id)).Nodup) {n : Node}
    (hn : n ∈ nodes) :
    (Sheet.ofRules ((nodes.filter fun n => !n.widget.styles.isEmpty).map ruleOf)).cascade
      .empty [n.id] = n.widget.styles := by
  have hds := declarationsOf_nodes hdistinct (fun n => !n.widget.styles.isEmpty)
    (fun n => (ruleOf n).declarations) hn
  rw [cascade_singleton]
  refine (congrArg ofDeclarations hds).trans ?_
  split
  next => exact ofDeclarations_entries n.widget.styles
  next hstyled =>
    have hempty : n.widget.styles.isEmpty = true := by simpa using hstyled
    rw [Dict.isEmpty_iff.mp hempty]
    rfl

end Tandem.Style
