import Tandem.Proofs.Source.Named
import Tandem.Proofs.Source.Search

/-!
# Which texts of a forest can stand for a header

What a forest holds is written between characters that divide a text, so a page's header
stands in a written text only if one stands in a text of the forest, and then in one that is
written as it is (`declaresPage_bodyOf`):

* **tags** (`InTag`) have the names of a component and its attributes, properties, handlers,
  and the id as a class;
* **rules** (`InRule`) have the id as a selector, and the declarations.

The text between tags is not among them, for its braces are written as references. A text in
quotes is: escaping leaves its braces alone. So a page always keeps its header, but a
component keeps it exactly as long as no such text has a page's header
(`written_keeps_header`). What keeps its header is read as what its body means
(`read?_write`). Where the nodes have names, as those of a document have that was read, names
and ids are out of the question, so it is enough to look at what the nodes hold
(`plain_of_held`).
-/

namespace Tandem

open Text Markup Style

/-! ## Tags -/

namespace Markup

/-- An attribute's value without its quotes or braces. -/
def AttrValue.inside : AttrValue → List Char
  | .quoted cs => cs
  | .braced cs => cs
  | .bare => []

/-- An attribute without its value. -/
def Attr.frame (a : Attr) : List Char :=
  match a.value with
  | .bare => ' ' :: a.name
  | _ => ' ' :: (a.name ++ ['='])

/-- The start of a tag without the values of its attributes. -/
def frameText (name : List Char) (attrs : List Attr) : List Char := name ++ attrs.flatMap Attr.frame

end Markup

namespace Source

/-- A value stands between characters that divide the text. -/
theorem declaresPage_value {opening closing : Char} (hopening : isWord opening = false)
    (hclosing : isBorder closing = true) (x cs rest : List Char) :
    DeclaresPage (x ++ '=' :: opening :: (cs ++ closing :: rest)) ↔
      DeclaresPage x ∨ DeclaresPage cs ∨ DeclaresPage rest := by
  rw [declaresPage_divided (by decide), declaresPage_cons hopening,
    declaresPage_divided hclosing]

/-- A header in a tag is one in its frame or in a value. -/
theorem declaresPage_attrsText (attrs : List Attr) {y : List Char} (hy : '\x7b' ∉ y)
    (x rest : List Char) :
    DeclaresPage (x ++ (attrsText attrs ++ (y ++ '>' :: rest))) ↔
      DeclaresPage (frameText x attrs) ∨ (∃ a ∈ attrs, DeclaresPage a.value.inside) ∨
        DeclaresPage rest := by
  induction attrs generalizing x with
  | nil =>
      rw [attrsText, List.flatMap_nil, List.nil_append, ← List.append_assoc,
        declaresPage_divided (by decide), declaresPage_append_plain hy, frameText,
        List.flatMap_nil, List.append_nil]
      simp
  | cons a as ih =>
      have htext : x ++ (attrsText (a :: as) ++ (y ++ '>' :: rest)) =
          x ++ ' ' :: (a.text ++ (attrsText as ++ (y ++ '>' :: rest))) := by
        rw [attrsText, List.flatMap_cons, List.append_assoc]
        rfl
      have hframe : frameText x (a :: as) = frameText (x ++ a.frame) as := by
        rw [frameText, List.flatMap_cons, frameText, List.append_assoc]
      have hsplit : ∀ z, DeclaresPage (frameText (x ++ ' ' :: (z ++ ['='])) as) ↔
          DeclaresPage (x ++ ' ' :: z) ∨ DeclaresPage (frameText [] as) := by
        intro z
        rw [frameText, frameText, List.nil_append,
          ← declaresPage_divided (c := '=') (by decide)]
        simp only [List.append_assoc, List.cons_append, List.nil_append]
      have hrest := ih []
      rw [List.nil_append] at hrest
      rw [htext, hframe, List.exists_mem_cons_iff, Attr.text, Attr.frame]
      cases a.value with
      | bare =>
          have hnone : ¬ DeclaresPage (AttrValue.inside .bare) :=
            not_declaresPage_of_blank blank_nil
          have hbare : x ++ ' ' :: (a.name ++ (attrsText as ++ (y ++ '>' :: rest))) =
              (x ++ ' ' :: a.name) ++ (attrsText as ++ (y ++ '>' :: rest)) := by
            rw [List.append_assoc, List.cons_append]
          rw [hbare, ih, or_iff_right hnone]
      | quoted cs =>
          have hquoted : x ++ ' ' :: (a.name ++ '=' :: '"' :: (cs ++ ['"']) ++
              (attrsText as ++ (y ++ '>' :: rest))) =
                (x ++ ' ' :: a.name) ++ '=' :: '"' ::
                  (cs ++ '"' :: (attrsText as ++ (y ++ '>' :: rest))) := by
            simp only [List.append_assoc, List.cons_append, List.nil_append]
          rw [hquoted, declaresPage_value (by decide) (by decide), hrest, hsplit,
            AttrValue.inside]
          simp only [or_assoc, or_left_comm]
      | braced cs =>
          have hbraced : x ++ ' ' :: (a.name ++ '=' :: '\x7b' :: (cs ++ ['\x7d']) ++
              (attrsText as ++ (y ++ '>' :: rest))) =
                (x ++ ' ' :: a.name) ++ '=' :: '\x7b' ::
                  (cs ++ '\x7d' :: (attrsText as ++ (y ++ '>' :: rest))) := by
            simp only [List.append_assoc, List.cons_append, List.nil_append]
          rw [hbraced, declaresPage_value (by decide) (by decide), hrest, hsplit,
            AttrValue.inside]
          simp only [or_assoc, or_left_comm]

/-! ## Texts of a node -/

/-- A value as it is written in an attribute, before anything is escaped. -/
def writtenText : Json → List Char
  | .str s => s.toList
  | v => Json.print v

/-- The start of a node's tag without the values of the attributes. -/
def frameOf (n : Node) : List Char :=
  frameText n.widget.component.toList
    (attrsOf (fun _ => []) 0 n.id n.widget (innerProp? n))

/-- The texts that stand in the tag of a node: names, properties, the id and handlers. -/
inductive InTag (n : Node) : List Char → Prop
  | frame : InTag n (frameOf n)
  | prop {name : String} {v : Json} (hget : n.widget.props.get? name = some v)
      (hattr : propAttr? (Catalog.find? n.widget.component) (innerProp? n) name v ≠ none) :
      InTag n (writtenText v)
  | id : InTag n n.id.toList
  | handler {name body : String} (hget : n.widget.events.get? name = some body)
      (hbody : isBlankString body = false) : InTag n body.toList

/-- The texts that stand in the rule of a node: the selector, and the declarations. -/
inductive InRule (n : Node) : List Char → Prop
  | selector (hstyled : n.widget.styles.isEmpty = false) : InRule n (n.id.toList ++ [' ', '\x7b'])
  | property {name value : String} (hget : n.widget.styles.get? name = some value) :
      InRule n name.toList
  | value {name value : String} (hget : n.widget.styles.get? name = some value) :
      InRule n value.toList

/-- The texts of a forest that are written as they are. -/
def Exposed (f : Forest) (cs : List Char) : Prop :=
  (∃ n ∈ shown f, InTag n cs) ∨ ∃ n ∈ f.preorder, InRule n cs

/-- Values are exposed whether they are quoted or braced. -/
theorem declaresPage_inside {name : String} {v : Json} {value : AttrValue}
    (hvalue : attrValue? name v = some value) :
    DeclaresPage value.inside ↔ DeclaresPage (writtenText v) := by
  have hplain : ∀ {cs ds : List Char}, '\x7b' ∉ cs → '\x7b' ∉ ds →
      (DeclaresPage cs ↔ DeclaresPage ds) := by
    intro cs ds hcs hds
    exact iff_of_false (fun h => hcs h.brace_mem) fun h => hds h.brace_mem
  cases v with
  | null => cases hvalue
  | bool b =>
      cases b with
      | true =>
          cases hvalue
          exact hplain List.not_mem_nil (by decide)
      | false =>
          cases hvalue
          exact hplain (by decide) (by decide)
  | num n =>
      cases hvalue
      rfl
  | str s =>
      rw [attrValue?] at hvalue
      split at hvalue
      next => cases hvalue
      next =>
        split at hvalue
        next =>
          cases hvalue
          rfl
        next =>
          cases hvalue
          exact declaresPage_escapeAttribute s.toList
  | arr items =>
      cases hvalue
      rfl
  | obj fields =>
      cases hvalue
      rfl

section

variable {pad : Nat → List Char}

/-- A wrapped handler is its body between blanks. -/
theorem declaresPage_wrap (hpad : ∀ l, Blank (pad l)) (level : Nat) (body : String) :
    DeclaresPage (wrap pad level body) ↔ DeclaresPage body.toList := by
  obtain ⟨a, cs, b, hwrap, ha, hb, htrim⟩ := wrap_eq hpad level body
  have harrow : arrow (a ++ (cs ++ b)) =
      ['(', ')', ' ', '='] ++ '>' :: ' ' :: '\x7b' :: ((a ++ (cs ++ b)) ++ '\x7d' :: []) := rfl
  rw [hwrap, harrow, declaresPage_skip (by decide) (by decide),
    declaresPage_cons (by decide), declaresPage_cons (by decide),
    declaresPage_divided (by decide), or_iff_left (not_declaresPage_of_blank blank_nil),
    declaresPage_surrounded ha hb, ← declaresPage_trim cs, htrim, declaresPage_trim]

variable (pad) in
/-- The level of nesting matters to the bodies of handlers only. -/
theorem frameText_attrsOf (level : Nat) (n : Node) :
    frameText n.widget.component.toList
      (attrsOf pad level n.id n.widget (innerProp? n)) = frameOf n := by
  have hhandlers : ∀ entries : List (String × String),
      (entries.map fun e => (⟨e.1.toList, .braced (wrap pad level e.2)⟩ : Attr)).flatMap
          Attr.frame =
        (entries.map fun e => (⟨e.1.toList, .braced (wrap (fun _ => []) 0 e.2)⟩ : Attr)).flatMap
          Attr.frame := by
    intro entries
    rw [List.flatMap_map, List.flatMap_map]
    rfl
  rw [frameOf, frameText, frameText, attrsOf, attrsOf]
  simp only [List.flatMap_append, List.flatMap_cons, hhandlers]

/-- A header in a value of the tag is one in a text of the node. -/
theorem declaresPage_attrsOf (hpad : ∀ l, Blank (pad l)) (level : Nat) (n : Node) :
    DeclaresPage (frameOf n) ∨
      (∃ a ∈ attrsOf pad level n.id n.widget (innerProp? n), DeclaresPage a.value.inside) ↔
        ∃ cs, InTag n cs ∧ DeclaresPage cs := by
  simp only [attrsOf, List.mem_append, List.mem_cons, List.mem_filterMap, List.mem_map,
    List.mem_filter]
  constructor
  · rintro (h | ⟨a, ⟨⟨name, v⟩, hmem, hattr⟩ | rfl | ⟨⟨name, body⟩, ⟨hmem, hbody⟩, rfl⟩, h⟩)
    · exact ⟨_, .frame, h⟩
    · have hget := Dict.mem_entries_iff.mp (mem_orderedProps.mp hmem)
      have hsome : propAttr? (Catalog.find? n.widget.component) (innerProp? n) name v ≠ none := by
        rw [hattr]
        exact Option.some_ne_none a
      obtain ⟨value, hvalue, rfl⟩ := propAttr?_eq_some hattr
      exact ⟨_, .prop hget hsome, (declaresPage_inside hvalue).mp h⟩
    · exact ⟨_, .id, h⟩
    · refine ⟨_, .handler (Dict.mem_entries_iff.mp hmem) (by simpa using hbody), ?_⟩
      exact (declaresPage_wrap hpad level body).mp h
  · rintro ⟨cs, hcs, h⟩
    cases hcs with
    | frame => exact .inl h
    | @prop name v hget hattr =>
        obtain ⟨a, ha⟩ := Option.ne_none_iff_exists'.mp hattr
        refine .inr ⟨a, .inl ⟨(name, v), ?_, ha⟩, ?_⟩
        · exact mem_orderedProps.mpr (Dict.mem_entries_iff.mpr hget)
        · obtain ⟨value, hvalue, rfl⟩ := propAttr?_eq_some ha
          exact (declaresPage_inside hvalue).mpr h
    | id => exact .inr ⟨_, .inr (.inl rfl), h⟩
    | @handler name body hget hbody =>
        refine .inr ⟨_, .inr (.inr ⟨(name, body), ⟨?_, ?_⟩, rfl⟩), ?_⟩
        · exact Dict.mem_entries_iff.mpr hget
        · rw [hbody]
          rfl
        · exact (declaresPage_wrap hpad level body).mpr h

/-! ## Markup -/

theorem declaresPage_openText (name : List Char) (attrs : List Attr) {y : List Char}
    (hy : '\x7b' ∉ y) (rest : List Char) :
    DeclaresPage (openText name attrs ++ (y ++ '>' :: rest)) ↔
      (DeclaresPage (frameText name attrs) ∨ ∃ a ∈ attrs, DeclaresPage a.value.inside) ∨
        DeclaresPage rest := by
  have htext : openText name attrs ++ (y ++ '>' :: rest) =
      '<' :: (name ++ (attrsText attrs ++ (y ++ '>' :: rest))) := by
    rw [openText, List.cons_append, List.append_assoc]
    rfl
  rw [htext, declaresPage_cons (by decide), declaresPage_attrsText attrs hy, or_assoc]

theorem declaresPage_closeText (name rest : List Char) :
    DeclaresPage (closeText name ++ rest) ↔ DeclaresPage name ∨ DeclaresPage rest := by
  have htext : closeText name ++ rest = '<' :: '/' :: (name ++ '>' :: rest) := by
    rw [closeText, List.cons_append, List.cons_append, List.append_assoc]
    rfl
  rw [htext, declaresPage_cons (by decide), declaresPage_cons (by decide),
    declaresPage_divided (by decide)]

/-- The name at the end of an element is the one at its start. -/
theorem declaresPage_frameText {name : List Char} {attrs : List Attr} {p q : Prop} :
    (DeclaresPage (frameText name attrs) ∨ p) ∨ (DeclaresPage name ∨ q) ↔
      (DeclaresPage (frameText name attrs) ∨ p) ∨ q := by
  have hname : DeclaresPage name → DeclaresPage (frameText name attrs) := fun h => h.append _
  tauto

/-- Braces between tags are references. -/
theorem brace_not_mem_escapeText (cs : List Char) : '\x7b' ∉ escapeText cs := by
  intro hmem
  exact (unmarked_escapeText cs _ hmem).2.1 rfl

/-- The end of a line with a closing tag. -/
theorem declaresPage_lastLine (hpad : ∀ l, Blank (pad l)) (level : Nat)
    (name rest : List Char) :
    DeclaresPage ('\n' :: (pad level ++ closeText name) ++ rest) ↔
      DeclaresPage name ∨ DeclaresPage rest := by
  rw [← List.cons_append, List.append_assoc, declaresPage_blanks (blank_indent hpad level),
    declaresPage_closeText]

/-- An element around others adds its tag to what they expose. -/
theorem declaresPage_nest (hpad : ∀ l, Blank (pad l)) (level : Nat) (name : List Char)
    (attrs : List Attr) {es : List Element} {p : Prop}
    (hes : ∀ rest, DeclaresPage (linesText (Element.linesAll pad (level + 1) es) ++ rest) ↔
      p ∨ DeclaresPage rest) (rest : List Char) :
    DeclaresPage (linesText (Element.lines pad level (.nest name attrs es)) ++ rest) ↔
      (DeclaresPage (frameText name attrs) ∨ ∃ a ∈ attrs, DeclaresPage a.value.inside) ∨
        p ∨ DeclaresPage rest := by
  have htext : linesText (Element.lines pad level (.nest name attrs es)) ++ rest =
      ('\n' :: pad level) ++ (openText name attrs ++ ([] ++ '>' ::
        (linesText (Element.linesAll pad (level + 1) es) ++
          ('\n' :: (pad level ++ closeText name) ++ rest)))) := by
    rw [linesText_nest]
    simp only [List.append_assoc, List.cons_append, List.nil_append]
  rw [htext, declaresPage_blanks (blank_indent hpad level),
    declaresPage_openText name attrs List.not_mem_nil, hes, declaresPage_lastLine hpad,
    or_left_comm (b := DeclaresPage name), declaresPage_frameText]

/-- The element of a node exposes the texts in its tag and what its children do. -/
theorem declaresPage_elementOf (hpad : ∀ l, Blank (pad l)) (level : Nat) (n : Node)
    {es : List Element} {p : Prop}
    (hes : ∀ rest, DeclaresPage (linesText (Element.linesAll pad (level + 1) es) ++ rest) ↔
      p ∨ DeclaresPage rest) (rest : List Char) :
    DeclaresPage (linesText ((elementOf pad level n es).lines pad level) ++ rest) ↔
      (∃ cs, InTag n cs ∧ DeclaresPage cs) ∨
        (rendersChildren n.widget n.children = true ∧ p) ∨ DeclaresPage rest := by
  rw [← declaresPage_attrsOf hpad level n, ← frameText_attrsOf pad level n, innerProp?,
    elementOf]
  split
  next hrenders =>
    rw [declaresPage_nest hpad level _ _ hes, and_iff_right hrenders]
  next hrenders =>
    have hnone : ¬ (rendersChildren n.widget n.children = true ∧ p) := fun h => hrenders h.1
    rw [or_iff_right hnone]
    cases hinner : innerText? n.widget with
    | none =>
        have htext : ∀ attrs, linesText (Element.lines pad level
            (.void n.widget.component.toList attrs)) ++ rest =
              ('\n' :: pad level) ++
                (openText n.widget.component.toList attrs ++ ([' ', '/'] ++ '>' :: rest)) := by
          intro attrs
          rw [linesText_void]
          simp only [List.append_assoc, List.cons_append, List.nil_append]
        rw [htext, declaresPage_blanks (blank_indent hpad level),
          declaresPage_openText _ _ (by decide)]
        rfl
    | some text =>
        obtain ⟨prop, s⟩ := text
        have htext : ∀ attrs, linesText (Element.lines pad level
            (.text n.widget.component.toList attrs (escapeText s.toList))) ++ rest =
              ('\n' :: pad level) ++ (openText n.widget.component.toList attrs ++
                ([] ++ '>' :: (escapeText s.toList ++
                  (closeText n.widget.component.toList ++ rest)))) := by
          intro attrs
          rw [linesText_text]
          simp only [List.append_assoc, List.cons_append, List.nil_append]
        have hinside : ∀ ds, DeclaresPage (escapeText s.toList ++ '<' :: ds) ↔ DeclaresPage ds :=
          declaresPage_skip (brace_not_mem_escapeText s.toList) (by decide)
        have hclose : DeclaresPage (escapeText s.toList ++
            (closeText n.widget.component.toList ++ rest)) ↔
              DeclaresPage n.widget.component.toList ∨ DeclaresPage rest := by
          rw [← declaresPage_closeText, closeText, List.cons_append, hinside,
            declaresPage_cons (by decide)]
        simp only
        rw [htext, declaresPage_blanks (blank_indent hpad level),
          declaresPage_openText _ _ List.not_mem_nil, hclose, declaresPage_frameText]
        rfl

/-- **A header in the markup of a forest is one in a text that stands in a tag.** -/
theorem declaresPage_elementsOf (hpad : ∀ l, Blank (pad l)) (level : Nat) (f : Forest)
    (rest : List Char) :
    DeclaresPage (linesText (Element.linesAll pad level (elementsOf pad level f)) ++ rest) ↔
      (∃ n ∈ shown f, ∃ cs, InTag n cs ∧ DeclaresPage cs) ∨ DeclaresPage rest := by
  induction f using Forest.induction generalizing level rest with
  | nil =>
      rw [elementsOf, Element.linesAll, shown]
      simp [linesText]
  | cons id parent w children others ihc ihr =>
      rw [elementsOf_cons, linesText_linesAll_cons, List.append_assoc,
        declaresPage_elementOf hpad level _ (ihc (level + 1)), ihr, shown_cons,
        List.exists_mem_cons_iff, or_assoc]
      refine or_congr_right ?_
      rw [← or_assoc]
      refine or_congr_left ?_
      split
      next hrenders =>
        simp only [hrenders, true_and, List.mem_append, or_and_right, exists_or]
      next hrenders =>
        simp only [hrenders, false_and, false_or, List.nil_append, Bool.false_eq_true]

end

/-! ## Rules -/

/-- A declaration exposes its name and its value. -/
theorem declaresPage_declarationText {indent : List Char} (hindent : Blank indent)
    (e : String × String) (rest : List Char) :
    DeclaresPage (declarationText indent e ++ rest) ↔
      (DeclaresPage e.1.toList ∨ DeclaresPage e.2.toList) ∨ DeclaresPage rest := by
  have htext : declarationText indent e ++ rest =
      ('\n' :: indent) ++ (e.1.toList ++ ':' :: ' ' :: (e.2.toList ++ ';' :: rest)) := by
    rw [declarationText]
    simp
  rw [htext, declaresPage_blanks (hindent.cons (by decide)),
    declaresPage_divided (by decide), declaresPage_cons (by decide),
    declaresPage_divided (by decide), or_assoc]

theorem declaresPage_declarations {indent : List Char} (hindent : Blank indent)
    (entries : List (String × String)) (rest : List Char) :
    DeclaresPage (entries.flatMap (declarationText indent) ++ rest) ↔
      (∃ e ∈ entries, DeclaresPage e.1.toList ∨ DeclaresPage e.2.toList) ∨
        DeclaresPage rest := by
  induction entries with
  | nil => simp
  | cons e es ih =>
      rw [List.flatMap_cons, List.append_assoc, declaresPage_declarationText hindent, ih,
        List.exists_mem_cons_iff]
      exact or_assoc.symm

/-- The rule of a styled node exposes the selector and the declarations. -/
theorem declaresPage_ruleLines (g : Writer) {n : Node}
    (hstyled : n.widget.styles.isEmpty = false) (rest : List Char) :
    DeclaresPage (linesText (g.ruleLines n) ++ rest) ↔
      (∃ cs, InRule n cs ∧ DeclaresPage cs) ∨ DeclaresPage rest := by
  have hindent := blank_indent (blank_pad g) 2
  have htext : linesText (g.ruleLines n) ++ rest = ('\n' :: g.pad 2) ++ '.' ::
      ((n.id.toList ++ [' ']) ++ ['\x7b'] ++
        (n.widget.styles.entries.flatMap (declarationText (g.pad 3)) ++
          (('\n' :: g.pad 2) ++ '\x7d' :: rest))) := by
    rw [linesText_ruleLines, bodyText]
    simp only [List.append_assoc, List.cons_append, List.nil_append]
  have hselector : n.id.toList ++ [' '] ++ ['\x7b'] = n.id.toList ++ [' ', '\x7b'] :=
    List.append_assoc _ _ _
  rw [htext, declaresPage_skip (brace_not_mem_of_blank hindent) (by decide),
    declaresPage_append_divider (by decide), hselector,
    declaresPage_declarations (blank_pad g 3),
    declaresPage_skip (brace_not_mem_of_blank hindent) (by decide), ← or_assoc]
  refine or_congr_left ?_
  constructor
  · rintro (h | ⟨⟨name, value⟩, hmem, h | h⟩)
    · exact ⟨_, .selector hstyled, h⟩
    · exact ⟨_, .property (Dict.mem_entries_iff.mp hmem), h⟩
    · exact ⟨_, .value (Dict.mem_entries_iff.mp hmem), h⟩
  · rintro ⟨cs, hcs, h⟩
    cases hcs with
    | selector => exact .inl h
    | property hget => exact .inr ⟨_, Dict.mem_entries_iff.mpr hget, .inl h⟩
    | value hget => exact .inr ⟨_, Dict.mem_entries_iff.mpr hget, .inr h⟩

theorem declaresPage_rules (g : Writer) {nodes : List Node}
    (hstyled : ∀ n ∈ nodes, n.widget.styles.isEmpty = false) (rest : List Char) :
    DeclaresPage (linesText (nodes.flatMap g.ruleLines) ++ rest) ↔
      (∃ n ∈ nodes, ∃ cs, InRule n cs ∧ DeclaresPage cs) ∨ DeclaresPage rest := by
  induction nodes with
  | nil => simp [linesText]
  | cons n ns ih =>
      obtain ⟨hn, hns⟩ := List.forall_mem_cons.mp hstyled
      rw [List.flatMap_cons, linesText_append, List.append_assoc, declaresPage_ruleLines g hn,
        ih hns, List.exists_mem_cons_iff, or_assoc]

/-- Only styled nodes have texts in a rule. -/
theorem InRule.styled {n : Node} {cs : List Char} (h : InRule n cs) :
    n.widget.styles.isEmpty = false := by
  have hmem : ∀ {name value : String}, n.widget.styles.get? name = some value →
      n.widget.styles.isEmpty = false := by
    intro name value hget
    cases hempty : n.widget.styles.isEmpty with
    | false => rfl
    | true =>
        rw [Dict.isEmpty_iff.mp hempty] at hget
        cases hget
  cases h with
  | selector hstyled => exact hstyled
  | property hget => exact hmem hget
  | value hget => exact hmem hget

/-- **A header in the style block of a forest is one in a text that stands in a rule.** -/
theorem declaresPage_styleLines (g : Writer) (f : Forest) (rest : List Char) :
    DeclaresPage (linesText (g.styleLines f) ++ rest) ↔
      (∃ n ∈ f.preorder, ∃ cs, InRule n cs ∧ DeclaresPage cs) ∨ DeclaresPage rest := by
  have hstyled : ∀ n ∈ Writer.styled f, n.widget.styles.isEmpty = false := by
    intro n hn
    simpa using (List.mem_filter.mp hn).2
  have hnodes : (∃ n ∈ Writer.styled f, ∃ cs, InRule n cs ∧ DeclaresPage cs) ↔
      ∃ n ∈ f.preorder, ∃ cs, InRule n cs ∧ DeclaresPage cs := by
    constructor
    · rintro ⟨n, hn, h⟩
      exact ⟨n, (List.mem_filter.mp hn).1, h⟩
    · rintro ⟨n, hn, cs, hcs, h⟩
      refine ⟨n, List.mem_filter.mpr ⟨hn, ?_⟩, cs, hcs, h⟩
      rw [hcs.styled]
      rfl
  rw [← hnodes]
  by_cases hnone : Writer.styled f = []
  · have hlines : linesText (g.styleLines f) = [] := by
      rw [Writer.styleLines, hnone]
      rfl
    rw [hlines, hnone]
    simp
  · have hword : ¬ DeclaresPage (['s', 't', 'y', 'l', 'e', ' '] ++ ['\x7b']) := by
      decide
    have htext : linesText (g.styleLines f) ++ rest = ('\n' :: g.pad 1) ++
        (['s', 't', 'y', 'l', 'e', ' '] ++ ['\x7b'] ++
          (linesText ((Writer.styled f).flatMap g.ruleLines) ++
            (('\n' :: g.pad 1) ++ '\x7d' :: '\n' :: rest))) := by
      have hheader : "style \x7b".toList = ['s', 't', 'y', 'l', 'e', ' '] ++ ['\x7b'] := by
        decide
      rw [linesText_styleLines g hnone, hheader, styleText]
      simp only [List.append_assoc, List.cons_append, List.nil_append]
    have hindent := blank_indent (blank_pad g) 1
    rw [htext, declaresPage_blanks hindent, declaresPage_append_divider (by decide),
      or_iff_right hword, declaresPage_rules g hstyled,
      declaresPage_skip (brace_not_mem_of_blank hindent) (by decide),
      declaresPage_cons (by decide)]

/-! ## Nodes with names -/

/-- The names in a tag have no brace. -/
theorem NamedNode.brace_not_mem {n : Node} (hn : NamedNode n) : '\x7b' ∉ frameOf n := by
  have hattr : ∀ {name : List Char}, isAttrName name = true → '\x7b' ∉ name := by
    intro name hname hmem
    cases isAttrNameChar_of_mem hname hmem
  have hclass : isAttrName "class".toList = true := by decide
  have hattrs : ∀ a ∈ attrsOf (fun _ => []) 0 n.id n.widget (innerProp? n), '\x7b' ∉ a.name := by
    intro a ha
    simp only [attrsOf, List.mem_append, List.mem_cons, List.mem_filterMap, List.mem_map,
      List.mem_filter] at ha
    rcases ha with ⟨⟨name, v⟩, hmem, ha⟩ | rfl | ⟨⟨name, body⟩, ⟨hmem, _⟩, rfl⟩
    · obtain ⟨value, _, rfl⟩ := propAttr?_eq_some ha
      exact hattr (hn.widget.props name v (Dict.mem_entries_iff.mp (mem_orderedProps.mp hmem)))
    · exact hattr hclass
    · exact hattr (hn.widget.events name body (Dict.mem_entries_iff.mp hmem))
  intro hmem
  rw [frameOf, frameText] at hmem
  rcases List.mem_append.mp hmem with hmem | hmem
  · cases isTagNameChar_of_mem hn.widget.component hmem
  · obtain ⟨a, ha, hmem⟩ := List.mem_flatMap.mp hmem
    have hname := hattrs a ha
    rw [Attr.frame] at hmem
    split at hmem
    next => simp [hname] at hmem
    next => simp [hname] at hmem

/-- A selector is one word, and a header has two before its brace. -/
theorem not_declaresPage_selector {id : List Char} (hid : isClassName id = true) :
    ¬ DeclaresPage (id ++ [' ', '\x7b']) := by
  rintro ⟨before, front, rest, h, hfront, _⟩
  have hchar := (isClassName_eq_true hid).2
  have hbrace : '\x7b' ∉ id ++ [' '] := by
    intro hmem
    rcases List.mem_append.mp hmem with hmem | hmem
    · cases hchar _ hmem
    · cases List.mem_singleton.mp hmem
  have hsplit : (id ++ [' ']) ++ ['\x7b'] = before ++ (front ++ '\x7b' :: rest) := by
    rw [← h, List.append_assoc]
    rfl
  rcases append_eq_header hsplit with ⟨rest', hid'⟩ | ⟨inside, hinside, hlast⟩
  · rw [hid'] at hbrace
    simp at hbrace
  · -- The one brace is the last character, so the header is all that stands in front of it.
    have hnil : inside = [] := by
      cases inside with
      | nil => rfl
      | cons c cs => simp at hlast
    obtain ⟨hc, hblanks, hne, hname, hblanks'⟩ := hfront
    rename_i c blanks name blanks'
    have htail : blanks ++ (name ++ blanks') ≠ [] := by simp [hne]
    have hword : before ++ (['p', 'a', 'g', 'e'] ++
        c :: (blanks ++ (name ++ blanks')).dropLast) = id := by
      have hdrop := congrArg List.dropLast hinside
      rw [hnil, List.append_nil, List.dropLast_concat, List.dropLast_append_of_ne_nil (by simp),
        List.dropLast_append_of_ne_nil (by simp), List.dropLast_cons_of_ne_nil htail] at hdrop
      exact hdrop
    have hmem : c ∈ id := by
      rw [← hword]
      simp
    rw [isBlank_of_isClassChar (hchar c hmem)] at hc
    cases hc

/-- What a node holds besides names: properties, handlers and declarations. -/
def held (n : Node) : List (List Char) :=
  n.widget.props.entries.map (fun e => writtenText e.2) ++
    (n.widget.events.entries.map (·.2.toList) ++
      n.widget.styles.entries.flatMap fun e => [e.1.toList, e.2.toList])

theorem InTag.mem_held {n : Node} (hn : NamedNode n) {cs : List Char} (hcs : InTag n cs)
    (h : DeclaresPage cs) : cs ∈ held n := by
  cases hcs with
  | frame => exact absurd h.brace_mem hn.brace_not_mem
  | prop hget =>
      exact List.mem_append_left _ (List.mem_map.mpr ⟨_, Dict.mem_entries_iff.mpr hget, rfl⟩)
  | id => exact absurd (h.append _) (not_declaresPage_selector hn.id)
  | handler hget =>
      apply List.mem_append_right
      exact List.mem_append_left _ (List.mem_map.mpr ⟨_, Dict.mem_entries_iff.mpr hget, rfl⟩)

theorem InRule.mem_held {n : Node} (hn : NamedNode n) {cs : List Char} (hcs : InRule n cs)
    (h : DeclaresPage cs) : cs ∈ held n := by
  -- Names and values of declarations alike.
  have hstyle : ∀ {name value : String}, n.widget.styles.get? name = some value →
      cs ∈ [name.toList, value.toList] → cs ∈ held n := by
    intro name value hget hmem
    apply List.mem_append_right
    apply List.mem_append_right
    exact List.mem_flatMap.mpr ⟨_, Dict.mem_entries_iff.mpr hget, hmem⟩
  cases hcs with
  | selector => exact absurd h (not_declaresPage_selector hn.id)
  | property hget => exact hstyle hget (by simp)
  | value hget => exact hstyle hget (by simp)

/-- **Where the nodes have names, only what they hold can stand for a header.** Those of a
document that was read have names (`namedNode_stampAll`), and those of a safe forest
(`SafeForest.named`). -/
theorem plain_of_held {f : Forest} (hf : ∀ n ∈ f.preorder, NamedNode n)
    (hheld : ∀ n ∈ f.preorder, ∀ cs ∈ held n, ¬ DeclaresPage cs) :
    ∀ cs, Exposed f cs → ¬ DeclaresPage cs := by
  rintro cs (⟨n, hn, hcs⟩ | ⟨n, hn, hcs⟩) h
  · have hmem := (shown_sublist f).subset hn
    exact hheld n hmem cs (hcs.mem_held (hf n hmem) h) h
  · exact hheld n hn cs (hcs.mem_held (hf n hn) h) h

/-! ## Documents -/

theorem declaresPage_markupLines (g : Writer) (f : Forest) (rest : List Char) :
    DeclaresPage (linesText (g.markupLines f) ++ rest) ↔
      (∃ n ∈ shown f, ∃ cs, InTag n cs ∧ DeclaresPage cs) ∨ DeclaresPage rest := by
  unfold Writer.markupLines
  split
  next => exact declaresPage_elementsOf (blank_pad g) 1 _ rest
  next =>
    have hwrapper : ¬ (DeclaresPage (frameText wrapperName.toList []) ∨
        ∃ a ∈ ([] : List Attr), DeclaresPage a.value.inside) := by
      decide
    rw [declaresPage_nest (blank_pad g) 1 _ _ (declaresPage_elementsOf (blank_pad g) 2 f),
      or_iff_right hwrapper]

/-- **A header in the body that is written of a forest is one in an exposed text.** -/
theorem declaresPage_bodyOf (g : Writer) (f : Forest) :
    DeclaresPage (bodyOf g f) ↔ ∃ cs, Exposed f cs ∧ DeclaresPage cs := by
  have hexposed : (∃ cs, Exposed f cs ∧ DeclaresPage cs) ↔
      (∃ n ∈ f.preorder, ∃ cs, InRule n cs ∧ DeclaresPage cs) ∨
        ∃ n ∈ shown f, ∃ cs, InTag n cs ∧ DeclaresPage cs := by
    constructor
    · rintro ⟨cs, ⟨n, hn, hcs⟩ | ⟨n, hn, hcs⟩, h⟩
      · exact .inr ⟨n, hn, cs, hcs, h⟩
      · exact .inl ⟨n, hn, cs, hcs, h⟩
    · rintro (⟨n, hn, cs, hcs, h⟩ | ⟨n, hn, cs, hcs, h⟩)
      · exact ⟨cs, .inr ⟨n, hn, hcs⟩, h⟩
      · exact ⟨cs, .inl ⟨n, hn, hcs⟩, h⟩
  have hbreak : ¬ DeclaresPage ['\n'] := not_declaresPage_of_blank blank_break
  rw [hexposed, bodyOf]
  split
  next hempty =>
    rw [List.isEmpty_iff.mp hempty, Forest.preorder_nil, shown]
    simpa using hbreak
  next =>
    rw [declaresPage_styleLines, declaresPage_markupLines, or_iff_left hbreak]

/-- The body has no page's header as long as no exposed text has one. -/
theorem not_declaresPage_bodyOf (g : Writer) (f : Forest) :
    ¬ DeclaresPage (bodyOf g f) ↔ ∀ cs, Exposed f cs → ¬ DeclaresPage cs := by
  rw [declaresPage_bodyOf, not_exists]
  simp only [not_and]

/-- A written text is read as what its body means, unless a page's header in the body of a
component comes before its own. -/
theorem read?_write (options : WriterOptions) {f : Forest} {name : String}
    (hname : isDocumentName name = true) {kind : Kind}
    (hplain : kind = .page ∨ ∀ cs, Exposed f cs → ¬ DeclaresPage cs)
    (hwhole : Whole (bodyOf { options } f)) {os : List Outline}
    (hbody : ∀ start, (Body.read? start (bodyOf { options } f)).map Body.roots = .ok os) :
    Document.read? (({ options } : Writer).write f name kind) = .ok ⟨kind, name, os⟩ := by
  rw [← not_declaresPage_bodyOf { options }] at hplain
  have hheader := header?_headerLine hname hplain
  rw [← String.toList_ofList (l := headerLine kind name ++ _)] at hheader
  rw [write_eq]
  exact read?_of_body hheader rfl hwhole hbody

/-! ## A field with a hint -/

def hinted (hint : String) : Widget :=
  { component := "Input", props := .ofList [("placeholder", .str hint)] }

theorem namedNode_hinted (hint : String) : NamedNode ⟨"a", none, hinted hint, []⟩ := by
  have hid : isClassName "a".toList = true := by decide
  have hcomponent : isTagName "Input".toList = true := by decide
  have hname : isAttrName "placeholder".toList = true := by decide
  refine ⟨hid, hcomponent, ?_, ?_⟩
  · intro k v hget
    cases List.mem_singleton.mp (Dict.mem_entries_iff.mpr hget)
    exact hname
  · intro k body hget
    cases hget

/-- The body that is written of a field whose hint reads like a page's header. -/
theorem bodyOf_pageHint : bodyOf {} [⟨"a", none, hinted "page Home \x7b", []⟩] =
    "\n  <Input placeholder=\"page Home \x7b\" class=\"a\" />\n".toList := by
  have hinner : innerText? (hinted "page Home \x7b") = none := by decide +kernel
  have hattrs : attrsOf ({} : Writer).pad 1 "a" (hinted "page Home \x7b") none =
      [⟨"placeholder".toList, .quoted "page Home \x7b".toList⟩,
        ⟨"class".toList, .quoted "a".toList⟩] := by decide +kernel
  rw [bodyOf_void _ hinner rfl, hattrs]
  decide +kernel

/-! ## Headers -/

/-- **A written text keeps its kind and name** exactly if it is a page's, or no exposed text of
the forest has a page's header. -/
theorem written_keeps_header (options : WriterOptions) (f : Forest) {name : String}
    (hname : isDocumentName name = true) (kind : Kind) :
    (kind? (({ options } : Writer).write f name kind) = some kind ∧
      name? (({ options } : Writer).write f name kind) = some name) ↔
        (kind = .page ∨ ∀ cs, Exposed f cs → ¬ DeclaresPage cs) := by
  rw [write_eq, ← not_declaresPage_bodyOf { options } f]
  exact header_headerLine_iff hname kind (bodyOf { options } f)

theorem written_keeps_header_of_hint :
    isDocumentName "Card" = true ∧
      kind? (({} : Writer).write [⟨"a", none, hinted "Name", []⟩] "Card" .component) =
        some .component ∧
      name? (({} : Writer).write [⟨"a", none, hinted "Name", []⟩] "Card" .component) =
        some "Card" := by
  have hname : isDocumentName "Card" = true := by decide
  have hplain : ∀ cs, Exposed [⟨"a", none, hinted "Name", []⟩] cs → ¬ DeclaresPage cs := by
    apply plain_of_held
    · simp only [Forest.preorder, List.append_nil]
      exact List.forall_mem_singleton.mpr (namedNode_hinted "Name")
    · simp only [Forest.preorder]
      decide +kernel
  exact ⟨hname, (written_keeps_header {} _ hname .component).mpr (.inr hplain)⟩

/-- A hint that reads like a page's header makes a page of a component. -/
theorem written_component_declares_hint :
    kind? (({} : Writer).write [⟨"a", none, hinted "page Home \x7b", []⟩] "Card" .component) =
        some .page ∧
      name? (({} : Writer).write [⟨"a", none, hinted "page Home \x7b", []⟩] "Card" .component) =
        some "Home" := by
  rw [write_eq, bodyOf_pageHint]
  decide +kernel

end Source

end Tandem
