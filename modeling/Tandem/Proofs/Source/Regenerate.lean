import Tandem.Proofs.Forest.Identity
import Tandem.Proofs.Source.Exposed

/-!
# What is left of a document that is written again

A document that is read is stamped with ids and written again. Whatever it holds, its
components have names that can be written (`read?_named`), so the new text has the same
kind, name and tree of component names, as far as that is rendered
(`regenerate_keeps_shape`): all that it takes is that the texts it holds end where they are
meant to (`Regenerable`), and that none of a component has a page's header.

Not all documents are like that. An expression may end in a line comment and the brace stand
on the next line. It is written on one line, so the comment takes the brace along, and the
element is gone (`regenerate_loses_text`).
-/

namespace Tandem.Source

open Text Markup Style

/-! ## Shapes -/

/-- A tree of component names. -/
inductive Shape where
  | node (component : String) (children : List Shape)

def shapes : List Outline → List Shape
  | [] => []
  | ⟨widget, children⟩ :: rest => .node widget.component (shapes children) :: shapes rest

/-- The outlines as far as they are written: a component that holds no others has none. -/
def rendered : List Outline → List Outline
  | [] => []
  | ⟨widget, children⟩ :: rest =>
    ⟨widget, if acceptsChildren (Catalog.find? widget.component) then rendered children else []⟩
      :: rendered rest

theorem shapes_cons (o : Outline) (rest : List Outline) :
    shapes (o :: rest) = .node o.widget.component (shapes o.children) :: shapes rest := by
  cases o
  rw [shapes]

/-- The component of an element is its name. -/
theorem component_widgetOf (sheet : Sheet) (name : String) (attrs : List Attr) :
    (widgetOf sheet name.toList attrs).component = name := String.ofList_toList

/-- The elements of a forest have its shape, as far as it is rendered, whatever the sheet and
the blanks in them. -/
theorem shapes_elementsOf (sheet : Sheet) (pad : Nat → List Char) (level : Nat) (f : Forest) :
    shapes (outlines sheet ((elementsOf pad level f).map Element.tidy)) =
      shapes (rendered f.outlines) := by
  induction f using Forest.induction generalizing level with
  | nil => rw [elementsOf, List.map_nil, outlines, Forest.outlines, rendered]
  | cons id parent w children rest ihc ihr =>
      rw [elementsOf_cons, List.map_cons, outlines, shapes_cons, ihr, Forest.outlines, rendered,
        shapes_cons]
      refine congrArg (· :: shapes (rendered rest.outlines)) ?_
      rw [elementOf]
      split
      next hrenders =>
        obtain ⟨haccepts, _⟩ := Bool.and_eq_true_iff.mp hrenders
        rw [Element.tidy, outline, if_pos haccepts, component_widgetOf]
        exact congrArg _ (ihc (level + 1))
      next hrenders =>
        have hnone : shapes (if acceptsChildren (Catalog.find? w.component) = true then
            rendered children.outlines else []) = [] := by
          split
          next haccepts =>
            have hempty : children.isEmpty = true := by
              cases hchildren : children.isEmpty with
              | true => rfl
              | false =>
                  rw [rendersChildren, haccepts, hchildren] at hrenders
                  exact absurd rfl hrenders
            rw [List.isEmpty_iff.mp hempty, Forest.outlines, rendered, shapes]
          next => rw [shapes]
        rw [hnone]
        split
        next =>
          rw [Element.tidy, outline, component_withInner, component_widgetOf, shapes]
        next => rw [Element.tidy, outline, component_widgetOf, shapes]

/-! ## Closed texts -/

/-- The text ends where it is meant to when it is written under a name: in braces at the brace
behind it, and in quotes its backslashes leave the quote alone. -/
def ClosedText (name : String) (cs : List Char) : Prop :=
  if isWrittenBraced name (String.ofList cs) then closeBrace (cs ++ ['\x7d']) = some []
  else backslashes cs % 2 = 0

/-- Only a text may be written in a way that does not end. -/
theorem closed_attrValue? {name : String} {v : Json} {value : AttrValue}
    (hvalue : attrValue? name v = some value) (htext : ∀ s, v = .str s → ClosedText name s.toList) :
    value.Closed := by
  cases v with
  | null => cases hvalue
  | bool b =>
      cases b with
      | true => cases hvalue; trivial
      | false =>
          cases hvalue
          have hclosed := closed_print (.bool false)
          rw [Json.print] at hclosed
          exact hclosed
  | num n =>
      cases hvalue
      have hclosed := closed_print (.num n)
      rw [Json.print] at hclosed
      exact hclosed
  | arr items => cases hvalue; exact closed_print _
  | obj fields => cases hvalue; exact closed_print _
  | str s =>
      have hclosed := htext s rfl
      rw [ClosedText, String.ofList_toList] at hclosed
      rw [attrValue?] at hvalue
      split at hvalue
      next => cases hvalue
      next =>
        split at hvalue
        next hbraced =>
          cases hvalue
          rw [if_pos hbraced] at hclosed
          exact hclosed
        next hquoted =>
          cases hvalue
          rw [if_neg hquoted] at hclosed
          exact (readable_escapeAttribute hclosed).closed

/-- The texts of a node that are written as attributes at a level of nesting end where they
are meant to, and so do its handlers. -/
structure ClosedNode (pad : Nat → List Char) (level : Nat) (n : Node) : Prop where
  texts : ∀ name s, n.widget.props.get? name = some (.str s) → innerProp? n ≠ some name →
    ClosedText name s.toList
  handlers : ∀ e ∈ n.widget.events.entries, closeBrace (wrap pad level e.2 ++ ['\x7d']) = some []

/-- All nodes that are written have closed texts, those at the top at a level of nesting. -/
def ClosedNodes (pad : Nat → List Char) (level : Nat) : Forest → Prop
  | [] => True
  | ⟨id, parent, w, children⟩ :: rest =>
    ClosedNode pad level ⟨id, parent, w, children⟩ ∧
      (rendersChildren w children = true → ClosedNodes pad (level + 1) children) ∧
      ClosedNodes pad level rest

section

variable {pad : Nat → List Char} {level : Nat} {n : Node}

theorem ClosedNode.closed_attrsOf (hn : ClosedNode pad level n) (hnamed : NamedNode n) :
    ∀ a ∈ attrsOf pad level n.id n.widget (innerProp? n), a.Closed := by
  intro a ha
  simp only [attrsOf, List.mem_append, List.mem_cons, List.mem_filterMap, List.mem_map,
    List.mem_filter] at ha
  rcases ha with ⟨⟨name, v⟩, hmem, hattr⟩ | rfl | ⟨⟨name, body⟩, ⟨hmem, _⟩, rfl⟩
  · have hget := Dict.mem_entries_iff.mp (mem_orderedProps.mp hmem)
    by_cases hinner : innerProp? n = some name
    · rw [hinner, propAttr?_inner] at hattr
      cases hattr
    · obtain ⟨value, hvalue, rfl⟩ := propAttr?_eq_some hattr
      refine ⟨hnamed.widget.props name v hget, closed_attrValue? hvalue ?_⟩
      rintro s rfl
      exact hn.texts name s hget hinner
  · have hclass : isAttrName "class".toList = true := by decide
    exact ⟨hclass, (readable_className (isClassName_eq_true hnamed.id).2).closed⟩
  · have hget := Dict.mem_entries_iff.mp hmem
    exact ⟨hnamed.widget.events name body hget, hn.handlers _ hmem⟩

theorem ClosedNode.closed_elementOf (hn : ClosedNode pad level n) (hnamed : NamedNode n)
    {children : List Element} (hne : n.children ≠ [] → children ≠ [])
    (hchildren : rendersChildren n.widget n.children = true → ∀ e ∈ children, e.Closed) :
    (elementOf pad level n children).Closed := by
  have hattrs := hn.closed_attrsOf hnamed
  have hcomponent := hnamed.widget.component
  rw [elementOf]
  split
  next hrenders =>
    rw [innerProp?, if_pos hrenders] at hattrs
    have hsome := ne_nil_of_rendersChildren hrenders
    exact .nest _ _ _ hcomponent hattrs (hne hsome) (hchildren hrenders)
  next hrenders =>
    rw [innerProp?, if_neg hrenders] at hattrs
    split
    next prop text hinner =>
      rw [hinner] at hattrs
      exact .text _ _ _ hcomponent hattrs (unmarked_escapeText text.toList)
    next hinner =>
      rw [hinner] at hattrs
      exact .void _ _ hcomponent hattrs

end

/-- The elements of closed nodes are closed. -/
theorem ClosedNodes.closed_elementsOf {pad : Nat → List Char} {level : Nat} {f : Forest}
    (hf : ClosedNodes pad level f) (hnamed : ∀ n ∈ f.preorder, NamedNode n) :
    ∀ e ∈ elementsOf pad level f, e.Closed := by
  induction f using Forest.induction generalizing level with
  | nil =>
      intro e he
      rw [elementsOf] at he
      cases he
  | cons id parent w children rest ihc ihr =>
      rw [ClosedNodes] at hf
      obtain ⟨hnode, hchildren, hrest⟩ := hf
      rw [Forest.preorder_cons] at hnamed
      have hself := hnamed _ List.mem_cons_self
      have hbelow := fun n hn => hnamed n (List.mem_cons_of_mem _ (List.mem_append_left _ hn))
      have hbeside := fun n hn => hnamed n (List.mem_cons_of_mem _ (List.mem_append_right _ hn))
      intro e he
      rw [elementsOf_cons] at he
      rcases List.mem_cons.mp he with rfl | he
      · exact hnode.closed_elementOf hself elementsOf_ne_nil fun hrenders =>
          ihc (hchildren hrenders) hbelow
      · exact ihr hrest hbeside e he

/-! ## Documents -/

/-- What is written of a forest ends where it is meant to: the texts of its nodes, and the
styles of all of them. -/
structure Regenerable (g : Writer) (f : Forest) : Prop where
  nodes : ClosedNodes g.pad (rootLevel f) f
  styles : ∀ n ∈ f.preorder, UnmarkedStyles n.widget.styles

theorem Regenerable.closed {g : Writer} {f : Forest} (hf : Regenerable g f)
    (hnamed : ∀ n ∈ f.preorder, NamedNode n) : ClosedForest g f where
  elements := hf.nodes.closed_elementsOf hnamed
  rules := fun n hn =>
    have hmem := (List.mem_filter.mp hn).1
    ⟨(isClassName_eq_true (hnamed n hmem).id).2, hf.styles n hmem⟩

theorem isClassChar_paddedDigits {k : Nat} {c : Char} (hc : c ∈ paddedDigits k) :
    isClassChar c = true := by
  rw [paddedDigits] at hc
  rcases List.mem_append.mp hc with hc | hc
  · rw [(List.mem_replicate.mp hc).2]
    decide
  · have hdigit : c.isDigit = true := Json.isDigit_of_mem_digitsOf hc
    simp [isClassChar, Char.isAlphanum, hdigit]

/-- The ids that are given out are classes. -/
theorem isClassName_mint (k : Nat) : isClassName (mint k).toList = true := by
  have hsplit : (mint k).toList = ['n', 's', 't', 'a', 'm', 'p', 'e', 'd'] ++ paddedDigits k :=
    String.toList_ofList
  have hword : ['n', 's', 't', 'a', 'm', 'p', 'e', 'd'].all isClassChar = true := by decide
  rw [hsplit, isClassName, List.all_append, hword,
    List.all_eq_true.mpr fun c => isClassChar_paddedDigits]
  rfl

/-- The nodes of a document that is read have names. -/
theorem namedNode_stampAll {os : List Outline} (hos : NamedOutlines os) (k : Nat) :
    ∀ n ∈ (Outline.stampAll none k os).preorder, NamedNode n := by
  intro n hn
  have hid : n.id ∈ (Outline.stampAll none k os).ids := List.mem_map.mpr ⟨n, hn, rfl⟩
  rw [Forest.ids_stampAll] at hid
  obtain ⟨i, _, _, hmint⟩ := mem_minted.mp hid
  refine ⟨hmint ▸ isClassName_mint i, named_of_mem ?_ n hn⟩
  rw [Forest.outlines_stampAll]
  exact hos

/-! ## A card with a row -/

/-- A text with an expression. -/
def expressed (expression : String) : Widget :=
  { component := "Text", props := .ofList [("x", .str expression)] }

/-- A button with a label and a handler. -/
def labelled : Widget :=
  { component := "Button", props := .ofList [("content", .str "Go")],
    events := .ofList [("onClick", "go")] }

/-- A component with a text and a button in a row. -/
def card : Document :=
  ⟨.component, "Card", [⟨{ component := "Row" }, [⟨expressed "a + b", []⟩, ⟨labelled, []⟩]⟩]⟩

def cardBody : String :=
  "\n  <Row>\n    <Text x=\x7ba + b\x7d />\n    <Button onClick=\x7bgo\x7d>Go</Button>\n  </Row>\n"

/-- The markup of the row. -/
def rowMarkup : Element :=
  .nest "Row".toList []
    [.void "Text".toList [⟨"x".toList, .braced "a + b".toList⟩],
      .text "Button".toList [⟨"onClick".toList, .braced "go".toList⟩] "Go".toList]

theorem readable_rowMarkup : rowMarkup.Readable := by
  have hx : Attr.Readable ⟨"x".toList, .braced "a + b".toList⟩ :=
    ⟨by decide, by decide, by decide⟩
  have hclick : Attr.Readable ⟨"onClick".toList, .braced "go".toList⟩ :=
    ⟨by decide, by decide, by decide⟩
  refine .nest _ _ _ (by decide) (List.forall_mem_nil Attr.Readable) (List.cons_ne_nil _ _) ?_
  refine List.forall_mem_cons (p := Element.Readable).mpr ⟨?_, ?_⟩
  · exact .void _ _ (by decide) (List.forall_mem_singleton.mpr hx)
  · refine List.forall_mem_singleton (p := Element.Readable).mpr ?_
    exact .text _ _ _ (by decide) (List.forall_mem_singleton.mpr hclick) (by simp [Unmarked])
      (by decide)

theorem outlines_rowMarkup : outlines (Sheet.ofRules (rules [])) [rowMarkup] = card.roots := by
  have hrow : widgetOf (Sheet.ofRules (rules [])) "Row".toList [] = { component := "Row" } := by
    decide +kernel
  have htext : widgetOf (Sheet.ofRules (rules [])) "Text".toList
      [⟨"x".toList, .braced "a + b".toList⟩] = expressed "a + b" := by
    decide +kernel
  have hbutton : withInner (widgetOf (Sheet.ofRules (rules [])) "Button".toList
      [⟨"onClick".toList, .braced "go".toList⟩]) "Go".toList = labelled := by
    decide +kernel
  simp only [rowMarkup, outlines, outline]
  rw [hrow, htext, hbutton]
  rfl

theorem read?_card : Document.read? ("component Card() \x7b" ++ cardBody ++ "\x7d") = .ok card := by
  have hheader : header? ("component Card() \x7b" ++ cardBody ++ "\x7d").toList =
      some ⟨.component, "Card", (cardBody ++ "\x7d").toList⟩ := by decide +kernel
  have hinside : blockInside? (cardBody ++ "\x7d").toList = some cardBody.toList := by
    decide +kernel
  have hmarkup : trim cardBody.toList =
      trimStart (linesText (Element.linesAll ({} : Writer).pad 1 [rowMarkup])) := by
    decide +kernel
  have hread : unwrapped (Element.readAll (trim cardBody.toList)) = [rowMarkup] := by
    rw [hmarkup, readAll_linesText (blank_pad {})
      (List.forall_mem_singleton.mpr readable_rowMarkup)]
    rfl
  rw [read?_of_findStyle hheader hinside (by decide +kernel) hread, outlines_rowMarkup]
  rfl

/-- The nodes with which the card is written again. -/
theorem stampAll_card : Outline.stampAll none 0 card.roots =
    [⟨mint 0, none, { component := "Row" },
      [⟨mint 1, some (mint 0), expressed "a + b", []⟩,
        ⟨mint 2, some (mint 0), labelled, []⟩]⟩] := by
  simp only [card, Outline.stampAll, Outline.count]

theorem closedNode_expressed {level : Nat} {id : String} {parent : Option String} :
    ClosedNode ({} : Writer).pad level ⟨id, parent, expressed "a + b", []⟩ := by
  constructor
  · intro name s hget _
    cases List.mem_singleton.mp (Dict.mem_entries_iff.mpr hget)
    rw [ClosedText, if_pos (by decide +kernel)]
    decide
  · exact List.forall_mem_nil _

theorem regenerable_card : Regenerable {} (Outline.stampAll none 0 card.roots) := by
  have hrow : ∀ children, ClosedNode ({} : Writer).pad 1
      ⟨mint 0, none, { component := "Row" }, children⟩ := by
    intro children
    constructor
    · intro name s hget
      cases hget
    · exact List.forall_mem_nil _
  have hbutton : ClosedNode ({} : Writer).pad 2 ⟨mint 2, some (mint 0), labelled, []⟩ := by
    constructor
    · intro name s hget hinner
      -- The label is written between the tags.
      cases List.mem_singleton.mp (Dict.mem_entries_iff.mpr hget)
      have hlabel : innerProp? ⟨mint 2, some (mint 0), labelled, []⟩ = some "content" := by
        decide +kernel
      exact absurd hlabel hinner
    · exact List.forall_mem_singleton.mpr (by decide +kernel)
  rw [stampAll_card]
  constructor
  · simp only [ClosedNodes, rootLevel]
    exact ⟨hrow _, fun _ => ⟨closedNode_expressed, fun _ => trivial, hbutton, fun _ => trivial,
      trivial⟩, trivial⟩
  · intro n hn
    simp only [Forest.preorder, List.nil_append, List.append_nil, List.mem_cons, List.not_mem_nil,
      or_false] at hn
    rcases hn with rfl | rfl | rfl
    · exact List.forall_mem_nil _
    · exact List.forall_mem_nil _
    · exact List.forall_mem_nil _

/-! ## A text with a comment -/

/-- A page with one text. -/
def lone (expression : String) : Document := ⟨.page, "P", [⟨expressed expression, []⟩]⟩

theorem stampAll_lone (expression : String) :
    Outline.stampAll none 0 (lone expression).roots =
      [⟨mint 0, none, expressed expression, []⟩] := by
  simp only [lone, Outline.stampAll]

/-- The body that is written of a text whose expression ends in a line comment. -/
def commented : List Char :=
  "\n  <Text x=\x7ba + b // c\x7d class=\"nstamped0000000000\" />\n".toList

theorem bodyOf_commented :
    bodyOf {} (Outline.stampAll none 0 (lone "a + b // c").roots) = commented := by
  have hmint : mint 0 = "nstamped0000000000" := by decide +kernel
  have hattrs : attrsOf ({} : Writer).pad 1 "nstamped0000000000" (expressed "a + b // c") none =
      [⟨"x".toList, .braced "a + b // c".toList⟩,
        ⟨"class".toList, .quoted "nstamped0000000000".toList⟩] := by decide +kernel
  have hinner : innerText? (expressed "a + b // c") = none := by decide +kernel
  rw [stampAll_lone, bodyOf_void _ hinner rfl, hmint, hattrs]
  decide +kernel

/-! ## Documents that are written again -/

/-- The text that is written of a document, its nodes having ids from `mint k` on. -/
def regenerate (g : Writer) (k : Nat) (d : Document) : String :=
  g.write (Outline.stampAll none k d.roots) d.name d.kind

/-- **A document keeps its kind, name and shape when it is written again**, if what is written
ends where it is meant to. A component needs moreover that no text of it has a page's header,
as that would come before its own. -/
theorem regenerate_keeps_shape (options : WriterOptions) (k : Nat) {source : String}
    {d : Document} (hread : Document.read? source = .ok d)
    (hclosed : Regenerable { options } (Outline.stampAll none k d.roots))
    (hplain : d.kind = .page ∨
      ∀ cs, Exposed (Outline.stampAll none k d.roots) cs → ¬ DeclaresPage cs) :
    ∃ d', Document.read? (regenerate { options } k d) = .ok d' ∧ d'.kind = d.kind ∧
      d'.name = d.name ∧ shapes d'.roots = shapes (rendered d.roots) := by
  obtain ⟨hname, hnamed⟩ := read?_named hread
  obtain ⟨hwhole, b, hbody, helements, _⟩ :=
    (hclosed.closed (namedNode_stampAll hnamed k)).bodyOf
  have hshape : shapes b.roots = shapes (rendered d.roots) := by
    rw [Body.roots, helements, shapes_elementsOf, Forest.outlines_stampAll]
  have hroots : ∀ start, (Body.read? start (bodyOf { options }
      (Outline.stampAll none k d.roots))).map Body.roots = .ok b.roots := by
    intro start
    rw [hbody]
    rfl
  exact ⟨_, read?_write options hname hplain hwhole hroots, rfl, rfl, hshape⟩

theorem regenerate_keeps_shape_of_card :
    Document.read? ("component Card() \x7b" ++ cardBody ++ "\x7d") = .ok card ∧
      ∃ d', Document.read? (regenerate {} 0 card) = .ok d' ∧ d'.kind = .component ∧
        d'.name = "Card" ∧ shapes d'.roots = shapes (rendered card.roots) := by
  have hheld : ∀ n ∈ (Outline.stampAll none 0 card.roots).preorder, ∀ cs ∈ held n,
      ¬ DeclaresPage cs := by
    rw [stampAll_card]
    simp only [Forest.preorder]
    decide +kernel
  obtain ⟨_, hnamed⟩ := read?_named read?_card
  have hplain := plain_of_held (namedNode_stampAll hnamed 0) hheld
  exact ⟨read?_card, regenerate_keeps_shape {} 0 read?_card regenerable_card (.inr hplain)⟩

/-- The comment takes the brace along, and the text is gone. -/
theorem regenerate_loses_text :
    let source := "page P \x7b\n  <Text x=\x7ba + b // c\n\x7d />\n\x7d"
    Document.read? source = .ok (lone "a + b // c") ∧
      Document.read? (regenerate {} 0 (lone "a + b // c")) = .ok ⟨.page, "P", []⟩ ∧
      shapes (rendered (lone "a + b // c").roots) ≠ shapes [] := by
  intro source
  refine ⟨?_, ?_, ?_⟩
  · have hheader : header? source.toList =
        some ⟨.page, "P", "\n  <Text x=\x7ba + b // c\n\x7d />\n\x7d".toList⟩ := by
      decide +kernel
    have hinside : blockInside? "\n  <Text x=\x7ba + b // c\n\x7d />\n\x7d".toList =
        some "\n  <Text x=\x7ba + b // c\n\x7d />\n".toList := by decide +kernel
    have htag : tag? (trim "\n  <Text x=\x7ba + b // c\n\x7d />\n".toList) =
        some (⟨"Text".toList, [⟨"x".toList, .braced "a + b // c".toList⟩], true⟩, []) := by
      decide +kernel
    exact read?_void hheader hinside (by decide +kernel) htag (by decide +kernel)
  · have hname : isDocumentName "P" = true := by decide
    have hheader := header?_page hname (commented ++ '\x7d' :: ['\n'])
    have hinside : blockInside? (commented ++ '\x7d' :: ['\n']) = some commented := by
      decide +kernel
    have hread : Element.readAll (trim commented) = [] :=
      readAll_unclosed (by decide +kernel) (by decide +kernel)
    rw [regenerate, write_eq, bodyOf_commented]
    rw [← String.toList_ofList (l := headerLine .page _ ++ _)] at hheader
    refine (read?_of_findStyle hheader hinside (by decide +kernel)
      (congrArg unwrapped hread)).trans ?_
    rw [unwrapped, outlines]
    simp
  · intro heq
    rw [lone, rendered, shapes, shapes] at heq
    cases heq

end Tandem.Source
