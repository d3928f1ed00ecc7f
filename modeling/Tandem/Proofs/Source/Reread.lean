import Tandem.Proofs.Source.Exposed
import Tandem.Proofs.Style.Cascade
import Tandem.Proofs.Style.Cut

/-!
# Which styles come back

A plain forest has nothing but styles, under any ids that are made of the characters of a class
and with any values that leave braces and tags alone (`PlainForest`). Written as a page it is
read as the same tree of components, and each node has what its own styles are read as
(`reread`), whatever the others hold:

* **elements** — `PlainNode.widgetOf`: a plain node is one class in a tag, so it is styled by
  the sheet alone;
* **the sheet** — `PlainForest.cascade`: the class of a node has the declarations that its own
  rule is read as;
* **what comes back** — `reread_eq_outlines_iff`: all that was written exactly if no value has
  a semicolon, and every styled node an id that can name a rule.
-/

namespace Tandem.Source

open Text Markup Style

/-! ## Plain nodes -/

/-- A node with nothing but styles, which can be written in a rule. -/
structure PlainNode (n : Node) : Prop where
  id : ∀ c ∈ n.id.toList, isClassChar c = true
  component : isTagName n.widget.component.toList = true
  children : acceptsChildren (Catalog.find? n.widget.component) = false → n.children = []
  props : n.widget.props = .empty
  events : n.widget.events = .empty
  names : ∀ e ∈ n.widget.styles.entries, isPropertyName e.1.toList = true
  values : ∀ e ∈ n.widget.styles.entries, trim e.2.toList = e.2.toList ∧ Unmarked e.2.toList

theorem PlainNode.unmarked {n : Node} (hn : PlainNode n) : UnmarkedStyles n.widget.styles :=
  fun e he => ⟨unmarked_of_isPropertyName (hn.names e he), (hn.values e he).2⟩

/-- Plain nodes with different ids. -/
structure PlainForest (f : Forest) : Prop where
  distinct : f.ids.Nodup
  nodes : ∀ n ∈ f.preorder, PlainNode n

/-- The attribute of a node's class. -/
def classAttr (id : String) : Attr := ⟨"class".toList, .quoted id.toList⟩

section

variable {pad : Nat → List Char} {level : Nat} {n : Node}

theorem PlainNode.attrsOf (hn : PlainNode n) (pad : Nat → List Char) (level : Nat)
    (inner : Option String) : attrsOf pad level n.id n.widget inner = [classAttr n.id] := by
  have hordered : ∀ c, orderedProps c .empty = [] := by
    intro c
    refine List.eq_nil_iff_forall_not_mem.mpr fun e he => ?_
    cases mem_orderedProps.mp he
  rw [Source.attrsOf, hn.props, hn.events, hordered]
  rfl

theorem PlainNode.elementOf_eq (hn : PlainNode n) (children : List Element) :
    elementOf pad level n children =
      if rendersChildren n.widget n.children then
        .nest n.widget.component.toList [classAttr n.id] children
      else .void n.widget.component.toList [classAttr n.id] := by
  have hinner : innerText? n.widget = none := by
    rw [innerText?, hn.props]
    cases textProp? (Catalog.find? n.widget.component) <;> rfl
  rw [elementOf, hn.attrsOf, hinner]

theorem PlainNode.readable_elementOf (hn : PlainNode n) {children : List Element}
    (hne : n.children ≠ [] → children ≠ []) (hchildren : ∀ e ∈ children, e.Readable) :
    (elementOf pad level n children).Readable := by
  have hclass : isAttrName "class".toList = true := by decide
  have hattrs : ∀ a ∈ [classAttr n.id], a.Readable :=
    List.forall_mem_singleton.mpr ⟨hclass, readable_className hn.id⟩
  rw [hn.elementOf_eq]
  split
  next hrenders =>
    have hsome := ne_nil_of_rendersChildren hrenders
    exact .nest _ _ _ hn.component hattrs (hne hsome) hchildren
  next => exact .void _ _ hn.component hattrs

/-- A plain node has what the sheet has for its id. -/
theorem PlainNode.widgetOf (hn : PlainNode n) {sheet : Sheet}
    (hsheet : n.id ≠ "" → sheet.cascade .empty [n.id] = rereadStyles n.id n.widget.styles) :
    widgetOf sheet n.widget.component.toList [classAttr n.id] =
      { n.widget with styles := rereadStyles n.id n.widget.styles } := by
  have hid : '&' ∉ n.id.toList := fun hmem => absurd (hn.id '&' hmem) (by decide)
  have hprops : propsOf [classAttr n.id] = Dict.empty.insert "class" (.str n.id) := by
    have hname : String.ofList "class".toList = "class" := String.ofList_toList
    simp only [propsOf, classAttr, List.foldl_cons, List.foldl_nil, setAttr, decode_eq_self hid,
      hname, String.ofList_toList]
  have htake : takeInline (Dict.empty.insert "class" (.str n.id)) =
      (.empty, Dict.empty.insert "class" (.str n.id)) := by
    rw [takeInline, Dict.get?_insert, if_neg (by decide)]
    rfl
  have hplain : (Dict.empty.insert "class" (Json.str n.id)).erase "class" = .empty := by
    refine Dict.ext_get? fun k => ?_
    rw [Dict.get?_erase, Dict.get?_insert]
    split <;> rfl
  have hstyles : sheet.cascade .empty (classesOf (Dict.empty.insert "class" (.str n.id))) =
      rereadStyles n.id n.widget.styles := by
    rw [classesOf, Dict.get?_insert, if_pos rfl]
    simp only
    by_cases hempty : n.id = ""
    · rw [hempty]
      rfl
    · have hne : n.id.toList ≠ [] := by simpa using hempty
      rw [words_eq_singleton hne fun c hc => isBlank_of_isClassChar (hn.id c hc),
        List.map_singleton, String.ofList_toList, hsheet hempty]
  rw [Source.widgetOf, hprops, htake]
  simp only [hplain, hstyles, String.ofList_toList]
  rw [hn.props, hn.events]
  rfl

end

/-! ## Forests -/

/-- The forest without ids, its nodes with what their styles are read back as. -/
def reread : Forest → List Outline
  | [] => []
  | ⟨id, _, w, children⟩ :: rest =>
    ⟨{ w with styles := rereadStyles id w.styles }, reread children⟩ :: reread rest

theorem reread_cons (n : Node) (rest : Forest) :
    reread (n :: rest) =
      ⟨{ n.widget with styles := rereadStyles n.id n.widget.styles }, reread n.children⟩ ::
        reread rest := by
  cases n
  rw [reread]

theorem readable_elementsOf {pad : Nat → List Char} {level : Nat} {f : Forest}
    (hf : ∀ n ∈ f.preorder, PlainNode n) : ∀ e ∈ elementsOf pad level f, e.Readable := by
  induction f using Forest.induction generalizing level with
  | nil =>
      rw [elementsOf]
      exact List.forall_mem_nil _
  | cons id parent w children rest ihc ihr =>
      rw [Forest.preorder_cons, List.forall_mem_cons, List.forall_mem_append] at hf
      obtain ⟨hnode, hchildren, hrest⟩ := hf
      rw [elementsOf_cons, List.forall_mem_cons]
      exact ⟨hnode.readable_elementOf elementsOf_ne_nil (ihc hchildren), ihr hrest⟩

theorem outlines_elementsOf_plain {pad : Nat → List Char} {level : Nat} {f : Forest}
    (hf : ∀ n ∈ f.preorder, PlainNode n) {sheet : Sheet}
    (hsheet : ∀ n ∈ f.preorder, n.id ≠ "" →
      sheet.cascade .empty [n.id] = rereadStyles n.id n.widget.styles) :
    outlines sheet (elementsOf pad level f) = reread f := by
  induction f using Forest.induction generalizing level with
  | nil => rw [elementsOf, outlines, reread]
  | cons id parent w children rest ihc ihr =>
      rw [Forest.preorder_cons, List.forall_mem_cons, List.forall_mem_append] at hf hsheet
      obtain ⟨hnode, hchildren, hrest⟩ := hf
      obtain ⟨hself, hbelow, hbeside⟩ := hsheet
      have hwidget := hnode.widgetOf hself
      rw [elementsOf_cons, outlines, hnode.elementOf_eq, ihr hrest hbeside, reread_cons]
      refine congrArg (· :: reread rest) ?_
      split
      next => rw [outline, hwidget, ihc hchildren hbelow]
      next hrenders =>
        have hnone := eq_nil_of_rendersChildren hnode.children (Bool.not_eq_true _ ▸ hrenders)
        rw [outline, hwidget, hnone, reread]

theorem reread_eq_outlines_iff {f : Forest} (hf : ∀ n ∈ f.preorder, PlainNode n) :
    reread f = f.outlines ↔ ∀ n ∈ f.preorder, n.widget.styles.isEmpty = false →
      n.id ≠ "" ∧ ∀ e ∈ n.widget.styles.entries, ';' ∉ e.2.toList := by
  induction f using Forest.induction with
  | nil => simp [reread, Forest.outlines]
  | cons id parent w children rest ihc ihr =>
      rw [Forest.preorder_cons, List.forall_mem_cons, List.forall_mem_append] at hf
      obtain ⟨hnode, hchildren, hrest⟩ := hf
      have hstyles := @rereadStyles_eq_iff id w.styles fun e he => (hnode.values e he).1
      have hwidget : ({ w with styles := rereadStyles id w.styles } : Widget) = w ↔
          rereadStyles id w.styles = w.styles :=
        ⟨congrArg Widget.styles, fun h => by rw [h]⟩
      rw [Forest.preorder_cons, List.forall_mem_cons, List.forall_mem_append, ← ihc hchildren,
        ← ihr hrest, ← hstyles, ← hwidget, reread, Forest.outlines]
      simp only [List.cons.injEq, Outline.mk.injEq, and_assoc]

/-! ## Pages -/

section

variable {g : Writer} {f : Forest}

theorem PlainForest.closed (hf : PlainForest f) : ClosedForest g f where
  elements := fun e he => (readable_elementsOf hf.nodes e he).closed
  rules := fun n hn =>
    have hnode := hf.nodes n (List.mem_filter.mp hn).1
    ⟨hnode.id, hnode.unmarked⟩

/-- The rules of a plain forest are those of the styled nodes whose ids can name one. -/
theorem PlainForest.rules_eq (hf : PlainForest f) {style : List Char}
    (hstyle : Writer.styled f = [] ∧ style = [] ∨ style = styleText g (Writer.styled f)) :
    rules style = (f.preorder.filter fun n => !n.id.isEmpty && !n.widget.styles.isEmpty).map
      cutRule := by
  rw [← List.filter_filter]
  change _ = ((Writer.styled f).filter fun n => !n.id.isEmpty).map cutRule
  rcases hstyle with ⟨hnone, rfl⟩ | rfl
  · rw [hnone, rules]
    rfl
  · refine rules_nodes g (fun n hn => ?_) (blank_indent (blank_pad g) 1)
    have hnode := hf.nodes n (List.mem_filter.mp hn).1
    exact ⟨hnode.id, hnode.unmarked, hnode.names⟩

theorem PlainForest.cascade (hf : PlainForest f) {n : Node} (hn : n ∈ f.preorder)
    (hid : n.id ≠ "") :
    (Sheet.ofRules ((f.preorder.filter fun n =>
      !n.id.isEmpty && !n.widget.styles.isEmpty).map cutRule)).cascade .empty [n.id] =
        rereadStyles n.id n.widget.styles := by
  have hds := declarationsOf_nodes hf.distinct
    (fun n => !n.id.isEmpty && !n.widget.styles.isEmpty) (fun n => (cutRule n).declarations) hn
  rw [cascade_singleton, rereadStyles, if_neg (by simpa using hid)]
  refine congrArg ofDeclarations (hds.trans ?_)
  split
  next => rfl
  next hrule =>
    have hempty : n.widget.styles.isEmpty = true := by simpa [hid] using hrule
    rw [Dict.isEmpty_iff.mp hempty]
    rfl

/-- A plain forest that is written as a page is read as its own tree, with the styles that come
back. -/
theorem PlainForest.read?_write (hf : PlainForest f) (options : WriterOptions) {name : String}
    (hname : isDocumentName name = true) :
    Document.read? (({ options } : Writer).write f name .page) = .ok ⟨.page, name, reread f⟩ := by
  obtain ⟨hwhole, b, hread, helements, hstyle⟩ := (hf.closed (g := { options })).bodyOf
  have hbody : ∀ start, (Body.read? start (bodyOf { options } f)).map Body.roots =
      .ok (reread f) := by
    intro start
    rw [hread]
    refine congrArg Except.ok ?_
    rw [Body.roots, helements,
      map_eq_self fun e he => (readable_elementsOf hf.nodes e he).tidy_eq, hf.rules_eq hstyle]
    exact outlines_elementsOf_plain hf.nodes fun n hn => hf.cascade hn
  exact Source.read?_write options hname (.inl rfl) hwhole hbody

end

/-! ## Painted rows -/

/-- A node with one declaration is plain if its names are and the value can be written. -/
theorem plainNode_single {id component key value : String} {parent : Option String}
    {children : Forest} (hid : ∀ c ∈ id.toList, isClassChar c = true)
    (hcomponent : isTagName component.toList = true)
    (hchildren : acceptsChildren (Catalog.find? component) = false → children = [])
    (hkey : isPropertyName key.toList = true) (htrim : trim value.toList = value.toList)
    (hunmarked : Unmarked value.toList) :
    PlainNode ⟨id, parent, { component, styles := .ofList [(key, value)] }, children⟩ where
  id := hid
  component := hcomponent
  children := hchildren
  props := rfl
  events := rfl
  names := List.forall_mem_singleton.mpr hkey
  values := List.forall_mem_singleton.mpr ⟨htrim, hunmarked⟩

/-- A row with a background. -/
def painted (background : String) : Forest :=
  [⟨"a", none, { component := "Row", styles := .ofList [("background", background)] }, []⟩]

theorem plainForest_painted {background : String}
    (htrim : trim background.toList = background.toList)
    (hunmarked : Unmarked background.toList) : PlainForest (painted background) := by
  have hid : ∀ c ∈ "a".toList, isClassChar c = true := List.all_eq_true.mp (by decide)
  have hrow : isTagName "Row".toList = true := by decide
  refine ⟨by simp [painted], ?_⟩
  simp only [painted, Forest.preorder, List.append_nil]
  refine List.forall_mem_singleton.mpr ?_
  exact plainNode_single hid hrow (fun _ => rfl) (by decide) htrim hunmarked

/-- A row with a background around a text in a color. -/
def framed : Forest :=
  [⟨"a", none, { component := "Row", styles := .ofList [("background", "url(\"a:b\")")] },
    [⟨"b", some "a", { component := "Text", styles := .ofList [("color", "red")] }, []⟩]⟩]

theorem plainForest_framed : PlainForest framed := by
  have ha : ∀ c ∈ "a".toList, isClassChar c = true := List.all_eq_true.mp (by decide)
  have hb : ∀ c ∈ "b".toList, isClassChar c = true := List.all_eq_true.mp (by decide)
  have haccepts : acceptsChildren (Catalog.find? "Row") ≠ false := by decide +kernel
  refine ⟨by simp [framed], ?_⟩
  simp only [framed, Forest.preorder, List.append_nil]
  refine List.forall_mem_cons.mpr ⟨?_, List.forall_mem_singleton.mpr ?_⟩
  · exact plainNode_single ha (by decide) (fun h => absurd h haccepts) (by decide) (by decide)
      (by simp [Unmarked])
  · exact plainNode_single hb (by decide) (fun _ => rfl) (by decide) (by decide)
      (by simp [Unmarked])

/-! ## What comes back -/

/-- **Styles come back, and to no other node, as far as they have no semicolon.** A page of a
plain forest is read as the same tree, where the styles of a node are what its own are read as;
they are all as they were exactly if every styled node has an id and no value a semicolon. -/
theorem styles_come_back (options : WriterOptions) {f : Forest} (hf : PlainForest f)
    {name : String} (hname : isDocumentName name = true) :
    Document.read? (({ options } : Writer).write f name .page) = .ok ⟨.page, name, reread f⟩ ∧
      (reread f = f.outlines ↔ ∀ n ∈ f.preorder, n.widget.styles.isEmpty = false →
        n.id ≠ "" ∧ ∀ e ∈ n.widget.styles.entries, ';' ∉ e.2.toList) :=
  ⟨hf.read?_write options hname, reread_eq_outlines_iff hf.nodes⟩

theorem styles_come_back_of_quotes :
    Document.read? (({} : Writer).write framed "P" .page) =
      .ok ⟨.page, "P", framed.outlines⟩ := by
  have hname : isDocumentName "P" = true := by decide
  obtain ⟨hread, hsame⟩ := styles_come_back {} plainForest_framed hname
  rw [hread, hsame.mpr]
  simp only [framed, Forest.preorder, List.append_nil]
  refine List.forall_mem_cons.mpr ⟨fun _ => ⟨by decide, ?_⟩,
    List.forall_mem_singleton.mpr fun _ => ⟨by decide, ?_⟩⟩
  · exact List.forall_mem_singleton.mpr (by decide)
  · exact List.forall_mem_singleton.mpr (by decide)

/-- The data of an image stand behind a semicolon, and do not come back. -/
theorem data_url_is_cut :
    PlainForest (painted "url(data:image/png;base64,AAAA)") ∧
      Document.read? (({} : Writer).write (painted "url(data:image/png;base64,AAAA)") "P" .page) =
        .ok ⟨.page, "P", (painted "url(data:image/png").outlines⟩ ∧
      (painted "url(data:image/png").outlines ≠
        (painted "url(data:image/png;base64,AAAA)").outlines := by
  have hf := @plainForest_painted "url(data:image/png;base64,AAAA)" (by decide)
    (by simp [Unmarked])
  have hname : isDocumentName "P" = true := by decide
  have hreread : reread (painted "url(data:image/png;base64,AAAA)") =
      (painted "url(data:image/png").outlines := by
    have hstyles : rereadStyles "a" (.ofList [("background", "url(data:image/png;base64,AAAA)")]) =
        .ofList [("background", "url(data:image/png")] := by decide +kernel
    simp only [painted, reread, Forest.outlines, hstyles]
  refine ⟨hf, hreread ▸ hf.read?_write {} hname, fun heq => ?_⟩
  simp only [painted, Forest.outlines] at heq
  have hwidget := congrArg Outline.widget (List.cons.inj heq).1
  have hstyles := congrArg (·.styles.get? "background") hwidget
  revert hstyles
  decide

end Tandem.Source
