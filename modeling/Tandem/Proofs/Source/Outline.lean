import Tandem.Proofs.Forest.WellFormed
import Tandem.Proofs.Source.Value
import Tandem.Proofs.Style.Sheet

/-!
# Written nodes mean what they were

A node is safe (`SafeNode`) if what it holds can be written and read back: its id as a
class, its component as a tag, properties and handlers as attributes, one text between
the tags, and styles as a rule. The element of a safe node is readable, and it means
the node's widget again if the style sheet has the node's styles under its id:

* **attributes** — `get?_propsOf`: they set every property to what was written;
* **one node** — `widgetOf_attrsOf`, with inner text put back by `withInner_escapeText`;
* **a forest** — `outlines_elementsOf`.
-/

namespace Tandem.Source

open Text Markup Style

/-! ## Safe nodes -/

/-- A property can be written and read back. The one that is written between the tags only
has to be trimmed, all others have to be safe as attributes. -/
structure SafeProp (c : Option Component) (inner : Option String) (name : String) (v : Json) :
    Prop where
  named : isAttrName name.toList = true
  unreserved : reservedProps.contains name = false
  plain : isEventName name = false
  unusual : isDefault c name v = false
  value : if inner = some name then ∀ s, v = .str s → trim s.toList = s.toList
    else SafeValue name v

/-- A handler can be written at a level of nesting and read back. -/
structure SafeHandler (pad : Nat → List Char) (level : Nat) (name body : String) : Prop where
  named : isAttrName name.toList = true
  event : isEventName name = true
  trimmed : trim body.toList = body.toList
  nonblank : isBlankString body = false
  ends : closeBrace (wrap pad level body ++ ['\x7d']) = some []

/-- The property of a node that is written between its tags. -/
def innerProp? (n : Node) : Option String :=
  if rendersChildren n.widget n.children then none else (innerText? n.widget).map (·.1)

/-- A node can be written at a level of nesting and read back. -/
structure SafeNode (pad : Nat → List Char) (level : Nat) (n : Node) : Prop where
  id : isClassName n.id.toList = true
  component : isTagName n.widget.component.toList = true
  children : acceptsChildren (Catalog.find? n.widget.component) = false → n.children = []
  props : ∀ e ∈ n.widget.props.entries,
    SafeProp (Catalog.find? n.widget.component) (innerProp? n) e.1 e.2
  events : ∀ e ∈ n.widget.events.entries, SafeHandler pad level e.1 e.2
  styles : ReadableStyles n.widget.styles

/-- All nodes can be written, those at the top at a level of nesting. -/
def SafeNodes (pad : Nat → List Char) (level : Nat) : Forest → Prop
  | [] => True
  | ⟨id, parent, w, children⟩ :: rest =>
    SafeNode pad level ⟨id, parent, w, children⟩ ∧ SafeNodes pad (level + 1) children ∧
      SafeNodes pad level rest

theorem safeNodes_cons {pad : Nat → List Char} {level : Nat} {n : Node} {rest : Forest} :
    SafeNodes pad level (n :: rest) ↔
      SafeNode pad level n ∧ SafeNodes pad (level + 1) n.children ∧ SafeNodes pad level rest := by
  cases n
  rw [SafeNodes]

/-- Every node of safe nodes is safe at the level at which it stands. -/
theorem SafeNodes.of_mem {pad : Nat → List Char} {level : Nat} {f : Forest}
    (hf : SafeNodes pad level f) {n : Node} (hn : n ∈ f.preorder) :
    ∃ level', SafeNode pad level' n := by
  induction f using Forest.induction generalizing level with
  | nil => rw [Forest.preorder_nil] at hn; cases hn
  | cons id parent w children rest ihc ihr =>
      obtain ⟨hnode, hchildren, hrest⟩ := safeNodes_cons.mp hf
      rw [Forest.preorder_cons] at hn
      rcases List.mem_cons.mp hn with rfl | hn
      · exact ⟨level, hnode⟩
      · rcases List.mem_append.mp hn with hn | hn
        · exact ihc hchildren hn
        · exact ihr hrest hn

/-! ## Attributes -/

theorem mem_orderedProps {c : Option Component} {props : Dict Json} {e : String × Json} :
    e ∈ orderedProps c props ↔ e ∈ props.entries := by
  obtain ⟨k, v⟩ := e
  have hdeclared : (k, v) ∈ (c.elim [] fun c => c.props.map (·.name)).filterMap
      (fun name => (props.get? name).map (name, ·)) ↔
        k ∈ (c.elim [] fun c => c.props.map (·.name)) ∧ (k, v) ∈ props.entries := by
    rw [List.mem_filterMap]
    constructor
    · rintro ⟨name, hname, hmap⟩
      obtain ⟨v', hv', heq⟩ := Option.map_eq_some_iff.mp hmap
      cases heq
      exact ⟨hname, Dict.mem_entries_iff.mpr hv'⟩
    · rintro ⟨hname, hmem⟩
      exact ⟨k, hname, by rw [Dict.mem_entries_iff.mp hmem]; rfl⟩
  rw [orderedProps]
  simp only [List.mem_append, hdeclared, List.mem_filter, Bool.not_eq_true',
    List.contains_eq_mem, decide_eq_false_iff_not]
  tauto

section

variable {pad : Nat → List Char} {level : Nat} {n : Node}

theorem SafeProp.propAttr? {c : Option Component} {inner : Option String} {name : String}
    {v : Json} (h : SafeProp c inner name v) (hinner : inner ≠ some name) :
    ∃ value, propAttr? c inner name v = some ⟨name.toList, value⟩ ∧ SafeValue name v ∧
      attrValue? name v = some value ∧ value.Readable := by
  have hsafe := h.value
  rw [if_neg hinner] at hsafe
  obtain ⟨value, hvalue, hreadable⟩ := hsafe.readable
  refine ⟨value, ?_, hsafe, hvalue, hreadable⟩
  have hother : (some name == inner) = false := by
    rw [beq_eq_false_iff_ne]
    exact Ne.symm hinner
  rw [Source.propAttr?, h.unreserved, hother, h.unusual, hvalue]
  rfl

theorem propAttr?_inner (c : Option Component) (name : String) (v : Json) :
    propAttr? c (some name) name v = none := by
  simp [propAttr?]

theorem propAttr?_eq_some {c : Option Component} {inner : Option String} {name : String} {v : Json}
    {a : Attr} (h : propAttr? c inner name v = some a) :
    ∃ value, attrValue? name v = some value ∧ a = ⟨name.toList, value⟩ := by
  rw [propAttr?] at h
  split at h
  next => cases h
  next =>
    obtain ⟨value, hvalue, rfl⟩ := Option.map_eq_some_iff.mp h
    exact ⟨value, hvalue, rfl⟩

/-- The three kinds of attributes of a safe node. -/
theorem SafeNode.mem_attrsOf (hn : SafeNode pad level n) {a : Attr} :
    a ∈ attrsOf pad level n.id n.widget (innerProp? n) ↔
      (∃ name v value, n.widget.props.get? name = some v ∧ innerProp? n ≠ some name ∧
        attrValue? name v = some value ∧ a = ⟨name.toList, value⟩) ∨
      a = ⟨"class".toList, .quoted n.id.toList⟩ ∨
      ∃ name body, n.widget.events.get? name = some body ∧
        a = ⟨name.toList, .braced (wrap pad level body)⟩ := by
  simp only [attrsOf, List.mem_append, List.mem_cons, List.mem_filterMap, List.mem_map,
    List.mem_filter]
  refine or_congr ?_ (or_congr Iff.rfl ?_)
  · constructor
    · rintro ⟨⟨name, v⟩, hmem, hattr⟩
      have hentry := mem_orderedProps.mp hmem
      by_cases hinner : innerProp? n = some name
      · rw [hinner, propAttr?_inner] at hattr
        cases hattr
      · obtain ⟨value, heq, _, hvalue, _⟩ := (hn.props _ hentry).propAttr? hinner
        rw [heq] at hattr
        cases hattr
        exact ⟨name, v, value, Dict.mem_entries_iff.mp hentry, hinner, hvalue, rfl⟩
    · rintro ⟨name, v, value, hget, hinner, hvalue, rfl⟩
      have hentry := Dict.mem_entries_iff.mpr hget
      obtain ⟨value', heq, _, hvalue', _⟩ := (hn.props _ hentry).propAttr? hinner
      rw [hvalue] at hvalue'
      cases hvalue'
      exact ⟨(name, v), mem_orderedProps.mpr hentry, heq⟩
  · constructor
    · rintro ⟨⟨name, body⟩, ⟨hmem, _⟩, rfl⟩
      exact ⟨name, body, Dict.mem_entries_iff.mp hmem, rfl⟩
    · rintro ⟨name, body, hget, rfl⟩
      have hentry := Dict.mem_entries_iff.mpr hget
      exact ⟨(name, body), ⟨hentry, by simp [(hn.events _ hentry).nonblank]⟩, rfl⟩

theorem readable_className {cs : List Char} (hchars : ∀ c ∈ cs, isClassChar c = true) :
    AttrValue.Readable (.quoted cs) := by
  have hclose : Leads [.quoted '"'] [] (cs ++ ['"']) := by
    refine Leads.append (leads_self fun c hc => ?_) (leads_singleton rfl)
    have hslash : c ≠ '\\' := ne_of_class (hchars c hc) (by decide)
    have hquote : c ≠ '"' := ne_of_class (hchars c hc) (by decide)
    simp [step, hslash, hquote]
  have hend := hclose.close []
  rwa [List.append_nil] at hend

theorem SafeNode.readable_attrsOf (hpad : ∀ l, Blank (pad l)) (hn : SafeNode pad level n) :
    ∀ a ∈ attrsOf pad level n.id n.widget (innerProp? n), a.Readable := by
  intro a ha
  rcases hn.mem_attrsOf.mp ha with ⟨name, v, value, hget, hinner, hvalue, rfl⟩ | rfl |
    ⟨name, body, hget, rfl⟩
  · have hprop := hn.props _ (Dict.mem_entries_iff.mpr hget)
    obtain ⟨value', _, _, hvalue', hreadable⟩ := hprop.propAttr? hinner
    rw [hvalue] at hvalue'
    cases hvalue'
    exact ⟨hprop.named, hreadable⟩
  · have hclass : isAttrName "class".toList = true := by decide
    exact ⟨hclass, readable_className (isClassName_eq_true hn.id).2⟩
  · have hevent := hn.events _ (Dict.mem_entries_iff.mpr hget)
    exact ⟨hevent.named, hevent.ends, trim_wrap hpad level body⟩

/-- What the attributes of a node set a property to. -/
def attrTarget (pad : Nat → List Char) (level : Nat) (n : Node) (k : String) : Option Json :=
  if k = "class" then some (.str n.id)
  else if isEventName k then
    (n.widget.events.get? k).map fun body => .str (String.ofList (wrap pad level body))
  else if innerProp? n = some k then none
  else n.widget.props.get? k

theorem SafeProp.ne_class {c : Option Component} {inner : Option String} {name : String} {v : Json}
    (h : SafeProp c inner name v) : name ≠ "class" ∧ name ≠ "style" := by
  have hreserved := h.unreserved
  simp only [reservedProps, List.contains_eq_mem, decide_eq_false_iff_not, List.mem_cons,
    List.not_mem_nil, or_false, not_or] at hreserved
  exact hreserved

/-- An attribute that is read sets its property to the target, if it was not set before to
anything else. -/
theorem SafeNode.get?_setAttr (hn : SafeNode pad level n) (hpad : ∀ l, Blank (pad l)) {a : Attr}
    (ha : a ∈ attrsOf pad level n.id n.widget (innerProp? n)) {props : Dict Json}
    (hprops : ∀ k, props.get? k = none ∨ props.get? k = attrTarget pad level n k) (k : String) :
    (setAttr props a).get? k =
      if k = String.ofList a.name then attrTarget pad level n k else props.get? k := by
  rcases hn.mem_attrsOf.mp ha with ⟨name, v, value, hget, hinner, hvalue, rfl⟩ | rfl |
    ⟨name, body, hget, rfl⟩
  · have hprop := hn.props _ (Dict.mem_entries_iff.mpr hget)
    have hsafe := hprop.value
    rw [if_neg hinner] at hsafe
    have htarget : attrTarget pad level n name = some v := by
      rw [attrTarget, if_neg hprop.ne_class.1, hprop.plain, if_neg (by simp), if_neg hinner, hget]
    rw [hsafe.get?_setAttr hvalue (htarget ▸ hprops name), String.ofList_toList]
    split
    next hk => rw [hk, htarget]
    next => rfl
  · have hid : '&' ∉ n.id.toList := fun hmem =>
      absurd ((isClassName_eq_true hn.id).2 '&' hmem) (by decide)
    have hname : String.ofList "class".toList = "class" := String.ofList_toList
    simp only [setAttr, decode_eq_self hid, String.ofList_toList, Dict.get?_insert]
    split
    next hk => rw [hk, attrTarget, if_pos rfl]
    next => rfl
  · have hevent := hn.events _ (Dict.mem_entries_iff.mpr hget)
    have hclass : name ≠ "class" := by
      rintro rfl
      have hevent' : isEventName "class" = true := hevent.event
      exact absurd hevent' (by decide)
    have htarget : attrTarget pad level n name =
        some (.str (String.ofList (wrap pad level body))) := by
      rw [attrTarget, if_neg hclass, if_pos hevent.event, hget]
      rfl
    simp only [setAttr, expressionValue, ofText?_wrap hpad, Option.getD_none,
      String.ofList_toList, Dict.get?_insert]
    split
    next hk => rw [hk, htarget]
    next => rfl

/-- Attributes that are read one after the other set the properties that they name. -/
theorem SafeNode.get?_foldl_setAttr (hn : SafeNode pad level n) (hpad : ∀ l, Blank (pad l))
    {attrs : List Attr} (hattrs : attrs ⊆ attrsOf pad level n.id n.widget (innerProp? n))
    {props : Dict Json}
    (hprops : ∀ k, props.get? k = none ∨ props.get? k = attrTarget pad level n k) (k : String) :
    (attrs.foldl setAttr props).get? k =
      if k ∈ attrs.map (fun a => String.ofList a.name) then attrTarget pad level n k
      else props.get? k := by
  induction attrs generalizing props with
  | nil => simp
  | cons a as ih =>
      obtain ⟨ha, has⟩ := List.cons_subset.mp hattrs
      have hset := hn.get?_setAttr hpad ha hprops
      -- A later attribute of the same name meets the target, and that is no obstacle to it.
      have hnext : ∀ k, (setAttr props a).get? k = none ∨
          (setAttr props a).get? k = attrTarget pad level n k := by
        intro k
        rw [hset]
        split
        · exact .inr rfl
        · exact hprops k
      rw [List.foldl_cons, ih has hnext, hset]
      by_cases hmem : k ∈ as.map fun a => String.ofList a.name
      · simp [hmem]
      · rw [if_neg hmem, List.map_cons]
        by_cases hk : k = String.ofList a.name
        · rw [if_pos hk, if_pos (hk ▸ List.mem_cons_self)]
        · rw [if_neg hk, if_neg (by simp only [List.mem_cons, not_or]; exact ⟨hk, hmem⟩)]

/-- What no attribute names has no target. -/
theorem SafeNode.attrTarget_eq_none (hn : SafeNode pad level n) {k : String}
    (h : ∀ a ∈ attrsOf pad level n.id n.widget (innerProp? n), k ≠ String.ofList a.name) :
    attrTarget pad level n k = none := by
  have hself : k = String.ofList k.toList := String.ofList_toList.symm
  rw [attrTarget]
  split
  next hclass =>
    refine absurd ?_ (h ⟨"class".toList, .quoted n.id.toList⟩
      (hn.mem_attrsOf.mpr (.inr (.inl rfl))))
    rw [hclass]
    exact String.ofList_toList.symm
  next =>
    split
    next =>
      cases hget : n.widget.events.get? k with
      | none => rfl
      | some body =>
          exact absurd hself (h ⟨k.toList, .braced (wrap pad level body)⟩
            (hn.mem_attrsOf.mpr (.inr (.inr ⟨k, body, hget, rfl⟩))))
    next =>
      split
      next => rfl
      next hinner =>
        cases hget : n.widget.props.get? k with
        | none => rfl
        | some v =>
            obtain ⟨value, _, _, hvalue, _⟩ :=
              (hn.props _ (Dict.mem_entries_iff.mpr hget)).propAttr? hinner
            exact absurd hself (h ⟨k.toList, value⟩
              (hn.mem_attrsOf.mpr (.inl ⟨k, v, value, hget, hinner, hvalue, rfl⟩)))

/-- The attributes of a safe node set every property to its target. -/
theorem SafeNode.get?_propsOf (hn : SafeNode pad level n) (hpad : ∀ l, Blank (pad l))
    (k : String) :
    (propsOf (attrsOf pad level n.id n.widget (innerProp? n))).get? k =
      attrTarget pad level n k := by
  rw [propsOf, hn.get?_foldl_setAttr hpad (fun _ h => h) fun _ => .inl rfl]
  split
  · rfl
  next hnot =>
    exact (hn.attrTarget_eq_none fun a ha hk => hnot (List.mem_map.mpr ⟨a, ha, hk.symm⟩)).symm

/-! ## One node -/

theorem SafeHandler.handler? {name body : String} (h : SafeHandler pad level name body)
    (hpad : ∀ l, Blank (pad l)) :
    handler? (.str (String.ofList (wrap pad level body))) = some body := by
  have hne : trim body.toList ≠ [] := by
    intro hnil
    have hnonblank := h.nonblank
    rw [isBlankString, ← h.trimmed, hnil] at hnonblank
    cases hnonblank
  rw [Source.handler?, unwrap_wrap hpad level hne, h.trimmed, String.ofList_toList]

theorem SafeNode.get?_props_eq_none (hn : SafeNode pad level n) {k : String}
    (hk : k = "class" ∨ k = "style" ∨ isEventName k = true) : n.widget.props.get? k = none := by
  refine Dict.get?_eq_none_iff.mpr fun e he heq => ?_
  have hprop := hn.props e he
  rw [heq] at hprop
  rcases hk with hk | hk | hk
  · exact hprop.ne_class.1 hk
  · exact hprop.ne_class.2 hk
  · rw [hprop.plain] at hk; cases hk

theorem SafeNode.get?_events_eq_none (hn : SafeNode pad level n) {k : String}
    (hk : isEventName k = false) : n.widget.events.get? k = none := by
  refine Dict.get?_eq_none_iff.mpr fun e he heq => ?_
  have hevent := (hn.events e he).event
  rw [heq, hk] at hevent
  cases hevent

theorem SafeNode.takeInline_propsOf (hn : SafeNode pad level n) (hpad : ∀ l, Blank (pad l)) :
    takeInline (propsOf (attrsOf pad level n.id n.widget (innerProp? n))) =
      (.empty, propsOf (attrsOf pad level n.id n.widget (innerProp? n))) := by
  have hevent : isEventName "style" = false := by decide
  have hstyle : attrTarget pad level n "style" = none := by
    rw [attrTarget, if_neg (by decide), hevent, if_neg (by simp),
      hn.get?_props_eq_none (.inr (.inl rfl)), ite_self]
  rw [takeInline, hn.get?_propsOf hpad, hstyle]

/-- The only class of a node is its id. -/
theorem SafeNode.classesOf_propsOf (hn : SafeNode pad level n) (hpad : ∀ l, Blank (pad l)) :
    classesOf (propsOf (attrsOf pad level n.id n.widget (innerProp? n))) = [n.id] := by
  obtain ⟨hne, hchars⟩ := isClassName_eq_true hn.id
  have hblank : ∀ c ∈ n.id.toList, isBlank c = false := fun c hc =>
    isBlank_of_isClassChar (hchars c hc)
  rw [classesOf, hn.get?_propsOf hpad, attrTarget, if_pos rfl]
  simp only [words_eq_singleton hne hblank, List.map_singleton, String.ofList_toList]

/-- **The attributes of a safe node mean its widget**, without the property that is
written between the tags. -/
theorem SafeNode.widgetOf_attrsOf (hn : SafeNode pad level n) (hpad : ∀ l, Blank (pad l))
    {sheet : Sheet} (hsheet : sheet.cascade .empty [n.id] = n.widget.styles) :
    widgetOf sheet n.widget.component.toList
        (attrsOf pad level n.id n.widget (innerProp? n)) =
      { n.widget with
        props := n.widget.props.filterKeys fun k => decide (innerProp? n ≠ some k) } := by
  have hget := hn.get?_propsOf hpad
  simp only [widgetOf, hn.takeInline_propsOf hpad, hn.classesOf_propsOf hpad, hsheet,
    String.ofList_toList]
  congr 1
  · -- Properties: what is left is neither the class nor a handler.
    refine Dict.ext_get? fun k => ?_
    simp only [Dict.get?_filterKeys, Dict.get?_erase, hget, attrTarget]
    by_cases hevent : isEventName k = true
    · simp [hevent, hn.get?_props_eq_none (.inr (.inr hevent))]
    · by_cases hclass : k = "class"
      · simp [hclass, hn.get?_props_eq_none (.inl rfl)]
      · by_cases hinner : innerProp? n = some k
        · simp [hevent, hclass, hinner]
        · simp [hevent, hclass, hinner]
  · -- Handlers: what has the name of an event, unwrapped.
    refine Dict.ext_get? fun k => ?_
    simp only [Dict.get?_filterMap, Dict.get?_filterKeys, Dict.get?_erase, hget, attrTarget]
    by_cases hevent : isEventName k = true
    · have hclass : k ≠ "class" := by
        rintro rfl
        exact absurd hevent (by decide)
      cases hbody : n.widget.events.get? k with
      | none => simp [hevent, hclass]
      | some body =>
          have hhandler := (hn.events _ (Dict.mem_entries_iff.mpr hbody)).handler? hpad
          simp [hevent, hclass, hhandler]
    · simp [hevent, hn.get?_events_eq_none (Bool.not_eq_true _ ▸ hevent)]

theorem innerText?_eq_some {w : Widget} {prop text : String}
    (h : innerText? w = some (prop, text)) :
    textProp? (Catalog.find? w.component) = some prop ∧
      w.props.get? prop = some (.str text) ∧ text.isEmpty = false := by
  obtain ⟨prop', htext, hvalue⟩ := Option.bind_eq_some_iff.mp h
  split at hvalue
  next s hs =>
    split at hvalue
    · cases hvalue
    next hempty =>
      cases hvalue
      exact ⟨htext, hs, by simpa using hempty⟩
  · cases hvalue

/-- Text between the tags is put back into the property that it was taken from. -/
theorem withInner_escapeText {w : Widget} {prop text : String}
    (hinner : innerText? w = some (prop, text)) :
    withInner { w with props := w.props.filterKeys fun k => decide (some prop ≠ some k) }
      (escapeText text.toList) = w := by
  obtain ⟨htext, hget, hne⟩ := innerText?_eq_some hinner
  have hdecode := decode_escapeText text.toList
  have hnonempty : (escapeText text.toList).isEmpty = false := by
    cases h : (escapeText text.toList).isEmpty with
    | false => rfl
    | true =>
        rw [List.isEmpty_iff.mp h] at hdecode
        have hnil : text = "" := String.toList_inj.mp hdecode.symm
        rw [hnil] at hne
        cases hne
  have hbrace : ((escapeText text.toList).head? == some '\x7b') = false := by
    rw [beq_eq_false_iff_ne]
    intro hhead
    exact not_mem_escapeText (.inr (.inr (.inl rfl))) _ (List.mem_of_mem_head? hhead)
  have hunset : isUnset ((w.props.filterKeys fun k => decide (some prop ≠ some k)).get? prop) =
      true := by simp [isUnset]
  rw [withInner, hnonempty, hbrace, if_neg (by simp), htext]
  simp only [hunset, if_true, hdecode, String.ofList_toList]
  have hprops : (w.props.filterKeys fun k => decide (some prop ≠ some k)).insert prop
      (.str text) = w.props := by
    refine Dict.ext_get? fun k => ?_
    rw [Dict.get?_insert, Dict.get?_filterKeys]
    by_cases hk : k = prop
    · rw [if_pos hk, hk, hget]
    · rw [if_neg hk, if_pos (by simp [Ne.symm hk])]
  rw [hprops]

/-- The element of a node, given those of its children. -/
def elementOf (pad : Nat → List Char) (level : Nat) (n : Node) (children : List Element) :
    Element :=
  if rendersChildren n.widget n.children then
    .nest n.widget.component.toList (attrsOf pad level n.id n.widget none) children
  else match innerText? n.widget with
    | some (prop, s) =>
      .text n.widget.component.toList (attrsOf pad level n.id n.widget (some prop))
        (escapeText s.toList)
    | none => .void n.widget.component.toList (attrsOf pad level n.id n.widget none)

theorem elementsOf_cons (n : Node) (rest : Forest) :
    elementsOf pad level (n :: rest) =
      elementOf pad level n (elementsOf pad (level + 1) n.children) ::
        elementsOf pad level rest := by
  cases n
  exact elementsOf.eq_2 ..

theorem attrs_elementOf (pad : Nat → List Char) (level : Nat) (n : Node) (children : List Element) :
    (elementOf pad level n children).attrs = attrsOf pad level n.id n.widget (innerProp? n) := by
  rw [elementOf, innerProp?]
  split
  next => rfl
  next =>
    split
    next heq => rw [heq]; rfl
    next heq => rw [heq]; rfl

/-- The nodes that are written in the markup: those that a component holds no place for are
left out. -/
def shown : Forest → Forest
  | [] => []
  | ⟨id, parent, w, children⟩ :: rest =>
    ⟨id, parent, w, children⟩ ::
      ((if rendersChildren w children then shown children else []) ++ shown rest)

theorem shown_cons (n : Node) (rest : Forest) :
    shown (n :: rest) =
      n :: ((if rendersChildren n.widget n.children then shown n.children else []) ++
        shown rest) := by
  cases n
  rw [shown]

theorem shown_sublist (f : Forest) : (shown f).Sublist f.preorder := by
  induction f using Forest.induction with
  | nil => rw [shown]; exact List.nil_sublist _
  | cons id parent w children rest ihc ihr =>
      rw [shown_cons, Forest.preorder_cons]
      refine List.Sublist.cons_cons _ (List.Sublist.append ?_ ihr)
      split
      next => exact ihc
      next => exact List.nil_sublist _

theorem ne_nil_of_rendersChildren {w : Widget} {children : Forest}
    (h : rendersChildren w children = true) : children ≠ [] := by
  rintro rfl
  rw [rendersChildren, Bool.and_eq_true] at h
  cases h.2

theorem eq_nil_of_rendersChildren {w : Widget} {children : Forest}
    (hchildren : acceptsChildren (Catalog.find? w.component) = false → children = [])
    (h : rendersChildren w children = false) : children = [] := by
  rw [rendersChildren, Bool.and_eq_false_iff] at h
  rcases h with h | h
  · exact hchildren h
  · simpa using h

/-- The text between the tags of a safe node is trimmed. -/
theorem SafeNode.trim_inner (hn : SafeNode pad level n)
    (hchildren : rendersChildren n.widget n.children = false) {prop text : String}
    (hinner : innerText? n.widget = some (prop, text)) : trim text.toList = text.toList := by
  have hprop : innerProp? n = some prop := by
    rw [innerProp?, hchildren, if_neg (by simp), hinner]
    rfl
  obtain ⟨_, hget, _⟩ := innerText?_eq_some hinner
  have hsafe := (hn.props _ (Dict.mem_entries_iff.mpr hget)).value
  rw [hprop, if_pos rfl] at hsafe
  exact hsafe _ rfl

theorem unmarked_escapeText (cs : List Char) : Unmarked (escapeText cs) := by
  intro c hc
  refine ⟨?_, ?_, ?_⟩
  · rintro rfl; exact not_mem_escapeText (.inl rfl) _ hc
  · rintro rfl; exact not_mem_escapeText (.inr (.inr (.inl rfl))) _ hc
  · rintro rfl; exact not_mem_escapeText (.inr (.inr (.inr rfl))) _ hc

theorem SafeNode.readable_elementOf (hn : SafeNode pad level n) (hpad : ∀ l, Blank (pad l))
    {children : List Element} (hne : n.children ≠ [] → children ≠ [])
    (hchildren : ∀ e ∈ children, e.Readable) : (elementOf pad level n children).Readable := by
  have hattrs := hn.readable_attrsOf hpad
  rw [elementOf]
  split
  next hrenders =>
    rw [innerProp?, if_pos hrenders] at hattrs
    have hsome := ne_nil_of_rendersChildren hrenders
    exact .nest _ _ _ hn.component hattrs (hne hsome) hchildren
  next hrenders =>
    rw [innerProp?, if_neg hrenders] at hattrs
    split
    next prop text hinner =>
      rw [hinner] at hattrs
      have htrim := hn.trim_inner (Bool.not_eq_true _ ▸ hrenders) hinner
      exact .text _ _ _ hn.component hattrs (unmarked_escapeText text.toList)
        (isEscape_textReference.trim htrim)
    next hinner =>
      rw [hinner] at hattrs
      exact .void _ _ hn.component hattrs

/-- The element of a safe node means the node, if the sheet has its styles and the elements
of its children mean them. -/
theorem SafeNode.outline_elementOf (hn : SafeNode pad level n) (hpad : ∀ l, Blank (pad l))
    {sheet : Sheet} (hsheet : sheet.cascade .empty [n.id] = n.widget.styles)
    {children : List Element} (hchildren : outlines sheet children = Forest.outlines n.children) :
    outline sheet (elementOf pad level n children) = n.outline := by
  have hwidget := hn.widgetOf_attrsOf hpad hsheet
  have hall : n.widget.props.filterKeys (fun k => decide (none ≠ some k)) = n.widget.props := by
    refine Dict.ext_get? fun k => ?_
    simp
  rw [elementOf, Node.outline]
  split
  next hrenders =>
    rw [innerProp?, if_pos hrenders, hall] at hwidget
    rw [outline, hwidget, hchildren]
  next hrenders =>
    have hnil := eq_nil_of_rendersChildren hn.children (Bool.not_eq_true _ ▸ hrenders)
    rw [innerProp?, if_neg hrenders] at hwidget
    rw [hnil, Forest.outlines]
    split
    next prop text hinner =>
      rw [hinner, Option.map_some] at hwidget
      rw [outline, hwidget, withInner_escapeText hinner]
    next hinner =>
      rw [hinner, Option.map_none, hall] at hwidget
      rw [outline, hwidget]

end

/-! ## Forests -/

theorem length_elementsOf (pad : Nat → List Char) (level : Nat) (f : Forest) :
    (elementsOf pad level f).length = f.length := by
  induction f with
  | nil => rw [elementsOf]; rfl
  | cons n rest ih => rw [elementsOf_cons, List.length_cons, List.length_cons, ih]

theorem elementsOf_ne_nil {pad : Nat → List Char} {level : Nat} {f : Forest} (hne : f ≠ []) :
    elementsOf pad level f ≠ [] := by
  intro hnil
  have hlength := length_elementsOf pad level f
  rw [hnil] at hlength
  exact hne (List.eq_nil_of_length_eq_zero hlength.symm)

theorem SafeNodes.readable_elementsOf {pad : Nat → List Char} (hpad : ∀ l, Blank (pad l))
    {level : Nat} {f : Forest} (hf : SafeNodes pad level f) :
    ∀ e ∈ elementsOf pad level f, e.Readable := by
  induction f using Forest.induction generalizing level with
  | nil => intro e he; rw [elementsOf] at he; cases he
  | cons id parent w children rest ihc ihr =>
      obtain ⟨hnode, hchildren, hrest⟩ := safeNodes_cons.mp hf
      intro e he
      rw [elementsOf_cons] at he
      rcases List.mem_cons.mp he with rfl | he
      · exact hnode.readable_elementOf hpad elementsOf_ne_nil (ihc hchildren)
      · exact ihr hrest e he

/-- **The elements of safe nodes mean the nodes.** -/
theorem SafeNodes.outlines_elementsOf {pad : Nat → List Char} (hpad : ∀ l, Blank (pad l))
    {level : Nat} {f : Forest} (hf : SafeNodes pad level f) {sheet : Sheet}
    (hsheet : ∀ n ∈ f.preorder, sheet.cascade .empty [n.id] = n.widget.styles) :
    outlines sheet (elementsOf pad level f) = f.outlines := by
  induction f using Forest.induction generalizing level with
  | nil => rw [elementsOf, outlines, Forest.outlines]
  | cons id parent w children rest ihc ihr =>
      obtain ⟨hnode, hchildren, hrest⟩ := safeNodes_cons.mp hf
      rw [Forest.preorder_cons] at hsheet
      have hself := hsheet _ List.mem_cons_self
      have hbelow := ihc hchildren fun n hn =>
        hsheet n (List.mem_cons_of_mem _ (List.mem_append_left _ hn))
      have hbeside := ihr hrest fun n hn =>
        hsheet n (List.mem_cons_of_mem _ (List.mem_append_right _ hn))
      rw [elementsOf_cons, outlines, hnode.outline_elementOf hpad hself hbelow, hbeside,
        Forest.outlines]
      rfl

end Tandem.Source
