import Tandem.Proofs.Dict
import Tandem.Proofs.Markup.Named
import Tandem.Proofs.Source.Header
import Tandem.Proofs.Source.Written

/-!
# What is read can be named again

A document that is read has a name that a header can declare, its components have names of
tags, and its properties and handlers names of attributes (`roots_named`). So whatever else
may be lost when it is written, no name is.
-/

namespace Tandem.Source

open Text Markup Style

/-! ## Keys -/

/-- All keys are attribute names. -/
def NamedKeys {α : Type} (d : Dict α) : Prop :=
  ∀ k v, d.get? k = some v → isAttrName k.toList = true

section

variable {α β : Type} {d : Dict α}

theorem NamedKeys.empty : NamedKeys (.empty : Dict α) := by
  intro k v hget
  cases hget

theorem NamedKeys.insert (hd : NamedKeys d) {k : String} (hk : isAttrName k.toList = true) (v : α) :
    NamedKeys (d.insert k v) := by
  intro x w hget
  rw [Dict.get?_insert] at hget
  split at hget
  next heq => rw [heq]; exact hk
  next => exact hd x w hget

theorem NamedKeys.erase (hd : NamedKeys d) (k : String) : NamedKeys (d.erase k) := by
  intro x w hget
  rw [Dict.get?_erase] at hget
  split at hget
  next => cases hget
  next => exact hd x w hget

theorem NamedKeys.filterKeys (hd : NamedKeys d) (p : String → Bool) :
    NamedKeys (d.filterKeys p) := by
  intro x w hget
  rw [Dict.get?_filterKeys] at hget
  split at hget
  next => exact hd x w hget
  next => cases hget

theorem NamedKeys.filterMap (hd : NamedKeys d) (f : α → Option β) : NamedKeys (d.filterMap f) := by
  intro x w hget
  rw [Dict.get?_filterMap] at hget
  obtain ⟨v, hv, _⟩ := Option.bind_eq_some_iff.mp hget
  exact hd x v hv

end

/-! ## Widgets -/

/-- The component is the name of a tag, and properties and handlers are attributes. -/
structure NamedWidget (w : Widget) : Prop where
  component : isTagName w.component.toList = true
  props : NamedKeys w.props
  events : NamedKeys w.events

/-- The node can be told apart in a text: it has names, and its id is a class. -/
structure NamedNode (n : Node) : Prop where
  id : isClassName n.id.toList = true
  widget : NamedWidget n.widget

theorem setAttr_named {props : Dict Json} (hprops : NamedKeys props) {a : Attr}
    (ha : isAttrName a.name = true) : NamedKeys (setAttr props a) := by
  have hname : isAttrName (String.ofList a.name).toList = true := by
    rw [String.toList_ofList]
    exact ha
  rw [setAttr]
  split
  next => exact hprops.insert hname _
  next => exact hprops.insert hname _
  next =>
    split
    next => exact hprops.insert hname _
    next => exact hprops

theorem propsOf_named {attrs : List Attr} (hattrs : NamedAttrs attrs) :
    NamedKeys (propsOf attrs) := by
  have hfold : ∀ props : Dict Json, NamedKeys props → NamedKeys (attrs.foldl setAttr props) := by
    induction attrs with
    | nil => exact fun _ hprops => hprops
    | cons a as ih =>
        intro props hprops
        obtain ⟨ha, has⟩ := List.forall_mem_cons.mp hattrs
        exact ih has _ (setAttr_named hprops ha)
  exact hfold .empty NamedKeys.empty

theorem takeInline_named {props : Dict Json} (hprops : NamedKeys props) :
    NamedKeys (takeInline props).2 := by
  rw [takeInline]
  split
  next => exact hprops.erase "style"
  next => exact hprops

theorem widgetOf_named (sheet : Sheet) {name : List Char} {attrs : List Attr}
    (hname : isTagName name = true) (hattrs : NamedAttrs attrs) :
    NamedWidget (widgetOf sheet name attrs) := by
  have hplain := (takeInline_named (propsOf_named hattrs)).erase "class"
  refine ⟨?_, hplain.filterKeys _, (hplain.filterKeys _).filterMap _⟩
  show isTagName (String.ofList name).toList = true
  rw [String.toList_ofList]
  exact hname

/-- The property for inner text has the name of an attribute. -/
theorem isAttrName_textProp {c : Option Component} {prop : String} (h : textProp? c = some prop) :
    isAttrName prop.toList = true := by
  have hall : ∀ name ∈ textProps, isAttrName name.toList = true := by decide
  obtain ⟨c, rfl, hfind⟩ := Option.bind_eq_some_iff.mp h
  exact hall prop (List.mem_of_find?_eq_some hfind)

/-- Inner text changes properties only. -/
theorem withInner_eq (w : Widget) (inner : List Char) :
    ∃ props, withInner w inner = { w with props } := by
  rw [withInner]
  split
  next => exact ⟨w.props, rfl⟩
  next =>
    split
    next => exact ⟨w.props, rfl⟩
    next =>
      split
      next => exact ⟨_, rfl⟩
      next => exact ⟨w.props, rfl⟩

theorem component_withInner (w : Widget) (inner : List Char) :
    (withInner w inner).component = w.component := by
  obtain ⟨props, h⟩ := withInner_eq w inner
  rw [h]

theorem styles_withInner (w : Widget) (inner : List Char) :
    (withInner w inner).styles = w.styles := by
  obtain ⟨props, h⟩ := withInner_eq w inner
  rw [h]

theorem withInner_named {w : Widget} (hw : NamedWidget w) (inner : List Char) :
    NamedWidget (withInner w inner) := by
  rw [withInner]
  split
  next => exact hw
  next =>
    split
    next => exact hw
    next prop htext =>
      split
      next => exact ⟨hw.component, hw.props.insert (isAttrName_textProp htext) _, hw.events⟩
      next => exact hw

/-! ## Outlines and forests -/

def NamedOutlines : List Outline → Prop
  | [] => True
  | ⟨widget, children⟩ :: rest =>
    NamedWidget widget ∧ NamedOutlines children ∧ NamedOutlines rest

theorem namedOutlines_nil : NamedOutlines [] := by
  rw [NamedOutlines]
  trivial

theorem namedOutlines_cons {o : Outline} {rest : List Outline} :
    NamedOutlines (o :: rest) ↔
      NamedWidget o.widget ∧ NamedOutlines o.children ∧ NamedOutlines rest := by
  cases o
  rw [NamedOutlines]

/-- Elements mean named outlines if each of them does. -/
theorem namedOutlines_of_forall {sheet : Sheet} {es : List Element}
    (h : ∀ e ∈ es, NamedOutlines [outline sheet e]) : NamedOutlines (outlines sheet es) := by
  induction es with
  | nil => rw [outlines]; exact namedOutlines_nil
  | cons e es ih =>
      obtain ⟨he, hes⟩ := List.forall_mem_cons.mp h
      obtain ⟨hwidget, hchildren, _⟩ := namedOutlines_cons.mp he
      rw [outlines]
      exact namedOutlines_cons.mpr ⟨hwidget, hchildren, ih hes⟩

theorem outline_named (sheet : Sheet) {e : Element} (he : e.Named) :
    NamedOutlines [outline sheet e] := by
  rw [namedOutlines_cons]
  induction he with
  | void name attrs hname hattrs =>
      rw [outline]
      exact ⟨widgetOf_named sheet hname hattrs, namedOutlines_nil, namedOutlines_nil⟩
  | text name attrs inner hname hattrs =>
      rw [outline]
      exact ⟨withInner_named (widgetOf_named sheet hname hattrs) inner, namedOutlines_nil,
        namedOutlines_nil⟩
  | nest name attrs children hname hattrs _ ih =>
      rw [outline]
      refine ⟨widgetOf_named sheet hname hattrs, ?_, namedOutlines_nil⟩
      exact namedOutlines_of_forall fun e he => namedOutlines_cons.mpr (ih e he)

/-- The roots of a page have names as all its elements do. -/
theorem unwrapped_named {es : List Element} (hes : ∀ e ∈ es, e.Named) :
    ∀ e ∈ unwrapped es, e.Named := by
  rw [unwrapped.eq_def]
  split
  next name children =>
    split
    next =>
      cases hes _ (List.mem_singleton.mpr rfl) with
      | nest _ _ _ _ _ hchildren => exact hchildren
    next => exact hes
  next => exact hes

theorem Body.roots_named (b : Body) : NamedOutlines b.roots :=
  namedOutlines_of_forall fun e he =>
    outline_named _ (unwrapped_named (readAll_named b.markup) e he)

theorem NameBefore.isDocumentName {name rest cs : List Char} (h : NameBefore name rest cs) :
    isDocumentName (String.ofList name) = true := by
  obtain ⟨_, hne, hword⟩ := h
  have hnonempty : (String.ofList name).isEmpty = false := by
    cases hempty : (String.ofList name).isEmpty with
    | false => rfl
    | true =>
        have hnil : String.ofList name = "" := String.isEmpty_iff.mp hempty
        exact absurd (String.ofList_eq_empty_iff.mp hnil) hne
  rw [Source.isDocumentName, hnonempty, String.toList_ofList]
  exact List.all_eq_true.mpr hword

theorem header?_isDocumentName {cs : List Char} {h : Header} (hcs : header? cs = some h) :
    isDocumentName h.name = true := by
  obtain ⟨name, hname, hbefore⟩ := header?_eq_some hcs
  rw [hname]
  exact hbefore.isDocumentName

theorem name?_isDocumentName {source name : String} (h : name? source = some name) :
    isDocumentName name = true := by
  rw [name?] at h
  split at h
  next cs rest hpage =>
    cases h
    obtain ⟨place, _, hplace⟩ := searchWord_eq_some hpage
    exact (page?_eq_some hplace).isDocumentName
  next =>
    obtain ⟨⟨cs, rest⟩, hcomponent, rfl⟩ := Option.map_eq_some_iff.mp h
    obtain ⟨place, _, hplace⟩ := searchWord_eq_some hcomponent
    exact (componentName?_eq_some hplace).isDocumentName

/-- **A document that is read has names only that can be written.** -/
theorem read?_named {source : String} {d : Document} (hread : Document.read? source = .ok d) :
    isDocumentName d.name = true ∧ NamedOutlines d.roots := by
  obtain ⟨header, _, _, b, hheader, _, _, rfl⟩ := exists_of_read?_eq_ok hread
  exact ⟨header?_isDocumentName hheader, b.roots_named⟩

/-- The widgets of a forest have names if its outlines do. -/
theorem named_of_mem {f : Forest} (hf : NamedOutlines f.outlines) :
    ∀ n ∈ f.preorder, NamedWidget n.widget := by
  induction f using Forest.induction with
  | nil =>
      intro n hn
      rw [Forest.preorder_nil] at hn
      cases hn
  | cons id parent w children rest ihc ihr =>
      rw [Forest.outlines] at hf
      obtain ⟨hwidget, hchildren, hrest⟩ := namedOutlines_cons.mp hf
      intro n hn
      rw [Forest.preorder_cons] at hn
      rcases List.mem_cons.mp hn with rfl | hn
      · exact hwidget
      · rcases List.mem_append.mp hn with hn | hn
        · exact ihc hchildren n hn
        · exact ihr hrest n hn

end Tandem.Source
