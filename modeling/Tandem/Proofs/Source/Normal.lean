import Tandem.Proofs.Forest.Identity
import Tandem.Proofs.Source.Named
import Tandem.Proofs.Source.Torn

/-!
# What is read is in normal form

Properties, styles and handlers are carved out of one list of attributes, and inner text may
add a property again. Whatever the text, what is left for each of the three is in the form
in which it is written (`NormalWidget`):

* **styles** — `Sheet.cascade_trimmed`: declarations are trimmed where they are read, in a
  rule (`declarations_trimmed`) as in a style attribute (`inlineDeclaration?_trimmed`), and
  putting them over one another keeps that;
* **one widget** — `widgetOf_normal`, with inner text by `withInner_normal`;
* **all widgets** — `widgets_outlines`: the widgets that are read are those of the elements, one
  by one in the order in which the text opens them.

With the ids and links that stamping gives, this makes `readForest_normal`.
-/

namespace Tandem

/-- The widgets of the outlines, each before those it holds. -/
def Outline.widgets : List Outline → List Widget
  | [] => []
  | ⟨widget, children⟩ :: rest => widget :: (widgets children ++ widgets rest)

theorem Forest.widgets_outlines (f : Forest) :
    Outline.widgets f.outlines = f.preorder.map (·.widget) := by
  induction f using Forest.induction with
  | nil => rw [outlines, Outline.widgets, preorder_nil, List.map_nil]
  | cons id parent w children rest ihc ihr =>
      rw [outlines, Outline.widgets, preorder_cons, List.map_cons, List.map_append, ihc, ihr]

namespace Style

open Text

/-! ## Styles -/

/-- A declaration of a property, without blanks around the property and the value. -/
def TrimmedDeclaration (d : Declaration) : Prop :=
  d.1 ≠ [] ∧ trim d.1 = d.1 ∧ trim d.2 = d.2

theorem declaration?_trimmed {cs rest : List Char} {d : Declaration}
    (h : declaration? cs = some (d, rest)) : TrimmedDeclaration d := by
  simp only [declaration?] at h
  split at h
  next => cases h
  next hname =>
    split at h
    next after _ =>
      split at h
      next => cases h
      next =>
        cases h
        have hchars : ∀ c ∈ cs.takeWhile isPropertyChar, isBlank c = false := fun c hc =>
          isBlank_of_isPropertyChar (List.all_eq_true.mp List.all_takeWhile c hc)
        refine ⟨by simpa using hname, trim_eq_self ?_ ?_, Source.trim_trim _⟩
        · exact fun c hc => hchars c (List.mem_of_mem_head? hc)
        · exact fun c hc => hchars c (List.mem_of_getLast? hc)
    next => cases h

theorem declarations_trimmed (cs : List Char) : ∀ d ∈ declarations cs, TrimmedDeclaration d := by
  fun_induction declarations cs with
  | case1 => exact List.forall_mem_nil _
  | case2 c rest d after h ih => exact List.forall_mem_cons.mpr ⟨declaration?_trimmed h, ih⟩
  | case3 c rest h ih => exact ih

theorem rules_trimmed (cs : List Char) :
    ∀ r ∈ rules cs, ∀ d ∈ r.declarations, TrimmedDeclaration d := by
  fun_induction rules cs with
  | case1 => exact List.forall_mem_nil _
  | case2 c rest name body after h ih =>
    exact List.forall_mem_cons.mpr ⟨declarations_trimmed body, ih⟩
  | case3 c rest h ih => exact ih

theorem inlineDeclaration?_trimmed {cs : List Char} {d : Declaration}
    (h : inlineDeclaration? cs = some d) : TrimmedDeclaration d := by
  obtain ⟨⟨name, value⟩, _, hd⟩ := Option.bind_eq_some_iff.mp h
  simp only at hd
  split at hd
  next => cases hd
  next hne =>
    cases hd
    simp only [Bool.or_eq_true, not_or, Bool.not_eq_true, List.isEmpty_eq_false_iff] at hne
    exact ⟨hne.1, Source.trim_trim name, Source.trim_trim value⟩

/-- No property has an empty name, and names and values are trimmed. -/
def TrimmedStyles (styles : Dict String) : Prop :=
  ∀ k v, styles.get? k = some v → TrimmedDeclaration (k.toList, v.toList)

theorem trimmedStyles_empty : TrimmedStyles .empty := by
  intro k v hget
  cases hget

theorem TrimmedStyles.merge {styles overrides : Dict String} (hstyles : TrimmedStyles styles)
    (hoverrides : TrimmedStyles overrides) : TrimmedStyles (styles.merge overrides) := by
  intro k v hget
  rw [Dict.get?_merge, Option.or_eq_some_iff] at hget
  rcases hget with hget | ⟨_, hget⟩
  · exact hoverrides k v hget
  · exact hstyles k v hget

theorem ofDeclarations_trimmed {ds : List Declaration} (hds : ∀ d ∈ ds, TrimmedDeclaration d) :
    TrimmedStyles (ofDeclarations ds) :=
  fun _ _ hget => forall_get?_ofDeclarations hds hget

/-- The declarations of every class are trimmed. -/
def TrimmedSheet (sheet : Sheet) : Prop :=
  ∀ c styles, sheet.get? c = some styles → TrimmedStyles styles

theorem TrimmedSheet.getD {sheet : Sheet} (h : TrimmedSheet sheet) (c : String) :
    TrimmedStyles ((sheet.get? c).getD .empty) := by
  cases hget : sheet.get? c with
  | none => exact trimmedStyles_empty
  | some styles => exact h c styles hget

theorem TrimmedSheet.addRule {sheet : Sheet} (h : TrimmedSheet sheet) {r : Rule}
    (hr : ∀ d ∈ r.declarations, TrimmedDeclaration d) : TrimmedSheet (sheet.addRule r) := by
  intro c styles hget
  rw [Sheet.addRule] at hget
  split at hget
  next => exact h c styles hget
  next =>
    rw [Dict.get?_insert] at hget
    split at hget
    next =>
      cases hget
      exact (h.getD _).merge (ofDeclarations_trimmed hr)
    next => exact h c styles hget

theorem ofRules_trimmed {rs : List Rule}
    (hrs : ∀ r ∈ rs, ∀ d ∈ r.declarations, TrimmedDeclaration d) :
    TrimmedSheet (Sheet.ofRules rs) := by
  have hfold : ∀ sheet : Sheet,
      TrimmedSheet sheet → TrimmedSheet (rs.foldl Sheet.addRule sheet) := by
    induction rs with
    | nil => exact fun _ hsheet => hsheet
    | cons r rs ih =>
        intro sheet hsheet
        obtain ⟨hr, hrs⟩ := List.forall_mem_cons.mp hrs
        exact ih hrs _ (hsheet.addRule hr)
  refine hfold .empty ?_
  intro c styles hget
  cases hget

theorem Sheet.cascade_trimmed {sheet : Sheet} (hsheet : TrimmedSheet sheet) {inline : Dict String}
    (hinline : TrimmedStyles inline) (classes : List String) :
    TrimmedStyles (sheet.cascade inline classes) := by
  rw [Sheet.cascade]
  induction classes generalizing inline with
  | nil => exact hinline
  | cons c classes ih =>
      rw [List.foldl_cons]
      exact ih (hinline.merge (hsheet.getD c))

theorem inlineStyles_trimmed (s : String) : TrimmedStyles (inlineStyles s) := by
  refine ofDeclarations_trimmed fun d hd => ?_
  obtain ⟨part, _, hpart⟩ := List.mem_filterMap.mp hd
  exact inlineDeclaration?_trimmed hpart

end Style

namespace Source

open Text Markup Style

/-! ## Widgets -/

/-- A widget as it is written: its names can be written, no property is named like a class, a
text of styles or a handler, and handlers and styles have no blanks around them. -/
structure NormalWidget (w : Widget) : Prop extends NamedWidget w where
  unclassed : w.props.get? "class" = none
  unstyled : ∀ s, w.props.get? "style" ≠ some (.str s)
  plain : ∀ k v, w.props.get? k = some v → isEventName k = false
  handlers : ∀ k body, w.events.get? k = some body →
    isEventName k = true ∧ trim body.toList = body.toList
  styles : TrimmedStyles w.styles

/-- What is left of the properties has no text of styles. -/
theorem takeInline_get?_style (props : Dict Json) (s : String) :
    (takeInline props).2.get? "style" ≠ some (.str s) := by
  rw [takeInline]
  split
  next => simp
  next hnone => exact hnone s

theorem takeInline_trimmed (props : Dict Json) : TrimmedStyles (takeInline props).1 := by
  rw [takeInline]
  split
  next inline _ => exact inlineStyles_trimmed inline
  next => exact trimmedStyles_empty

theorem widgetOf_normal {sheet : Sheet} (hsheet : TrimmedSheet sheet) {name : List Char}
    {attrs : List Attr} (hname : isTagName name = true) (hattrs : NamedAttrs attrs) :
    NormalWidget (widgetOf sheet name attrs) where
  toNamedWidget := widgetOf_named sheet hname hattrs
  unclassed := by
    rw [widgetOf]
    simp
  unstyled := by
    intro s hget
    rw [widgetOf] at hget
    simp only [Dict.get?_filterKeys, Dict.get?_erase] at hget
    split at hget
    next => exact takeInline_get?_style _ s (by simpa using hget)
    next => cases hget
  plain := by
    intro k v hget
    rw [widgetOf] at hget
    simp only [Dict.get?_filterKeys] at hget
    split at hget
    next hplain => simpa using hplain
    next => cases hget
  handlers := by
    intro k body hget
    rw [widgetOf] at hget
    simp only [Dict.get?_filterMap, Dict.get?_filterKeys] at hget
    obtain ⟨v, hv, hhandler⟩ := Option.bind_eq_some_iff.mp hget
    split at hv
    next hevent => exact ⟨hevent, trim_of_handler? hhandler⟩
    next => cases hv
  styles := Sheet.cascade_trimmed hsheet (takeInline_trimmed _) _

/-- The property for inner text is none of those that are taken out. -/
theorem textProp_plain {c : Option Component} {prop : String} (h : textProp? c = some prop) :
    prop ≠ "class" ∧ prop ≠ "style" ∧ isEventName prop = false := by
  have hall : ∀ name ∈ textProps, name ≠ "class" ∧ name ≠ "style" ∧ isEventName name = false := by
    decide
  obtain ⟨c, rfl, hfind⟩ := Option.bind_eq_some_iff.mp h
  exact hall prop (List.mem_of_find?_eq_some hfind)

theorem withInner_normal {w : Widget} (hw : NormalWidget w) (inner : List Char) :
    NormalWidget (withInner w inner) := by
  have hnamed := withInner_named hw.toNamedWidget inner
  rw [withInner] at hnamed ⊢
  split at hnamed
  next hskip => rw [if_pos hskip]; exact hw
  next hskip =>
    rw [if_neg hskip]
    split at hnamed
    next => exact hw
    next prop htext =>
      split at hnamed
      next hunset =>
        simp only [hunset, if_true]
        obtain ⟨hclass, hstyle, hevent⟩ := textProp_plain htext
        refine ⟨hnamed, ?_, ?_, ?_, hw.handlers, hw.styles⟩
        · rw [Dict.get?_insert, if_neg hclass.symm]
          exact hw.unclassed
        · intro s
          rw [Dict.get?_insert, if_neg hstyle.symm]
          exact hw.unstyled s
        · intro k v hget
          rw [Dict.get?_insert] at hget
          split at hget
          next hk => exact hk ▸ hevent
          next => exact hw.plain k v hget
      next hset =>
        simp only [hset]
        exact hw

/-! ## All that is read -/

theorem widgets_outlines (sheet : Sheet) (es : List Element) :
    Outline.widgets (outlines sheet es) =
      (Element.preorder es).map fun e => (outline sheet e).widget := by
  induction es using Element.preorder.induct with
  | case1 => rw [outlines, Outline.widgets, Element.preorder, List.map_nil]
  | case2 name attrs rest ih | case3 name attrs inner rest ih =>
      rw [outlines, outline, Outline.widgets, Outline.widgets, ih, Element.preorder,
        List.map_cons, outline, List.nil_append]
  | case4 name attrs es rest ihc ihr =>
      rw [outlines, outline, Outline.widgets, ihc, ihr, Element.preorder, List.map_cons,
        List.map_append, outline]

/-- What holds of the widget of every element, and of a widget still when inner text is added,
holds of what an element means. -/
theorem forall_widget_outline {sheet : Sheet} {P : Widget → Prop}
    (hwidget : ∀ name attrs, isTagName name = true → NamedAttrs attrs →
      P (widgetOf sheet name attrs))
    (hinner : ∀ w inner, P w → P (withInner w inner)) {e : Element} (he : e.Named) :
    P (outline sheet e).widget := by
  cases he with
  | void name attrs hname hattrs =>
      rw [outline]
      exact hwidget name attrs hname hattrs
  | text name attrs inner hname hattrs =>
      rw [outline]
      exact hinner _ inner (hwidget name attrs hname hattrs)
  | nest name attrs children hname hattrs _ =>
      rw [outline]
      exact hwidget name attrs hname hattrs

theorem Body.roots_normal (b : Body) : ∀ w ∈ Outline.widgets b.roots, NormalWidget w := by
  intro w hw
  rw [Body.roots, widgets_outlines] at hw
  obtain ⟨e, he, rfl⟩ := List.mem_map.mp hw
  have hsheet := ofRules_trimmed (rules_trimmed b.style)
  exact forall_widget_outline (fun _ _ => widgetOf_normal hsheet)
    (fun _ inner hw => withInner_normal hw inner)
    (Element.named_preorder (unwrapped_named (readAll_named b.markup)) e he)

theorem readRoots_normal (source : String) :
    ∀ w ∈ Outline.widgets (readRoots source), NormalWidget w := by
  rw [readRoots]
  split
  next d hread =>
    obtain ⟨_, _, _, b, _, _, _, rfl⟩ := exists_of_read?_eq_ok hread
    exact b.roots_normal
  next =>
    rw [Outline.widgets]
    exact List.forall_mem_nil _

theorem readForest_widgets (source : String) (k : Nat) :
    (readForest k source).preorder.map (·.widget) = Outline.widgets (readRoots source) := by
  rw [← Forest.widgets_outlines, readForest, Forest.outlines_stampAll]

/-- **All nodes that are read are in normal form**, whatever the text, and their ids and links
are as they should be. -/
theorem readForest_normal (source : String) (k : Nat) :
    (readForest k source).WellFormed ∧
      ∀ n ∈ (readForest k source).preorder, NormalWidget n.widget := by
  refine ⟨Forest.wellFormed_stampAll k (readRoots source), fun n hn => ?_⟩
  have hmem : n.widget ∈ (readForest k source).preorder.map (·.widget) := List.mem_map_of_mem hn
  rw [readForest_widgets] at hmem
  exact readRoots_normal source _ hmem

end Source

end Tandem
