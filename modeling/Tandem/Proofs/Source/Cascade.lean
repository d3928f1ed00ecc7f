import Tandem.Proofs.Source.Normal
import Tandem.Proofs.Source.StyleBlock
import Tandem.Proofs.Style.Cascade

/-!
# The styles of a page that is read

A page whose style block stands in front of the markup, and is a sequence of rules, has one
node for each element of the markup, in the order in which they are opened. How a node is
styled is said by the rules and by two attributes of its element (`StyledBy`):

* **the rules** — `readRoots_of_block`: the block is taken out whatever blanks stand in it,
  and all that it says is its rules;
* **an element** — `styles_outline`: its classes and its inline declarations are what the
  attributes say, and inner text changes nothing about the styles.
-/

namespace Tandem.Source

open Text Markup Style

/-- The elements of a markup in the order in which they are opened, without the wrapper
around several roots. -/
def elementsIn (markup : List Char) : List Element :=
  Element.preorder (unwrapped (Element.readAll markup))

/-- The classes that a text lists. -/
def listed (classes : String) : List String := (words classes.toList).map String.ofList

/-- The declarations that a style attribute gives, one after the other. -/
def inlineDeclarations : Option String → List Declaration
  | none => []
  | some inline => (splitOn ';' inline.toList).filterMap inlineDeclaration?

/-- The node is that of the element: neither its class nor a text of styles is left among its
properties, and if both are texts then its styles are what they and the rules say. -/
structure StyledBy (rs : List Rule) (e : Element) (n : Node) : Prop where
  component : n.widget.component = String.ofList e.name
  unclassed : n.widget.props.get? "class" = none
  unstyled : ∀ s, n.widget.props.get? "style" ≠ some (.str s)
  styles : ∀ (classes : String) (inline : Option String),
    (propsOf e.attrs).get? "class" = some (.str classes) →
    (propsOf e.attrs).get? "style" = inline.map .str →
    ∀ key, n.widget.styles.get? key =
      styleOf? rs (listed classes) (inlineDeclarations inline) key

/-! ## The rules -/

theorem readRoots_of_block {source : String} {h : Header} {front header css markup : List Char}
    {rs : List Rule} (hheader : header? source.toList = some h)
    (hbody : blockInside? h.rest = some (front ++ (header ++ (css ++ '\x7d' :: markup))))
    (hfront : Unmarked front) (hend : ∀ c ∈ front.getLast?, isWord c = false)
    (hstyle : StyleHeader header) (hcss : SheetText rs css) :
    readRoots source =
      outlines (Sheet.ofRules rs) (unwrapped (Element.readAll (trim (front ++ markup)))) := by
  have hread : Document.read? source = .ok ⟨h.kind, h.name,
      Body.roots ⟨trim (front ++ markup), css⟩⟩ := by
    rw [Document.read?]
    simp only [hheader, hbody, Body.read?_block _ hfront hend hstyle hcss.whole]
    rfl
  rw [readRoots, hread]
  simp only
  rw [Body.roots, hcss.rules]

/-! ## An element -/

theorem styles_widgetOf (sheet : Sheet) (name : List Char) {attrs : List Attr} {classes : String}
    {inline : Option String} (hclass : (propsOf attrs).get? "class" = some (.str classes))
    (hstyle : (propsOf attrs).get? "style" = inline.map .str) :
    (widgetOf sheet name attrs).styles =
      sheet.cascade (ofDeclarations (inlineDeclarations inline)) (listed classes) := by
  cases inline with
  | none =>
      have htake : takeInline (propsOf attrs) = (.empty, propsOf attrs) := by
        rw [takeInline, hstyle]
        rfl
      have hlisted : classesOf (propsOf attrs) = listed classes := by
        rw [classesOf, hclass]
        rfl
      rw [widgetOf, htake]
      simp only [hlisted]
      rfl
  | some inline =>
      have htake : takeInline (propsOf attrs) =
          (inlineStyles inline, (propsOf attrs).erase "style") := by
        rw [takeInline, hstyle]
        rfl
      have hlisted : classesOf ((propsOf attrs).erase "style") = listed classes := by
        rw [classesOf, Dict.get?_erase, if_neg (by decide), hclass]
        rfl
      rw [widgetOf, htake]
      simp only [hlisted]
      rfl

theorem styles_outline (sheet : Sheet) (e : Element) :
    (outline sheet e).widget.styles = (widgetOf sheet e.name e.attrs).styles := by
  cases e with
  | void | nest => rw [outline]; rfl
  | text name attrs inner => rw [outline]; exact styles_withInner _ inner

theorem component_outline (sheet : Sheet) (e : Element) :
    (outline sheet e).widget.component = String.ofList e.name := by
  cases e with
  | void | nest => rw [outline]; rfl
  | text name attrs inner =>
      rw [outline]
      exact (component_withInner _ inner).trans rfl

/-! ## The page -/

/-- **Of all declarations of a property the one counts that stands last** among the rules of
the last listed class that has any, and the style attribute only where no class has one: for
every element of a page whose style block is a sequence of rules in front of the markup. -/
theorem styles_of_page {source : String} {h : Header} {front header css markup : List Char}
    {rs : List Rule} (hheader : header? source.toList = some h)
    (hbody : blockInside? h.rest = some (front ++ (header ++ (css ++ '\x7d' :: markup))))
    (hfront : Unmarked front) (hend : ∀ c ∈ front.getLast?, isWord c = false)
    (hstyle : StyleHeader header) (hcss : SheetText rs css) (k : Nat) :
    List.Forall₂ (StyledBy rs) (elementsIn (trim (front ++ markup)))
      (readForest k source).preorder := by
  have hroots := readRoots_of_block hheader hbody hfront hend hstyle hcss
  have hnormal := readRoots_normal source
  rw [hroots, widgets_outlines, List.forall_mem_map] at hnormal
  -- One node for each element, with the widget of that element.
  have hpairs : List.Forall₂ (fun e n => (outline (Sheet.ofRules rs) e).widget = n.widget)
      (elementsIn (trim (front ++ markup))) (readForest k source).preorder := by
    have hwidgets := readForest_widgets source k
    rw [hroots, widgets_outlines] at hwidgets
    have hsame := List.forall₂_eq_eq_eq.symm ▸ hwidgets.symm
    exact List.forall₂_map_right_iff.mp (List.forall₂_map_left_iff.mp hsame)
  refine ((List.forall₂_and_left _ _).mpr ⟨hnormal, hpairs⟩).imp ?_
  rintro e n ⟨he, hwidget⟩
  rw [hwidget] at he
  refine ⟨?_, he.unclassed, he.unstyled, fun classes inline hclass hstyle key => ?_⟩
  · rw [← hwidget, component_outline]
  · rw [← hwidget, styles_outline, styles_widgetOf _ _ hclass hstyle, get?_cascade_ofRules]

theorem styles_of_page_in_turn :
    List.Forall₂ (StyledBy [⟨"a".toList, [("color".toList, "black".toList)]⟩,
        ⟨"b".toList, [("color".toList, "teal".toList)]⟩,
        ⟨"a".toList, [("color".toList, "red".toList)]⟩])
      (elementsIn (trim "<Text class=\"b a\" style=\"color: blue\">Hi</Text>".toList))
      (readForest 0 ("page Home \x7bstyle \x7b .a \x7bcolor: black;\x7d .b \x7bcolor:teal ;\x7d" ++
        ".a\x7bcolor: red; \x7d \x7d<Text class=\"b a\" style=\"color: blue\">Hi</Text>\x7d")
        ).preorder := by
  have hspace : Blank [' '] := blank_nil.cons (by decide)
  have hblack : ReadableValue "black".toList := ⟨by decide, by decide, by simp⟩
  have hteal : ReadableValue "teal".toList := ⟨by decide, by decide, by simp⟩
  have hred : ReadableValue "red".toList := ⟨by decide, by decide, by simp⟩
  have hcolor : isPropertyName "color".toList = true := by decide
  have hfirst : RuleText ⟨"a".toList, [("color".toList, "black".toList)]⟩ _ :=
    .mk hspace (by decide) hspace
      (.cons (.mk blank_nil hcolor blank_nil hspace hblack blank_nil) .nil) blank_nil
  have hsecond : RuleText ⟨"b".toList, [("color".toList, "teal".toList)]⟩ _ :=
    .mk hspace (by decide) hspace
      (.cons (.mk blank_nil hcolor blank_nil blank_nil hteal hspace) .nil) blank_nil
  have hthird : RuleText ⟨"a".toList, [("color".toList, "red".toList)]⟩ _ :=
    .mk blank_nil (by decide) blank_nil
      (.cons (.mk blank_nil hcolor blank_nil hspace hred blank_nil) .nil) hspace
  exact @styles_of_page _ ⟨.page, "Home",
      "style \x7b .a \x7bcolor: black;\x7d .b \x7bcolor:teal ;\x7d".toList ++
        ".a\x7bcolor: red; \x7d \x7d<Text class=\"b a\" style=\"color: blue\">Hi</Text>\x7d".toList⟩
    [] _ _
    "<Text class=\"b a\" style=\"color: blue\">Hi</Text>".toList _
    (by rw [String.toList_append]; decide +kernel) (by decide +kernel) (List.forall_mem_nil _)
    (fun _ hc => by cases hc) (.bare hspace)
    ⟨_, [' '], rfl, .cons hfirst (.cons hsecond (.cons hthird .nil)), hspace⟩ 0

end Tandem.Source
