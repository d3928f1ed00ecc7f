import Tandem.Proofs.Forest.Identity
import Tandem.Proofs.Source.Exposed
import Tandem.Proofs.Style.Cascade

/-!
# A forest that is written is read back

On a safe forest (`SafeForest`) the rules and the elements that are found again mean what
was written (`SafeForest.bodyOf`). What is left is the header. A page's is found wherever the
text has one, so a page is always read back, and a component exactly as long as none of the
texts that are written as they are has a page's header (`safeForest_roundTrip`). A safe forest
may hold one, as a hint (`safe_hint_is_read_as_page`): then the component is read as a page.
-/

namespace Tandem.Source

open Text Markup Style

section

variable (g : Writer)

/-- The forest can be written and read back: its ids are all different, and every node can
be written at the level at which it stands. -/
structure SafeForest (f : Forest) : Prop where
  distinct : f.ids.Nodup
  nodes : SafeNodes g.pad (rootLevel f) f

variable {g}

theorem SafeForest.readable_elements {f : Forest} (hf : SafeForest g f) :
    ∀ e ∈ elementsOf g.pad (rootLevel f) f, e.Readable :=
  hf.nodes.readable_elementsOf (blank_pad g)

theorem SafeForest.of_mem_styled {f : Forest} (hf : SafeForest g f) :
    ∀ n ∈ Writer.styled f, isClassName n.id.toList = true ∧ ReadableStyles n.widget.styles := by
  intro n hn
  obtain ⟨_, hnode⟩ := hf.nodes.of_mem (List.mem_filter.mp hn).1
  exact ⟨hnode.id, hnode.styles⟩

/-- The nodes of a safe forest have names. -/
theorem SafeForest.named {f : Forest} (hf : SafeForest g f) : ∀ n ∈ f.preorder, NamedNode n := by
  intro n hn
  obtain ⟨_, hnode⟩ := hf.nodes.of_mem hn
  refine ⟨hnode.id, hnode.component, ?_, ?_⟩
  · intro name v hget
    exact (hnode.props _ (Dict.mem_entries_iff.mpr hget)).named
  · intro name body hget
    exact (hnode.events _ (Dict.mem_entries_iff.mpr hget)).named

theorem SafeForest.closed {f : Forest} (hf : SafeForest g f) : ClosedForest g f where
  elements := fun e he => (hf.readable_elements e he).closed
  rules := fun n hn =>
    have ⟨hid, hstyles⟩ := hf.of_mem_styled n hn
    ⟨(isClassName_eq_true hid).2, hstyles.unmarked⟩

/-- The rules of a safe forest are those that were written. -/
theorem SafeForest.rules_eq {f : Forest} (hf : SafeForest g f) {style : List Char}
    (hstyle : Writer.styled f = [] ∧ style = [] ∨ style = styleText g (Writer.styled f)) :
    rules style = (Writer.styled f).map ruleOf := by
  rcases hstyle with ⟨hnone, rfl⟩ | rfl
  · rw [hnone]
    exact rules.eq_1
  · exact rules_ruleLines g hf.of_mem_styled (blank_indent (blank_pad g) 1)

/-- The body of a safe forest, the empty one included, is whole and read as its outlines. -/
theorem SafeForest.bodyOf {f : Forest} (hf : SafeForest g f) :
    Whole (bodyOf g f) ∧
      ∀ start, (Body.read? start (Source.bodyOf g f)).map Body.roots = .ok f.outlines := by
  obtain ⟨hwhole, b, hread, helements, hstyle⟩ := hf.closed.bodyOf
  have hids : (f.preorder.map (·.id)).Nodup := hf.distinct
  refine ⟨hwhole, fun start => ?_⟩
  rw [hread]
  refine congrArg Except.ok ?_
  rw [Body.roots, helements, map_eq_self fun e he => (hf.readable_elements e he).tidy_eq,
    hf.rules_eq hstyle]
  exact hf.nodes.outlines_elementsOf (blank_pad g) fun n hn => cascade_ruleOf hids hn

end

/-! ## A section with a text -/

/-- A text between tags. -/
def greeting : Node :=
  ⟨"b", some "a", { component := "Text", props := .ofList [("content", .str "Hi")] }, []⟩

/-- A section with a property, a style and a handler, around the text. -/
def article : Node :=
  ⟨"a", none, {
    component := "section"
    props := .ofList [("tabindex", .num (.int 3))]
    styles := .ofList [("color", "red")]
    events := .ofList [("onClick", "go(1)")] }, [greeting]⟩

theorem safeNode_greeting : SafeNode ({} : Writer).pad 2 greeting := by
  have hinner : innerProp? greeting = some "content" := by decide +kernel
  have hcontent : SafeProp (Catalog.find? "Text") (innerProp? greeting) "content" (.str "Hi") := by
    refine ⟨by decide, by decide, by decide, by decide +kernel, ?_⟩
    rw [if_pos hinner]
    rintro s hs
    cases hs
    decide
  exact ⟨by decide, by decide, fun _ => rfl, List.forall_mem_singleton.mpr hcontent,
    List.forall_mem_nil _, List.forall_mem_nil _⟩

theorem safeNode_article : SafeNode ({} : Writer).pad 1 article := by
  have haccepts : acceptsChildren (Catalog.find? "section") ≠ false := by decide +kernel
  have hinner : innerProp? article = none := by decide +kernel
  have hindex : SafeProp (Catalog.find? "section") (innerProp? article) "tabindex"
      (.num (.int 3)) := by
    refine ⟨by decide, by decide, by decide, by decide +kernel, ?_⟩
    rw [hinner, if_neg (by simp)]
    exact ⟨by simp, by simp, .int 3 (by decide), by decide, by simp⟩
  have hclick : SafeHandler ({} : Writer).pad 1 "onClick" "go(1)" :=
    ⟨by decide, by decide, by decide, by decide, by decide⟩
  refine ⟨by decide, by decide, fun hnone => absurd hnone haccepts,
    List.forall_mem_singleton.mpr hindex, List.forall_mem_singleton.mpr hclick, ?_⟩
  exact List.forall_mem_singleton.mpr ⟨by decide, by decide, by decide, by simp⟩

theorem safeForest_article : SafeForest {} [article] := by
  refine ⟨by simp [article, greeting], ?_⟩
  simp only [article, greeting, SafeNodes, rootLevel]
  exact ⟨safeNode_article, ⟨safeNode_greeting, trivial, trivial⟩, trivial⟩

/-! ## A field with a hint -/

/-- A hint that reads like a page's header is safe. -/
theorem safeForest_pageHint : SafeForest {} [⟨"a", none, hinted "page Home \x7b", []⟩] := by
  let field : Node := ⟨"a", none, hinted "page Home \x7b", []⟩
  have hinner : innerProp? field = none := by decide +kernel
  have hhint : SafeProp (Catalog.find? "Input") (innerProp? field) "placeholder"
      (.str "page Home \x7b") := by
    refine ⟨by decide, by decide, by decide, by decide +kernel, ?_⟩
    rw [hinner, if_neg (by simp)]
    refine ⟨by simp, by decide, .str _, by decide, ?_⟩
    rintro s hs
    cases hs
    rw [SafeText, if_neg (by decide +kernel)]
    decide
  have hnode : SafeNode ({} : Writer).pad 1 field :=
    ⟨by decide, by decide, fun _ => rfl, List.forall_mem_singleton.mpr hhint,
      List.forall_mem_nil _, List.forall_mem_nil _⟩
  refine ⟨by simp, ?_⟩
  simp only [SafeNodes, rootLevel]
  exact ⟨hnode, trivial, trivial⟩

/-! ## Documents -/

/-- **A safe forest that is written is read back**, exactly if it is a page's or no text of it
that is written as it is has a page's header. Whatever the indents, the name and the kind, the
written text is then a document of that kind and name whose contents are the forest without
its ids and links, and new ids are all that a reader adds to it. -/
theorem safeForest_roundTrip (options : WriterOptions) {f : Forest} (hf : SafeForest { options } f)
    {name : String} (hname : isDocumentName name = true) (kind : Kind) :
    let source := ({ options } : Writer).write f name kind
    (Document.read? source = .ok ⟨kind, name, f.outlines⟩ ↔
      (kind = .page ∨ ∀ cs, Exposed f cs → ¬ DeclaresPage cs)) ∧
    ((kind = .page ∨ ∀ cs, Exposed f cs → ¬ DeclaresPage cs) →
      ∀ k, (readForest k source).outlines = f.outlines) := by
  intro source
  obtain ⟨hwhole, hbody⟩ := hf.bodyOf
  refine ⟨⟨fun hread => ?_, fun hplain => read?_write options hname hplain hwhole hbody⟩,
    fun hplain k => ?_⟩
  · -- What is read has the kind of its header.
    have hkind : kind? source = some kind := kind?_of_read?_eq_ok hread
    rw [show source = _ from write_eq options f name kind, kind?_headerLine_iff hname,
      not_declaresPage_bodyOf] at hkind
    exact hkind
  · -- Ids are only stamped on what has been read.
    rw [readForest, Forest.outlines_stampAll, readRoots,
      read?_write options hname hplain hwhole hbody]

theorem safeForest_roundTrip_of_article :
    SafeForest {} [article] ∧ isDocumentName "Card" = true ∧
      Document.read? (({} : Writer).write [article] "Card" .component) =
        .ok ⟨.component, "Card", Forest.outlines [article]⟩ := by
  have hheld : ∀ n ∈ Forest.preorder [article], ∀ cs ∈ held n, ¬ DeclaresPage cs := by
    simp only [article, greeting, Forest.preorder]
    decide +kernel
  have hplain := plain_of_held safeForest_article.named hheld
  have hname : isDocumentName "Card" = true := by decide
  obtain ⟨hread, _⟩ := safeForest_roundTrip {} safeForest_article hname .component
  exact ⟨safeForest_article, hname, hread.mpr (.inr hplain)⟩

/-- A component with a field whose hint has a page's header is read as that page, and what is
left of the text behind the header has no elements. -/
theorem safe_hint_is_read_as_page :
    let f : Forest := [⟨"a", none, hinted "page Home \x7b", []⟩]
    let source := ({} : Writer).write f "Card" .component
    SafeForest {} f ∧ isDocumentName "Card" = true ∧
      Document.read? source = .ok ⟨.page, "Home", []⟩ ∧
      Document.read? source ≠ .ok ⟨.component, "Card", f.outlines⟩ := by
  intro f source
  have hheader : header? source.toList =
      some ⟨.page, "Home", "\" class=\"a\" />\n\x7d\n".toList⟩ := by
    rw [show source = _ from write_eq {} f "Card" .component, bodyOf_pageHint, String.toList_ofList]
    decide +kernel
  have hinside : blockInside? "\" class=\"a\" />\n\x7d\n".toList =
      some "\" class=\"a\" />\n".toList := by decide +kernel
  have hbracket : '<' ∉ trim "\" class=\"a\" />\n".toList := by decide +kernel
  have hnone : unwrapped (Element.readAll (trim "\" class=\"a\" />\n".toList)) = [] := by
    rw [readAll_eq, fragments_eq_nil fun c hc heq => hbracket (heq ▸ hc)]
    rfl
  have hread : Document.read? source = .ok ⟨.page, "Home", []⟩ := by
    rw [read?_of_findStyle hheader hinside (by decide +kernel) hnone, outlines]
  refine ⟨safeForest_pageHint, by decide, hread, ?_⟩
  rw [hread]
  intro heq
  cases heq

end Tandem.Source
