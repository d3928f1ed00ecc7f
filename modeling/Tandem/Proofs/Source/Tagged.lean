import Mathlib.Data.List.Nodup
import Tandem.Proofs.Source.Written

/-!
# What stands in the tag of a node

The tag of a node lists its properties, its id as a class, and its handlers. Nothing is lost
and nothing is listed twice (`ListsOnce`):

* **what is left out** — `LeftOut` has the five reasons, and they are all that there are
  (`propAttr?_eq_none_iff`);
* **no name twice** — no component declares a property twice (`Catalog.nodup_props`), so the
  two walks over the properties meet every one of them once (`nodup_orderedProps`);
* **what is behind the attributes** — the children's own texts, the one text of the node or
  nothing (`TagRest`).

The links from nodes to their holders are not written (`elementsOf_unlinked`).
-/

namespace Tandem

open Text Markup

/-- No component declares a property twice. -/
theorem Catalog.nodup_props {name : String} {c : Component} (hc : Catalog.find? name = some c) :
    (c.props.map (·.name)).Nodup := by
  have hall : ∀ c ∈ Catalog.all, (c.props.map (·.name)).Nodup := by decide +kernel
  exact hall c (List.mem_of_find?_eq_some hc)

/-- The nodes without the links to their holders. -/
def Forest.unlinked : Forest → Forest
  | [] => []
  | ⟨id, _, widget, children⟩ :: rest => ⟨id, none, widget, unlinked children⟩ :: unlinked rest

namespace Source

/-! ## What is left out -/

/-- The names that the component of a node declares, in order. -/
def declaredNames (n : Node) : List String :=
  (Catalog.find? n.widget.component).elim [] fun c => c.props.map (·.name)

/-- The property of the node is the text that is written between its tags. -/
structure HoldsText (n : Node) (k s : String) : Prop where
  childless : rendersChildren n.widget n.children = false
  textProp : textProp? (Catalog.find? n.widget.component) = some k
  value : n.widget.props.get? k = some (.str s)
  nonempty : s ≠ ""

/-- The reasons why a property of a node is no attribute. -/
inductive LeftOut (n : Node) (k : String) : Json → Prop
  /-- The class is the id, and styles stand in the style block. -/
  | reserved (v : Json) (hk : k = "class" ∨ k = "style") : LeftOut n k v
  | null : LeftOut n k .null
  | empty : LeftOut n k (.str "")
  | default {c : Component} {spec : PropSpec} {v : Json}
      (hc : Catalog.find? n.widget.component = some c) (hspec : c.prop? k = some spec)
      (hv : spec.defaultValue = some v) : LeftOut n k v
  | text {s : String} (hs : HoldsText n k s) : LeftOut n k (.str s)

theorem attrValue?_eq_none_iff {name : String} {v : Json} :
    attrValue? name v = none ↔ v = .null ∨ v = .str "" := by
  cases v with
  | null => simp [attrValue?]
  | bool b => cases b <;> simp [attrValue?]
  | num n => simp [attrValue?]
  | arr items => simp [attrValue?]
  | obj fields => simp [attrValue?]
  | str s =>
      have hempty : s.isEmpty = true ↔ s = "" := by simp
      rw [attrValue?]
      split
      next hs => simp [hempty.mp hs]
      next hs =>
        have hne : s ≠ "" := fun h => hs (hempty.mpr h)
        split <;> simp [hne]

theorem isDefault_iff {c : Option Component} {name : String} {v : Json} :
    isDefault c name v = true ↔
      ∃ d spec, c = some d ∧ d.prop? name = some spec ∧ spec.defaultValue = some v := by
  rw [isDefault, beq_iff_eq]
  constructor
  · intro h
    obtain ⟨spec, hspec, hv⟩ := Option.bind_eq_some_iff.mp h
    obtain ⟨d, hd, hprop⟩ := Option.bind_eq_some_iff.mp hspec
    exact ⟨d, spec, hd, hprop, hv⟩
  · rintro ⟨d, spec, rfl, hprop, hv⟩
    rw [Option.bind_some, hprop, Option.bind_some, hv]

theorem innerText?_eq_some_iff {w : Widget} {prop text : String} :
    innerText? w = some (prop, text) ↔
      textProp? (Catalog.find? w.component) = some prop ∧
        w.props.get? prop = some (.str text) ∧ text ≠ "" := by
  constructor
  · intro h
    obtain ⟨htext, hget, hne⟩ := innerText?_eq_some h
    exact ⟨htext, hget, by simpa using hne⟩
  · rintro ⟨htext, hget, hne⟩
    have hnonempty : text.isEmpty = false := by simpa using hne
    rw [innerText?, htext, Option.bind_some, hget]
    simp [hnonempty]

theorem innerProp?_eq_some_iff {n : Node} {k : String} :
    innerProp? n = some k ↔ ∃ s, HoldsText n k s := by
  rw [innerProp?]
  split
  next hrenders =>
    refine iff_of_false (Option.some_ne_none _ ·.symm) ?_
    rintro ⟨s, hs⟩
    rw [hs.childless] at hrenders
    cases hrenders
  next hrenders =>
    rw [Option.map_eq_some_iff]
    constructor
    · rintro ⟨⟨prop, s⟩, hinner, rfl⟩
      obtain ⟨htext, hget, hne⟩ := innerText?_eq_some_iff.mp hinner
      exact ⟨s, Bool.not_eq_true _ ▸ hrenders, htext, hget, hne⟩
    · rintro ⟨s, hs⟩
      exact ⟨(k, s), innerText?_eq_some_iff.mpr ⟨hs.textProp, hs.value, hs.nonempty⟩, rfl⟩

/-- A property has no attribute exactly if there is a reason to leave it out. -/
theorem propAttr?_eq_none_iff {n : Node} {k : String} {v : Json}
    (hget : n.widget.props.get? k = some v) :
    propAttr? (Catalog.find? n.widget.component) (innerProp? n) k v = none ↔ LeftOut n k v := by
  have hreserved : reservedProps.contains k = true ↔ k = "class" ∨ k = "style" := by
    simp [reservedProps]
  have hinner : (some k == innerProp? n) = true ↔ ∃ s, HoldsText n k s := by
    rw [beq_iff_eq, eq_comm, innerProp?_eq_some_iff]
  rw [propAttr?]
  constructor
  · intro hnone
    split at hnone
    next hguard =>
      rw [Bool.or_eq_true, Bool.or_eq_true, hreserved, hinner, isDefault_iff] at hguard
      rcases hguard with (hk | ⟨s, hs⟩) | ⟨c, spec, hc, hspec, hv⟩
      · exact .reserved v hk
      · obtain rfl := Option.some.inj (hget.symm.trans hs.value)
        exact .text hs
      · exact .default hc hspec hv
    next =>
      rcases attrValue?_eq_none_iff.mp (Option.map_eq_none_iff.mp hnone) with rfl | rfl
      · exact .null
      · exact .empty
  · intro hout
    rw [ite_eq_left_iff]
    intro hguard
    rw [Bool.or_eq_true, Bool.or_eq_true, hreserved, hinner, isDefault_iff] at hguard
    rw [Option.map_eq_none_iff, attrValue?_eq_none_iff]
    cases hout with
    | reserved _ hk => exact absurd (.inl (.inl hk)) hguard
    | null => exact .inl rfl
    | empty => exact .inr rfl
    | default hc hspec hv => exact absurd (.inr ⟨_, _, hc, hspec, hv⟩) hguard
    | text hs => exact absurd (.inl (.inr ⟨_, hs⟩)) hguard

/-! ## No name twice -/

theorem nodup_names {α : Type} (d : Dict α) : (d.entries.map (·.1)).Nodup := by
  refine List.pairwise_map.mpr (List.Pairwise.imp (fun {a b} hlt heq => ?_) d.ascending)
  rw [heq] at hlt
  exact String.lt_irrefl _ hlt

theorem map_declared {α : Type} (names : List String) (d : Dict α) :
    ((names.filterMap fun name => (d.get? name).map (name, ·)).map (·.1)).Sublist names := by
  have hnames : (names.filterMap fun name => (d.get? name).map (name, ·)).map (·.1) =
      names.filter fun name => (d.get? name).isSome := by
    induction names with
    | nil => rfl
    | cons name names ih =>
        cases hget : d.get? name with
        | none => simp [hget, ih]
        | some v => simp [hget, ih]
  rw [hnames]
  exact List.filter_sublist

/-- The two walks over the properties meet none of them twice. -/
theorem nodup_orderedProps (name : String) (props : Dict Json) :
    ((orderedProps (Catalog.find? name) props).map (·.1)).Nodup := by
  have hdeclared : ((Catalog.find? name).elim [] fun c => c.props.map (·.name)).Nodup := by
    cases hc : Catalog.find? name with
    | none => exact List.nodup_nil
    | some c => exact Catalog.nodup_props hc
  rw [orderedProps, List.map_append]
  refine (hdeclared.sublist (map_declared _ props)).append
    ((nodup_names props).sublist (List.filter_sublist.map _)) fun k hk hother => ?_
  obtain ⟨e, he, rfl⟩ := List.mem_map.mp hother
  have hnot := (List.mem_filter.mp he).2
  rw [Bool.not_eq_true', List.contains_eq_mem, decide_eq_false_iff_not] at hnot
  exact hnot ((map_declared _ props).subset hk)

/-- Of attributes that have the names of different entries, those with one name are the one
of that entry. -/
theorem filter_name_filterMap {α : Type} {attr? : String × α → Option Attr}
    (hname : ∀ e a, attr? e = some a → a.name = e.1.toList) {entries : List (String × α)}
    (hnodup : (entries.map (·.1)).Nodup) {e : String × α} (he : e ∈ entries) :
    (entries.filterMap attr?).filter (fun a => a.name == e.1.toList) = (attr? e).toList := by
  have hother : ∀ d a, attr? d = some a → d.1 ≠ e.1 → (a.name == e.1.toList) = false := by
    intro d a ha hne
    rw [hname d a ha, beq_eq_false_iff_ne]
    exact fun h => hne (String.toList_inj.mp h)
  induction entries with
  | nil => cases he
  | cons d entries ih =>
      obtain ⟨hnew, hnodup⟩ := List.nodup_cons.mp hnodup
      rw [← List.singleton_append, List.filterMap_append, List.filter_append]
      rcases List.mem_cons.mp he with rfl | he
      · have hrest : (entries.filterMap attr?).filter (fun a => a.name == e.1.toList) = [] := by
          rw [List.filter_eq_nil_iff]
          intro a ha
          obtain ⟨d, hd, hattr⟩ := List.mem_filterMap.mp ha
          have hne : d.1 ≠ e.1 := fun h => hnew (List.mem_map.mpr ⟨d, hd, h⟩)
          rw [hother d a hattr hne]
          exact Bool.false_ne_true
        rw [hrest, List.append_nil]
        cases hattr : attr? e with
        | none => simp [hattr]
        | some a => simp [hattr, hname e a hattr]
      · rw [ih hnodup he]
        have hne : d.1 ≠ e.1 := fun h => hnew (List.mem_map.mpr ⟨e, he, h.symm⟩)
        cases hattr : attr? d with
        | none => simp [hattr]
        | some a => simp [hattr, hother d a hattr hne]

/-- Attributes that are made of entries stand in the order of the entries. -/
theorem map_name_filterMap_sublist {α : Type} {attr? : String × α → Option Attr}
    (hname : ∀ e a, attr? e = some a → a.name = e.1.toList) (entries : List (String × α)) :
    ((entries.filterMap attr?).map fun a => String.ofList a.name).Sublist
      (entries.map (·.1)) := by
  induction entries with
  | nil => exact List.nil_sublist _
  | cons e entries ih =>
      cases hattr : attr? e with
      | none =>
          rw [List.filterMap_cons_none hattr]
          exact ih.cons _
      | some a =>
          rw [List.filterMap_cons_some hattr, List.map_cons, List.map_cons, hname e a hattr,
            String.ofList_toList]
          exact ih.cons_cons _

/-! ## The tag -/

/-- Properties and handlers of a node are attributes: each once, nothing else, in order. -/
structure ListsOnce (pad : Nat → List Char) (level : Nat) (n : Node)
    (declared others handlers : List Attr) : Prop where
  prop : ∀ k v, n.widget.props.get? k = some v → ¬LeftOut n k v → ∃ value,
    attrValue? k v = some value ∧
      (declared ++ others).filter (fun a => a.name == k.toList) = [⟨k.toList, value⟩]
  ofProp : ∀ a ∈ declared ++ others, ∃ k v,
    n.widget.props.get? k = some v ∧ ¬LeftOut n k v ∧ a.name = k.toList
  handler : ∀ k body, n.widget.events.get? k = some body → isBlankString body = false →
    handlers.filter (fun a => a.name == k.toList) =
      [⟨k.toList, .braced (wrap pad level body)⟩]
  ofHandler : ∀ a ∈ handlers, ∃ k body, n.widget.events.get? k = some body ∧
    isBlankString body = false ∧ a = ⟨k.toList, .braced (wrap pad level body)⟩
  /-- Declared properties stand as they are declared. -/
  declaration : (declared.map fun a => String.ofList a.name).Sublist (declaredNames n)
  undeclared : ∀ a ∈ others, String.ofList a.name ∉ declaredNames n
  byName : (others.map fun a => String.ofList a.name).Pairwise (· < ·)
  handlersByName : (handlers.map fun a => String.ofList a.name).Pairwise (· < ·)

/-- What is behind the attributes of a node. -/
inductive TagRest (g : Writer) (level : Nat) (n : Node) : List Char → Prop
  | children (h : rendersChildren n.widget n.children = true) : TagRest g level n
      ('>' :: ((n.children.flatMap fun m => '\n' :: (g.writeNode (level + 1) m).toList) ++
        '\n' :: (g.pad level ++ closeText n.widget.component.toList)))
  | text {k s : String} (h : HoldsText n k s) : TagRest g level n
      ('>' :: (escapeText s.toList ++ closeText n.widget.component.toList))
  | nothing (h : rendersChildren n.widget n.children = false) (hnone : ∀ k s, ¬HoldsText n k s) :
      TagRest g level n [' ', '/', '>']

section

variable (pad : Nat → List Char) (level : Nat) (n : Node)

def declaredAttrs : List Attr :=
  ((declaredNames n).filterMap fun name => (n.widget.props.get? name).map (name, ·)).filterMap
    fun e => propAttr? (Catalog.find? n.widget.component) (innerProp? n) e.1 e.2

def otherAttrs : List Attr :=
  (n.widget.props.entries.filter fun e => !(declaredNames n).contains e.1).filterMap
    fun e => propAttr? (Catalog.find? n.widget.component) (innerProp? n) e.1 e.2

def handlerAttrs : List Attr :=
  (n.widget.events.entries.filter fun e => !isBlankString e.2).map fun e =>
    ⟨e.1.toList, .braced (wrap pad level e.2)⟩

theorem propAttrs_eq : declaredAttrs n ++ otherAttrs n =
    (orderedProps (Catalog.find? n.widget.component) n.widget.props).filterMap
      fun e => propAttr? (Catalog.find? n.widget.component) (innerProp? n) e.1 e.2 :=
  List.filterMap_append.symm

theorem attrsOf_eq : attrsOf pad level n.id n.widget (innerProp? n) =
    declaredAttrs n ++ otherAttrs n ++
      ⟨"class".toList, .quoted n.id.toList⟩ :: handlerAttrs pad level n := by
  rw [propAttrs_eq]
  rfl

theorem listsOnce_attrs :
    ListsOnce pad level n (declaredAttrs n) (otherAttrs n) (handlerAttrs pad level n) := by
  have hname : ∀ (e : String × Json) a,
      propAttr? (Catalog.find? n.widget.component) (innerProp? n) e.1 e.2 = some a →
        a.name = e.1.toList := by
    intro e a ha
    obtain ⟨value, _, rfl⟩ := propAttr?_eq_some ha
    rfl
  have hhandler : ∀ (e : String × String) a,
      some (⟨e.1.toList, .braced (wrap pad level e.2)⟩ : Attr) = some a → a.name = e.1.toList := by
    rintro e a ⟨⟩
    rfl
  have hhandlers : handlerAttrs pad level n =
      (n.widget.events.entries.filter fun e => !isBlankString e.2).filterMap
        fun e => some ⟨e.1.toList, .braced (wrap pad level e.2)⟩ := by
    rw [handlerAttrs, ← List.filterMap_eq_map]
    rfl
  refine ⟨?prop, ?ofProp, ?handler, ?ofHandler, ?declaration, ?undeclared, ?byName,
    ?handlersByName⟩
  case prop =>
    intro k v hget hkept
    obtain ⟨a, ha⟩ := Option.ne_none_iff_exists'.mp (hkept ∘ (propAttr?_eq_none_iff hget).mp)
    have hmem : (k, v) ∈ orderedProps (Catalog.find? n.widget.component) n.widget.props :=
      mem_orderedProps.mpr (Dict.mem_entries_iff.mpr hget)
    obtain ⟨value, hvalue, rfl⟩ := propAttr?_eq_some ha
    refine ⟨value, hvalue, ?_⟩
    rw [propAttrs_eq, filter_name_filterMap hname (nodup_orderedProps _ _) hmem, ha]
    rfl
  case ofProp =>
    intro a ha
    rw [propAttrs_eq] at ha
    obtain ⟨⟨k, v⟩, he, hattr⟩ := List.mem_filterMap.mp ha
    have hget := Dict.mem_entries_iff.mp (mem_orderedProps.mp he)
    refine ⟨k, v, hget, fun hout => ?_, hname _ _ hattr⟩
    rw [(propAttr?_eq_none_iff hget).mpr hout] at hattr
    cases hattr
  case handler =>
    intro k body hget hbody
    have hmem : (k, body) ∈ n.widget.events.entries.filter fun e => !isBlankString e.2 :=
      List.mem_filter.mpr ⟨Dict.mem_entries_iff.mpr hget, by simp [hbody]⟩
    rw [hhandlers, filter_name_filterMap hhandler
      ((nodup_names _).sublist (List.filter_sublist.map _)) hmem]
    rfl
  case ofHandler =>
    intro a ha
    obtain ⟨⟨k, body⟩, he, rfl⟩ := List.mem_map.mp ha
    obtain ⟨hmem, hbody⟩ := List.mem_filter.mp he
    exact ⟨k, body, Dict.mem_entries_iff.mp hmem, by simpa using hbody, rfl⟩
  case declaration =>
    exact (map_name_filterMap_sublist hname _).trans (map_declared _ _)
  case undeclared =>
    intro a ha
    obtain ⟨e, he, hattr⟩ := List.mem_filterMap.mp ha
    rw [hname e a hattr, String.ofList_toList]
    simpa using (List.mem_filter.mp he).2
  case byName =>
    exact (List.pairwise_map.mpr (n.widget.props.ascending.filter _)).sublist
      (map_name_filterMap_sublist hname _)
  case handlersByName =>
    rw [hhandlers]
    exact (List.pairwise_map.mpr (n.widget.events.ascending.filter _)).sublist
      (map_name_filterMap_sublist hhandler _)

end

/-- The class with the id is listed once: properties have another name, handlers are braced. -/
theorem ListsOnce.count_class {pad : Nat → List Char} {level : Nat} {n : Node}
    {declared others handlers : List Attr} (h : ListsOnce pad level n declared others handlers) :
    (declared ++ others ++ ⟨"class".toList, .quoted n.id.toList⟩ :: handlers).count
      ⟨"class".toList, .quoted n.id.toList⟩ = 1 := by
  have hprops : (⟨"class".toList, .quoted n.id.toList⟩ : Attr) ∉ declared ++ others := by
    intro hmem
    obtain ⟨k, v, _, hkept, hk⟩ := h.ofProp _ hmem
    exact hkept (.reserved v (.inl (String.toList_inj.mp hk).symm))
  have hhandlers : (⟨"class".toList, .quoted n.id.toList⟩ : Attr) ∉ handlers := by
    intro hmem
    obtain ⟨k, body, _, _, heq⟩ := h.ofHandler _ hmem
    exact AttrValue.noConfusion (congrArg Attr.value heq)
  rw [List.count_append, List.count_eq_zero_of_not_mem hprops, List.count_cons_self,
    List.count_eq_zero_of_not_mem hhandlers]

/-! ## Nodes as texts -/

theorem elementsOf_unlinked (pad : Nat → List Char) (level : Nat) (f : Forest) :
    elementsOf pad level f.unlinked = elementsOf pad level f := by
  induction f using Forest.induction generalizing level with
  | nil => rw [Forest.unlinked]
  | cons id parent w children rest ihc ihr =>
      have hrenders : rendersChildren w children.unlinked = rendersChildren w children := by
        cases children with
        | nil => rw [Forest.unlinked]
        | cons m ms => cases m; rw [Forest.unlinked]; rfl
      rw [Forest.unlinked, elementsOf_cons, elementsOf_cons, ihc, ihr, elementOf, elementOf,
        hrenders]

variable (g : Writer) (level : Nat)

theorem linesText_of_ne_nil {lines : List (List Char)} (hne : lines ≠ []) :
    linesText lines = '\n' :: joinLines lines := by
  obtain ⟨l, ls, rfl⟩ := List.exists_cons_of_ne_nil hne
  rw [linesText_cons, joinLines_cons]

theorem lines_ne_nil (pad : Nat → List Char) (e : Element) : e.lines pad level ≠ [] := by
  cases e with
  | void name attrs => exact List.cons_ne_nil _ _
  | text name attrs inner => exact List.cons_ne_nil _ _
  | nest name attrs children => rw [Element.lines]; exact List.cons_ne_nil _ _

theorem toList_writeNode (n : Node) : (g.writeNode level n).toList =
    joinLines ((elementOf g.pad level n (elementsOf g.pad (level + 1) n.children)).lines
      g.pad level) := by
  rw [Writer.writeNode, String.toList_ofList, elementsOf_cons, elementsOf, Element.linesAll,
    Element.linesAll, List.append_nil]

/-- The nodes of a forest are written one by one, each on lines of its own. -/
theorem linesText_linesAll (f : Forest) :
    linesText (Element.linesAll g.pad level (elementsOf g.pad level f)) =
      f.flatMap fun m => '\n' :: (g.writeNode level m).toList := by
  induction f with
  | nil => rw [elementsOf, Element.linesAll]; rfl
  | cons n rest ih =>
      rw [elementsOf_cons, Element.linesAll, linesText_append,
        linesText_of_ne_nil (lines_ne_nil level _ _), ← toList_writeNode, ih, List.flatMap_cons]

/-- A node is written as its tag with the attributes, and what is behind them. -/
theorem exists_tagRest (n : Node) : ∃ rest, TagRest g level n rest ∧
    (g.writeNode level n).toList = g.pad level ++ (openText n.widget.component.toList
      (attrsOf g.pad level n.id n.widget (innerProp? n)) ++ rest) := by
  rw [toList_writeNode, elementOf]
  split
  next hrenders =>
    refine ⟨_, .children hrenders, ?_⟩
    rw [innerProp?, if_pos hrenders, Element.lines, joinLines_cons, linesText_append,
      linesText_linesAll, linesText_cons]
    simp [linesText]
  next hrenders =>
    have hchildless := Bool.not_eq_true _ ▸ hrenders
    split
    next k s hinner =>
      obtain ⟨htext, hget, hne⟩ := innerText?_eq_some_iff.mp hinner
      refine ⟨_, .text ⟨hchildless, htext, hget, hne⟩, ?_⟩
      rw [innerProp?, if_neg hrenders, hinner, Element.lines, joinLines_cons]
      simp [linesText]
    next hinner =>
      refine ⟨_, .nothing hchildless fun k s hs => ?_, ?_⟩
      · rw [innerText?_eq_some_iff.mpr ⟨hs.textProp, hs.value, hs.nonempty⟩] at hinner
        cases hinner
      · rw [innerProp?, if_neg hrenders, hinner, Element.lines, joinLines_cons]
        simp [linesText]

/-- A button with a declared property and another one, a label and a handler. -/
def ghostButton : Widget where
  component := "Button"
  props := .ofList
    [("content", .str "Go"), ("tabindex", .num (.int 3)), ("variant", .str "ghost")]
  events := .ofList [("onClick", "go(1)")]

theorem writeNode_ghostButton : ({} : Writer).writeNode 1 ⟨"b", none, ghostButton, []⟩ =
    String.ofList ("  <Button variant=\"ghost\" tabindex=\x7b3\x7d class=\"b\"".toList ++
      " onClick=\x7b() => \x7b go(1) \x7d\x7d>Go</Button>".toList) := by
  have hrenders : rendersChildren ghostButton [] = false := by decide +kernel
  have hinner : innerText? ghostButton = some ("content", "Go") := by decide +kernel
  have hattrs : attrsOf ({} : Writer).pad 1 "b" ghostButton (some "content") =
      [⟨"variant".toList, .quoted "ghost".toList⟩, ⟨"tabindex".toList, .braced "3".toList⟩,
        ⟨"class".toList, .quoted "b".toList⟩,
        ⟨"onClick".toList, .braced "() => \x7b go(1) \x7d".toList⟩] := by decide +kernel
  apply String.toList_inj.mp
  rw [toList_writeNode, String.toList_ofList, elementOf, hrenders, if_neg Bool.false_ne_true,
    hinner]
  simp only
  rw [hattrs]
  decide +kernel

/-- **A node is written with all that it has, once**: declared properties as they are declared,
the others by name, the id as the one class and the handlers by name; then its children, or its
text. Links to holders are not written. -/
theorem writeNode_lists_once (n : Node) :
    (∃ declared others handlers rest,
      ListsOnce g.pad level n declared others handlers ∧ TagRest g level n rest ∧
      (g.writeNode level n).toList = g.pad level ++ (openText n.widget.component.toList
        (declared ++ others ++ ⟨"class".toList, .quoted n.id.toList⟩ :: handlers) ++ rest) ∧
      (declared ++ others ++ ⟨"class".toList, .quoted n.id.toList⟩ :: handlers).count
        ⟨"class".toList, .quoted n.id.toList⟩ = 1) ∧
    ∀ m, Forest.unlinked [m] = Forest.unlinked [n] →
      g.writeNode level m = g.writeNode level n := by
  constructor
  · obtain ⟨rest, hrest, htext⟩ := exists_tagRest g level n
    rw [attrsOf_eq] at htext
    have hlists := listsOnce_attrs g.pad level n
    exact ⟨_, _, _, rest, hlists, hrest, htext, hlists.count_class⟩
  · intro m hm
    rw [Writer.writeNode, Writer.writeNode, ← elementsOf_unlinked _ _ [m], hm,
      elementsOf_unlinked]

/-- A button below another node is written like one that stands alone: its declared property,
the other one, the class, the handler and the label. -/
theorem writeNode_lists_once_of_button :
    Forest.unlinked [⟨"b", some "a", ghostButton, []⟩] =
        Forest.unlinked [⟨"b", none, ghostButton, []⟩] ∧
      ({} : Writer).writeNode 1 ⟨"b", some "a", ghostButton, []⟩ =
        String.ofList ("  <Button variant=\"ghost\" tabindex=\x7b3\x7d class=\"b\"".toList ++
          " onClick=\x7b() => \x7b go(1) \x7d\x7d>Go</Button>".toList) := by
  have hlinks : Forest.unlinked [⟨"b", some "a", ghostButton, []⟩] =
      Forest.unlinked [⟨"b", none, ghostButton, []⟩] := by
    simp only [Forest.unlinked]
  exact ⟨hlinks, ((writeNode_lists_once {} 1 _).2 _ hlinks).trans writeNode_ghostButton⟩

end Source

end Tandem
