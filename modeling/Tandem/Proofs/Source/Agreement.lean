import Tandem.Proofs.Forest.WellFormed
import Tandem.Proofs.Markup.Named
import Tandem.Proofs.Source.Written

/-!
# Rules and markup

The style block and the markup of a forest are written on two ways through it. The one for
the rules goes through all nodes; the one for the markup passes over what a component holds
that accepts no children (`shown`):

* **rules** — `ruleKeys_eq`: one for each styled node, in preorder;
* **markup** — `openedClasses_eq`: one element for each node that is shown, with its id as the
  only class, in preorder;
* **agreement** — `filter_shown_eq_iff`: the two ways meet the same nodes of a kind exactly if
  there is none of that kind below a component that accepts no children.
-/

namespace Tandem.Source

open Text Markup

/-! ## What is hidden -/

/-- No node of a kind is below one whose component accepts no children. -/
def NoneHidden (p : Node → Bool) (f : Forest) : Prop :=
  ∀ n ∈ f.preorder, acceptsChildren (Catalog.find? n.widget.component) = false →
    ∀ m ∈ Forest.preorder n.children, p m = false

theorem noneHidden_cons {p : Node → Bool} {n : Node} {rest : Forest} :
    NoneHidden p (n :: rest) ↔
      (acceptsChildren (Catalog.find? n.widget.component) = false →
        ∀ m ∈ Forest.preorder n.children, p m = false) ∧
      NoneHidden p n.children ∧ NoneHidden p rest := by
  simp only [NoneHidden, Forest.preorder_cons, List.forall_mem_cons, List.forall_mem_append]

/-- Two lists of two parts agree if the parts do, where the parts of one are from the other. -/
theorem append_eq_append_iff_of_sublist {α : Type} {a a' b b' : List α} (ha : a.Sublist a')
    (hb : b.Sublist b') : a ++ b = a' ++ b' ↔ a = a' ∧ b = b' := by
  constructor
  · intro h
    have hlength := congrArg List.length h
    rw [List.length_append, List.length_append] at hlength
    have hle := ha.length_le
    have hle' := hb.length_le
    exact List.append_inj h (by omega)
  · rintro ⟨rfl, rfl⟩
    rfl

/-- The nodes of a kind are all shown exactly if none is hidden. -/
theorem filter_shown_eq_iff (p : Node → Bool) (f : Forest) :
    (shown f).filter p = f.preorder.filter p ↔ NoneHidden p f := by
  induction f using Forest.induction with
  | nil => simp [shown, NoneHidden]
  | cons id parent w children rest ihc ihr =>
      have hhead : ∀ as bs : List Node, List.filter p (⟨id, parent, w, children⟩ :: as) =
          List.filter p (⟨id, parent, w, children⟩ :: bs) ↔ as.filter p = bs.filter p := by
        intro as bs
        rw [List.filter_cons, List.filter_cons]
        split
        next => rw [List.cons.injEq, eq_self, true_and]
        next => rfl
      have hbelow := (shown_sublist children).filter p
      have hbeside := (shown_sublist rest).filter p
      rw [shown_cons, Forest.preorder_cons, hhead, List.filter_append, List.filter_append,
        noneHidden_cons, ← ihr, rendersChildren]
      cases haccepts : acceptsChildren (Catalog.find? w.component) with
      | true =>
          have hchildren : (if (true && !children.isEmpty) = true then shown children else []) =
              shown children := by
            cases children with
            | nil => rw [shown]; rfl
            | cons => rfl
          rw [hchildren, append_eq_append_iff_of_sublist hbelow hbeside, ihc]
          simp
      | false =>
          -- What is hidden as a whole hides nothing of its own.
          have hinside : (∀ m ∈ Forest.preorder children, p m = false) → NoneHidden p children :=
            fun h n hn _ m hm => h m (Forest.preorder_children_subset hn hm)
          rw [Bool.false_and, if_neg Bool.false_ne_true, List.filter_nil,
            append_eq_append_iff_of_sublist (List.nil_sublist _) hbeside, eq_comm,
            List.filter_eq_nil_iff]
          simp only [Bool.not_eq_true, true_imp_iff]
          tauto

section

variable (g : Writer)

/-! ## Rules -/

/-- The class that a line opens a rule for. -/
def ruleKey? (line : List Char) : Option (List Char) :=
  match line.reverse with
  | '\x7b' :: ' ' :: front =>
    match front.reverse.dropWhile (· = ' ') with
    | '.' :: name => some name
    | _ => none
  | _ => none

/-- The classes that the lines of the style block open rules for, in order. -/
def ruleKeys (f : Forest) : List (List Char) := (g.styleLines f).filterMap ruleKey?

theorem ruleKey?_concat (line : List Char) {c : Char} (hc : c ≠ '\x7b') :
    ruleKey? (line ++ [c]) = none := by
  rw [ruleKey?, List.reverse_concat]
  split
  next heq =>
    obtain ⟨rfl, _⟩ := List.cons.inj heq
    exact absurd rfl hc
  next => rfl

theorem ruleKey?_open (level : Nat) (line : List Char) :
    ruleKey? (g.pad level ++ (line ++ " \x7b".toList)) =
      match line.dropWhile (· = ' ') with
      | '.' :: name => some name
      | _ => none := by
  have hreverse : (g.pad level ++ (line ++ " \x7b".toList)).reverse =
      '\x7b' :: ' ' :: (g.pad level ++ line).reverse := by
    simp
  have hpad : (g.pad level ++ line).dropWhile (· = ' ') = line.dropWhile (· = ' ') :=
    List.dropWhile_append_of_pos fun c hc => by simpa using (List.mem_replicate.mp hc).2
  rw [ruleKey?, hreverse]
  simp only [List.reverse_reverse, hpad]

theorem filterMap_ruleLines (n : Node) : (g.ruleLines n).filterMap ruleKey? = [n.id.toList] := by
  have hopen : ruleKey? (g.pad 2 ++ '.' :: (n.id.toList ++ " \x7b".toList)) = some n.id.toList := by
    rw [← List.cons_append, ruleKey?_open, List.dropWhile_cons_of_neg (by decide)]
    rfl
  have hclose : ruleKey? (g.pad 2 ++ ['\x7d']) = none := ruleKey?_concat _ (by decide)
  have hbody : (n.widget.styles.entries.map fun e =>
      g.pad 3 ++ e.1.toList ++ ": ".toList ++ e.2.toList ++ [';']).filterMap ruleKey? = [] := by
    rw [List.filterMap_map, List.filterMap_eq_nil_iff]
    exact fun e _ => ruleKey?_concat _ (by decide)
  rw [Writer.ruleLines, List.cons_append, List.filterMap_cons, hopen, List.filterMap_append, hbody,
    List.filterMap_cons, hclose, List.filterMap_nil, List.append_nil]

/-- There is one rule for each styled node. -/
theorem ruleKeys_eq (f : Forest) : ruleKeys g f = (Writer.styled f).map (·.id.toList) := by
  have hheader : ruleKey? (g.pad 1 ++ "style \x7b".toList) = none := by
    have hword : "style \x7b".toList = ['s', 't', 'y', 'l', 'e'] ++ " \x7b".toList := by decide
    rw [hword, ruleKey?_open, List.dropWhile_cons_of_neg (by decide)]
    rfl
  have hclose : ruleKey? (g.pad 1 ++ ['\x7d']) = none := ruleKey?_concat _ (by decide)
  have hnil : ruleKey? [] = none := rfl
  have hrules : ((Writer.styled f).flatMap g.ruleLines).filterMap ruleKey? =
      (Writer.styled f).map (·.id.toList) := by
    induction Writer.styled f with
    | nil => rfl
    | cons n ns ih =>
        rw [List.flatMap_cons, List.filterMap_append, filterMap_ruleLines, ih, List.map_cons,
          List.singleton_append]
  rw [ruleKeys, Writer.styleLines]
  split
  next hnone => rw [hnone]; rfl
  next =>
    rw [List.cons_append, List.filterMap_cons, hheader, List.filterMap_append, hrules,
      List.filterMap_cons, hclose, List.filterMap_cons, hnil, List.filterMap_nil, List.append_nil]

/-! ## Markup -/

/-- The class that an attribute gives in quotes. -/
def classValue? (a : Attr) : Option (List Char) :=
  match a.value with
  | .quoted cs => if a.name = "class".toList then some cs else none
  | _ => none

/-- The classes of the elements that the markup consists of (`markupLines_eq`), in the order in
which they are opened. -/
def openedClasses (f : Forest) : List (List Char) :=
  (Element.preorder (topElements g f)).flatMap fun e => e.attrs.filterMap classValue?

/-- The only class of a node is its id. -/
theorem filterMap_attrsOf (pad : Nat → List Char) (level : Nat) (id : String) (w : Widget)
    (inner : Option String) :
    (attrsOf pad level id w inner).filterMap classValue? = [id.toList] := by
  have hprops : ((orderedProps (Catalog.find? w.component) w.props).filterMap fun e =>
      propAttr? (Catalog.find? w.component) inner e.1 e.2).filterMap classValue? = [] := by
    rw [List.filterMap_eq_nil_iff]
    intro a ha
    obtain ⟨e, _, hattr⟩ := List.mem_filterMap.mp ha
    have hname : e.1 ≠ "class" := by
      intro heq
      rw [propAttr?, heq] at hattr
      cases hattr
    obtain ⟨value, _, rfl⟩ := propAttr?_eq_some hattr
    have hother : e.1.toList ≠ "class".toList := fun heq => hname (String.toList_inj.mp heq)
    cases value with
    | quoted cs => exact if_neg hother
    | braced cs => rfl
    | bare => rfl
  have hevents : ((w.events.entries.filter fun e => !isBlankString e.2).map fun e =>
      (⟨e.1.toList, .braced (wrap pad level e.2)⟩ : Attr)).filterMap classValue? = [] := by
    rw [List.filterMap_map, List.filterMap_eq_nil_iff]
    exact fun e _ => rfl
  rw [attrsOf, List.filterMap_append, hprops, List.filterMap_cons, hevents]
  rfl

theorem children_elementOf (pad : Nat → List Char) (level : Nat) (n : Node)
    (children : List Element) : (elementOf pad level n children).children =
      if rendersChildren n.widget n.children then children else [] := by
  rw [elementOf]
  split
  next => rfl
  next => split <;> rfl

theorem openedClasses_elementsOf (pad : Nat → List Char) (level : Nat) (f : Forest) :
    (Element.preorder (elementsOf pad level f)).flatMap (fun e => e.attrs.filterMap classValue?) =
      (shown f).map (·.id.toList) := by
  induction f using Forest.induction generalizing level with
  | nil => rw [elementsOf, Element.preorder, shown]; rfl
  | cons id parent w children rest ihc ihr =>
      rw [elementsOf_cons, Element.preorder_cons, List.flatMap_cons, List.flatMap_append,
        attrs_elementOf, filterMap_attrsOf, children_elementOf, ihr, shown_cons, List.map_cons,
        List.map_append, List.singleton_append]
      split
      next => rw [ihc]
      next => rw [Element.preorder]; rfl

/-- There is one element for each node that is shown. -/
theorem openedClasses_eq (f : Forest) : openedClasses g f = (shown f).map (·.id.toList) := by
  have hwrapper : ∀ f,
      (Element.preorder [.nest wrapperName.toList [] (elementsOf g.pad 2 f)]).flatMap
        (fun e => e.attrs.filterMap classValue?) = (shown f).map (·.id.toList) := by
    intro f
    rw [Element.preorder, Element.preorder, List.append_nil, List.flatMap_cons,
      openedClasses_elementsOf]
    rfl
  rw [openedClasses]
  rcases f with _ | ⟨n, _ | ⟨m, rest⟩⟩
  · exact hwrapper []
  · exact openedClasses_elementsOf g.pad 1 [n]
  · exact hwrapper (n :: m :: rest)

/-! ## Agreement -/

/-- The classes of the markup that belong to styled nodes. -/
def styledClasses (f : Forest) : List (List Char) :=
  (openedClasses g f).filter fun c => (Writer.styled f).any (·.id.toList = c)

theorem styledClasses_eq {f : Forest} (hids : f.ids.Nodup) :
    styledClasses g f =
      ((shown f).filter fun n => !n.widget.styles.isEmpty).map (·.id.toList) := by
  rw [styledClasses, openedClasses_eq, List.filter_map]
  refine congrArg (List.map fun n : Node => n.id.toList) (List.filter_congr fun n hn => ?_)
  have hmem := (shown_sublist f).subset hn
  -- The styled node of this id is this node.
  have hsame : ∀ m ∈ f.preorder, m.id.toList = n.id.toList → m = n := fun m hm heq =>
    List.inj_on_of_nodup_map hids hm hmem (String.toList_inj.mp heq)
  rw [Bool.eq_iff_iff]
  simp only [Function.comp_apply, List.any_eq_true, decide_eq_true_eq, Writer.styled,
    List.mem_filter]
  constructor
  · rintro ⟨m, ⟨hm, hstyled⟩, heq⟩
    exact hsame m hm heq ▸ hstyled
  · exact fun hstyled => ⟨n, ⟨hmem, hstyled⟩, rfl⟩

/-- **Which rules have an element.** No class has two rules, and the styled elements have theirs
in the order in which the markup opens them; they are all that have rules exactly if nothing
styled is below a component that accepts no children. -/
theorem rules_agree_iff {f : Forest} (hids : f.ids.Nodup) :
    (ruleKeys g f).Nodup ∧ (styledClasses g f).Sublist (ruleKeys g f) ∧
      (ruleKeys g f = styledClasses g f ↔ NoneHidden (fun n => !n.widget.styles.isEmpty) f) := by
  have hstyled := (shown_sublist f).filter fun n => !n.widget.styles.isEmpty
  rw [ruleKeys_eq, styledClasses_eq g hids, Writer.styled]
  refine ⟨?_, hstyled.map _, ?_⟩
  · have hnodup : ((f.preorder.filter fun n => !n.widget.styles.isEmpty).map (·.id)).Nodup :=
      hids.sublist (List.filter_sublist.map _)
    have hlists := hnodup.map (f := String.toList) fun _ _ => String.toList_inj.mp
    rwa [List.map_map] at hlists
  · rw [← filter_shown_eq_iff]
    constructor
    · intro h
      have hlength := congrArg List.length h
      rw [List.length_map, List.length_map] at hlength
      exact hstyled.eq_of_length hlength.symm
    · intro h
      rw [h]

theorem rules_agree_of_row :
    let text : Node := ⟨"b", some "a",
      { component := "Text", styles := .ofList [("color", "red")] }, []⟩
    let f : Forest := [⟨"a", none, { component := "Row" }, [text]⟩]
    f.ids.Nodup ∧ ruleKeys {} f = styledClasses {} f := by
  intro text f
  have hids : f.ids.Nodup := by simp [f, text]
  have haccepts : acceptsChildren (Catalog.find? "Row") = true := by decide +kernel
  have hnone : NoneHidden (fun n => !n.widget.styles.isEmpty) f := by
    simp [f, text, NoneHidden, haccepts]
  exact ⟨hids, (rules_agree_iff {} hids).2.2.mpr hnone⟩

/-- A button accepts no children. The icon that one holds is not written, but its rule is. -/
theorem hidden_icon_has_rule :
    let icon : Node := ⟨"b", some "a",
      { component := "Icon", styles := .ofList [("color", "red")] }, []⟩
    let f : Forest := [⟨"a", none, { component := "Button" }, [icon]⟩]
    f.ids.Nodup ∧ ruleKeys {} f = ["b".toList] ∧ openedClasses {} f = ["a".toList] ∧
      ruleKeys {} f ≠ styledClasses {} f := by
  intro icon f
  have hids : f.ids.Nodup := by simp [f, icon]
  have hpreorder : f.preorder = [f[0], icon] := by simp [f, icon]
  have haccepts : acceptsChildren (Catalog.find? "Button") = false := by decide +kernel
  have hshown : shown f = [f[0]] := by simp [f, shown_cons, rendersChildren, haccepts, shown]
  have hstyled : Writer.styled f = [icon] := by
    rw [Writer.styled, hpreorder]
    rfl
  have hrules : ruleKeys {} f = ["b".toList] := by rw [ruleKeys_eq, hstyled]; rfl
  have hopened : openedClasses {} f = ["a".toList] := by rw [openedClasses_eq, hshown]; rfl
  refine ⟨hids, hrules, hopened, ?_⟩
  rw [hrules, styledClasses, hopened, hstyled]
  decide

end

end Tandem.Source
