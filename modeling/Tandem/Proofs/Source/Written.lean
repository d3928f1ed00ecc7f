import Tandem.Proofs.Source.Outline
import Tandem.Proofs.Source.StyleBlock
import Tandem.Source.Reader

/-!
# The parts of a written text are found again

A source text is a header, a block of rules and the markup. Each of them is found again:
the header at the front (`header?_page`, `header?_component`), the end of the body at the
brace on the last line, and the style block in front of the markup. All that it takes is that
what is written ends where it is meant to (`ClosedForest`); the elements of the forest are
then read back tidied up (`ClosedForest.bodyOf`), whatever they and the rules mean.
-/

namespace Tandem.Source

open Text Markup Style

/-! ## The header -/

/-- A name that a header can declare: word characters, at least one. -/
def isDocumentName (name : String) : Bool := !name.isEmpty && name.toList.all isWord

theorem isDocumentName_eq_true {name : String} (h : isDocumentName name = true) :
    name.toList ≠ [] ∧ ∀ c ∈ name.toList, isWord c = true := by
  obtain ⟨hne, hall⟩ := Bool.and_eq_true_iff.mp h
  refine ⟨fun hnil => ?_, List.all_eq_true.mp hall⟩
  have hempty : name = "" := String.toList_inj.mp hnil
  rw [hempty] at hne
  cases hne

/-- The name behind a keyword and blanks is found up to what is no word. -/
theorem named?_append {keyword : String} {word name rest : List Char} {c : Char}
    {blanks : List Char} (hword : keyword.toList = word) (hc : isBlank c = true)
    (hblanks : Blank blanks) (hne : name ≠ []) (hname : ∀ c ∈ name, isWord c = true)
    (hrest : Stops isWord rest) :
    named? keyword (word ++ c :: (blanks ++ (name ++ rest))) =
      some (name, rest.dropWhile isBlank) := by
  have hprefix : dropKeyword keyword (word ++ c :: (blanks ++ (name ++ rest))) =
      some (c :: (blanks ++ (name ++ rest))) := by
    rw [dropKeyword, hword]
    clear hword
    induction word with
    | nil => rfl
    | cons c cs ih => simp [List.isPrefixOf?]
  have hstops : Stops isBlank (name ++ rest) := by
    obtain ⟨c, cs, rfl⟩ := List.exists_cons_of_ne_nil hne
    exact stops_cons (isBlank_of_isWord (hname c List.mem_cons_self))
  rw [named?, hprefix]
  simp only
  rw [if_pos hc, hstops.dropWhile_append hblanks, hrest.takeWhile_append hname,
    hrest.dropWhile_append hname, if_neg (by simpa using hne)]

theorem headerLine_page (name : String) (rest : List Char) :
    headerLine .page name ++ rest =
      ['p', 'a', 'g', 'e'] ++ ' ' :: (name.toList ++ ' ' :: '\x7b' :: rest) := by
  have hfront : "page ".toList = ['p', 'a', 'g', 'e', ' '] := by decide
  have hback : " \x7b".toList = [' ', '\x7b'] := by decide
  show "page ".toList ++ name.toList ++ " \x7b".toList ++ rest = _
  rw [hfront, hback, List.append_assoc, List.append_assoc]
  rfl

theorem headerLine_component (name : String) (rest : List Char) :
    headerLine .component name ++ rest =
      ['c', 'o', 'm', 'p', 'o', 'n', 'e', 'n', 't'] ++
        ' ' :: (name.toList ++ '(' :: ')' :: ' ' :: '\x7b' :: rest) := by
  have hfront : "component ".toList = ['c', 'o', 'm', 'p', 'o', 'n', 'e', 'n', 't', ' '] := by
    decide
  have hback : "() \x7b".toList = ['(', ')', ' ', '\x7b'] := by decide
  show "component ".toList ++ name.toList ++ "() \x7b".toList ++ rest = _
  rw [hfront, hback, List.append_assoc, List.append_assoc]
  rfl

theorem page?_headerLine {name : String} (hname : isDocumentName name = true)
    (rest : List Char) : page? (headerLine .page name ++ rest) = some (name.toList, rest) := by
  obtain ⟨hne, hword⟩ := isDocumentName_eq_true hname
  have hspace : Stops isWord (' ' :: '\x7b' :: rest) := stops_cons (by decide)
  have hkeyword : Kind.page.keyword.toList = ['p', 'a', 'g', 'e'] := by decide
  have hblank : isBlank ' ' = true := by decide
  have hnamed := named?_append hkeyword hblank blank_nil hne hword hspace
  rw [List.nil_append] at hnamed
  rw [headerLine_page, page?, hnamed, List.dropWhile_cons_of_pos (by decide),
    List.dropWhile_cons_of_neg (by decide)]
  rfl

theorem componentName?_headerLine {name : String} (hname : isDocumentName name = true)
    (rest : List Char) : componentName? (headerLine .component name ++ rest) =
      some (name.toList, ')' :: ' ' :: '\x7b' :: rest) := by
  obtain ⟨hne, hword⟩ := isDocumentName_eq_true hname
  have hparen : Stops isWord ('(' :: ')' :: ' ' :: '\x7b' :: rest) := stops_cons (by decide)
  have hkeyword : Kind.component.keyword.toList =
      ['c', 'o', 'm', 'p', 'o', 'n', 'e', 'n', 't'] := by decide
  have hblank : isBlank ' ' = true := by decide
  have hnamed := named?_append hkeyword hblank blank_nil hne hword hparen
  rw [List.nil_append] at hnamed
  rw [headerLine_component, componentName?, hnamed, List.dropWhile_cons_of_neg (by decide)]
  rfl

/-- What succeeds at the front of a text is found there. -/
theorem searchWord_front {α : Type} {p : List Char → Option α} {cs : List Char} {a : α}
    (hp : p cs = some a) (hne : cs ≠ []) : searchWord p false cs = some a := by
  obtain ⟨c, cs, rfl⟩ := List.exists_cons_of_ne_nil hne
  rw [searchWord, if_neg Bool.false_ne_true, hp]

theorem headerLine_append_ne_nil (kind : Kind) (name : String) (rest : List Char) :
    headerLine kind name ++ rest ≠ [] := by
  cases kind with
  | page => rw [headerLine_page]; exact List.cons_ne_nil _ _
  | component => rw [headerLine_component]; exact List.cons_ne_nil _ _

theorem header?_page {name : String} (hname : isDocumentName name = true) (rest : List Char) :
    header? (headerLine .page name ++ rest) = some ⟨.page, name, rest⟩ := by
  rw [header?, searchWord_front (page?_headerLine hname rest) (headerLine_append_ne_nil _ _ _)]
  simp

/-- The header of a component is found at its front, unless there is a page's somewhere. -/
theorem header?_component {name : String} (hname : isDocumentName name = true) {rest : List Char}
    (hnone : searchWord page? false (headerLine .component name ++ rest) = none) :
    header? (headerLine .component name ++ rest) = some ⟨.component, name, rest⟩ := by
  have hcomponent : component? (headerLine .component name ++ rest) =
      some (name.toList, rest) := by
    rw [component?, componentName?_headerLine hname]
    simp only
    rw [List.dropWhile_cons_of_neg (by decide)]
    simp only
    rw [List.dropWhile_cons_of_pos (by decide), List.dropWhile_cons_of_neg (by decide)]
    rfl
  rw [header?, hnone]
  simp only
  rw [searchWord_front hcomponent (headerLine_append_ne_nil _ _ _)]
  simp

/-! ## The body -/

/-- Without the header of a style block the whole body is markup. -/
theorem Body.read?_of_findStyle (start : Nat) {cs : List Char}
    (hnone : findStyle false (pieces cs) = none) : Body.read? start cs = .ok ⟨trim cs, []⟩ := by
  rw [Body.read?, hnone]

theorem Body.read?_unstyled (start : Nat) {cs : List Char} (hcs : BraceFree cs) :
    Body.read? start cs = .ok ⟨trim cs, []⟩ := by
  obtain ⟨ps, rfl, hps, hpieces⟩ := hcs
  have hall : pieces (textOf ps) = ps := by
    have h := hpieces []
    rwa [List.append_nil, pieces, List.append_nil] at h
  apply Body.read?_of_findStyle
  rw [hall]
  exact findStyle_eq_none (fun hmem => (hps _ hmem).1 rfl) false

/-- A style block behind blanks is taken out of the markup. -/
theorem Body.read?_styled (start : Nat) {blanks style : List Char} (hblanks : Blank blanks)
    (hstyle : Whole style) (markup : List Char) :
    Body.read? start (blanks ++ ("style \x7b".toList ++ (style ++ '\x7d' :: markup))) =
      .ok ⟨trim (blanks ++ markup), style⟩ := by
  have hheader : StyleHeader "style \x7b".toList := .bare (blank_nil.cons (by decide))
  refine Body.read?_block start (unmarked_of_blank hblanks) (fun c hc => ?_) hheader hstyle
  have hblank := hblanks c (List.mem_of_getLast? hc)
  cases hword : isWord c with
  | false => rfl
  | true => rw [isBlank_of_isWord hword] at hblank; cases hblank

/-! ## Lines of a document -/

theorem joinLines_cons (l : List Char) (ls : List (List Char)) :
    joinLines (l :: ls) = l ++ linesText ls := by
  induction ls generalizing l with
  | nil => simp [joinLines, linesText]
  | cons m ms ih =>
      have h := ih m
      rw [joinLines] at h ⊢
      rw [List.intercalate_cons_cons, h, linesText_cons]
      simp

section

variable (g : Writer)

theorem whole_ruleLines {nodes : List Node}
    (h : ∀ n ∈ nodes, (∀ c ∈ n.id.toList, isClassChar c = true) ∧
      UnmarkedStyles n.widget.styles) : Whole (linesText (nodes.flatMap g.ruleLines)) := by
  induction nodes with
  | nil => exact BraceFree.nil.whole
  | cons n ns ih =>
      obtain ⟨hid, hstyles⟩ := h n List.mem_cons_self
      have hindent : Unmarked ('\n' :: g.pad 2) :=
        unmarked_of_blank (blank_indent (blank_pad g) 2)
      have hclass : Unmarked ('.' :: (n.id.toList ++ [' '])) := by
        have hspace : Unmarked [' '] := by simp [Unmarked]
        have hdot : Unmarked ['.'] := by simp [Unmarked]
        exact hdot.append ((unmarked_of_isClassChar hid).append hspace)
      have hsplit : linesText (g.ruleLines n) = ('\n' :: g.pad 2) ++
          ('.' :: (n.id.toList ++ [' ']) ++
            '\x7b' :: (bodyText g.pad n.widget.styles ++ ['\x7d'])) := by
        rw [linesText_ruleLines]
        simp
      rw [List.flatMap_cons, linesText_append, hsplit]
      exact (hindent.braceFree.whole.append (hclass.braceFree.whole.append
        (unmarked_bodyText g hstyles).braceFree.whole.block)).append
          (ih fun m hm => h m (List.mem_cons_of_mem _ hm))

def styleText (nodes : List Node) : List Char :=
  linesText (nodes.flatMap g.ruleLines) ++ '\n' :: g.pad 1

theorem linesText_styleLines {f : Forest} (hne : Writer.styled f ≠ []) :
    linesText (g.styleLines f) = ('\n' :: g.pad 1) ++
      ("style \x7b".toList ++ (styleText g (Writer.styled f) ++ '\x7d' :: ['\n'])) := by
  have hlines : g.styleLines f = (g.pad 1 ++ "style \x7b".toList) ::
      ((Writer.styled f).flatMap g.ruleLines ++ [g.pad 1 ++ ['\x7d'], []]) := by
    rw [Writer.styleLines]
    split
    next h => exact absurd h hne
    next => rw [List.cons_append]
  rw [hlines, linesText_cons, linesText_append, styleText]
  simp only [linesText, List.flatMap_cons, List.flatMap_nil, List.append_nil, List.append_assoc,
    List.cons_append, List.nil_append]

/-! ## Markup -/

/-- The level of nesting at which the roots are written. -/
def rootLevel (f : Forest) : Nat :=
  match f with
  | [_] => 1
  | _ => 2

/-- The elements at the top of the markup: the one root, or the wrapper around the roots. -/
def topElements (f : Forest) : List Element :=
  match f with
  | [_] => elementsOf g.pad 1 f
  | _ => [.nest wrapperName.toList [] (elementsOf g.pad 2 f)]

theorem markupLines_eq (f : Forest) :
    g.markupLines f = Element.linesAll g.pad 1 (topElements g f) := by
  match f with
  | [] => simp [Writer.markupLines, topElements, Element.linesAll]
  | [n] => rfl
  | n :: m :: rest => simp [Writer.markupLines, topElements, Element.linesAll]

theorem isClassed_elementOf (pad : Nat → List Char) (level : Nat) (n : Node)
    (children : List Element) : isClassed (elementOf pad level n children) = true := by
  rw [isClassed, attrs_elementOf, attrsOf, List.any_append, List.any_cons, beq_self_eq_true,
    Bool.true_or, Bool.or_true]

theorem isClassed_elementsOf (pad : Nat → List Char) (level : Nat) (f : Forest) :
    (elementsOf pad level f).all isClassed = true := by
  induction f with
  | nil => rw [elementsOf]; rfl
  | cons n rest ih =>
      rw [elementsOf_cons, List.all_cons, isClassed_elementOf, ih]
      rfl

/-- An element that lists a class is no wrapper. -/
theorem unwrapped_singleton {e : Element} (he : isClassed e = true) : unwrapped [e] = [e] := by
  rw [unwrapped.eq_def]
  split
  next heq =>
    cases heq
    cases he
  next => rfl

/-- The wrapper around the roots is taken off again. -/
theorem unwrapped_topElements (f : Forest) (hne : f ≠ []) :
    unwrapped (topElements g f) = elementsOf g.pad (rootLevel f) f := by
  match f with
  | [] => exact absurd rfl hne
  | [n] =>
      have hsingle : elementsOf g.pad 1 [n] =
          [elementOf g.pad 1 n (elementsOf g.pad 2 n.children)] := by
        rw [elementsOf_cons, elementsOf]
      show unwrapped (elementsOf g.pad 1 [n]) = elementsOf g.pad 1 [n]
      rw [hsingle]
      exact unwrapped_singleton (isClassed_elementOf _ _ _ _)
  | n :: m :: rest =>
      have hlength : 2 ≤ (elementsOf g.pad 2 (n :: m :: rest)).length := by
        rw [length_elementsOf]
        simp
      show unwrapped [.nest wrapperName.toList [] (elementsOf g.pad 2 (n :: m :: rest))] =
        elementsOf g.pad 2 (n :: m :: rest)
      rw [unwrapped, if_pos ⟨rfl, hlength, isClassed_elementsOf _ _ _⟩]

theorem topElements_ne_nil {g : Writer} {f : Forest} (hne : f ≠ []) : topElements g f ≠ [] := by
  match f with
  | [] => exact absurd rfl hne
  | [n] =>
      show elementsOf g.pad 1 [n] ≠ []
      rw [elementsOf_cons]
      simp
  | n :: m :: rest => simp [topElements]

/-- The text behind the header of a forest: the body and the brace on the last line. -/
def bodyOf (f : Forest) : List Char :=
  if f.isEmpty then ['\n']
  else linesText (g.styleLines f) ++ (linesText (g.markupLines f) ++ ['\n'])

theorem write_eq (options : WriterOptions) (f : Forest) (name : String) (kind : Kind) :
    ({ options } : Writer).write f name kind =
      String.ofList (headerLine kind name ++ (bodyOf { options } f ++ '\x7d' :: ['\n'])) := by
  rw [Writer.write, bodyOf]
  refine congrArg String.ofList ?_
  split
  · rw [joinLines_cons]
    rfl
  · have hstates : ({ options } : Writer).stateLines f = [] := rfl
    rw [joinLines_cons, hstates, List.nil_append, linesText_append, linesText_append]
    simp only [List.append_assoc]
    rfl

/-- The body of a text with one element that is written without an inside and rules. -/
theorem bodyOf_void {id : String} {w : Widget} (hinner : innerText? w = none)
    (hstyles : w.styles.isEmpty = true) :
    bodyOf g [⟨id, none, w, []⟩] =
      '\n' :: (g.pad 1 ++ (openText w.component.toList (attrsOf g.pad 1 id w none) ++
        [' ', '/', '>'])) ++ ['\n'] := by
  have hstyled : Writer.styled [⟨id, none, w, []⟩] = [] := by
    rw [Writer.styled, Forest.preorder_cons, Forest.preorder_nil]
    simp [hstyles]
  have hrenders : rendersChildren w [] = false := by
    rw [rendersChildren, List.isEmpty_nil, Bool.not_true, Bool.and_false]
  have helements : elementsOf g.pad 1 [⟨id, none, w, []⟩] =
      [.void w.component.toList (attrsOf g.pad 1 id w none)] := by
    rw [elementsOf_cons, elementOf, hrenders, if_neg Bool.false_ne_true, hinner, elementsOf]
  rw [bodyOf, if_neg (by simp), Writer.styleLines, hstyled, Writer.markupLines, helements,
    linesText_linesAll_cons, linesText_void, Element.linesAll]
  simp [linesText]

theorem blank_break : Blank ['\n'] := blank_nil.cons (by decide)

/-! ## Closed forests -/

/-- The elements and the rules of a forest end where they are meant to. -/
structure ClosedForest (f : Forest) : Prop where
  elements : ∀ e ∈ elementsOf g.pad (rootLevel f) f, e.Closed
  rules : ∀ n ∈ Writer.styled f, (∀ c ∈ n.id.toList, isClassChar c = true) ∧
    UnmarkedStyles n.widget.styles

variable {g}

theorem ClosedForest.closed_topElements {f : Forest} (hf : ClosedForest g f) (hne : f ≠ []) :
    ∀ e ∈ topElements g f, e.Closed := by
  have hall := hf.elements
  match f with
  | [] => exact absurd rfl hne
  | [n] => exact hall
  | n :: m :: rest =>
      intro e he
      have heq := List.mem_singleton.mp he
      rw [heq]
      refine .nest _ _ _ (by decide) (List.forall_mem_nil Attr.Closed) ?_ hall
      rw [elementsOf_cons]
      simp

theorem ClosedForest.whole_styleText {f : Forest} (hf : ClosedForest g f) :
    Whole (styleText g (Writer.styled f)) :=
  (whole_ruleLines g hf.rules).append
    (unmarked_of_blank (blank_indent (blank_pad g) 1)).braceFree.whole

theorem ClosedForest.braceFree_markup {f : Forest} (hf : ClosedForest g f) (hne : f ≠ []) :
    BraceFree (linesText (g.markupLines f) ++ ['\n']) := by
  rw [markupLines_eq]
  exact (braceFree_linesAll (blank_pad g) (hf.closed_topElements hne) 1).append
    (unmarked_of_blank blank_break).braceFree

theorem ClosedForest.whole_body {f : Forest} (hf : ClosedForest g f) (hne : f ≠ []) :
    Whole (linesText (g.styleLines f) ++ (linesText (g.markupLines f) ++ ['\n'])) := by
  refine Whole.append ?_ (hf.braceFree_markup hne).whole
  by_cases hnone : Writer.styled f = []
  · rw [Writer.styleLines, hnone]
    exact BraceFree.nil.whole
  · have hindent := (unmarked_of_blank (blank_indent (blank_pad g) 1)).braceFree.whole
    have hword : Unmarked ['s', 't', 'y', 'l', 'e', ' '] := by
      simp [Unmarked]
    have hheader : "style \x7b".toList = ['s', 't', 'y', 'l', 'e', ' '] ++ ['\x7b'] := by decide
    have hsplit : linesText (g.styleLines f) = (('\n' :: g.pad 1) ++
        ['s', 't', 'y', 'l', 'e', ' ']) ++
          (('\x7b' :: (styleText g (Writer.styled f) ++ ['\x7d'])) ++ ['\n']) := by
      rw [linesText_styleLines g hnone, hheader]
      simp only [List.append_assoc, List.cons_append, List.nil_append]
    rw [hsplit]
    exact (hindent.append hword.braceFree.whole).append
      (hf.whole_styleText.block.append (unmarked_of_blank blank_break).braceFree.whole)

/-- The body is cut into the rules, if there are any, and the markup. -/
theorem ClosedForest.exists_body {f : Forest} (hf : ClosedForest g f) (hne : f ≠ []) :
    ∃ b : Body,
      (∀ start, Body.read? start (linesText (g.styleLines f) ++
        (linesText (g.markupLines f) ++ ['\n'])) = .ok b) ∧
      trimStart b.markup = trimStart (linesText (g.markupLines f)) ∧
      (Writer.styled f = [] ∧ b.style = [] ∨ b.style = styleText g (Writer.styled f)) := by
  have hlast : ∃ c ∈ (linesText (g.markupLines f)).getLast?, isBlank c = false := by
    rw [markupLines_eq]
    exact ⟨'>', getLast?_linesAll 1 (topElements_ne_nil hne), by decide⟩
  -- Whatever blanks are left around the markup do not matter.
  have htrim : ∀ {blanks : List Char}, Blank blanks →
      trimStart (trim (blanks ++ (linesText (g.markupLines f) ++ ['\n']))) =
        trimStart (linesText (g.markupLines f)) := by
    intro blanks hblanks
    rw [trim, trimStart_append hblanks, ← trim, trim_append blank_break hlast,
      trimStart_trimStart]
  by_cases hnone : Writer.styled f = []
  · have hlines : linesText (g.styleLines f) = [] := by
      rw [Writer.styleLines, hnone]
      rfl
    refine ⟨⟨_, []⟩, fun start => ?_, htrim blank_nil, .inl ⟨hnone, rfl⟩⟩
    rw [hlines, List.nil_append, Body.read?_unstyled start (hf.braceFree_markup hne)]
    rfl
  · have hindent := blank_indent (blank_pad g) 1
    have hsplit : linesText (g.styleLines f) ++ (linesText (g.markupLines f) ++ ['\n']) =
        ('\n' :: g.pad 1) ++ ("style \x7b".toList ++ (styleText g (Writer.styled f) ++
          '\x7d' :: (['\n'] ++ (linesText (g.markupLines f) ++ ['\n'])))) := by
      rw [linesText_styleLines g hnone]
      simp only [List.append_assoc, List.cons_append, List.nil_append]
    have hmarkup := htrim (hindent.append blank_break)
    rw [List.append_assoc] at hmarkup
    have hread := fun start => Body.read?_styled start hindent hf.whole_styleText
      (['\n'] ++ (linesText (g.markupLines f) ++ ['\n']))
    rw [← hsplit] at hread
    exact ⟨⟨_, styleText g (Writer.styled f)⟩, hread, hmarkup, .inr rfl⟩

theorem isClassed_tidy (e : Element) : isClassed e.tidy = isClassed e := by
  have hattrs : ∀ attrs : List Attr, (attrs.map Attr.tidy).any (·.name == "class".toList) =
      attrs.any (·.name == "class".toList) := fun attrs => List.any_map
  cases e with
  | void name attrs => rw [Element.tidy]; exact hattrs attrs
  | text name attrs inner => rw [Element.tidy]; exact hattrs attrs
  | nest name attrs children => rw [Element.tidy]; exact hattrs attrs

/-- Elements are taken out of a wrapper alike when they are tidied up. -/
theorem unwrapped_tidy (es : List Element) :
    unwrapped (es.map Element.tidy) = (unwrapped es).map Element.tidy := by
  by_cases hwrapper : ∃ name children, es = [.nest name [] children]
  · obtain ⟨name, children, rfl⟩ := hwrapper
    have hall : (children.map Element.tidy).all isClassed = children.all isClassed := by
      rw [List.all_map]
      exact congrArg children.all (funext isClassed_tidy)
    rw [List.map_singleton, Element.tidy, List.map_nil, unwrapped, unwrapped, List.length_map, hall]
    split
    · rfl
    · rw [List.map_singleton, Element.tidy, List.map_nil]
  · have hself : ∀ ds : List Element, (∀ name children, ds ≠ [.nest name [] children]) →
        unwrapped ds = ds := by
      intro ds hds
      rw [unwrapped.eq_def]
      split
      next name children => exact absurd rfl (hds name children)
      next => rfl
    rw [hself es fun name children heq => hwrapper ⟨name, children, heq⟩]
    refine hself _ fun name children heq => ?_
    obtain ⟨e, rfl, he⟩ := List.map_eq_singleton_iff.mp heq
    cases e with
    | void => rw [Element.tidy] at he; cases he
    | text => rw [Element.tidy] at he; cases he
    | nest name' attrs children' =>
        rw [Element.tidy] at he
        have hattrs := List.map_eq_nil_iff.mp (Element.nest.inj he).2.1
        exact hwrapper ⟨name', children', by rw [hattrs]⟩

/-- **The elements of a closed forest are read back**, tidied up, from a body that is whole. -/
theorem ClosedForest.bodyOf {f : Forest} (hf : ClosedForest g f) :
    Whole (bodyOf g f) ∧ ∃ b : Body, (∀ start, Body.read? start (bodyOf g f) = .ok b) ∧
      unwrapped (Element.readAll b.markup) =
        (elementsOf g.pad (rootLevel f) f).map Element.tidy ∧
      (Writer.styled f = [] ∧ b.style = [] ∨ b.style = styleText g (Writer.styled f)) := by
  rw [Source.bodyOf]
  split
  next hempty =>
    have hnil : f = [] := List.isEmpty_iff.mp hempty
    subst hnil
    have hbreak : BraceFree ['\n'] := (unmarked_of_blank blank_break).braceFree
    have htrim : trim ['\n'] = [] := by decide
    have hnone : Writer.styled [] = [] := by rw [Writer.styled, Forest.preorder_nil]; rfl
    refine ⟨hbreak.whole, ⟨[], []⟩, fun start => ?_, ?_, .inl ⟨hnone, rfl⟩⟩
    · rw [Body.read?_unstyled start hbreak, htrim]
    · rw [readAll_eq, fragments, List.map_nil, unwrapped, elementsOf, List.map_nil]
      simp
  next hempty =>
    have hne : f ≠ [] := fun hnil => hempty (List.isEmpty_iff.mpr hnil)
    obtain ⟨b, hb, hmarkup, hstyle⟩ := hf.exists_body hne
    refine ⟨hf.whole_body hne, b, hb, ?_, hstyle⟩
    have hread : Element.readAll b.markup = (topElements g f).map Element.tidy := by
      rw [readAll_eq, ← fragments_trimStart, hmarkup, ← readAll_eq, markupLines_eq,
        readAll_linesText_tidy (blank_pad g) (hf.closed_topElements hne)]
    rw [hread, unwrapped_tidy, unwrapped_topElements g f hne]

end

/-! ## Documents -/

/-- A text with a header and a body that can be read is a document. -/
theorem read?_eq_ok {source : String} {header : Header} {inside : List Char} {os : List Outline}
    (hheader : header? source.toList = some header)
    (hinside : blockInside? header.rest = some inside)
    (hbody : ∀ start, (Body.read? start inside).map Body.roots = .ok os) :
    Document.read? source = .ok ⟨header.kind, header.name, os⟩ := by
  rw [Document.read?, hheader]
  simp only
  rw [hinside]
  simp only
  -- Where the body starts is of interest to error messages only.
  generalize octetLength source.toList - _ = start
  have h := hbody start
  cases hb : Body.read? start inside with
  | error e => rw [hb] at h; cases h
  | ok b =>
      rw [hb] at h
      have hroots : b.roots = os := Except.ok.inj h
      show Except.ok (⟨header.kind, header.name, b.roots⟩ : Document) = _
      rw [hroots]

/-- A text without rules is read as the elements of its markup. -/
theorem read?_of_findStyle {source : String} {header : Header} {inside : List Char}
    (hheader : header? source.toList = some header)
    (hinside : blockInside? header.rest = some inside)
    (hstyle : findStyle false (pieces inside) = none) {es : List Element}
    (hes : unwrapped (Element.readAll (trim inside)) = es) :
    Document.read? source =
      .ok ⟨header.kind, header.name, outlines (Sheet.ofRules (rules [])) es⟩ := by
  apply read?_eq_ok hheader hinside
  intro start
  rw [Body.read?_of_findStyle start hstyle, ← hes]
  rfl

/-- A text without rules whose markup is a tag that closes itself is one element. -/
theorem read?_void {source : String} {header : Header} {inside name : List Char}
    {attrs : List Attr} {w : Widget} (hheader : header? source.toList = some header)
    (hinside : blockInside? header.rest = some inside)
    (hstyle : findStyle false (pieces inside) = none)
    (htag : tag? (trim inside) = some (⟨name, attrs, true⟩, []))
    (hwidget : widgetOf (Sheet.ofRules (rules [])) name attrs = w) :
    Document.read? source = .ok ⟨header.kind, header.name, [⟨w, []⟩]⟩ := by
  have hsingle : unwrapped [.void name attrs] = [.void name attrs] := by
    rw [unwrapped]
    simp
  have hread := (congrArg unwrapped (readAll_void htag)).trans hsingle
  rw [read?_of_findStyle hheader hinside hstyle hread, outlines, outline, outlines, hwidget]

/-- A document is the header of its text and what its body means. -/
theorem exists_of_read?_eq_ok {source : String} {d : Document}
    (hread : Document.read? source = .ok d) :
    ∃ header inside start b, header? source.toList = some header ∧
      blockInside? header.rest = some inside ∧ Body.read? start inside = .ok b ∧
      d = ⟨header.kind, header.name, b.roots⟩ := by
  unfold Document.read? at hread
  simp only at hread
  split at hread
  next => cases hread
  next header hheader =>
    split at hread
    next => cases hread
    next inside hinside =>
      cases hbody : Body.read? (octetLength source.toList - octetLength header.rest) inside with
      | error e => rw [hbody] at hread; cases hread
      | ok b =>
          rw [hbody] at hread
          cases hread
          exact ⟨header, inside, _, b, hheader, hinside, hbody, rfl⟩

/-- The kind and the name of a document are those of its header. -/
theorem header?_of_read?_eq_ok {source : String} {d : Document}
    (hread : Document.read? source = .ok d) :
    ∃ rest, header? source.toList = some ⟨d.kind, d.name, rest⟩ := by
  obtain ⟨header, _, _, _, hheader, _, _, rfl⟩ := exists_of_read?_eq_ok hread
  exact ⟨header.rest, hheader⟩

/-- A text is read as a document of the kind that its header says and of no other. -/
theorem kind?_of_read?_eq_ok {source : String} {d : Document}
    (hread : Document.read? source = .ok d) : kind? source = some d.kind := by
  obtain ⟨rest, hheader⟩ := header?_of_read?_eq_ok hread
  rw [kind?, hheader]
  rfl

/-- The body of a text ends at the brace behind it if it is whole. -/
theorem read?_of_body {source : String} {header : Header} {body : List Char} {os : List Outline}
    (hheader : header? source.toList = some header) {rest : List Char}
    (hrest : header.rest = body ++ '\x7d' :: rest) (hwhole : Whole body)
    (hbody : ∀ start, (Body.read? start body).map Body.roots = .ok os) :
    Document.read? source = .ok ⟨header.kind, header.name, os⟩ := by
  refine read?_eq_ok hheader ?_ hbody
  rw [hrest, hwhole.blockInside?]

end Tandem.Source
