import Tandem.Proofs.Source.Header
import Tandem.Proofs.Source.Written

/-!
# Where a page's header can be found

A reader prefers the header of a page, wherever in the text that stands
(`searchWord_page?_eq_none_iff`). Such a header is a keyword, blanks, a name and blanks before
a brace, so up to its brace it has word characters and blanks only. A character that is
neither of them divides a text: every header stands on one side of it
(`declaresPage_divided`), and none is made or broken by what is put behind it or in front of
it. So what stands in a text that was put together is read off its parts, as long as these
are divided.

* **parts without a brace** add nothing (`declaresPage_skip`), nor do blanks around a text
  (`declaresPage_trim`);
* **references** for characters keep it as it is (`declaresPage_escapeAttribute`), for they
  divide a text just as the characters do that they stand for.
-/

namespace Tandem.Source

open Text

/-! ## Places -/

/-- A word character stands right before what follows `before`, where `afterWord` says it of
what comes before that. -/
def endsWord (afterWord : Bool) (before : List Char) : Bool :=
  before.foldl (fun _ c => isWord c) afterWord

theorem endsWord_append (afterWord : Bool) (a b : List Char) :
    endsWord afterWord (a ++ b) = endsWord (endsWord afterWord a) b := List.foldl_append

theorem endsWord_concat (afterWord : Bool) (a : List Char) (c : Char) :
    endsWord afterWord (a ++ [c]) = isWord c := by
  rw [endsWord_append]
  rfl

/-- A search succeeds if it does so at some place that is not behind a word character. -/
theorem isSome_searchWord_iff {α : Type} {p : List Char → Option α} (hnil : p [] = none)
    (afterWord : Bool) (cs : List Char) :
    (searchWord p afterWord cs).isSome = true ↔
      ∃ before place, cs = before ++ place ∧ endsWord afterWord before = false ∧
        (p place).isSome = true := by
  induction cs generalizing afterWord with
  | nil =>
      constructor
      · intro h
        cases h
      · rintro ⟨before, place, hsplit, _, hplace⟩
        obtain ⟨rfl, rfl⟩ := List.append_eq_nil_iff.mp hsplit.symm
        rw [hnil] at hplace
        cases hplace
  | cons c cs ih =>
      rw [searchWord]
      split
      next a hfound =>
        refine ⟨fun _ => ⟨[], c :: cs, rfl, ?_⟩, fun _ => rfl⟩
        split at hfound
        next => cases hfound
        next hfree => exact ⟨Bool.eq_false_iff.mpr hfree, by rw [hfound]; rfl⟩
      next hmissed =>
        rw [ih]
        constructor
        · rintro ⟨before, place, rfl, hfree, hplace⟩
          exact ⟨c :: before, place, rfl, hfree, hplace⟩
        · rintro ⟨before, place, hsplit, hfree, hplace⟩
          cases before with
          | nil =>
              -- The search has just failed at this very place.
              have hhere : place = c :: cs := hsplit.symm
              have hopen : afterWord = false := hfree
              rw [hopen, if_neg Bool.false_ne_true, ← hhere] at hmissed
              rw [hmissed] at hplace
              cases hplace
          | cons d before =>
              obtain ⟨rfl, rfl⟩ := List.cons.inj hsplit
              exact ⟨before, place, rfl, hfree, hplace⟩

/-! ## Headers of pages -/

theorem isWord_of_isBlank {c : Char} (hc : isBlank c = true) : isWord c = false := by
  cases hword : isWord c with
  | false => rfl
  | true =>
      rw [isBlank_of_isWord hword] at hc
      cases hc

/-- A page's header up to its brace: the keyword, blanks, a name, and maybe blanks. -/
inductive PageFront : List Char → Prop
  | mk {c : Char} {blanks name blanks' : List Char} (hc : isBlank c = true)
      (hblanks : Blank blanks) (hne : name ≠ []) (hname : ∀ d ∈ name, isWord d = true)
      (hblanks' : Blank blanks') :
      PageFront (['p', 'a', 'g', 'e'] ++ c :: (blanks ++ (name ++ blanks')))

/-- The header of a page stands somewhere in the text, not behind a word character. -/
def DeclaresPage (cs : List Char) : Prop :=
  ∃ before front rest, cs = before ++ (front ++ '\x7b' :: rest) ∧ PageFront front ∧
    endsWord false before = false

/-- A header has word characters and blanks only, up to its brace. -/
theorem PageFront.class_of_mem {front : List Char} (h : PageFront front) {d : Char}
    (hd : d ∈ front) : isWord d = true ∨ isBlank d = true := by
  obtain ⟨hc, hblanks, _, hname, hblanks'⟩ := h
  have hkeyword : ∀ d ∈ ['p', 'a', 'g', 'e'], isWord d = true :=
    List.all_eq_true.mp (by decide)
  simp only [List.mem_append, List.mem_cons] at hd
  rcases hd with hd | rfl | hd | hd | hd
  · exact .inl (hkeyword d (by simpa using hd))
  · exact .inr hc
  · exact .inr (hblanks d hd)
  · exact .inl (hname d hd)
  · exact .inr (hblanks' d hd)

theorem keyword_page : Kind.page.keyword.toList = ['p', 'a', 'g', 'e'] := by decide

/-- A page's header is found exactly where one stands. -/
theorem isSome_page?_iff (cs : List Char) :
    (page? cs).isSome = true ↔ ∃ front rest, PageFront front ∧ cs = front ++ '\x7b' :: rest := by
  constructor
  · intro h
    rw [page?] at h
    split at h
    next name rest hnamed =>
      obtain ⟨c, blanks, blanks', hc, hblanks, hne, hname, hblanks', rfl⟩ :=
        named?_eq_append hnamed
      refine ⟨_, rest, .mk hc hblanks hne hname hblanks', ?_⟩
      rw [keyword_page]
      simp only [List.append_assoc, List.cons_append]
    next => cases h
  · rintro ⟨_, rest, ⟨hc, hblanks, hne, hname, hblanks'⟩, rfl⟩
    rename_i c blanks name blanks'
    have hstops : Stops isWord (blanks' ++ '\x7b' :: rest) := by
      cases blanks' with
      | nil => exact stops_cons (by decide)
      | cons d _ => exact stops_cons (isWord_of_isBlank (hblanks' d List.mem_cons_self))
    have hbrace : Stops isBlank ('\x7b' :: rest) := stops_cons (by decide)
    have hnamed := named?_append keyword_page hc hblanks hne hname hstops
    rw [hbrace.dropWhile_append hblanks'] at hnamed
    simp only [List.append_assoc, List.cons_append] at hnamed ⊢
    rw [page?, hnamed]
    rfl

theorem searchWord_page?_eq_none_iff (cs : List Char) :
    searchWord page? false cs = none ↔ ¬ DeclaresPage cs := by
  have hnil : page? [] = none := rfl
  rw [← Option.not_isSome_iff_eq_none, isSome_searchWord_iff hnil]
  refine not_congr ⟨?_, ?_⟩
  · rintro ⟨before, place, rfl, hfree, hplace⟩
    obtain ⟨front, rest, hfront, rfl⟩ := (isSome_page?_iff place).mp hplace
    exact ⟨before, front, rest, rfl, hfront, hfree⟩
  · rintro ⟨before, front, rest, rfl, hfront, hfree⟩
    exact ⟨before, _, rfl, hfree, (isSome_page?_iff _).mpr ⟨front, rest, hfront, rfl⟩⟩

instance (cs : List Char) : Decidable (DeclaresPage cs) :=
  decidable_of_iff (¬ searchWord page? false cs = none)
    (not_congr (searchWord_page?_eq_none_iff cs) |>.trans not_not)

/-! ## Divided texts -/

/-- A character that no header has before its brace. -/
def isDivider (c : Char) : Bool := !isWord c && !isBlank c

theorem isDivider_eq_true {c : Char} (hc : isDivider c = true) :
    isWord c = false ∧ isBlank c = false := by
  simpa [isDivider] using hc

theorem PageFront.not_mem {front : List Char} (h : PageFront front) {c : Char}
    (hc : isDivider c = true) : c ∉ front := by
  intro hmem
  obtain ⟨hword, hblank⟩ := isDivider_eq_true hc
  rcases h.class_of_mem hmem with hclass | hclass
  · rw [hword] at hclass
    cases hclass
  · rw [hblank] at hclass
    cases hclass

theorem DeclaresPage.append {a : List Char} (h : DeclaresPage a) (b : List Char) :
    DeclaresPage (a ++ b) := by
  obtain ⟨before, front, rest, rfl, hfront, hfree⟩ := h
  refine ⟨before, front, rest ++ b, ?_, hfront, hfree⟩
  simp only [List.append_assoc, List.cons_append]

theorem DeclaresPage.brace_mem {cs : List Char} (h : DeclaresPage cs) : '\x7b' ∈ cs := by
  obtain ⟨before, front, rest, rfl, _, _⟩ := h
  apply List.mem_append_right
  apply List.mem_append_right
  exact List.mem_cons_self

/-- A header ends in its brace, so it stands in the front part of a text or its brace stands
in the rest. -/
theorem append_eq_header {a b before front rest : List Char}
    (h : a ++ b = before ++ (front ++ '\x7b' :: rest)) :
    (∃ rest', a = before ++ (front ++ '\x7b' :: rest')) ∨
      ∃ inside, before ++ front = a ++ inside ∧ b = inside ++ '\x7b' :: rest := by
  rw [← List.append_assoc] at h
  rcases List.append_eq_append_iff.mp h with ⟨inside, hfront, hb⟩ | ⟨behind, ha, hrest⟩
  · exact .inr ⟨inside, hfront, hb⟩
  · cases behind with
    | nil =>
        rw [List.append_nil] at ha
        exact .inr ⟨[], by rw [List.append_nil, ha], hrest.symm⟩
    | cons c behind =>
        obtain ⟨rfl, rfl⟩ := List.cons.inj hrest
        exact .inl ⟨behind, by rw [ha, List.append_assoc]⟩

/-- A text is read from where it starts if what comes before it does not end in a word. -/
theorem DeclaresPage.behind {b : List Char} (h : DeclaresPage b) {a : List Char}
    (ha : endsWord false a = false) : DeclaresPage (a ++ b) := by
  obtain ⟨before, front, rest, rfl, hfront, hfree⟩ := h
  refine ⟨a ++ before, front, rest, (List.append_assoc _ _ _).symm, hfront, ?_⟩
  rw [endsWord_append, ha]
  exact hfree

/-- A text without a brace adds nothing behind another one. -/
theorem declaresPage_append_plain {b : List Char} (hb : '\x7b' ∉ b) (a : List Char) :
    DeclaresPage (a ++ b) ↔ DeclaresPage a := by
  refine ⟨?_, fun h => h.append b⟩
  rintro ⟨before, front, rest, h, hfront, hfree⟩
  rcases append_eq_header h with ⟨rest', rfl⟩ | ⟨inside, _, rfl⟩
  · exact ⟨before, front, rest', rfl, hfront, hfree⟩
  · exact absurd (List.mem_append_right inside List.mem_cons_self) hb

/-- What stands behind a divider is read as if it stood alone. -/
theorem declaresPage_append_divider {c : Char} (hc : isDivider c = true) (a b : List Char) :
    DeclaresPage (a ++ [c] ++ b) ↔ DeclaresPage (a ++ [c]) ∨ DeclaresPage b := by
  have hfree' : endsWord false (a ++ [c]) = false :=
    (endsWord_concat false a c).trans (isDivider_eq_true hc).1
  constructor
  · rintro ⟨before, front, rest, h, hfront, hfree⟩
    rcases append_eq_header h with ⟨rest', ha⟩ | ⟨inside, hinside, rfl⟩
    · exact .inl ⟨before, front, rest', ha, hfront, hfree⟩
    · right
      rcases List.append_eq_append_iff.mp hinside with ⟨u, hu, rfl⟩ | ⟨u, rfl, rfl⟩
      · -- The header would have the divider in it, unless it starts right behind that.
        rcases List.eq_nil_or_concat u with rfl | ⟨u, d, rfl⟩
        · exact ⟨[], inside, rest, rfl, hfront, rfl⟩
        · rw [List.concat_eq_append, ← List.append_assoc] at hu
          obtain ⟨_, hd⟩ := List.append_inj' hu rfl
          have hmem : c ∈ u.concat d ++ inside := by
            rw [List.cons.inj hd |>.1]
            simp
          exact absurd hmem (hfront.not_mem hc)
      · refine ⟨u, front, rest, (List.append_assoc _ _ _).symm ▸ rfl, hfront, ?_⟩
        rw [endsWord_append, hfree'] at hfree
        exact hfree
  · rintro (h | h)
    · exact h.append b
    · exact h.behind hfree'

/-- A character that no header has, not even as its brace. -/
def isBorder (c : Char) : Bool := isDivider c && c != '\x7b'

theorem isBorder_eq_true {c : Char} (h : isBorder c = true) :
    isDivider c = true ∧ c ≠ '\x7b' := by
  simpa [isBorder] using h

/-- Such a character belongs to neither part. -/
theorem declaresPage_divided {c : Char} (hc : isBorder c = true) (a b : List Char) :
    DeclaresPage (a ++ c :: b) ↔ DeclaresPage a ∨ DeclaresPage b := by
  obtain ⟨hdivides, hne⟩ := isBorder_eq_true hc
  have hplain : '\x7b' ∉ [c] := by
    intro hmem
    exact hne (List.mem_singleton.mp hmem).symm
  rw [← List.singleton_append, ← List.append_assoc, declaresPage_append_divider hdivides,
    declaresPage_append_plain hplain]

/-- A part without a brace adds nothing in front of a divider. -/
theorem declaresPage_skip {x : List Char} (hx : '\x7b' ∉ x) {c : Char}
    (hc : isBorder c = true) (rest : List Char) :
    DeclaresPage (x ++ c :: rest) ↔ DeclaresPage rest := by
  rw [declaresPage_divided hc]
  constructor
  · rintro (h | h)
    · exact absurd h.brace_mem hx
    · exact h
  · exact .inr

theorem declaresPage_cons {c : Char} (hc : isWord c = false) (cs : List Char) :
    DeclaresPage (c :: cs) ↔ DeclaresPage cs := by
  constructor
  · rintro ⟨before, front, rest, h, hfront, hfree⟩
    cases before with
    | nil =>
        -- A header starts with a letter.
        obtain ⟨_, _, _, _, _⟩ := hfront
        obtain ⟨rfl, _⟩ := List.cons.inj h
        cases hc
    | cons d before =>
        obtain ⟨rfl, rfl⟩ := List.cons.inj h
        have hopen : endsWord (isWord c) before = false := hfree
        rw [hc] at hopen
        exact ⟨before, front, rest, rfl, hfront, hopen⟩
  · intro h
    exact h.behind (a := [c]) hc

theorem declaresPage_blanks {blanks : List Char} (hblanks : Blank blanks) (cs : List Char) :
    DeclaresPage (blanks ++ cs) ↔ DeclaresPage cs := by
  induction blanks with
  | nil => rfl
  | cons c blanks ih =>
      obtain ⟨hc, hrest⟩ := List.forall_mem_cons.mp hblanks
      rw [List.cons_append, declaresPage_cons (isWord_of_isBlank hc)]
      exact ih hrest

theorem brace_not_mem_of_blank {cs : List Char} (hcs : Blank cs) : '\x7b' ∉ cs :=
  hcs.not_mem (by decide)

theorem not_declaresPage_of_blank {cs : List Char} (hcs : Blank cs) : ¬ DeclaresPage cs := by
  intro h
  exact brace_not_mem_of_blank hcs h.brace_mem

/-- Blanks around a text add nothing. -/
theorem declaresPage_surrounded {a b : List Char} (ha : Blank a) (hb : Blank b)
    (cs : List Char) : DeclaresPage (a ++ (cs ++ b)) ↔ DeclaresPage cs := by
  rw [declaresPage_blanks ha, declaresPage_append_plain (brace_not_mem_of_blank hb)]

theorem declaresPage_trim (cs : List Char) : DeclaresPage (trim cs) ↔ DeclaresPage cs := by
  obtain ⟨a, b, hcs, ha, hb⟩ := exists_eq_trim cs
  rw [← declaresPage_surrounded ha hb, ← hcs]

/-! ## References -/

theorem isDivider_of_mem_references {r : List Char} {c : Char} (h : (r, c) ∈ references) :
    isDivider c = true := by
  have hall : ∀ p ∈ references, isDivider p.2 = true := List.all_eq_true.mp (by decide)
  exact hall (r, c) h

/-- A reference divides a text as the character does that it stands for. -/
theorem declaresPage_reference {r : List Char} {c : Char} (h : (r, c) ∈ references)
    (x rest : List Char) :
    DeclaresPage (x ++ '&' :: (r ++ rest)) ↔ DeclaresPage x ∨ DeclaresPage rest := by
  obtain ⟨front, rfl⟩ := exists_concat_of_mem_references h
  have hfront : '\x7b' ∉ front := by
    intro hmem
    rcases mem_reference h (List.mem_append_left _ hmem) with hclass | hclass | hclass
    · cases hclass
    · cases hclass
    · cases hclass
  rw [declaresPage_divided (by decide), List.append_assoc, List.singleton_append,
    declaresPage_skip hfront (by decide)]

/-- Escaping an attribute value neither hides a header nor makes one. -/
theorem declaresPage_escapeAttribute (cs : List Char) :
    DeclaresPage (escapeAttribute cs) ↔ DeclaresPage cs := by
  have hbehind : ∀ x, DeclaresPage (x ++ escapeAttribute cs) ↔ DeclaresPage (x ++ cs) := by
    induction cs with
    | nil =>
        intro x
        rfl
    | cons c cs ih =>
        intro x
        rw [escapeAttribute, List.flatMap_cons]
        rcases isEscape_attributeReference c with ⟨r, hr, heq⟩ | ⟨heq, _⟩
        · have hborder : isBorder c = true := by
            -- Braces are left as they are, so this is none.
            have hbrace : c ≠ '\x7b' := by
              rintro rfl
              cases heq
            simpa [isBorder, isDivider_of_mem_references hr] using hbrace
          rw [heq, List.cons_append, declaresPage_reference hr, declaresPage_divided hborder]
          exact or_congr_right (ih [])
        · have hrest := ih (x ++ [c])
          rw [List.append_assoc, List.append_assoc] at hrest
          rw [heq]
          exact hrest
  exact hbehind []

/-! ## Written headers -/

/-- The header of a component has none of a page. -/
theorem declaresPage_headerLine {name : String} (hname : isDocumentName name = true)
    (body : List Char) :
    DeclaresPage (headerLine .component name ++ (body ++ '\x7d' :: ['\n'])) ↔
      DeclaresPage body := by
  have hword := (isDocumentName_eq_true hname).2
  have hfront : '\x7b' ∉ ['c', 'o', 'm', 'p', 'o', 'n', 'e', 'n', 't'] ++ ' ' :: name.toList := by
    intro hmem
    rcases List.mem_append.mp hmem with hmem | hmem
    · revert hmem
      decide
    · rcases List.mem_cons.mp hmem with hspace | hmem
      · cases hspace
      · cases hword _ hmem
  have htext : headerLine .component name ++ (body ++ '\x7d' :: ['\n']) =
      (['c', 'o', 'm', 'p', 'o', 'n', 'e', 'n', 't'] ++ ' ' :: name.toList) ++ '(' ::
        ')' :: ' ' :: '\x7b' :: (body ++ '\x7d' :: ['\n']) := by
    rw [headerLine_component]
    simp only [List.append_assoc, List.cons_append]
  rw [htext, declaresPage_skip hfront (by decide), declaresPage_cons (by decide),
    declaresPage_cons (by decide), declaresPage_cons (by decide),
    declaresPage_divided (by decide), or_iff_left (not_declaresPage_of_blank blank_break)]

theorem kind?_of_declaresPage {source : String} (h : DeclaresPage source.toList) :
    kind? source = some .page := by
  rw [kind?, header?]
  split
  next => rfl
  next hnone => exact absurd h ((searchWord_page?_eq_none_iff _).mp hnone)

/-- The header of a written text is found if no page's header comes before a component's. -/
theorem header?_of_plain {name : String} (hname : isDocumentName name = true) {kind : Kind}
    {rest : List Char} (hplain : kind = .page ∨ ¬ DeclaresPage (headerLine kind name ++ rest)) :
    header? (headerLine kind name ++ rest) = some ⟨kind, name, rest⟩ := by
  cases kind with
  | page => exact header?_page hname rest
  | component =>
      apply header?_component hname
      apply (searchWord_page?_eq_none_iff _).mpr
      exact hplain.resolve_left Kind.noConfusion

/-- So is the name. -/
theorem name?_of_plain {name : String} (hname : isDocumentName name = true) {kind : Kind}
    {rest : List Char} (hplain : kind = .page ∨ ¬ DeclaresPage (headerLine kind name ++ rest)) :
    name? (String.ofList (headerLine kind name ++ rest)) = some name := by
  rw [name?, String.toList_ofList]
  cases kind with
  | page =>
      rw [searchWord_front (page?_headerLine hname rest) (headerLine_append_ne_nil _ _ _)]
      simp
  | component =>
      have hnone := (searchWord_page?_eq_none_iff _).mpr (hplain.resolve_left Kind.noConfusion)
      rw [hnone]
      simp only
      rw [searchWord_front (componentName?_headerLine hname rest)
        (headerLine_append_ne_nil _ _ _)]
      simp

theorem isReadable_iff {source : String} :
    isReadable source = true ↔ ∃ kind, kind? source = some kind := by
  rw [isReadable, kind?]
  cases header? source.toList with
  | none => simp
  | some h => simp

/-- A text that declares a name can be read, be it as the page of another header. -/
theorem isReadable_headerLine {name : String} (hname : isDocumentName name = true) (kind : Kind)
    (rest : List Char) : isReadable (String.ofList (headerLine kind name ++ rest)) = true := by
  by_cases hplain : kind = .page ∨ ¬ DeclaresPage (headerLine kind name ++ rest)
  · rw [isReadable, String.toList_ofList, header?_of_plain hname hplain]
    rfl
  · obtain ⟨_, hdeclares⟩ := not_or.mp hplain
    rw [not_not, ← String.toList_ofList (l := headerLine _ _ ++ _)] at hdeclares
    exact isReadable_iff.mpr ⟨.page, kind?_of_declaresPage hdeclares⟩

/-- A header in front of a page does not matter, and a component's own is none of a page. -/
theorem plain_headerLine_iff {name : String} (hname : isDocumentName name = true) {kind : Kind}
    {body : List Char} :
    (kind = .page ∨ ¬ DeclaresPage (headerLine kind name ++ (body ++ '\x7d' :: ['\n']))) ↔
      (kind = .page ∨ ¬ DeclaresPage body) := by
  cases kind with
  | page => exact iff_of_true (.inl rfl) (.inl rfl)
  | component => rw [declaresPage_headerLine hname]

/-- The header of a written text is found if its body has no page's header, unless it is a
page itself. -/
theorem header?_headerLine {name : String} (hname : isDocumentName name = true) {kind : Kind}
    {body : List Char} (h : kind = .page ∨ ¬ DeclaresPage body) :
    header? (headerLine kind name ++ (body ++ '\x7d' :: ['\n'])) =
      some ⟨kind, name, body ++ '\x7d' :: ['\n']⟩ :=
  header?_of_plain hname ((plain_headerLine_iff hname).mpr h)

/-- A written text keeps its kind as long as its body has no page's header, unless it is a
page itself. -/
theorem kind?_headerLine_iff {name : String} (hname : isDocumentName name = true) (kind : Kind)
    (body : List Char) :
    kind? (String.ofList (headerLine kind name ++ (body ++ '\x7d' :: ['\n']))) = some kind ↔
      (kind = .page ∨ ¬ DeclaresPage body) := by
  constructor
  · intro hkind
    cases kind with
    | page => exact .inl rfl
    | component =>
        refine .inr fun h => ?_
        rw [← declaresPage_headerLine hname, ← String.toList_ofList (l := headerLine _ _ ++ _)] at h
        rw [kind?_of_declaresPage h] at hkind
        cases hkind
  · intro h
    rw [kind?, String.toList_ofList, header?_headerLine hname h]
    rfl

/-- It keeps its name under the same condition. -/
theorem header_headerLine_iff {name : String} (hname : isDocumentName name = true) (kind : Kind)
    (body : List Char) :
    (kind? (String.ofList (headerLine kind name ++ (body ++ '\x7d' :: ['\n']))) = some kind ∧
      name? (String.ofList (headerLine kind name ++ (body ++ '\x7d' :: ['\n']))) = some name) ↔
        (kind = .page ∨ ¬ DeclaresPage body) := by
  rw [kind?_headerLine_iff hname]
  exact and_iff_left_of_imp fun h => name?_of_plain hname ((plain_headerLine_iff hname).mpr h)

end Tandem.Source
