import Mathlib.Data.List.Basic
import Tandem.Markup.Element
import Tandem.Proofs.Markup.Tag

/-!
# Written elements are read back

An element is closed (`Element.Closed`) if its name and attributes are, if its text has no
character with a meaning in markup, and if it holds something when it is written around
others. The lines of closed elements are read as those elements, tidied up
(`readAll_linesText_tidy`). The closing tag of an element is found behind whatever elements
stand in it (`balanced_linesAll`), as every element of the same name that is opened there is
closed there. For that it does not matter how its tags are spaced: they are texts that are read
as tags (`ReadsTag`), and closing tags with any gap in front of their end (`closingText`).

Readable elements are tidy already, so they are read as they are (`readAll_linesText`).
-/

namespace Tandem.Markup

open Text

/-- Lines, each with a line break in front of it. -/
def linesText (lines : List (List Char)) : List Char := lines.flatMap ('\n' :: ·)

theorem linesText_cons (l : List Char) (ls : List (List Char)) :
    linesText (l :: ls) = '\n' :: (l ++ linesText ls) := by
  simp [linesText]

theorem linesText_append (ls ms : List (List Char)) :
    linesText (ls ++ ms) = linesText ls ++ linesText ms := List.flatMap_append

/-- The text has no angle bracket and no brace. -/
def Unmarked (cs : List Char) : Prop := ∀ c ∈ cs, c ≠ '<' ∧ c ≠ '\x7b' ∧ c ≠ '\x7d'

theorem Unmarked.append {a b : List Char} (ha : Unmarked a) (hb : Unmarked b) :
    Unmarked (a ++ b) := by
  intro c hc
  rcases List.mem_append.mp hc with h | h
  · exact ha c h
  · exact hb c h

theorem Unmarked.trim {cs : List Char} (h : Unmarked cs) : Unmarked (trim cs) :=
  fun c hc => h c (mem_of_mem_trim hc)

theorem unmarked_of_blank {cs : List Char} (h : Blank cs) : Unmarked cs := by
  intro c hc
  have hblank := h c hc
  refine ⟨?_, ?_, ?_⟩ <;>
  · rintro rfl
    exact absurd hblank (by decide)

/-- Elements all of whose parts end where they are meant to. -/
inductive Element.Closed : Element → Prop
  | void (name : List Char) (attrs : List Attr) (hname : isTagName name = true)
      (hattrs : ∀ a ∈ attrs, a.Closed) : Closed (.void name attrs)
  | text (name : List Char) (attrs : List Attr) (inner : List Char) (hname : isTagName name = true)
      (hattrs : ∀ a ∈ attrs, a.Closed) (hinner : Unmarked inner) : Closed (.text name attrs inner)
  | nest (name : List Char) (attrs : List Attr) (children : List Element)
      (hname : isTagName name = true) (hattrs : ∀ a ∈ attrs, a.Closed) (hne : children ≠ [])
      (hchildren : ∀ e ∈ children, Closed e) : Closed (.nest name attrs children)

/-! ## Closing tags -/

/-- A closing tag with a gap in front of its end. -/
def closingText (name gap : List Char) : List Char := '<' :: '/' :: (name ++ (gap ++ ['>']))

theorem closeText_eq (name : List Char) : closeText name = closingText name [] := rfl

/-- A name in front of what does not go on with a name is another one, or the same, or goes
on. -/
theorem isPrefixOf?_name {name n tail : List Char} (hname : ∀ c ∈ name, isTagNameChar c = true)
    (hn : ∀ c ∈ n, isTagNameChar c = true) (htail : Stops isTagNameChar tail) :
    name ≠ n ∧ name.isPrefixOf? (n ++ tail) = none ∨
      name = n ∧ name.isPrefixOf? (n ++ tail) = some tail ∨
      name ≠ n ∧ ∃ c r, isTagNameChar c = true ∧ name.isPrefixOf? (n ++ tail) = some (c :: r) := by
  induction name generalizing n with
  | nil =>
      cases n with
      | nil => exact .inr (.inl ⟨rfl, rfl⟩)
      | cons d n => exact .inr (.inr ⟨by simp, d, n ++ tail, hn d List.mem_cons_self, rfl⟩)
  | cons c name ih =>
      have hrest := ih (n := n.tail) (fun d hd => hname d (List.mem_cons_of_mem _ hd))
        (fun d hd => hn d (List.mem_of_mem_tail hd))
      cases n with
      | nil =>
          left
          refine ⟨by simp, ?_⟩
          cases tail with
          | nil => rfl
          | cons d tail =>
              have hne : c ≠ d := ne_of_class (hname c List.mem_cons_self) (htail d rfl)
              simp [List.isPrefixOf?, hne]
      | cons d n =>
          by_cases hcd : c = d
          · subst hcd
            simpa [List.isPrefixOf?] using hrest
          · left
            exact ⟨by simp [hcd], by simp [List.isPrefixOf?, hcd]⟩

theorem closingTag?_closingText {name n gap : List Char} (hname : isTagName name = true)
    (hn : isTagName n = true) (hgap : ∀ c ∈ gap, isSpacing c = true) (rest : List Char) :
    closingTag? name (closingText n gap ++ rest) = if name = n then some rest else none := by
  have hsplit : closingText n gap ++ rest = '<' :: '/' :: (n ++ (gap ++ '>' :: rest)) := by
    simp [closingText]
  have hprefix : ('<' :: '/' :: name).isPrefixOf? ('<' :: '/' :: (n ++ (gap ++ '>' :: rest))) =
      name.isPrefixOf? (n ++ (gap ++ '>' :: rest)) := by simp [List.isPrefixOf?]
  have htail : Stops isTagNameChar (gap ++ '>' :: rest) :=
    stops_append_of_spacing (by decide) hgap (stops_cons (by decide))
  rw [closingTag?, hsplit, hprefix]
  rcases isPrefixOf?_name (fun c => isTagNameChar_of_mem hname) (fun c => isTagNameChar_of_mem hn)
    htail with ⟨hne, h⟩ | ⟨heq, h⟩ | ⟨hne, c, r, hc, h⟩
  · rw [h, if_neg hne]
  · have hend : Stops isSpacing ('>' :: rest) := stops_cons (by decide)
    rw [h, if_pos heq]
    simp only
    rw [hend.dropWhile_append hgap]
    rfl
  · rw [h, if_neg hne]
    simp only
    have hspacing : isSpacing c = false := isSpacing_of_class hc (by decide)
    rw [List.dropWhile_cons_of_neg (by simp [hspacing])]
    split
    next heq =>
      cases heq
      exact absurd hc (by decide)
    next => rfl

/-! ## Where a tag starts -/

theorem startsElement_of_ne {c : Char} (hc : c ≠ '<') (rest : List Char) :
    startsElement (c :: rest) = false := by
  rw [startsElement.eq_def]
  split
  next heq =>
    cases heq
    exact absurd rfl hc
  next => rfl

theorem tag?_eq_none {cs : List Char} (h : startsElement cs = false) : tag? cs = none := by
  have hname : tagName? cs = none := by
    rw [startsElement.eq_def] at h
    rw [tagName?.eq_def]
    split
    next => simp only at h; rw [h]; rfl
    next => rfl
  simp [tag?, hname]

theorem startsElement_of_tag? {cs after : List Char} {t : Tag} (h : tag? cs = some (t, after)) :
    startsElement cs = true := by
  cases hstart : startsElement cs with
  | true => rfl
  | false => rw [tag?_eq_none hstart] at h; cases h

theorem closingTag?_of_startsElement (name : List Char) {cs : List Char}
    (h : startsElement cs = true) : closingTag? name cs = none := by
  rw [startsElement.eq_def] at h
  split at h
  next c rest =>
    have hne : ¬('/' = c) := fun heq => ne_of_class h (d := '/') (by decide) heq.symm
    simp [closingTag?, List.isPrefixOf?, hne]
  next => cases h

theorem closingTag?_of_ne (name : List Char) {c : Char} (hc : c ≠ '<') (rest : List Char) :
    closingTag? name (c :: rest) = none := by
  have hne : ¬('<' = c) := fun h => hc h.symm
  simp [closingTag?, List.isPrefixOf?, hne]

/-- The text is read as a tag, whatever follows it. -/
def ReadsTag (t : Tag) (cs : List Char) : Prop := ∀ rest, tag? (cs ++ rest) = some (t, rest)

theorem openText_eq_cons (n : List Char) (attrs : List Attr) (rest : List Char) :
    openText n attrs ++ rest = '<' :: (n ++ attrsText attrs ++ rest) := rfl

section

variable {n : List Char} {attrs : List Attr}

theorem readsTag_void (hn : isTagName n = true) (hattrs : ∀ a ∈ attrs, a.Closed) :
    ReadsTag ⟨n, attrs.map Attr.tidy, true⟩ (openText n attrs ++ [' ', '/', '>']) := by
  intro rest
  rw [List.append_assoc]
  exact tag?_void hn hattrs rest

theorem readsTag_open (hn : isTagName n = true) (hattrs : ∀ a ∈ attrs, a.Closed) :
    ReadsTag ⟨n, attrs.map Attr.tidy, false⟩ (openText n attrs ++ ['>']) := by
  intro rest
  rw [← List.append_cons]
  exact tag?_open hn hattrs rest

theorem startsElement_openText (hn : isTagName n = true) (attrs : List Attr) (rest : List Char) :
    startsElement (openText n attrs ++ rest) = true := by
  obtain ⟨c, cs, rfl, hc, _⟩ := isTagName_eq_true hn
  exact hc

end

/-! ## Finding the closing tag -/

section

variable {name : List Char}

theorem findClosing?_cons (depth : Nat) (c : Char) (rest : List Char) :
    findClosing? name depth (c :: rest) =
      match closingTag? name (c :: rest) with
      | some after =>
        match depth with
        | 0 => some (c :: rest, after)
        | d + 1 => findClosing? name d after
      | none =>
        match tag? (c :: rest) with
        | some (t, after) =>
          findClosing? name (if t.name = name ∧ ¬t.selfClosing then depth + 1 else depth) after
        | none => findClosing? name depth rest := by
  rw [findClosing?]
  split
  next h => cases depth <;> simp only [h]
  next h =>
    rw [h]
    simp only
    split
    next ht => rw [ht]
    next ht => rw [ht]

theorem findClosing?_unmarked (name : List Char) (depth : Nat) {cs : List Char}
    (hcs : ∀ c ∈ cs, c ≠ '<') (rest : List Char) :
    findClosing? name depth (cs ++ rest) = findClosing? name depth rest := by
  induction cs with
  | nil => rfl
  | cons c cs ih =>
      have hc := hcs c List.mem_cons_self
      rw [List.cons_append, findClosing?_cons, closingTag?_of_ne name hc,
        tag?_eq_none (startsElement_of_ne hc _)]
      exact ih fun d hd => hcs d (List.mem_cons_of_mem _ hd)

/-- A tag is stepped over whole. Behind an opening tag of the same name one more closing tag
is passed over. -/
theorem findClosing?_tag (depth : Nat) {cs after : List Char} {t : Tag}
    (h : tag? cs = some (t, after)) :
    findClosing? name depth cs =
      findClosing? name (if t.name = name ∧ ¬t.selfClosing then depth + 1 else depth) after := by
  have hclosing := closingTag?_of_startsElement name (startsElement_of_tag? h)
  cases cs with
  | nil => cases h
  | cons c cs => rw [findClosing?_cons, hclosing, h]

/-- The closing tag is found, or one less is passed over. -/
theorem findClosing?_closingText (depth : Nat) (hname : isTagName name = true) {n gap : List Char}
    (hn : isTagName n = true) (hgap : ∀ c ∈ gap, isSpacing c = true) (rest : List Char) :
    findClosing? name depth (closingText n gap ++ rest) =
      if name = n then
        match depth with
        | 0 => some (closingText n gap ++ rest, rest)
        | d + 1 => findClosing? name d rest
      else findClosing? name depth rest := by
  have hclosing := closingTag?_closingText hname hn hgap rest
  have hcons : closingText n gap ++ rest = '<' :: ('/' :: (n ++ (gap ++ ['>'])) ++ rest) := by
    simp [closingText]
  have htag : tag? ('<' :: ('/' :: (n ++ (gap ++ ['>'])) ++ rest)) = none :=
    tag?_eq_none (by decide : '/'.isAlpha = false)
  rw [hcons] at hclosing ⊢
  rw [findClosing?_cons, hclosing]
  by_cases heq : name = n
  · rw [if_pos heq, if_pos heq]
  · rw [if_neg heq, if_neg heq]
    simp only
    rw [htag]
    -- A closing tag of another name is passed over character by character.
    refine findClosing?_unmarked name depth (fun c hc => ?_) rest
    simp only [List.mem_cons, List.mem_append, List.not_mem_nil, or_false] at hc
    rcases hc with rfl | hc | hc | rfl
    · decide
    · exact ne_of_class (isTagNameChar_of_mem hn hc) (by decide)
    · exact ne_of_class (hgap c hc) (by decide)
    · decide

/-! ## Lines of elements -/

variable {pad : Nat → List Char}

theorem linesText_void (level : Nat) (n : List Char) (attrs : List Attr) :
    linesText (Element.lines pad level (.void n attrs)) =
      '\n' :: (pad level ++ (openText n attrs ++ [' ', '/', '>'])) := by
  simp [Element.lines, linesText]

theorem linesText_text (level : Nat) (n : List Char) (attrs : List Attr) (inner : List Char) :
    linesText (Element.lines pad level (.text n attrs inner)) =
      '\n' :: (pad level ++ (openText n attrs ++ '>' :: (inner ++ closeText n))) := by
  simp [Element.lines, linesText]

theorem linesText_nest (level : Nat) (n : List Char) (attrs : List Attr) (es : List Element) :
    linesText (Element.lines pad level (.nest n attrs es)) =
      '\n' :: (pad level ++ (openText n attrs ++ '>' ::
        (linesText (Element.linesAll pad (level + 1) es) ++
          '\n' :: (pad level ++ closeText n)))) := by
  simp [Element.lines, linesText]

theorem linesText_linesAll_cons (level : Nat) (e : Element) (es : List Element) :
    linesText (Element.linesAll pad level (e :: es)) =
      linesText (e.lines pad level) ++ linesText (Element.linesAll pad level es) := by
  rw [Element.linesAll, linesText_append]

/-- What is passed over in one element is passed over in elements one after the other. -/
theorem forall_linesAll {P : List Char → Prop} (level : Nat) (hnil : P [])
    (happend : ∀ a b, P a → P b → P (a ++ b)) {es : List Element}
    (h : ∀ e ∈ es, P (linesText (e.lines pad level))) :
    P (linesText (Element.linesAll pad level es)) := by
  induction es with
  | nil => exact hnil
  | cons e es ih =>
      rw [linesText_linesAll_cons]
      exact happend _ _ (h e List.mem_cons_self) (ih fun d hd => h d (List.mem_cons_of_mem _ hd))

theorem blank_indent (hpad : ∀ l, Blank (pad l)) (level : Nat) : Blank ('\n' :: pad level) :=
  (hpad level).cons (by decide)

theorem ne_of_unmarked {cs : List Char} (h : Unmarked cs) : ∀ c ∈ cs, c ≠ '<' :=
  fun c hc => (h c hc).1

/-- What holds of unmarked text, of tags, of tags around what it holds of, and of texts one
after the other, holds of the lines of a closed element. -/
theorem Element.Closed.lines_induction {P : List Char → Prop} (hpad : ∀ l, Blank (pad l))
    (hunmarked : ∀ {cs}, Unmarked cs → P cs) (happend : ∀ {a b}, P a → P b → P (a ++ b))
    (hvoid : ∀ {n attrs}, isTagName n = true → (∀ a ∈ attrs, a.Closed) →
      P (openText n attrs ++ [' ', '/', '>']))
    (htags : ∀ {n attrs inner}, isTagName n = true → (∀ a ∈ attrs, a.Closed) → P inner →
      P (openText n attrs ++ '>' :: (inner ++ closeText n)))
    {e : Element} (he : e.Closed) (level : Nat) : P (linesText (e.lines pad level)) := by
  have hindent : ∀ level, P ('\n' :: pad level) := fun level =>
    hunmarked (unmarked_of_blank (blank_indent hpad level))
  induction he generalizing level with
  | void n attrs hn hattrs =>
      rw [linesText_void, ← List.cons_append]
      exact happend (hindent level) (hvoid hn hattrs)
  | text n attrs inner hn hattrs hinner =>
      rw [linesText_text, ← List.cons_append]
      exact happend (hindent level) (htags hn hattrs (hunmarked hinner))
  | nest n attrs children hn hattrs _ _ ih =>
      have hsplit : linesText (Element.linesAll pad (level + 1) children) ++
          '\n' :: (pad level ++ closeText n) =
          (linesText (Element.linesAll pad (level + 1) children) ++ '\n' :: pad level) ++
            closeText n := by simp
      have hnil : P [] := hunmarked fun c hc => by cases hc
      have hchildren := forall_linesAll (level + 1) hnil (fun _ _ => happend)
        fun e he => ih e he (level + 1)
      rw [linesText_nest, ← List.cons_append, hsplit]
      exact happend (hindent level) (htags hn hattrs (happend hchildren (hindent level)))

/-- The search for a closing tag passes over a text. -/
def Balanced (name cs : List Char) : Prop :=
  ∀ depth rest, findClosing? name depth (cs ++ rest) = findClosing? name depth rest

theorem Balanced.append {name a b : List Char} (ha : Balanced name a) (hb : Balanced name b) :
    Balanced name (a ++ b) := by
  intro depth rest
  rw [List.append_assoc, ha, hb]

theorem Unmarked.balanced {cs : List Char} (h : Unmarked cs) (name : List Char) :
    Balanced name cs := fun depth => findClosing?_unmarked name depth (ne_of_unmarked h)

theorem ReadsTag.balanced {t : Tag} {cs : List Char} (h : ReadsTag t cs)
    (hself : t.selfClosing = true) (name : List Char) : Balanced name cs := by
  intro depth rest
  rw [findClosing?_tag depth (h rest), if_neg fun hopen => hopen.2 hself]

/-- Tags around a text that is passed over are passed over with it: if they have the name
that is searched, the one more closing tag that is passed over is their own. -/
theorem Balanced.tags {name : List Char} (hname : isTagName name = true) {t : Tag}
    {head gap inner : List Char} (hhead : ReadsTag t head) (hopen : t.selfClosing = false)
    (ht : isTagName t.name = true) (hgap : ∀ c ∈ gap, isSpacing c = true)
    (hinner : Balanced name inner) :
    Balanced name (head ++ (inner ++ closingText t.name gap)) := by
  intro depth rest
  have hself : ¬t.selfClosing = true := by rw [hopen]; exact Bool.false_ne_true
  rw [List.append_assoc, List.append_assoc, findClosing?_tag depth (hhead _), hinner,
    findClosing?_closingText _ hname ht hgap]
  by_cases heq : t.name = name
  · rw [if_pos heq.symm, if_pos ⟨heq, hself⟩]
  · rw [if_neg (Ne.symm heq), if_neg fun h => heq h.1]

/-- Behind a text that is passed over stands the closing tag that is found. -/
theorem Balanced.findClosing?_eq {name inner gap : List Char} (hinner : Balanced name inner)
    (hname : isTagName name = true) (hgap : ∀ c ∈ gap, isSpacing c = true) (rest : List Char) :
    findClosing? name 0 (inner ++ (closingText name gap ++ rest)) =
      some (closingText name gap ++ rest, rest) := by
  rw [hinner, findClosing?_closingText 0 hname hname hgap, if_pos rfl]

/-- The search passes over a closed element: what it opens it closes. -/
theorem Element.Closed.balanced {name : List Char} (hname : isTagName name = true)
    (hpad : ∀ l, Blank (pad l)) {e : Element} (he : e.Closed) (level : Nat) :
    Balanced name (linesText (e.lines pad level)) := by
  refine he.lines_induction hpad (fun h => h.balanced name) Balanced.append
    (fun hn hattrs => (readsTag_void hn hattrs).balanced rfl name) ?_ level
  intro n attrs inner hn hattrs hinner
  rw [List.append_cons, closeText_eq]
  exact Balanced.tags hname (readsTag_open hn hattrs) rfl hn (List.forall_mem_nil _) hinner

theorem balanced_linesAll {name : List Char} (hname : isTagName name = true)
    (hpad : ∀ l, Blank (pad l)) {es : List Element} (hes : ∀ e ∈ es, e.Closed) (level : Nat) :
    Balanced name (linesText (Element.linesAll pad level es)) :=
  forall_linesAll level (fun _ _ => rfl) (fun _ _ => Balanced.append)
    fun e he => (hes e he).balanced hname hpad level

/-! ## Elements -/

theorem fragments_cons (c : Char) (rest : List Char) :
    fragments (c :: rest) =
      if startsElement (c :: rest) then
        match tag? (c :: rest) with
        | none => []
        | some (t, after) =>
          if t.selfClosing then ⟨t.name, t.attrs, none⟩ :: fragments after
          else
            match findClosing? t.name 0 after with
            | none => [⟨t.name, t.attrs, some (trim after)⟩]
            | some (closing, next) =>
              ⟨t.name, t.attrs, some (trim (upTo after closing))⟩ :: fragments next
      else fragments rest := by
  rw [fragments]
  split
  · split
    next h => rw [h]
    next h =>
      rw [h]
      simp only
      split
      · rfl
      · split
        next hf => rw [hf]
        next hf => rw [hf]
  · rfl

theorem fragments_unmarked {cs : List Char} (hcs : ∀ c ∈ cs, c ≠ '<') (rest : List Char) :
    fragments (cs ++ rest) = fragments rest := by
  induction cs with
  | nil => rfl
  | cons c cs ih =>
      rw [List.cons_append, fragments_cons, startsElement_of_ne (hcs c List.mem_cons_self)]
      exact ih fun d hd => hcs d (List.mem_cons_of_mem _ hd)

theorem fragments_eq_nil {cs : List Char} (hcs : ∀ c ∈ cs, c ≠ '<') : fragments cs = [] := by
  have h := fragments_unmarked hcs []
  rwa [List.append_nil, fragments] at h

/-- The element of the tag that stands here is read, and what is behind it. -/
theorem fragments_of_tag? {cs after : List Char} {t : Tag} (h : tag? cs = some (t, after)) :
    fragments cs =
      if t.selfClosing then ⟨t.name, t.attrs, none⟩ :: fragments after
      else
        match findClosing? t.name 0 after with
        | none => [⟨t.name, t.attrs, some (trim after)⟩]
        | some (closing, next) =>
          ⟨t.name, t.attrs, some (trim (upTo after closing))⟩ :: fragments next := by
  have hstart := startsElement_of_tag? h
  cases cs with
  | nil => cases hstart
  | cons c cs => rw [fragments_cons, if_pos hstart, h]

/-- An element ends at its own closing tag if the search passes over its inner markup. -/
theorem fragments_tags {t : Tag} {head gap inner : List Char} (hhead : ReadsTag t head)
    (hopen : t.selfClosing = false) (ht : isTagName t.name = true)
    (hgap : ∀ c ∈ gap, isSpacing c = true) (hinner : Balanced t.name inner) (rest : List Char) :
    fragments (head ++ (inner ++ (closingText t.name gap ++ rest))) =
      ⟨t.name, t.attrs, some (trim inner)⟩ :: fragments rest := by
  have hfind := hinner.findClosing?_eq ht hgap rest
  rw [fragments_of_tag? (hhead _)]
  simp only [hopen, Bool.false_eq_true, if_false, hfind, upTo_append]

/-- The unread form of an element that stands at a level of nesting. -/
def Element.fragment (pad : Nat → List Char) (level : Nat) : Element → Fragment
  | .void name attrs => ⟨name, attrs.map Attr.tidy, none⟩
  | .text name attrs inner => ⟨name, attrs.map Attr.tidy, some (trim inner)⟩
  | .nest name attrs children =>
    ⟨name, attrs.map Attr.tidy,
      some (trimStart (linesText (Element.linesAll pad (level + 1) children)))⟩

theorem getLast?_lines (pad : Nat → List Char) (level : Nat) (e : Element) :
    (linesText (e.lines pad level)).getLast? = some '>' := by
  have hend : ∀ front, (front ++ ['>']).getLast? = some '>' := fun _ => List.getLast?_concat
  cases e with
  | void n attrs =>
      rw [linesText_void, ← hend ('\n' :: (pad level ++ (openText n attrs ++ [' ', '/'])))]
      simp only [List.cons_append, List.append_assoc, List.nil_append]
  | text n attrs inner =>
      rw [linesText_text, closeText,
        ← hend ('\n' :: (pad level ++ (openText n attrs ++ '>' :: (inner ++ '<' :: '/' :: n))))]
      simp only [List.cons_append, List.append_assoc]
  | nest n attrs es =>
      rw [linesText_nest, closeText,
        ← hend ('\n' :: (pad level ++ (openText n attrs ++ '>' ::
          (linesText (Element.linesAll pad (level + 1) es) ++
            '\n' :: (pad level ++ '<' :: '/' :: n)))))]
      simp only [List.cons_append, List.append_assoc]

theorem getLast?_linesAll (level : Nat) {es : List Element} (hne : es ≠ []) :
    (linesText (Element.linesAll pad level es)).getLast? = some '>' := by
  induction es with
  | nil => exact absurd rfl hne
  | cons e es ih =>
      rw [linesText_linesAll_cons, List.getLast?_append]
      cases es with
      | nil => simp [Element.linesAll, linesText, ← getLast?_lines pad level e]
      | cons d ds => rw [ih (by simp)]; rfl

theorem Element.Closed.fragments_lines (hpad : ∀ l, Blank (pad l)) {e : Element} (he : e.Closed)
    (level : Nat) (rest : List Char) :
    fragments (linesText (e.lines pad level) ++ rest) =
      e.fragment pad level :: fragments rest := by
  have hindent := ne_of_unmarked (unmarked_of_blank (blank_indent hpad level))
  cases he with
  | void n attrs hn hattrs =>
      rw [linesText_void, ← List.cons_append, List.append_assoc, fragments_unmarked hindent,
        fragments_of_tag? (readsTag_void hn hattrs rest), if_pos rfl]
      rfl
  | text n attrs inner hn hattrs hinner =>
      have hsplit : (openText n attrs ++ '>' :: (inner ++ closeText n)) ++ rest =
          (openText n attrs ++ ['>']) ++ (inner ++ (closingText n [] ++ rest)) := by
        simp [closeText_eq]
      rw [linesText_text, ← List.cons_append, List.append_assoc, fragments_unmarked hindent,
        hsplit, fragments_tags (readsTag_open hn hattrs) rfl hn (List.forall_mem_nil _)
          (hinner.balanced n)]
      rfl
  | nest n attrs es hn hattrs hne hes =>
      have hsplit : (openText n attrs ++ '>' :: (linesText (Element.linesAll pad (level + 1) es) ++
          '\n' :: (pad level ++ closeText n))) ++ rest =
          (openText n attrs ++ ['>']) ++ ((linesText (Element.linesAll pad (level + 1) es) ++
            '\n' :: pad level) ++ (closingText n [] ++ rest)) := by simp [closeText_eq]
      -- The line break in front of the closing tag counts as inner markup, and is trimmed.
      have hinner := (balanced_linesAll hn hpad hes (level + 1)).append
        ((unmarked_of_blank (blank_indent hpad level)).balanced n)
      rw [linesText_nest, ← List.cons_append, List.append_assoc, fragments_unmarked hindent,
        hsplit, fragments_tags (readsTag_open hn hattrs) rfl hn (List.forall_mem_nil _) hinner,
        trim_append (blank_indent hpad level) ⟨'>', getLast?_linesAll _ hne, by decide⟩]
      rfl

theorem fragments_linesAll (hpad : ∀ l, Blank (pad l)) {es : List Element}
    (hes : ∀ e ∈ es, e.Closed) (level : Nat) (rest : List Char) :
    fragments (linesText (Element.linesAll pad level es) ++ rest) =
      es.map (Element.fragment pad level) ++ fragments rest := by
  induction es with
  | nil => rfl
  | cons e es ih =>
      rw [linesText_linesAll_cons, List.append_assoc,
        (hes e List.mem_cons_self).fragments_lines hpad level,
        ih fun d hd => hes d (List.mem_cons_of_mem _ hd)]
      rfl

/-- Blanks in front of a text do not matter for its elements. -/
theorem fragments_trimStart (cs : List Char) : fragments (trimStart cs) = fragments cs := by
  have hsplit := List.takeWhile_append_dropWhile (p := isBlank) (l := cs)
  have hblank : Blank (cs.takeWhile isBlank) := fun c hc => List.mem_takeWhile_imp hc
  have h := fragments_unmarked (ne_of_unmarked (unmarked_of_blank hblank)) (trimStart cs)
  rw [← h]
  exact congrArg fragments hsplit

/-! ## Elements to the bottom -/

/-- An element from its unread form. -/
def Fragment.read (f : Fragment) : Element :=
  match f.inner with
  | none => .void f.name f.attrs
  | some inner =>
    if hasElement inner then .nest f.name f.attrs (Element.readAll inner)
    else .text f.name f.attrs inner

theorem readAll_eq (cs : List Char) : Element.readAll cs = (fragments cs).map Fragment.read := by
  -- The reader goes over `attach` only because its recursion ends for that reason.
  rw [Element.readAll]
  calc _ = (fragments cs).attach.map (fun x => Fragment.read x.1) := by
        refine List.map_congr_left ?_
        rintro ⟨⟨name, attrs, inner⟩, _⟩ _
        cases inner <;> rfl
    _ = ((fragments cs).attach.map Subtype.val).map Fragment.read := by rw [List.map_map]; rfl
    _ = (fragments cs).map Fragment.read := by rw [List.attach_map_subtype_val]

theorem hasElement_unmarked {cs : List Char} (hcs : ∀ c ∈ cs, c ≠ '<') (rest : List Char) :
    hasElement (cs ++ rest) = hasElement rest := by
  induction cs with
  | nil => rfl
  | cons c cs ih =>
      rw [List.cons_append, hasElement, startsElement_of_ne (hcs c List.mem_cons_self),
        Bool.false_or]
      exact ih fun d hd => hcs d (List.mem_cons_of_mem _ hd)

theorem hasElement_eq_false {cs : List Char} (hcs : ∀ c ∈ cs, c ≠ '<') : hasElement cs = false := by
  have h := hasElement_unmarked hcs []
  rwa [List.append_nil] at h

theorem hasElement_of_startsElement {cs : List Char} (h : startsElement cs = true) :
    hasElement cs = true := by
  cases cs with
  | nil => cases h
  | cons c cs => rw [hasElement, h, Bool.true_or]

/-- Blanks are no letters, so no tag starts at an angle bracket in front of them. -/
theorem startsElement_append_blank {b : List Char} (hb : Blank b) (cs : List Char) :
    startsElement (cs ++ b) = startsElement cs := by
  cases cs with
  | nil =>
      cases b with
      | nil => rfl
      | cons d b =>
          exact startsElement_of_ne (ne_of_unmarked (unmarked_of_blank hb) d List.mem_cons_self) b
  | cons c cs =>
      by_cases hc : c = '<'
      · subst hc
        cases cs with
        | cons d cs => rfl
        | nil =>
            cases b with
            | nil => rfl
            | cons d b =>
                show d.isAlpha = false
                refine Bool.eq_false_iff.mpr fun h => ?_
                have hblank := isBlank_of_isWord (c := d) (by simp [isWord, Char.isAlphanum, h])
                rw [hb d List.mem_cons_self] at hblank
                cases hblank
      · rw [List.cons_append, startsElement_of_ne hc, startsElement_of_ne hc]

theorem hasElement_append_blank {b : List Char} (hb : Blank b) (cs : List Char) :
    hasElement (cs ++ b) = hasElement cs := by
  induction cs with
  | nil => exact hasElement_eq_false (ne_of_unmarked (unmarked_of_blank hb))
  | cons c cs ih =>
      have hstart := startsElement_append_blank hb (c :: cs)
      rw [List.cons_append] at hstart
      rw [List.cons_append, hasElement, hasElement, hstart, ih]

theorem hasElement_trim (cs : List Char) : hasElement (trim cs) = hasElement cs := by
  obtain ⟨a, b, hsplit, ha, hb⟩ := exists_eq_trim cs
  have hfront := hasElement_unmarked (ne_of_unmarked (unmarked_of_blank ha)) (trim cs ++ b)
  rw [← hsplit, hasElement_append_blank hb] at hfront
  exact hfront.symm

theorem hasElement_linesAll (hpad : ∀ l, Blank (pad l)) {es : List Element}
    (hes : ∀ e ∈ es, e.Closed) (hne : es ≠ []) (level : Nat) :
    hasElement (trimStart (linesText (Element.linesAll pad level es))) = true := by
  have hindent := blank_indent hpad level
  -- The first element decides: behind its indent stands its opening tag.
  have hopen : ∀ {n : List Char} (_ : isTagName n = true) (attrs : List Attr) (rest : List Char),
      hasElement (trimStart ('\n' :: (pad level ++ (openText n attrs ++ rest)))) = true := by
    intro n hn attrs rest
    have hstops : Stops isBlank (openText n attrs ++ rest) := stops_cons (by decide)
    rw [← List.cons_append, trimStart_append hindent, trimStart, hstops.dropWhile]
    exact hasElement_of_startsElement (startsElement_openText hn attrs rest)
  cases es with
  | nil => exact absurd rfl hne
  | cons e es =>
      rw [linesText_linesAll_cons]
      cases hes e List.mem_cons_self with
      | void n attrs hn _ =>
          simp only [linesText_void, List.cons_append, List.append_assoc]
          exact hopen hn attrs _
      | text n attrs inner hn _ _ =>
          simp only [linesText_text, List.cons_append, List.append_assoc]
          exact hopen hn attrs _
      | nest n attrs children hn _ _ _ =>
          simp only [linesText_nest, List.cons_append, List.append_assoc]
          exact hopen hn attrs _

/-- The element without the blanks around its expressions and its text. -/
def Element.tidy : Element → Element
  | .void name attrs => .void name (attrs.map Attr.tidy)
  | .text name attrs inner => .text name (attrs.map Attr.tidy) (trim inner)
  | .nest name attrs children => .nest name (attrs.map Attr.tidy) (children.map Element.tidy)

/-- Elements are read from their lines if each is read from its unread form. -/
theorem readAll_of_read_fragment (hpad : ∀ l, Blank (pad l)) {es : List Element}
    (hes : ∀ e ∈ es, e.Closed) (level : Nat)
    (hread : ∀ e ∈ es, (e.fragment pad level).read = e.tidy) :
    Element.readAll (trimStart (linesText (Element.linesAll pad level es))) =
      es.map Element.tidy := by
  have h := fragments_linesAll hpad hes level []
  rw [List.append_nil, fragments, List.append_nil] at h
  rw [readAll_eq, fragments_trimStart, h, List.map_map]
  exact List.map_congr_left hread

/-- A closed element is read from its unread form. -/
theorem Element.Closed.read_fragment (hpad : ∀ l, Blank (pad l)) {e : Element}
    (he : e.Closed) (level : Nat) : (e.fragment pad level).read = e.tidy := by
  induction he generalizing level with
  | void n attrs _ _ => rw [Element.tidy]; rfl
  | text n attrs inner _ _ hinner =>
      have hnone := hasElement_eq_false (ne_of_unmarked hinner.trim)
      simp only [Element.fragment, Fragment.read, hnone, Bool.false_eq_true, if_false, Element.tidy]
  | nest n attrs es _ _ hne hes ih =>
      have hsome := hasElement_linesAll hpad hes hne (level + 1)
      have hread := readAll_of_read_fragment hpad hes (level + 1)
        fun e he => ih e he (level + 1)
      simp only [Element.fragment, Fragment.read, hsome, if_true, hread, Element.tidy]

/-- **The lines of closed elements are read as those elements**, tidied up, without the
blanks in front of them. -/
theorem readAll_linesText_tidy (hpad : ∀ l, Blank (pad l)) {es : List Element}
    (hes : ∀ e ∈ es, e.Closed) (level : Nat) :
    Element.readAll (trimStart (linesText (Element.linesAll pad level es))) =
      es.map Element.tidy :=
  readAll_of_read_fragment hpad hes level fun e he => (hes e he).read_fragment hpad level

/-! ## Readable elements -/

/-- Elements that are written in a form that is read back. -/
inductive Element.Readable : Element → Prop
  | void (name : List Char) (attrs : List Attr) (hname : isTagName name = true)
      (hattrs : ∀ a ∈ attrs, a.Readable) : Readable (.void name attrs)
  | text (name : List Char) (attrs : List Attr) (inner : List Char) (hname : isTagName name = true)
      (hattrs : ∀ a ∈ attrs, a.Readable) (hinner : Unmarked inner) (htrim : trim inner = inner) :
      Readable (.text name attrs inner)
  | nest (name : List Char) (attrs : List Attr) (children : List Element)
      (hname : isTagName name = true) (hattrs : ∀ a ∈ attrs, a.Readable) (hne : children ≠ [])
      (hchildren : ∀ e ∈ children, Readable e) : Readable (.nest name attrs children)

theorem Element.Readable.closed {e : Element} (he : e.Readable) : e.Closed := by
  induction he with
  | void n attrs hn hattrs => exact .void n attrs hn fun a ha => (hattrs a ha).closed
  | text n attrs inner hn hattrs hinner _ =>
      exact .text n attrs inner hn (fun a ha => (hattrs a ha).closed) hinner
  | nest n attrs es hn hattrs hne _ ih =>
      exact .nest n attrs es hn (fun a ha => (hattrs a ha).closed) hne ih

theorem map_eq_self {α : Type} {f : α → α} {as : List α} (h : ∀ a ∈ as, f a = a) :
    as.map f = as := (List.map_congr_left h).trans (List.map_id as)

theorem Element.Readable.tidy_eq {e : Element} (he : e.Readable) : e.tidy = e := by
  induction he with
  | void n attrs _ hattrs =>
      rw [Element.tidy, map_eq_self fun a ha => (hattrs a ha).tidy_eq]
  | text n attrs inner _ hattrs _ htrim =>
      rw [Element.tidy, map_eq_self fun a ha => (hattrs a ha).tidy_eq, htrim]
  | nest n attrs es _ hattrs _ _ ih =>
      rw [Element.tidy, map_eq_self fun a ha => (hattrs a ha).tidy_eq, map_eq_self ih]

/-- **The lines of readable elements are read as those elements**, without the blanks in
front of them. -/
theorem readAll_linesText (hpad : ∀ l, Blank (pad l)) {es : List Element}
    (hes : ∀ e ∈ es, e.Readable) (level : Nat) :
    Element.readAll (trimStart (linesText (Element.linesAll pad level es))) = es := by
  rw [readAll_linesText_tidy hpad (fun e he => (hes e he).closed),
    map_eq_self fun e he => (hes e he).tidy_eq]

end

/-! ## A lone tag -/

/-- A text that is a tag that closes itself is one element. -/
theorem readAll_void {cs name : List Char} {attrs : List Attr}
    (htag : tag? cs = some (⟨name, attrs, true⟩, [])) :
    Element.readAll cs = [.void name attrs] := by
  rw [readAll_eq, fragments_of_tag? htag, if_pos rfl, fragments]
  rfl

/-- Nothing is read from a tag on that does not end. -/
theorem readAll_unclosed {cs : List Char} (hstart : startsElement cs = true)
    (htag : tag? cs = none) : Element.readAll cs = [] := by
  cases cs with
  | nil => cases hstart
  | cons c cs =>
      rw [readAll_eq, fragments_cons, if_pos hstart, htag]
      rfl

end Tandem.Markup
