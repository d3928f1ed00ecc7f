import Tandem.Markup.Piece
import Tandem.Markup.Tag

/-!
# Elements

An element is void (`<name … />`), or has inner markup between its tags, which is
read as elements if any tag starts in it and as text otherwise. Reading never
fails: an element whose closing tag is missing takes the rest of the text, and a
tag that is not closed ends the list.

* `fragments` finds the elements of a text with their inner markup unread.
* `Element.readAll` reads the inner markup as well, to the bottom.
-/

namespace Tandem.Markup

open Text

/-- An element whose inner markup has not been read. -/
structure Fragment where
  name : List Char
  attrs : List Attr
  /-- The trimmed markup between the tags, if there are two. -/
  inner : Option (List Char)
  deriving DecidableEq

/-- What follows the closing tag of `name` that stands here. -/
def closingTag? (name cs : List Char) : Option (List Char) :=
  match ('<' :: '/' :: name).isPrefixOf? cs with
  | none => none
  | some rest =>
    match rest.dropWhile isSpacing with
    | '>' :: after => some after
    | _ => none

theorem closingTag?_length {name cs after : List Char} (h : closingTag? name cs = some after) :
    after.length < cs.length := by
  unfold closingTag? at h
  split at h
  · cases h
  · rename_i rest hp
    have h1 := isPrefixOf?_length hp
    have h2 := length_dropWhile_le isSpacing rest
    split at h
    · rename_i after' hd
      rw [hd] at h2
      cases h
      simp only [List.length_cons] at h2; omega
    · cases h

/-- The closing tag that ends an element called `name`, `depth` further elements of
that name being open: the text from the closing tag on, and the text after it. -/
def findClosing? (name : List Char) (depth : Nat) (cs : List Char) :
    Option (List Char × List Char) :=
  match cs with
  | [] => none
  | c :: rest =>
    match _hc : closingTag? name (c :: rest) with
    | some after =>
      match depth with
      -- elements of other names are not counted, closed or not
      | 0 => some (c :: rest, after)
      | d + 1 => findClosing? name d after
    | none =>
      match _ht : tag? (c :: rest) with
      | some (t, after) =>
        findClosing? name (if t.name = name ∧ ¬t.selfClosing then depth + 1 else depth) after
      | none => findClosing? name depth rest
termination_by cs.length
decreasing_by
  · exact closingTag?_length _hc
  · exact tag?_length _ht
  · simp

theorem findClosing?_length {name cs closing after : List Char} {depth : Nat}
    (h : findClosing? name depth cs = some (closing, after)) :
    after.length < closing.length ∧ closing.length ≤ cs.length := by
  fun_induction findClosing? name depth cs with
  | case1 => cases h
  | case2 c rest after' hc =>
    cases h
    exact ⟨closingTag?_length hc, Nat.le_refl _⟩
  | case3 c rest after' hc d ih =>
    have h1 := closingTag?_length hc
    have h2 := ih h
    exact ⟨h2.1, by omega⟩
  | case4 depth c rest hc t after' ht ih =>
    have h1 := tag?_length ht
    have h2 := ih h
    exact ⟨h2.1, by omega⟩
  | case5 depth c rest hc ht ih =>
    have h2 := ih h
    exact ⟨h2.1, Nat.le_succ_of_le h2.2⟩

def fragments (cs : List Char) : List Fragment :=
  match cs with
  | [] => []
  | c :: rest =>
    if startsElement (c :: rest) then
      match _ht : tag? (c :: rest) with
      | none => []
      | some (t, after) =>
        if t.selfClosing then ⟨t.name, t.attrs, none⟩ :: fragments after
        else
          match _hf : findClosing? t.name 0 after with
          | none => [⟨t.name, t.attrs, some (trim after)⟩]
          | some (closing, next) =>
            ⟨t.name, t.attrs, some (trim (upTo after closing))⟩ :: fragments next
    else fragments rest
termination_by cs.length
decreasing_by
  · exact tag?_length _ht
  · have h1 := tag?_length _ht
    have h2 := findClosing?_length _hf
    omega
  · simp

/-- Inner markup is shorter than the text it was found in. -/
theorem inner_length_lt {cs inner : List Char} {f : Fragment} (hf : f ∈ fragments cs)
    (hi : f.inner = some inner) : inner.length < cs.length := by
  fun_induction fragments cs with
  | case1 => cases hf
  | case2 => cases hf
  | case3 c rest hs t after ht hsc ih =>
    rcases List.mem_cons.mp hf with rfl | hf
    · cases hi
    · exact Nat.lt_trans (ih hf) (tag?_length ht)
  | case4 c rest hs t after ht hsc hfc =>
    rw [List.mem_singleton] at hf
    subst hf
    cases hi
    exact Nat.lt_of_le_of_lt (length_trim_le _) (tag?_length ht)
  | case5 c rest hs t after ht hsc closing next hfc ih =>
    have h1 := tag?_length ht
    have h2 := findClosing?_length hfc
    rcases List.mem_cons.mp hf with rfl | hf
    · cases hi
      have h3 := length_trim_le (upTo after closing)
      have h4 := length_upTo_le after closing
      omega
    · have := ih hf
      omega
  | case6 c rest hs ih => exact Nat.lt_succ_of_lt (ih hf)

/-- An opening tag starts somewhere in the text. -/
def hasElement : List Char → Bool
  | [] => false
  | c :: cs => startsElement (c :: cs) || hasElement cs

/-- An element, read to the bottom. -/
inductive Element where
  | void (name : List Char) (attrs : List Attr)
  /-- Two tags around text without tags. -/
  | text (name : List Char) (attrs : List Attr) (inner : List Char)
  /-- Two tags around elements. -/
  | nest (name : List Char) (attrs : List Attr) (children : List Element)
  deriving Inhabited

namespace Element

def name : Element → List Char
  | void n _ | text n _ _ | nest n _ _ => n

def attrs : Element → List Attr
  | void _ as | text _ as _ | nest _ as _ => as

/-- The elements of a text with all they hold. -/
def readAll (cs : List Char) : List Element :=
  (fragments cs).attach.map fun ⟨f, _hf⟩ =>
    match _hi : f.inner with
    | none => void f.name f.attrs
    | some inner =>
      if hasElement inner then nest f.name f.attrs (readAll inner) else text f.name f.attrs inner
termination_by cs.length
decreasing_by exact inner_length_lt _hf _hi

end Element

end Tandem.Markup
