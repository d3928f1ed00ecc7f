import Tandem.Proofs.Json.RoundTrip
import Tandem.Proofs.Markup.Tag
import Tandem.Proofs.Source.Handler
import Tandem.Proofs.Text.Entity
import Tandem.Source.Value

/-!
# Property values are read back

A property that is safe under its name (`SafeValue`) is written as an attribute whose
end is found (`SafeValue.readable`) and from which its value is read (`get?_setAttr`).
There are three forms: escaped text in quotes, text or a structure in braces, and the
bare name for `true`.
-/

namespace Tandem.Source

open Text Markup

/-! ## Structures in braces -/

/-- A character without a meaning in an expression. -/
def isInert (c : Char) : Bool :=
  c != '"' && c != '\'' && c != '\x60' && c != '\x7b' && c != '\x7d' && c != '/'

/-- A text without a meaning in an expression. -/
def Inert (cs : List Char) : Prop := ∀ c ∈ cs, isInert c = true

theorem Inert.append {a b : List Char} (ha : Inert a) (hb : Inert b) : Inert (a ++ b) :=
  List.forall_mem_append.mpr ⟨ha, hb⟩

theorem Inert.cons {c : Char} {cs : List Char} (hc : isInert c = true) (hcs : Inert cs) :
    Inert (c :: cs) :=
  List.forall_mem_cons.mpr ⟨hc, hcs⟩

theorem leads_inert {cs : List Char} (h : Inert cs) (below : List Frame) :
    Leads (.code false :: below) (.code false :: below) cs := by
  refine leads_self fun c hc => ?_
  have hinert := h c hc
  simp only [isInert, Bool.and_eq_true, bne_iff_ne] at hinert
  obtain ⟨⟨⟨⟨⟨h1, h2⟩, h3⟩, h4⟩, h5⟩, h6⟩ := hinert
  simp [step, codeStep, h1, h2, h3, h4, h5, h6]

theorem leads_printChar (c : Char) (below : List Frame) :
    Leads (.quoted '"' :: below) (.quoted '"' :: below) (Json.printChar c) := by
  have hescape : ∀ d, Leads (.quoted '"' :: below) (.quoted '"' :: below) ['\\', d] := fun d =>
    .cons rfl (leads_singleton rfl)
  have hplain : ∀ {d : Char}, d ≠ '\\' → d ≠ '"' →
      Leads (.quoted '"' :: below) (.quoted '"' :: below) [d] := fun hslash hquote =>
    leads_singleton (by simp [step, hslash, hquote])
  rw [Json.printChar.eq_def]
  split
  · exact hescape _
  · exact hescape _
  · exact hescape _
  · exact hescape _
  · exact hescape _
  next hquote hslash _ _ _ =>
    split
    · exact hescape _
    · split
      · exact hescape _
      · split
        next h32 =>
          have hall : ∀ n ∈ List.range 16, Json.hexDigit n ≠ '\\' ∧ Json.hexDigit n ≠ '"' := by
            decide
          have hhigh := hall (c.toNat / 16) (List.mem_range.mpr (by omega))
          have hlow := hall (c.toNat % 16) (List.mem_range.mpr (by omega))
          exact (hescape 'u').append ((hplain (by decide) (by decide)).append
            ((hplain (by decide) (by decide)).append
              ((hplain hhigh.1 hhigh.2).append (hplain hlow.1 hlow.2))))
        · exact hplain hslash hquote

theorem leads_printString (s : String) (below : List Frame) :
    Leads (.code false :: below) (.code false :: below) (Json.printString s) := by
  have hchars : ∀ cs : List Char, Leads (.quoted '"' :: .code false :: below)
      (.quoted '"' :: .code false :: below) (cs.flatMap Json.printChar) := by
    intro cs
    induction cs with
    | nil => exact Leads.nil _
    | cons c cs ih =>
        rw [List.flatMap_cons]
        exact (leads_printChar c _).append ih
  exact .cons rfl ((hchars s.toList).append (leads_singleton rfl))

/-- Items are passed over if each of them is. -/
theorem leads_printItems {items : List Json} {stack : List Frame}
    (hcomma : Leads stack stack [','])
    (h : ∀ v ∈ items, Leads stack stack (Json.print v)) :
    Leads stack stack (Json.printItems items) := by
  induction items with
  | nil => exact Leads.nil _
  | cons v vs ih =>
      have hv := h v List.mem_cons_self
      cases vs with
      | nil => rw [Json.printItems]; exact hv
      | cons w ws =>
          rw [Json.printItems]
          · exact hv.append (hcomma.append (ih fun u hu => h u (List.mem_cons_of_mem _ hu)))
          · simp

theorem leads_printFields {fields : List (String × Json)} {below : List Frame}
    (h : ∀ e ∈ fields,
      Leads (.code false :: below) (.code false :: below) (Json.print e.2)) :
    Leads (.code false :: below) (.code false :: below) (Json.printFields fields) := by
  have hcolon : Leads (.code false :: below) (.code false :: below) [':'] := leads_singleton rfl
  have hcomma : Leads (.code false :: below) (.code false :: below) [','] := leads_singleton rfl
  induction fields with
  | nil => exact Leads.nil _
  | cons e es ih =>
      obtain ⟨k, v⟩ := e
      have hv := h (k, v) List.mem_cons_self
      cases es with
      | nil =>
          rw [Json.printFields]
          exact (leads_printString k below).append (hcolon.append hv)
      | cons w ws =>
          rw [Json.printFields]
          · exact (leads_printString k below).append (hcolon.append (hv.append
              (hcomma.append (ih fun u hu => h u (List.mem_cons_of_mem _ hu)))))
          · simp

theorem inert_digitsOf (m : Nat) : Inert (Decimal.digitsOf m) := by
  intro c hc
  have hdigit := Json.isDigit_of_mem_digitsOf hc
  simp only [isInert, Bool.and_eq_true, bne_iff_ne]
  refine ⟨⟨⟨⟨⟨?_, ?_⟩, ?_⟩, ?_⟩, ?_⟩, ?_⟩ <;> exact ne_of_class hdigit (by decide)

theorem inert_write (x : Decimal.Digits) : Inert (Json.floatLayout.write x) := by
  have hds := inert_digitsOf x.digits
  have hzeros : ∀ n, Inert (List.replicate n '0') := by
    intro n c hc
    rw [(List.mem_replicate.mp hc).2]
    decide
  have hpoint : Inert ['.', '0'] := List.all_eq_true.mp (by decide)
  have hplus : Inert ['+'] := List.all_eq_true.mp (by decide)
  rw [Decimal.Layout.write]
  simp only
  split
  · split
    · exact .cons (by decide) (.cons (by decide) ((hzeros _).append hds))
    · split
      · exact Inert.append (fun c hc => hds c (List.mem_of_mem_take hc))
          (.cons (by decide) fun c hc => hds c (List.mem_of_mem_drop hc))
      · exact (hds.append (hzeros _)).append hpoint
  · refine Inert.append ?_ (.cons (by decide) ?_)
    · split
      next d e rest heq =>
        rw [heq] at hds
        obtain ⟨hd, hrest⟩ := List.forall_mem_cons.mp hds
        exact .cons hd (.cons (by decide) hrest)
      next => exact hds
    · split
      · exact hplus.append (inert_digitsOf _)
      · exact .cons (by decide) (inert_digitsOf _)

theorem inert_printNumber (n : Number) : Inert (Json.printNumber n) := by
  have hminus : isInert '-' = true := by decide
  cases n with
  | int n =>
      rw [Json.printNumber, Json.printInt.eq_def]
      split
      · exact inert_digitsOf _
      · exact .cons hminus (inert_digitsOf _)
  | float x =>
      have hzero : Inert ['0', '.', '0'] := List.all_eq_true.mp (by decide)
      have hbody : Inert (if x.magnitude = 0 then ['0', '.', '0']
          else Json.floatLayout.write (Decimal.shortest x.magnitude)) := by
        split
        · exact hzero
        · exact inert_write _
      rw [Json.printNumber, Json.printFloat]
      split
      · exact .cons hminus hbody
      · exact hbody

/-- What is printed of a value closes all that it opens. -/
theorem leads_print (v : Json) (below : List Frame) :
    Leads (.code false :: below) (.code false :: below) (Json.print v) := by
  induction hsize : sizeOf v using Nat.strong_induction_on generalizing v below with
  | _ n ih =>
      cases v with
      | null => rw [Json.print]; exact leads_inert (List.all_eq_true.mp (by decide)) below
      | bool b =>
          cases b with
          | true => rw [Json.print]; exact leads_inert (List.all_eq_true.mp (by decide)) below
          | false => rw [Json.print]; exact leads_inert (List.all_eq_true.mp (by decide)) below
      | num n => rw [Json.print]; exact leads_inert (inert_printNumber n) below
      | str s => rw [Json.print]; exact leads_printString s below
      | arr items =>
          have hitems : ∀ v ∈ items, Leads (.code false :: below) (.code false :: below)
              (Json.print v) := by
            intro v hv
            have hlt := List.sizeOf_lt_of_mem hv
            rw [Json.arr.sizeOf_spec] at hsize
            exact ih (sizeOf v) (by omega) v below rfl
          rw [Json.print]
          exact .cons rfl ((leads_printItems (leads_singleton rfl) hitems).append
            (leads_singleton rfl))
      | obj fields =>
          have hfields : ∀ e ∈ fields, Leads (.code false :: .code false :: below)
              (.code false :: .code false :: below) (Json.print e.2) := by
            rintro ⟨k, v⟩ he
            have hlt := List.sizeOf_lt_of_mem he
            rw [Json.obj.sizeOf_spec] at hsize
            rw [Prod.mk.sizeOf_spec] at hlt
            exact ih (sizeOf v) (by omega) v _ rfl
          rw [Json.print]
          exact .cons rfl ((leads_printFields hfields).append (leads_singleton rfl))

/-- The compact text of a plain value has no blanks around it. -/
theorem trim_print {v : Json} (hv : v.Plain) : trim (Json.print v) = Json.print v := by
  have hends : ∀ (c d : Char) (cs : List Char), isBlank c = false → isBlank d = false →
      trim (c :: (cs ++ [d])) = c :: (cs ++ [d]) := by
    intro c d cs hc hd
    refine trim_eq_self (stops_cons hc) fun e he => ?_
    rw [← List.cons_append, List.getLast?_concat] at he
    cases he
    exact hd
  cases hv with
  | null => rw [Json.print]; decide
  | bool b => cases b <;> rw [Json.print] <;> decide
  | int n _ =>
      have hdigit : ∀ {m : Nat} {c : Char}, c ∈ Decimal.digitsOf m → isBlank c = false := by
        intro m c hc
        have h := Json.isDigit_of_mem_digitsOf hc
        exact isBlank_of_isWord (by simp [isWord, Char.isAlphanum, h])
      rw [Json.print, Json.printNumber, Json.printInt.eq_def]
      split
      · exact trim_eq_self (fun c hc => hdigit (List.mem_of_mem_head? hc))
          (fun c hc => hdigit (List.mem_of_getLast? hc))
      · refine trim_eq_self (stops_cons (by decide)) fun c hc => ?_
        rcases List.mem_cons.mp (List.mem_of_getLast? hc) with rfl | h
        · decide
        · exact hdigit h
  | str s => rw [Json.print]; exact hends _ _ _ (by decide) (by decide)
  | arr items _ => rw [Json.print]; exact hends _ _ _ (by decide) (by decide)
  | obj fields _ _ => rw [Json.print]; exact hends _ _ _ (by decide) (by decide)

theorem closed_print (v : Json) : AttrValue.Closed (.braced (Json.print v)) := by
  have hclose : Leads [.code false] [] (Json.print v ++ ['\x7d']) :=
    (leads_print v []).append (leads_singleton rfl)
  have h := hclose.close []
  rwa [List.append_nil] at h

theorem readable_print {v : Json} (hv : v.Plain) :
    AttrValue.Readable (.braced (Json.print v)) := ⟨closed_print v, trim_print hv⟩

/-! ## Text in quotes -/

/-- Escaping does not change the backslashes that a text ends in. -/
theorem backslashes_escapeAttribute (cs : List Char) :
    backslashes (escapeAttribute cs) = backslashes cs := by
  induction cs using List.reverseRecOn with
  | nil => rfl
  | append_singleton cs c ih =>
      have happend : escapeAttribute (cs ++ [c]) = escapeAttribute cs ++ attributeReference c := by
        simp [escapeAttribute]
      have hother : ∀ (as front : List Char) (d : Char), d ≠ '\\' →
          backslashes (as ++ (front ++ [d])) = 0 := by
        intro as front d hd
        rw [← List.append_assoc, backslashes_concat, if_neg hd]
      rw [happend, backslashes_concat]
      by_cases hc : c = '\\'
      · subst hc
        have hself : attributeReference '\\' = ['\\'] := rfl
        rw [hself, backslashes_concat, ih]
      · rw [if_neg hc]
        rcases isEscape_attributeReference c with ⟨r, hr, heq⟩ | ⟨heq, _⟩
        · obtain ⟨front, rfl⟩ := exists_concat_of_mem_references hr
          rw [heq]
          exact hother _ ('&' :: front) _ (by decide)
        · rw [heq]
          exact hother _ [] _ hc

theorem readable_escapeAttribute {cs : List Char} (h : backslashes cs % 2 = 0) :
    AttrValue.Readable (.quoted (escapeAttribute cs)) := by
  have hclose := (leads_closeQuote (quote_not_mem_escapeAttribute cs) (by decide)
    (by rw [backslashes_escapeAttribute]; exact h) []).close []
  rwa [List.append_nil] at hclose

/-! ## Properties -/

/-- The text can be written under the name: in braces it is trimmed, no JSON, and ends at
the brace that is written behind it; in quotes its backslashes leave the quote alone. -/
def SafeText (name : String) (cs : List Char) : Prop :=
  if isWrittenBraced name (String.ofList cs) then
    trim cs = cs ∧ Json.ofText? cs = none ∧ closeBrace (cs ++ ['\x7d']) = some []
  else backslashes cs % 2 = 0

/-- The value can be written under the name: it is not one of those that are left out, it
is plain and not nested too deeply, and a text is a safe one. -/
structure SafeValue (name : String) (v : Json) : Prop where
  nonnull : v ≠ .null
  nonempty : v ≠ .str ""
  plain : v.Plain
  shallow : v.raw.depth ≤ Json.depthLimit
  text : ∀ s, v = .str s → SafeText name s.toList

theorem SafeValue.readable {name : String} {v : Json} (h : SafeValue name v) :
    ∃ value, attrValue? name v = some value ∧ value.Readable := by
  obtain ⟨hnull, hempty, hplain, _, htext⟩ := h
  cases v with
  | null => exact absurd rfl hnull
  | bool b =>
      cases b with
      | true => exact ⟨_, rfl, trivial⟩
      | false =>
          have hread := readable_print hplain
          rw [Json.print] at hread
          exact ⟨_, rfl, hread⟩
  | num n =>
      have hread := readable_print hplain
      rw [Json.print] at hread
      exact ⟨_, rfl, hread⟩
  | arr items => exact ⟨_, rfl, readable_print hplain⟩
  | obj fields => exact ⟨_, rfl, readable_print hplain⟩
  | str s =>
      have hne : s.isEmpty = false := by
        cases he : s.isEmpty with
        | false => rfl
        | true => exact absurd (congrArg Json.str (String.isEmpty_iff.mp he)) hempty
      have hsafe := htext s rfl
      rw [SafeText, String.ofList_toList] at hsafe
      rw [attrValue?, if_neg (by simp [hne])]
      split at hsafe
      next hbraced =>
        rw [if_pos hbraced]
        exact ⟨_, rfl, hsafe.2.2, hsafe.1⟩
      next hquoted =>
        rw [if_neg hquoted]
        exact ⟨_, rfl, readable_escapeAttribute hsafe⟩

/-- The attribute of a safe value sets the property to the value, if that is not set to
something else already. -/
theorem SafeValue.get?_setAttr {name : String} {v : Json} (h : SafeValue name v)
    {value : AttrValue} (hvalue : attrValue? name v = some value) {props : Dict Json}
    (hprops : props.get? name = none ∨ props.get? name = some v) (k : String) :
    (setAttr props ⟨name.toList, value⟩).get? k = if k = name then some v else props.get? k := by
  obtain ⟨hnull, hempty, hplain, hshallow, htext⟩ := h
  -- Behind braces stands JSON for everything but text.
  have hjson : ∀ w : Json, w = v → setAttr props ⟨name.toList, .braced (Json.print w)⟩ =
      props.insert name v := by
    rintro w rfl
    simp [setAttr, expressionValue, hplain.ofText?_print hshallow]
  have hinsert : ∀ a : Attr, setAttr props a = props.insert name v →
      (setAttr props a).get? k = if k = name then some v else props.get? k := by
    intro a ha
    rw [ha, Dict.get?_insert]
  cases v with
  | null => cases hvalue
  | bool b =>
      cases b with
      | true =>
          cases hvalue
          simp only [setAttr, String.ofList_toList]
          rcases hprops with hnone | hsome
          · rw [hnone, isUnset, if_pos rfl, Dict.get?_insert]
          · have hset : isUnset (props.get? name) = false := by rw [hsome]; rfl
            rw [hset, if_neg (by simp)]
            split
            next hk => rw [hk, hsome]
            next => rfl
      | false =>
          cases hvalue
          have hread := hjson _ rfl
          rw [Json.print] at hread
          exact hinsert _ hread
  | num n =>
      cases hvalue
      have hread := hjson _ rfl
      rw [Json.print] at hread
      exact hinsert _ hread
  | arr items => cases hvalue; exact hinsert _ (hjson _ rfl)
  | obj fields => cases hvalue; exact hinsert _ (hjson _ rfl)
  | str s =>
      have hsafe := htext s rfl
      rw [SafeText, String.ofList_toList] at hsafe
      rw [attrValue?] at hvalue
      split at hvalue
      · cases hvalue
      · split at hvalue
        next hbraced =>
          cases hvalue
          rw [if_pos hbraced] at hsafe
          refine hinsert _ ?_
          simp [setAttr, expressionValue, hsafe.2.1]
        next hquoted =>
          cases hvalue
          refine hinsert _ ?_
          simp [setAttr, decode_escapeAttribute]

end Tandem.Source
