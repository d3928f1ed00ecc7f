import Tandem.Proofs.Json.Number

/-!
# Printed values are told apart

No two values are printed the same. Inside a longer text it also has to be seen where a value ends,
so what is shown is that its text is delimited (`Delimited`), whatever follows that does not go on
with a number:

* **strings** — `printString_append_inj`, from the reader of strings;
* **what stands between brackets** — `joined_append_inj`, for items and fields alike;
* **values** — `delimited_print`, by induction over the value. The first character decides which
  kind it is (`kindOf`).
-/

namespace Tandem.Json

open Text

variable {α : Type}

/-- The text of `a` is that of nothing else, and where it ends can be seen in front of any text
that does not go on with a number. -/
def Delimited (f : α → List Char) (a : α) : Prop :=
  ∀ b r r', Stops continuesNumber r → Stops continuesNumber r' → f a ++ r = f b ++ r' →
    a = b ∧ r = r'

theorem printString_append_inj {s t : String} {r r' : List Char}
    (h : printString s ++ r = printString t ++ r') : s = t ∧ r = r' := by
  have hread : ∀ (s : String) (r : List Char),
      codes? (printString s ++ r).tail = some (s.toList.map Char.toNat, r) := by
    intro s r
    rw [printString, List.cons_append, List.tail_cons, List.append_assoc, List.singleton_append,
      codes?_flatMap_printChar]
  have hcodes := hread s r
  rw [h, hread t r'] at hcodes
  obtain ⟨hsame, rfl⟩ := Prod.mk.inj (Option.some.inj hcodes)
  have hchars := congrArg joinHalves hsame
  rw [joinHalves_map_toNat, joinHalves_map_toNat] at hchars
  exact ⟨String.toList_inj.mp (Option.some.inj hchars).symm, rfl⟩

/-! ## Between brackets -/

/-- Texts one behind the other with commas between them. -/
def joined (f : α → List Char) : List α → List Char
  | [] => []
  | a :: as => f a ++ as.flatMap fun b => ',' :: f b

def printField (e : String × Json) : List Char := printString e.1 ++ ':' :: print e.2

theorem printItems_eq (items : List Json) : printItems items = joined print items := by
  induction items with
  | nil => rw [printItems, joined]
  | cons v vs ih =>
      cases vs with
      | nil => simp [printItems, joined]
      | cons w ws =>
          rw [printItems, ih]
          · simp [joined]
          · simp

theorem printFields_eq (fields : List (String × Json)) :
    printFields fields = joined printField fields := by
  induction fields with
  | nil => rw [printFields, joined]
  | cons e es ih =>
      obtain ⟨k, v⟩ := e
      cases es with
      | nil => simp [printFields, joined, printField]
      | cons w ws =>
          rw [printFields, ih]
          · simp [joined, printField]
          · simp

section Joined

variable {f : α → List Char} {close : Char} (hclose : continuesNumber close = false)

include hclose in
theorem stops_behind (as : List α) (r : List Char) :
    Stops continuesNumber ((as.flatMap fun b => ',' :: f b) ++ close :: r) := by
  cases as with
  | nil => exact stops_cons hclose
  | cons a as => exact stops_cons (by decide)

variable (hcomma : close ≠ ',')

include hclose hcomma

/-- Behind the first text a comma or the closing bracket shows whether there is another one. -/
theorem behind_append_inj {as : List α} (h : ∀ a ∈ as, Delimited f a) {bs : List α}
    {r r' : List Char} (heq : (as.flatMap fun b => ',' :: f b) ++ close :: r =
      (bs.flatMap fun b => ',' :: f b) ++ close :: r') : as = bs ∧ r = r' := by
  induction as generalizing bs with
  | nil =>
      cases bs with
      | nil => exact ⟨rfl, List.tail_eq_of_cons_eq heq⟩
      | cons b bs => exact absurd (List.head_eq_of_cons_eq heq) hcomma
  | cons a as ih =>
      cases bs with
      | nil => exact absurd (List.head_eq_of_cons_eq heq).symm hcomma
      | cons b bs =>
          rw [List.flatMap_cons, List.flatMap_cons, List.append_assoc, List.append_assoc] at heq
          obtain ⟨rfl, htail⟩ := h a List.mem_cons_self b _ _ (stops_behind hclose as r)
            (stops_behind hclose bs r') (List.tail_eq_of_cons_eq heq)
          obtain ⟨rfl, rfl⟩ := ih (fun c hc => h c (List.mem_cons_of_mem _ hc)) htail
          exact ⟨rfl, rfl⟩

/-- What stands between brackets is told apart if its parts are, and none of them starts like the
closing bracket. -/
theorem joined_append_inj (hstart : ∀ a r, (f a ++ r).head? ≠ some close)
    {as : List α} (h : ∀ a ∈ as, Delimited f a) {bs : List α} {r r' : List Char}
    (heq : joined f as ++ close :: r = joined f bs ++ close :: r') : as = bs ∧ r = r' := by
  cases as with
  | nil =>
      cases bs with
      | nil => exact ⟨rfl, List.tail_eq_of_cons_eq heq⟩
      | cons b bs =>
          rw [joined, joined, List.append_assoc, List.nil_append] at heq
          exact absurd (congrArg List.head? heq).symm (hstart b _)
  | cons a as =>
      cases bs with
      | nil =>
          rw [joined, joined, List.append_assoc, List.nil_append] at heq
          exact absurd (congrArg List.head? heq) (hstart a _)
      | cons b bs =>
          rw [joined, joined, List.append_assoc, List.append_assoc] at heq
          obtain ⟨rfl, htail⟩ := h a List.mem_cons_self b _ _ (stops_behind hclose as r)
            (stops_behind hclose bs r') heq
          obtain ⟨rfl, rfl⟩ := behind_append_inj hclose hcomma
            (fun c hc => h c (List.mem_cons_of_mem _ hc)) htail
          exact ⟨rfl, rfl⟩

end Joined

/-! ## Kinds of values -/

inductive Kind where
  | null
  | bool
  | num
  | str
  | arr
  | obj
  deriving DecidableEq

def kind : Json → Kind
  | .null => .null
  | .bool _ => .bool
  | .num _ => .num
  | .str _ => .str
  | .arr _ => .arr
  | .obj _ => .obj

/-- The kind of the values that are printed with the character in front. -/
def kindOf (c : Char) : Option Kind :=
  if c = 'n' then some .null
  else if c = 't' ∨ c = 'f' then some .bool
  else if c.isDigit ∨ c = '-' then some .num
  else if c = '"' then some .str
  else if c = '[' then some .arr
  else if c = '\x7b' then some .obj
  else none

theorem print_eq_cons (v : Json) : ∃ c cs, print v = c :: cs ∧ kindOf c = some v.kind := by
  cases v with
  | null => exact ⟨'n', "ull".toList, by rw [print]; rfl, rfl⟩
  | bool b =>
      cases b with
      | true => exact ⟨'t', "rue".toList, by rw [print]; rfl, rfl⟩
      | false => exact ⟨'f', "alse".toList, by rw [print]; rfl, rfl⟩
  | num n =>
      obtain ⟨c, cs, hprint, hc⟩ := printNumber_eq_cons n
      refine ⟨c, cs, by rw [print, hprint], ?_⟩
      rw [kindOf, if_neg, if_neg, if_pos hc]
      · rfl
      · rintro (rfl | rfl) <;> exact absurd hc (by decide)
      · rintro rfl
        exact absurd hc (by decide)
  | str s => exact ⟨'"', s.toList.flatMap printChar ++ ['"'], by rw [print, printString], rfl⟩
  | arr items => exact ⟨'[', printItems items ++ [']'], by rw [print], rfl⟩
  | obj fields => exact ⟨'\x7b', printFields fields ++ ['\x7d'], by rw [print], rfl⟩

theorem kind_eq_of_print_append {v w : Json} {r r' : List Char}
    (h : print v ++ r = print w ++ r') : v.kind = w.kind := by
  obtain ⟨c, cs, hv, hc⟩ := print_eq_cons v
  obtain ⟨d, ds, hw, hd⟩ := print_eq_cons w
  rw [hv, hw] at h
  obtain rfl : c = d := List.head_eq_of_cons_eq h
  exact Option.some.inj (hc.symm.trans hd)

theorem head?_print_append (v : Json) (r : List Char) : (print v ++ r).head? ≠ some ']' := by
  obtain ⟨c, cs, hv, hc⟩ := print_eq_cons v
  rw [hv, List.cons_append, List.head?_cons]
  intro hclose
  obtain rfl : c = ']' := Option.some.inj hclose
  cases hc

theorem head?_printField_append (e : String × Json) (r : List Char) :
    (printField e ++ r).head? ≠ some '\x7d' := by
  rw [printField, printString, List.cons_append, List.cons_append, List.head?_cons]
  decide

/-! ## Values -/

theorem delimited_printField {e : String × Json} (h : Delimited print e.2) :
    Delimited printField e := by
  rintro ⟨k, v⟩ r r' hr hr' heq
  obtain ⟨k', v'⟩ := e
  rw [printField, printField, List.append_assoc, List.append_assoc] at heq
  obtain ⟨rfl, hbehind⟩ := printString_append_inj heq
  obtain ⟨rfl, rfl⟩ := h v r r' hr hr' (List.tail_eq_of_cons_eq hbehind)
  exact ⟨rfl, rfl⟩

theorem delimited_null : Delimited print .null := by
  intro w r r' _ _ heq
  have hkind := kind_eq_of_print_append heq
  cases w with
  | null => exact ⟨rfl, List.append_cancel_left heq⟩
  | _ => cases hkind

theorem delimited_bool (b : Bool) : Delimited print (.bool b) := by
  intro w r r' _ _ heq
  have hkind := kind_eq_of_print_append heq
  cases w with
  | bool b' =>
      have hhead := congrArg List.head? heq
      cases b <;> cases b'
      · exact ⟨rfl, List.append_cancel_left heq⟩
      · exact absurd (show some 'f' = some 't' from hhead) (by decide)
      · exact absurd (show some 't' = some 'f' from hhead) (by decide)
      · exact ⟨rfl, List.append_cancel_left heq⟩
  | _ => cases hkind

theorem delimited_num (n : Number) : Delimited print (.num n) := by
  intro w r r' hr hr' heq
  have hkind := kind_eq_of_print_append heq
  cases w with
  | num n' =>
      rw [print, print] at heq
      obtain ⟨rfl, rfl⟩ := printNumber_append_inj hr hr' heq
      exact ⟨rfl, rfl⟩
  | _ => cases hkind

theorem delimited_str (s : String) : Delimited print (.str s) := by
  intro w r r' _ _ heq
  have hkind := kind_eq_of_print_append heq
  cases w with
  | str s' =>
      rw [print, print] at heq
      obtain ⟨rfl, rfl⟩ := printString_append_inj heq
      exact ⟨rfl, rfl⟩
  | _ => cases hkind

theorem delimited_arr {items : List Json} (h : ∀ v ∈ items, Delimited print v) :
    Delimited print (.arr items) := by
  intro w r r' _ _ heq
  have hkind := kind_eq_of_print_append heq
  cases w with
  | arr items' =>
      rw [print, print, printItems_eq, printItems_eq, List.cons_append, List.cons_append,
        List.append_assoc, List.append_assoc] at heq
      obtain ⟨rfl, rfl⟩ := joined_append_inj (by decide) (by decide) head?_print_append h
        (List.tail_eq_of_cons_eq heq)
      exact ⟨rfl, rfl⟩
  | _ => cases hkind

theorem delimited_obj {fields : List (String × Json)} (h : ∀ e ∈ fields, Delimited print e.2) :
    Delimited print (.obj fields) := by
  intro w r r' _ _ heq
  have hkind := kind_eq_of_print_append heq
  cases w with
  | obj fields' =>
      rw [print, print, printFields_eq, printFields_eq, List.cons_append, List.cons_append,
        List.append_assoc, List.append_assoc] at heq
      obtain ⟨rfl, rfl⟩ := joined_append_inj (by decide) (by decide) head?_printField_append
        (fun e he => delimited_printField (h e he)) (List.tail_eq_of_cons_eq heq)
      exact ⟨rfl, rfl⟩
  | _ => cases hkind

/-- To prove something of every value, prove it of the plain ones, and of arrays and objects from
the values that they hold. -/
theorem induction {motive : Json → Prop} (null : motive .null) (bool : ∀ b, motive (.bool b))
    (num : ∀ n, motive (.num n)) (str : ∀ s, motive (.str s))
    (arr : ∀ items, (∀ v ∈ items, motive v) → motive (.arr items))
    (obj : ∀ fields, (∀ e ∈ fields, motive e.2) → motive (.obj fields)) (v : Json) : motive v :=
  @Json.rec motive (fun items => ∀ v ∈ items, motive v) (fun fields => ∀ e ∈ fields, motive e.2)
    (fun e => motive e.2) null bool num str arr obj
    (fun _ h => absurd h List.not_mem_nil) (fun _ _ hv hvs => List.forall_mem_cons.mpr ⟨hv, hvs⟩)
    (fun _ h => absurd h List.not_mem_nil) (fun _ _ he hes => List.forall_mem_cons.mpr ⟨he, hes⟩)
    (fun _ _ hv => hv) v

/-- **The text of a value is that of no other value, and shows where it ends.** -/
theorem delimited_print (v : Json) : Delimited print v := by
  induction v using Json.induction with
  | null => exact delimited_null
  | bool b => exact delimited_bool b
  | num n => exact delimited_num n
  | str s => exact delimited_str s
  | arr items ih => exact delimited_arr ih
  | obj fields ih => exact delimited_obj ih

/-- Values with the same text are the same. -/
theorem text_injective {v w : Json} (h : v.text = w.text) : v = w := by
  have hstops : Stops continuesNumber [] := by
    intro c hc
    cases hc
  have hprint : print v ++ [] = print w ++ [] := by
    rw [List.append_nil, List.append_nil]
    exact String.ofList_injective h
  exact (delimited_print v w [] [] hstops hstops hprint).1

end Tandem.Json
