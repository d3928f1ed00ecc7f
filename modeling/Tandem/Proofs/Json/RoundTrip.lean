import Tandem.Json.Reader
import Tandem.Proofs.Dict
import Tandem.Proofs.Json.Token

/-!
# JSON that is printed is read back

A value is plain if all its numbers are whole numbers of 64 bits and its objects have
their fields in order. The compact text of a plain value is read back as that value if
it is not nested too deeply (`ofText?_print`):

* **text to tokens** — `Plain.readsBack`;
* **tokens to a tree** — `Plain.buildsTree`, the reader over any stack of open structures;
* **a tree to a value** — `Plain.isValueOf`.
-/

namespace Tandem.Json

open Text

/-- Whole numbers of 64 bits, and objects with their fields in order. -/
inductive Plain : Json → Prop
  | null : Plain .null
  | bool (b : Bool) : Plain (.bool b)
  | int (n : Int) (h : Has64Bits n) : Plain (.num (.int n))
  | str (s : String) : Plain (.str s)
  | arr (items : List Json) (h : ∀ v ∈ items, Plain v) : Plain (.arr items)
  | obj (fields : List (String × Json)) (ascending : Ascending fields)
      (h : ∀ e ∈ fields, Plain e.2) : Plain (.obj fields)

mutual

/-- The tokens that a value is printed as. -/
def tokens : Json → List Token
  | .null => [.null]
  | .bool b => [.bool b]
  | .num n => [.num (some n)]
  | .str s => [.str (some s)]
  | .arr items => .openArray :: (itemTokens items ++ [.closeArray])
  | .obj fields => .openObject :: (fieldTokens fields ++ [.closeObject])

def itemTokens : List Json → List Token
  | [] => []
  | [v] => tokens v
  | v :: vs => tokens v ++ .comma :: itemTokens vs

def fieldTokens : List (String × Json) → List Token
  | [] => []
  | [(k, v)] => .str (some k) :: .colon :: tokens v
  | (k, v) :: fs => .str (some k) :: .colon :: (tokens v ++ .comma :: fieldTokens fs)

end

/-! ## Text to tokens -/

/-- What a value is printed as is read back as its tokens, in front of any text that does
not go on with a number. -/
def ReadsBack (v : Json) : Prop :=
  ∀ rest, Stops continuesNumber rest →
    tokens? (print v ++ rest) = (tokens? rest).map (v.tokens ++ ·)

theorem tokens?_printItems {items : List Json} (h : ∀ v ∈ items, ReadsBack v) (rest : List Char) :
    tokens? (printItems items ++ ']' :: rest) =
      (tokens? rest).map (itemTokens items ++ .closeArray :: ·) := by
  have hclose : tokens? (']' :: rest) = (tokens? rest).map (Token.closeArray :: ·) :=
    tokens?_cons (by decide) rfl
  induction items with
  | nil => exact hclose
  | cons v vs ih =>
      have hv := h v List.mem_cons_self
      cases vs with
      | nil =>
          rw [printItems, itemTokens, hv _ (stops_cons (by decide)), hclose, Option.map_map]
          rfl
      | cons w ws =>
          have htail := ih fun u hu => h u (List.mem_cons_of_mem _ hu)
          rw [printItems, itemTokens, List.append_assoc, List.cons_append]
          · rw [hv _ (stops_cons (by decide)), tokens?_cons (by decide) rfl, htail,
              Option.map_map, Option.map_map]
            simp [Function.comp_def]
          · simp
          · simp

theorem tokens?_printFields {fields : List (String × Json)} (h : ∀ e ∈ fields, ReadsBack e.2)
    (rest : List Char) :
    tokens? (printFields fields ++ '\x7d' :: rest) =
      (tokens? rest).map (fieldTokens fields ++ .closeObject :: ·) := by
  have hclose : tokens? ('\x7d' :: rest) = (tokens? rest).map (Token.closeObject :: ·) :=
    tokens?_cons (by decide) rfl
  induction fields with
  | nil => exact hclose
  | cons e es ih =>
      obtain ⟨k, v⟩ := e
      have hv := h (k, v) List.mem_cons_self
      cases es with
      | nil =>
          rw [printFields, fieldTokens, List.append_assoc, tokens?_printString, List.cons_append,
            tokens?_cons (by decide) rfl, hv _ (stops_cons (by decide)), hclose]
          simp [Function.comp_def]
      | cons w ws =>
          have htail := ih fun u hu => h u (List.mem_cons_of_mem _ hu)
          rw [printFields, fieldTokens, List.append_assoc, tokens?_printString, List.cons_append,
            tokens?_cons (by decide) rfl, List.append_assoc, List.cons_append]
          · rw [hv _ (stops_cons (by decide)), tokens?_cons (by decide) rfl, htail]
            simp [Function.comp_def]
          · simp
          · simp

theorem Plain.readsBack {v : Json} (hv : v.Plain) : ReadsBack v := by
  induction hv with
  | null =>
      intro rest _
      exact tokens?_cons (by decide) rfl
  | bool b =>
      intro rest _
      cases b with
      | true => exact tokens?_cons (by decide) rfl
      | false => exact tokens?_cons (by decide) rfl
  | int n h =>
      intro rest hrest
      rw [print, printNumber, tokens?_printInt h hrest, tokens]
      rfl
  | str s =>
      intro rest _
      rw [print, tokens?_printString, tokens]
      rfl
  | arr items _ ih =>
      intro rest _
      rw [print, tokens, List.cons_append, tokens?_cons (by decide) rfl, List.append_assoc,
        List.singleton_append, tokens?_printItems ih]
      simp [Function.comp_def]
  | obj fields _ _ ih =>
      intro rest _
      rw [print, tokens, List.cons_append, tokens?_cons (by decide) rfl, List.append_assoc,
        List.singleton_append, tokens?_printFields ih]
      simp [Function.comp_def]

/-! ## Tokens to a tree -/

theorem tokens_eq_cons (v : Json) : ∃ t ts, v.tokens = t :: ts ∧ t ≠ .closeArray := by
  cases v with
  | null => exact ⟨_, _, by rw [tokens], by decide⟩
  | bool b => exact ⟨_, _, by rw [tokens], by simp⟩
  | num n => exact ⟨_, _, by rw [tokens], by simp⟩
  | str s => exact ⟨_, _, by rw [tokens], by simp⟩
  | arr items => exact ⟨_, _, by rw [tokens], by decide⟩
  | obj fields => exact ⟨_, _, by rw [tokens], by decide⟩

/-- Behind an opening bracket, anything but the end is the first item. -/
theorem run_arrayStart {stack : List Open} {t : Token} (ht : t ≠ .closeArray) (ts : List Token) :
    State.run (.arrayStart stack) (t :: ts) =
      State.run (.value (.array [] :: stack)) (t :: ts) := by
  cases t <;> first
    | exact absurd rfl ht
    | rfl

/-- The reader goes over the tokens of the value and has its tree, over any stack. -/
def BuildsTree (v : Json) : Prop :=
  ∀ stack ts, State.run (.value stack) (v.tokens ++ ts) = State.run (.after v.raw stack) ts

theorem run_itemTokens {items : List Json} (h : ∀ v ∈ items, BuildsTree v) (hne : items ≠ [])
    (done : List Raw) (stack : List Open) (ts : List Token) :
    State.run (.value (.array done :: stack)) (itemTokens items ++ .closeArray :: ts) =
      State.run (.after (.arr (done.reverse ++ rawItems items)) stack) ts := by
  induction items generalizing done with
  | nil => exact absurd rfl hne
  | cons v vs ih =>
      have hv := h v List.mem_cons_self
      cases vs with
      | nil =>
          rw [itemTokens, hv]
          show State.run (.after (.arr (v.raw :: done).reverse) stack) ts = _
          rw [List.reverse_cons, rawItems, rawItems]
      | cons w ws =>
          have htail := ih (fun u hu => h u (List.mem_cons_of_mem _ hu)) (by simp) (v.raw :: done)
          rw [itemTokens, List.append_assoc, hv, List.cons_append]
          · show State.run (.value (.array (v.raw :: done) :: stack)) _ = _
            rw [htail, List.reverse_cons, List.append_assoc, List.singleton_append, ← rawItems]
          · simp

theorem run_fieldTokens {fields : List (String × Json)} (h : ∀ e ∈ fields, BuildsTree e.2)
    (hne : fields ≠ []) (done : List (Option String × Raw)) (stack : List Open) (ts : List Token) :
    State.run (.name done stack) (fieldTokens fields ++ .closeObject :: ts) =
      State.run (.after (.obj (done.reverse ++ rawFields fields)) stack) ts := by
  induction fields generalizing done with
  | nil => exact absurd rfl hne
  | cons e es ih =>
      obtain ⟨k, v⟩ := e
      have hv := h (k, v) List.mem_cons_self
      cases es with
      | nil =>
          rw [fieldTokens, List.cons_append, List.cons_append]
          show State.run (.value (.object done (some k) :: stack)) _ = _
          rw [hv]
          show State.run (.after (.obj ((some k, v.raw) :: done).reverse) stack) ts = _
          rw [List.reverse_cons, rawFields, rawFields]
      | cons w ws =>
          have htail := ih (fun u hu => h u (List.mem_cons_of_mem _ hu)) (by simp)
            ((some k, v.raw) :: done)
          rw [fieldTokens, List.cons_append, List.cons_append, List.append_assoc, List.cons_append]
          · show State.run (.value (.object done (some k) :: stack)) _ = _
            rw [hv]
            show State.run (.name ((some k, v.raw) :: done) stack) _ = _
            rw [htail, List.reverse_cons, List.append_assoc, List.singleton_append, ← rawFields]
          · simp

theorem Plain.buildsTree {v : Json} (hv : v.Plain) : BuildsTree v := by
  induction hv with
  | null => intro stack ts; rw [tokens, raw]; rfl
  | bool b => intro stack ts; rw [tokens, raw]; rfl
  | int n _ => intro stack ts; rw [tokens, raw]; rfl
  | str s => intro stack ts; rw [tokens, raw]; rfl
  | arr items _ ih =>
      intro stack ts
      rw [tokens, raw, List.cons_append, List.append_assoc, List.singleton_append]
      show State.run (.arrayStart stack) _ = _
      cases items with
      | nil => rw [itemTokens, rawItems]; rfl
      | cons v vs =>
          have hitems := run_itemTokens ih (by simp) [] stack ts
          -- The first token of the first item decides that the array is not empty.
          obtain ⟨t, ts', htokens, ht⟩ : ∃ t ts', itemTokens (v :: vs) = t :: ts' ∧
              t ≠ .closeArray := by
            obtain ⟨t, ts', htokens, ht⟩ := tokens_eq_cons v
            cases vs with
            | nil => exact ⟨t, ts', by rw [itemTokens, htokens], ht⟩
            | cons w ws =>
                refine ⟨t, ts' ++ .comma :: itemTokens (w :: ws), ?_, ht⟩
                rw [itemTokens, htokens, List.cons_append]
                simp
          rw [htokens, List.cons_append, run_arrayStart ht, ← List.cons_append, ← htokens, hitems]
          rfl
  | obj fields _ _ ih =>
      intro stack ts
      rw [tokens, raw, List.cons_append, List.append_assoc, List.singleton_append]
      show State.run (.objectStart stack) _ = _
      cases fields with
      | nil => rw [fieldTokens, rawFields]; rfl
      | cons e es =>
          have hfields := run_fieldTokens ih (by simp) [] stack ts
          -- A name is read in the same way behind the brace and behind a comma.
          have hstart : ∀ ts', State.run (.objectStart stack) (fieldTokens (e :: es) ++ ts') =
              State.run (.name [] stack) (fieldTokens (e :: es) ++ ts') := by
            intro ts'
            cases es with
            | nil => rw [fieldTokens]; rfl
            | cons w ws =>
                rw [fieldTokens]
                · rfl
                · simp
          rw [hstart, hfields]
          rfl

/-! ## A tree to a value -/

/-- The value has its tree's value back, if that many levels of nesting are allowed. -/
def IsValueOf (v : Json) : Prop := ∀ depth, v.raw.depth ≤ depth → v.raw.value? depth = some v

theorem items?_rawItems {items : List Json} (h : ∀ v ∈ items, IsValueOf v) {depth : Nat}
    (hdepth : Raw.depthItems (rawItems items) ≤ depth) :
    Raw.items? depth (rawItems items) = some items := by
  induction items with
  | nil => rw [rawItems, Raw.items?]
  | cons v vs ih =>
      rw [rawItems, Raw.depthItems] at hdepth
      have hhead := h v List.mem_cons_self depth (by omega)
      have htail := ih (fun u hu => h u (List.mem_cons_of_mem _ hu)) (by omega)
      rw [rawItems, Raw.items?, hhead, htail]
      rfl

theorem fields?_rawFields {fields : List (String × Json)} (h : ∀ e ∈ fields, IsValueOf e.2)
    {depth : Nat} (hdepth : Raw.depthFields (rawFields fields) ≤ depth) :
    Raw.fields? depth (rawFields fields) = some fields := by
  induction fields with
  | nil => rw [rawFields, Raw.fields?]
  | cons e es ih =>
      obtain ⟨k, v⟩ := e
      rw [rawFields, Raw.depthFields] at hdepth
      have hhead : v.raw.value? depth = some v := h (k, v) List.mem_cons_self depth
        (Nat.le_trans (Nat.le_max_left _ _) hdepth)
      have htail := ih (fun u hu => h u (List.mem_cons_of_mem _ hu)) (by omega)
      rw [rawFields, Raw.fields?, hhead, htail]
      rfl

theorem Plain.isValueOf {v : Json} (hv : v.Plain) : IsValueOf v := by
  induction hv with
  | null => intro depth _; rw [raw, Raw.value?]
  | bool b => intro depth _; rw [raw, Raw.value?]
  | int n _ => intro depth _; rw [raw, Raw.value?]; rfl
  | str s => intro depth _; rw [raw, Raw.value?]; rfl
  | arr items _ ih =>
      intro depth hdepth
      rw [raw, Raw.depth] at hdepth
      obtain ⟨d, rfl⟩ : ∃ d, depth = d + 1 := ⟨depth - 1, by omega⟩
      rw [raw, Raw.value?, items?_rawItems ih (by omega)]
      rfl
  | obj fields hasc _ ih =>
      intro depth hdepth
      rw [raw, Raw.depth] at hdepth
      obtain ⟨d, rfl⟩ : ∃ d, depth = d + 1 := ⟨depth - 1, by omega⟩
      rw [raw, Raw.value?, fields?_rawFields ih (by omega), Option.map_some, object,
        ofEntries_eq_self hasc]

/-- **The compact text of a plain value is read back.** -/
theorem Plain.ofText?_print {v : Json} (hv : v.Plain) (hdepth : v.raw.depth ≤ depthLimit) :
    ofText? (print v) = some v := by
  have htokens : tokens? (print v) = some v.tokens := by
    have h := hv.readsBack [] (fun c hc => by cases hc)
    rw [List.append_nil] at h
    rw [h, tokens?, Option.map_some, List.append_nil]
  have htree : Raw.ofTokens? v.tokens = some v.raw := by
    have h := hv.buildsTree [] []
    rw [List.append_nil] at h
    rw [Raw.ofTokens?, h]
    rfl
  rw [ofText?, Raw.ofText?, htokens, Option.bind_some, htree, Option.bind_some,
    hv.isValueOf _ hdepth]

end Tandem.Json
