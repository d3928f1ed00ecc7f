/-!
# Ordered dictionaries

A dictionary from names to values whose entries stand in ascending order of
their names, so that two dictionaries with the same bindings are the same
dictionary and are written the same way.

* `insertEntry` and `eraseEntry` work on bare entry lists; the object values of
  `Tandem.Json` share them.
* `Dict` carries the order as a proof (`Ascending`), which every operation keeps
  (`ascending_insertEntry`, `ascending_eraseEntry`).
* `Dict.get?_insert` and `Dict.get?_erase` say what the operations do to lookups, and
  by `Dict.ext_get?` a dictionary is determined by its lookups.
-/

namespace Tandem

variable {α : Type}

/-- The names of the entries stand in strictly ascending order. -/
def Ascending (entries : List (String × α)) : Prop :=
  entries.Pairwise (fun a b => a.1 < b.1)

/-- Bind `k` to `v` at its place in an ascending list, over any older binding. -/
def insertEntry (k : String) (v : α) : List (String × α) → List (String × α)
  | [] => [(k, v)]
  | (k', v') :: rest =>
    if k < k' then (k, v) :: (k', v') :: rest
    else if k = k' then (k, v) :: rest
    else (k', v') :: insertEntry k v rest

def eraseEntry (k : String) (entries : List (String × α)) : List (String × α) :=
  entries.filter (fun e => e.1 ≠ k)

/-- Later entries win. -/
def ofEntries (entries : List (String × α)) : List (String × α) :=
  entries.foldl (fun acc e => insertEntry e.1 e.2 acc) []

theorem mem_insertEntry {k : String} {v : α} {e : String × α} :
    ∀ {entries : List (String × α)}, e ∈ insertEntry k v entries → e = (k, v) ∨ e ∈ entries
  | [], h => .inl (List.mem_singleton.mp h)
  | (k', v') :: rest, h => by
    rw [insertEntry] at h
    split at h
    · exact List.mem_cons.mp h
    · split at h
      · exact (List.mem_cons.mp h).imp id (List.mem_cons_of_mem _)
      · rcases List.mem_cons.mp h with h | h
        · exact .inr (h ▸ List.mem_cons_self)
        · exact (mem_insertEntry h).imp id (List.mem_cons_of_mem _)

theorem lt_of_not_lt_of_ne {a b : String} (h : ¬a < b) (hne : a ≠ b) : b < a :=
  Decidable.byContradiction fun h' =>
    hne (String.le_antisymm (String.not_lt.mp h') (String.not_lt.mp h))

theorem ascending_insertEntry (k : String) (v : α) :
    ∀ {entries : List (String × α)}, Ascending entries → Ascending (insertEntry k v entries)
  | [], _ => List.pairwise_singleton _ _
  | (k', v') :: rest, h => by
    obtain ⟨hhead, htail⟩ := List.pairwise_cons.mp h
    rw [insertEntry]
    split
    next hlt =>
      refine List.pairwise_cons.mpr ⟨fun e he => ?_, h⟩
      rcases List.mem_cons.mp he with rfl | he
      · exact hlt
      · exact String.lt_trans hlt (hhead e he)
    next hlt =>
      split
      next heq => exact List.pairwise_cons.mpr ⟨fun e he => heq ▸ hhead e he, htail⟩
      next hne =>
        refine List.pairwise_cons.mpr ⟨fun e he => ?_, ascending_insertEntry k v htail⟩
        rcases mem_insertEntry he with rfl | he
        · exact lt_of_not_lt_of_ne hlt hne
        · exact hhead e he

theorem lookup_cons_ite (x : String) (e : String × α) (rest : List (String × α)) :
    (e :: rest).lookup x = if x = e.1 then some e.2 else rest.lookup x := by
  by_cases h : x = e.1
  · rw [if_pos h, h]; exact List.lookup_cons_self
  · rw [if_neg h, List.lookup_cons, beq_false_of_ne h]

theorem lookup_insertEntry (k : String) (v : α) (x : String) (entries : List (String × α)) :
    (insertEntry k v entries).lookup x = if x = k then some v else entries.lookup x := by
  induction entries with
  | nil => rw [insertEntry, lookup_cons_ite]
  | cons e rest ih =>
    obtain ⟨k', v'⟩ := e
    rw [insertEntry]
    split
    · rw [lookup_cons_ite]
    · split
      next heq =>
        subst heq
        rw [lookup_cons_ite, lookup_cons_ite]
        split <;> rfl
      next hne =>
        rw [lookup_cons_ite, lookup_cons_ite, ih]
        by_cases h : x = k
        · rw [if_neg (h ▸ hne), if_pos h, if_pos h]
        · rw [if_neg h, if_neg h]

theorem lookup_eraseEntry (k x : String) (entries : List (String × α)) :
    (eraseEntry k entries).lookup x = if x = k then none else entries.lookup x := by
  induction entries with
  | nil => simp [eraseEntry]
  | cons e rest ih =>
    rw [eraseEntry] at ih
    rw [eraseEntry, List.filter_cons, lookup_cons_ite]
    by_cases hk : e.1 = k
    · rw [if_neg (by simp [hk]), ih, hk]
      by_cases h : x = k <;> simp [h]
    · rw [if_pos (by simp [hk]), lookup_cons_ite, ih]
      by_cases h : x = e.1
      · rw [if_pos h, if_pos h, if_neg (h ▸ hk)]
      · rw [if_neg h, if_neg h]

/-- The names behind the first one of an ascending list are not bound to it. -/
theorem lookup_eq_none_of_ascending {k x : String} {v : α} {rest : List (String × α)}
    (h : Ascending ((k, v) :: rest)) (hx : x < k ∨ x = k) : rest.lookup x = none := by
  have hrest := (List.pairwise_cons.mp h).1
  rw [List.lookup_eq_none_iff]
  intro e he
  have hlt : x < e.1 := by
    rcases hx with hx | rfl
    · exact String.lt_trans hx (hrest e he)
    · exact hrest e he
  have hne : x ≠ e.1 := fun heq => String.lt_irrefl _ (heq ▸ hlt)
  simpa using hne

/-- Ascending lists with the same lookups are the same. -/
theorem eq_of_lookup_eq : ∀ {a b : List (String × α)}, Ascending a → Ascending b →
    (∀ x, a.lookup x = b.lookup x) → a = b
  | [], [], _, _, _ => rfl
  | [], (k, v) :: b, _, _, h => by simpa using h k
  | (k, v) :: a, [], _, _, h => by simpa using h k
  | (k, v) :: a, (k', v') :: b, ha, hb, h => by
    have hk : k = k' := by
      have h1 := h k
      have h2 := h k'
      by_cases heq : k = k'
      · exact heq
      · rcases Decidable.em (k < k') with hlt | hge
        · rw [lookup_cons_ite, lookup_cons_ite, if_pos rfl, if_neg heq,
            lookup_eq_none_of_ascending hb (.inl hlt)] at h1
          cases h1
        · rw [lookup_cons_ite, lookup_cons_ite, if_pos rfl, if_neg (Ne.symm heq),
            lookup_eq_none_of_ascending ha (.inl (lt_of_not_lt_of_ne hge heq))] at h2
          cases h2
    subst hk
    have hv : v = v' := by simpa using h k
    subst hv
    congr 1
    refine eq_of_lookup_eq (List.pairwise_cons.mp ha).2 (List.pairwise_cons.mp hb).2 fun x => ?_
    by_cases hx : x = k
    · rw [lookup_eq_none_of_ascending ha (.inr hx), lookup_eq_none_of_ascending hb (.inr hx)]
    · simpa [lookup_cons_ite, hx] using h x

theorem ascending_eraseEntry (k : String) {entries : List (String × α)} (h : Ascending entries) :
    Ascending (eraseEntry k entries) :=
  h.filter _

theorem ascending_ofEntries (entries : List (String × α)) : Ascending (ofEntries entries) := by
  suffices h : ∀ acc : List (String × α), Ascending acc →
      Ascending (entries.foldl (fun acc e => insertEntry e.1 e.2 acc) acc) from h [] .nil
  induction entries with
  | nil => exact fun _ h => h
  | cons e rest ih => exact fun acc h => ih _ (ascending_insertEntry e.1 e.2 h)

/-- A dictionary from names to values, its entries in ascending order of name. -/
structure Dict (α : Type) where
  entries : List (String × α)
  ascending : Ascending entries

namespace Dict

def empty : Dict α := ⟨[], .nil⟩

instance : Inhabited (Dict α) := ⟨empty⟩

instance [DecidableEq α] : DecidableEq (Dict α) := fun a b =>
  decidable_of_iff (a.entries = b.entries)
    ⟨fun h => by cases a; cases b; cases h; rfl, congrArg _⟩

/-- The dictionary of a list of bindings, later ones winning. -/
def ofList (entries : List (String × α)) : Dict α :=
  ⟨ofEntries entries, ascending_ofEntries entries⟩

def get? (d : Dict α) (k : String) : Option α := d.entries.lookup k

def insert (d : Dict α) (k : String) (v : α) : Dict α :=
  ⟨insertEntry k v d.entries, ascending_insertEntry k v d.ascending⟩

def erase (d : Dict α) (k : String) : Dict α :=
  ⟨eraseEntry k d.entries, ascending_eraseEntry k d.ascending⟩

@[simp]
theorem get?_empty (k : String) : (empty : Dict α).get? k = none := rfl

@[simp]
theorem get?_insert (d : Dict α) (k x : String) (v : α) :
    (d.insert k v).get? x = if x = k then some v else d.get? x :=
  lookup_insertEntry k v x d.entries

@[simp]
theorem get?_erase (d : Dict α) (k x : String) :
    (d.erase k).get? x = if x = k then none else d.get? x :=
  lookup_eraseEntry k x d.entries

/-- A dictionary is determined by its lookups. -/
theorem ext_get? {a b : Dict α} (h : ∀ k, a.get? k = b.get? k) : a = b := by
  have he := eq_of_lookup_eq a.ascending b.ascending h
  cases a
  cases b
  cases he
  rfl

def isEmpty (d : Dict α) : Bool := d.entries.isEmpty

/-- The bindings of `d` overridden by those of `overrides`. -/
def merge (d overrides : Dict α) : Dict α :=
  overrides.entries.foldl (fun acc e => acc.insert e.1 e.2) d

/-- Apply a patch: its `none` entries unbind, its `some` entries bind. -/
def patch (d : Dict α) (changes : Dict (Option α)) : Dict α :=
  changes.entries.foldl
    (fun acc e => match e.2 with
      | none => acc.erase e.1
      | some v => acc.insert e.1 v) d

def map {β : Type} (f : α → β) (d : Dict α) : Dict β :=
  ⟨d.entries.map (fun e => (e.1, f e.2)), by
    simpa [Ascending, List.pairwise_map] using d.ascending⟩

def filterKeys (p : String → Bool) (d : Dict α) : Dict α :=
  ⟨d.entries.filter (fun e => p e.1), d.ascending.filter _⟩

/-- The bindings for which `f` gives a value, with that value. -/
def filterMap {β : Type} (f : α → Option β) (d : Dict α) : Dict β :=
  ⟨d.entries.filterMap (fun e => (f e.2).map (e.1, ·)),
    d.ascending.filterMap _ fun a a' h b hb b' hb' => by
      obtain ⟨v, _, rfl⟩ := Option.map_eq_some_iff.mp hb
      obtain ⟨v', _, rfl⟩ := Option.map_eq_some_iff.mp hb'
      exact h⟩

end Dict

end Tandem
