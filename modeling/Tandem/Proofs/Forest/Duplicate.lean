import Tandem.Proofs.Forest.Identity
import Tandem.Proofs.Forest.Move

/-!
# A copy stands behind its original

A node of a well-formed forest stands at an index among the nodes of the node it is linked to,
or among the roots (`Forest.StandsAt`). A duplication looks for that place and uses the next one:

* **where a node stands** — `exists_standsAt`: every node has a place, as its link and the search
  for its holder agree (`held?_parent`);
* **what a duplication finds** — `StandsAt.duplicate_eq`: the search among the siblings ends at
  that place, so the copy is placed behind it;
* **what is there afterwards** — `StandsAt.place_self`, `StandsAt.place_behind`: the node stands
  where it stood, and what was placed behind it stands there.

With what is known of fresh ids this makes `duplicate_clones`.
-/

namespace Tandem.Forest

/-- The node stands at the index among the nodes of its parent, or among the roots if it has
no parent. -/
def StandsAt (f : Forest) (n : Node) (index : Nat) : Prop :=
  ∃ siblings, f.held? n.parent = some siblings ∧ siblings[index]? = some n

/-! ## Where a node stands -/

theorem mem_preorder_of_held? {f siblings : Forest} {holder : Option String}
    (h : f.held? holder = some siblings) {n : Node} (hn : n ∈ siblings) : n ∈ f.preorder := by
  cases holder with
  | none =>
      cases h
      exact mem_preorder_of_mem hn
  | some i =>
      obtain ⟨m, hm, rfl⟩ := Option.map_eq_some_iff.mp h
      exact preorder_children_subset (find?_eq_some hm).1 (mem_preorder_of_mem hn)

theorem nodup_ids_of_held? {f siblings : Forest} (hd : f.ids.Nodup) {holder : Option String}
    (h : f.held? holder = some siblings) : siblings.ids.Nodup := by
  cases holder with
  | none =>
      cases h
      exact hd
  | some i =>
      obtain ⟨m, hm, rfl⟩ := Option.map_eq_some_iff.mp h
      exact (List.nodup_cons.mp (hd.sublist (ids_subtree_sublist (find?_eq_some hm).1))).2

theorem StandsAt.mem {f : Forest} {n : Node} {index : Nat} (h : f.StandsAt n index) :
    n ∈ f.preorder := by
  obtain ⟨siblings, hheld, hindex⟩ := h
  exact mem_preorder_of_held? hheld (List.mem_of_getElem? hindex)

/-- The siblings of a node by its link are those by the search for its holder. -/
theorem held?_parent {f : Forest} (hf : f.WellFormed) {n : Node} (hn : n ∈ f.preorder) :
    f.held? n.parent = some ((f.parent? n.id).elim f (·.children)) ∧
      n ∈ (f.parent? n.id).elim f (·.children) := by
  obtain ⟨hd, hl⟩ := wellFormed_iff.mp hf
  rcases hl.parent?_cases hd n hn with ⟨hroot, hnone, hp⟩ | ⟨_, h, hh, hp⟩
  · rw [hnone, hp]
    exact ⟨rfl, hroot⟩
  · obtain ⟨hmem, m, hm, hid⟩ := parent?_eq_some hh
    have hin := preorder_children_subset hmem (mem_preorder_of_mem hm)
    obtain rfl : m = n := List.inj_on_of_nodup_map hd hin hn hid
    rw [hh, hp, held?, find?_of_mem hd hmem]
    exact ⟨rfl, hm⟩

theorem exists_standsAt {f : Forest} (hf : f.WellFormed) {n : Node} (hn : n ∈ f.preorder) :
    ∃ index, f.StandsAt n index := by
  obtain ⟨hheld, hmem⟩ := held?_parent hf hn
  obtain ⟨index, hindex⟩ := List.mem_iff_getElem?.mp hmem
  exact ⟨index, _, hheld, hindex⟩

/-! ## What a duplication finds -/

/-- Among siblings of different ids the search for an id ends at the node that has it. -/
theorem findIdx?_id {siblings : Forest} (hd : siblings.ids.Nodup) {n : Node} {index : Nat}
    (h : siblings[index]? = some n) : siblings.findIdx? (·.id = n.id) = some index := by
  obtain ⟨hlt, rfl⟩ := List.getElem?_eq_some_iff.mp h
  have hids : (siblings.map (·.id)).Nodup := hd.sublist (map_id_sublist siblings)
  refine List.findIdx?_eq_some_iff_getElem.mpr ⟨hlt, by simp, fun j hj hsame => ?_⟩
  have hne := List.pairwise_iff_getElem.mp hids j index (by simp; omega) (by simpa using hlt) hj
  exact hne (by simpa using hsame)

theorem StandsAt.duplicate_eq {f : Forest} (hf : f.WellFormed) {n : Node} {index : Nat}
    (h : f.StandsAt n index) (k : Nat) :
    f.duplicate n.id k = some (f.place n.parent (index + 1) (n.fresh k), n.fresh k) := by
  have hn := h.mem
  obtain ⟨siblings, hheld, hindex⟩ := h
  -- The duplication searches for the holder, and the place is by the link.
  have hsiblings : (f.parent? n.id).elim f (·.children) = siblings :=
    Option.some.inj ((held?_parent hf hn).1.symm.trans hheld)
  have hfound := findIdx?_id (nodup_ids_of_held? hf.distinct hheld) hindex
  simp only [duplicate, find?_of_mem hf.distinct hn, hsiblings, hfound, hf.parent?_eq hn]
  rfl

/-! ## What is there afterwards -/

theorem StandsAt.place_self {f : Forest} {n : Node} {index : Nat} (h : f.StandsAt n index)
    (m : Node) : (f.place n.parent (index + 1) m).StandsAt n index := by
  obtain ⟨siblings, hheld, hindex⟩ := h
  obtain ⟨hlt, _⟩ := List.getElem?_eq_some_iff.mp hindex
  refine ⟨_, by rw [held?_place, hheld, Option.map_some], ?_⟩
  rw [insertAt, List.getElem?_insertIdx_of_lt (by omega), hindex]

theorem link_self {n : Node} {parent : Option String} (h : n.parent = parent) :
    { n with parent := parent } = n := by
  cases n
  cases h
  rfl

theorem StandsAt.place_behind {f : Forest} {n : Node} {index : Nat} (h : f.StandsAt n index)
    {m : Node} (hm : m.parent = n.parent) :
    (f.place n.parent (index + 1) m).StandsAt m (index + 1) := by
  obtain ⟨siblings, hheld, hindex⟩ := h
  obtain ⟨hlt, _⟩ := List.getElem?_eq_some_iff.mp hindex
  refine ⟨_, by rw [hm, held?_place, hheld, Option.map_some], ?_⟩
  rw [link_self hm, insertAt, Nat.min_eq_left hlt, List.getElem?_insertIdx_self]
  exact if_pos hlt

theorem length_ids (f : Forest) : f.ids.length = f.count := by
  rw [ids, List.length_map, count]

theorem count_outlines (f : Forest) : Outline.count f.outlines = f.count := by
  induction f using Forest.induction with
  | nil => rw [outlines, Outline.count, count, preorder_nil, List.length_nil]
  | cons i parent widget children rest ihc ihr =>
      rw [outlines, Outline.count, ihc, ihr]
      simp only [count, preorder_cons, List.length_cons, List.length_append]
      omega

theorem count_place {f : Forest} (hd : f.ids.Nodup) {holder : Option String}
    (hh : ∀ i ∈ holder, i ∈ f.ids) (index : Nat) (n : Node) :
    (f.place holder index n).count = f.count + (count n.children + 1) := by
  rw [← length_ids, (ids_place_perm index n hd hh).length_eq, List.length_append, List.length_cons,
    length_ids, length_ids, Nat.add_comm]

theorem count_fresh (k : Nat) (n : Node) : count (n.fresh k).children = count n.children := by
  rw [← count_outlines, ← count_outlines]
  exact congrArg (fun o => Outline.count o.children) (Node.outline_fresh k n)

/-- **A copy stands behind its original.** An id that the forest does not have cannot be
duplicated. For any other one, if the ids that are given out for its node and for those below it
are new, the forest grows by one subtree and is the same without it. The original stands where it
stood, and the copy at the next place among the same siblings. The copy shows what the original
shows; its ids are new and different, its links are right, and so are those of the whole forest,
which has grown by the nodes of the original. -/
theorem duplicate_clones {f : Forest} (hf : f.WellFormed) (id : String) {k : Nat}
    (hnew : ∀ n ∈ f.find? id, ∀ i ∈ minted k n.outline.size, i ∉ f.ids) :
    (id ∉ f.ids → f.duplicate id k = none) ∧
    (id ∈ f.ids → ∃ n index f' copy, f.find? id = some n ∧ f.StandsAt n index ∧
      f.duplicate id k = some (f', copy) ∧
      f'.prune copy.id = f ∧ f'.find? copy.id = some copy ∧
      f'.StandsAt n index ∧ copy.parent = n.parent ∧ f'.StandsAt copy (index + 1) ∧
      copy.outline = n.outline ∧ (∀ i ∈ copy.id :: ids copy.children, i ∉ f.ids) ∧
      copy.WellFormed ∧ f'.WellFormed ∧ f'.count = f.count + (count n.children + 1)) := by
  constructor
  · intro hid
    rw [duplicate, find?_eq_none hid]
    rfl
  · intro hid
    obtain ⟨n, hn⟩ := exists_find?_eq hid
    obtain ⟨hmem, rfl⟩ := find?_eq_some hn
    obtain ⟨index, hstands⟩ := exists_standsAt hf hmem
    have hcopy := hstands.duplicate_eq hf k
    have hfresh : ∀ i ∈ (n.fresh k).id :: ids (n.fresh k).children, i ∉ f.ids := by
      rw [Node.ids_fresh]
      exact hnew n hn
    have hgone : (n.fresh k).id ∉ f.ids := hfresh _ List.mem_cons_self
    have hholder : ∀ i ∈ n.parent, i ∈ f.ids := by
      rw [← hf.parent?_eq hmem]
      exact mem_ids_of_parent?
    have hwell : (n.fresh k).WellFormed := Outline.stamp_wellFormed _ _ _
    have hcount := count_place hf.distinct hholder (index + 1) (n.fresh k)
    rw [count_fresh] at hcount
    exact ⟨n, index, _, _, hn, hstands, hcopy, prune_place _ _ hgone,
      find?_place (index + 1) hgone hholder, hstands.place_self _, rfl,
      hstands.place_behind rfl, Node.outline_fresh k n, hfresh, hwell,
      hf.place hwell _ hholder hfresh, hcount⟩

/-- A row with a text in it is duplicated: the copy stands between the row and the rule. -/
theorem duplicate_clones_of_row :
    let text : Node := ⟨"c", some "b", { component := "Text" }, []⟩
    let row : Node := ⟨"b", some "a", { component := "Row" }, [text]⟩
    let rule : Node := ⟨"d", some "a", { component := "Divider" }, []⟩
    let f : Forest := [⟨"a", none, { component := "Card" }, [row, rule]⟩]
    let copy : Node := ⟨mint 0, some "a", { component := "Row" },
      [⟨mint 1, some (mint 0), { component := "Text" }, []⟩]⟩
    let f' : Forest := [⟨"a", none, { component := "Card" }, [row, copy, rule]⟩]
    f.WellFormed ∧ (∀ n ∈ f.find? "b", ∀ i ∈ minted 0 n.outline.size, i ∉ f.ids) ∧
      f.duplicate "b" 0 = some (f', copy) ∧ f'.prune (mint 0) = f ∧ f'.WellFormed ∧
      f'.count = f.count + 2 ∧ f.duplicate "x" 0 = none := by
  intro text row rule f copy f'
  have hids : f.ids = ["a", "b", "c", "d"] := by simp [f, row, rule, text]
  have hf : f.WellFormed := wellFormed_iff.mpr
    ⟨by rw [hids]; decide, by simp [f, row, rule, text]⟩
  have hrow : f.find? "b" = some row := by cbv
  have hcopied : f.duplicate "b" 0 = some (f', copy) := by
    simp [duplicate, find?, parent?, place, insertUnder, insertAt, List.findIdx?, List.findIdx?.go,
      Node.fresh, Node.outline, Outline.stamp, Outline.stampAll, outlines, f, f', copy, row, rule,
      text]
  have hnew : ∀ n ∈ f.find? "b", ∀ i ∈ minted 0 n.outline.size, i ∉ f.ids := by
    have hsize : row.outline.size = 2 := by cbv
    rw [hids, hrow]
    rintro n ⟨⟩
    rw [hsize]
    decide
  have hbelow : count row.children = 1 := by simp [count, row, text]
  obtain ⟨n, index, g, _, hn, _, hg, hpruned, _, _, _, _, _, _, _, hwell, hcount⟩ :=
    (duplicate_clones hf "b" hnew).2 (by rw [hids]; decide)
  obtain ⟨rfl, rfl⟩ := Prod.mk.inj (Option.some.inj (hcopied.symm.trans hg))
  obtain rfl : row = n := Option.some.inj (hrow.symm.trans hn)
  rw [hbelow] at hcount
  refine ⟨hf, hnew, hcopied, hpruned, hwell, hcount,
    (duplicate_clones hf "x" ?_).1 (by rw [hids]; decide)⟩
  have hmissing : f.find? "x" = none := find?_eq_none (by rw [hids]; decide)
  rw [hmissing]
  rintro n ⟨⟩

end Tandem.Forest
