import Tandem.Proofs.Forest.Duplicate

/-!
# Edits cancel

Placing a node and pruning it cancel in both orders. That pruning takes back what was placed is
known (`prune_place`); the other order needs the place that the node had:

* **pruning, then placing** — `StandsAt.place_prune`: a node that is put back where it stood
  restores the forest, as pruning has moved only the siblings behind it;
* **the way back is open** — `StandsAt.holder`: the node that held it does not lie in it, so it
  is there when the node is gone, and a move back to it is accepted.

`edits_cancel` says this of the edits.
-/

namespace Tandem.Forest

/-! ## Pruning, then placing -/

theorem insertAt_cons_succ (index : Nat) (n m : Node) (rest : Forest) :
    insertAt (index + 1) n (m :: rest) = m :: insertAt index n rest := by
  rw [insertAt, insertAt, List.length_cons, Nat.succ_min_succ, List.insertIdx_succ_cons]

/-- A sibling that is put back at its index restores the siblings. -/
theorem insertAt_prune {siblings : Forest} (hd : siblings.ids.Nodup) {n : Node} {index : Nat}
    (h : siblings[index]? = some n) : insertAt index n (siblings.prune n.id) = siblings := by
  induction siblings generalizing index with
  | nil => cases h
  | cons m rest ih =>
      simp only [ids_cons, List.nodup_cons, List.nodup_append, List.mem_append, not_or] at hd
      obtain ⟨⟨_, hmr⟩, _, hdr, hcr⟩ := hd
      -- Pruning takes the node away only where it stands, so the siblings in front of it keep
      -- their indexes.
      cases index with
      | zero =>
          obtain rfl : m = n := Option.some.inj h
          rw [prune_cons, if_pos rfl, prune_eq_self hmr]
          rfl
      | succ index =>
          have hn : n.id ∈ ids rest := id_mem_ids (mem_preorder_of_mem (List.mem_of_getElem? h))
          have hne : m.id ≠ n.id := fun heq => hmr (heq ▸ hn)
          have hc : n.id ∉ ids m.children := fun hc => hcr _ hc _ hn rfl
          rw [prune_cons, if_neg hne, prune_eq_self hc, insertAt_cons_succ, ih hdr h]
          cases m
          rfl

/-- A node that is put back under its holder at its index restores the forest. -/
theorem insertUnder_prune {f : Forest} (hd : f.ids.Nodup) {holder : String} {m n : Node}
    {index : Nat} (hm : f.find? holder = some m) (hn : m.children[index]? = some n)
    (hp : n.parent = some holder) : insertUnder holder index n (f.prune n.id) = f := by
  induction f using Forest.induction with
  | nil => simp [find?] at hm
  | cons i parent widget children rest ihc ihr =>
      simp only [ids_cons, List.nodup_cons, List.nodup_append, List.mem_append, not_or] at hd
      obtain ⟨⟨hic, hir⟩, hdc, hdr, hcr⟩ := hd
      rw [find?_cons] at hm
      have hbelow : n ∈ preorder m.children := mem_preorder_of_mem (List.mem_of_getElem? hn)
      by_cases hi : i = holder
      · subst hi
        simp only [if_true, Option.some.injEq] at hm
        subst hm
        have hin : n.id ∈ children.ids := id_mem_ids hbelow
        have hne : i ≠ n.id := fun heq => hic (heq ▸ hin)
        have hnr : n.id ∉ rest.ids := fun hr => hcr _ hin _ hr rfl
        rw [prune_cons, if_neg hne, prune_eq_self hnr, insertUnder_cons, if_pos rfl,
          insertUnder_eq_self index n hir]
        simp only [link_self hp, insertAt_prune hdc hn]
      · simp only [if_neg hi] at hm
        -- The holder and the node stand on the same side, so the other one is left alone.
        cases hfc : find? children holder with
        | some m' =>
            rw [hfc, Option.some_or, Option.some.injEq] at hm
            subst hm
            obtain ⟨hmem, hid⟩ := find?_eq_some hfc
            have hholder : holder ∉ rest.ids := fun hr => hcr _ (hid ▸ id_mem_ids hmem) _ hr rfl
            have hin : n.id ∈ children.ids := id_mem_ids (preorder_children_subset hmem hbelow)
            have hne : i ≠ n.id := fun heq => hic (heq ▸ hin)
            have hnr : n.id ∉ rest.ids := fun hr => hcr _ hin _ hr rfl
            rw [prune_cons, if_neg hne, prune_eq_self hnr, insertUnder_cons, if_neg hi,
              insertUnder_eq_self index n hholder, ihc hdc hfc]
        | none =>
            rw [hfc, Option.none_or] at hm
            obtain ⟨hmem, hid⟩ := find?_eq_some hm
            have hholder : holder ∉ children.ids := find?_eq_none_iff.mp hfc
            have hin : n.id ∈ rest.ids := id_mem_ids (preorder_children_subset hmem hbelow)
            have hne : i ≠ n.id := fun heq => hir (heq ▸ hin)
            have hnc : n.id ∉ children.ids := fun hc => hcr _ hc _ hin rfl
            rw [prune_cons, if_neg hne, prune_eq_self hnc, insertUnder_cons, if_neg hi,
              insertUnder_eq_self index n hholder, ihr hdr hm]

/-- Placing takes back what was pruned. -/
theorem StandsAt.place_prune {f : Forest} (hd : f.ids.Nodup) {n : Node} {index : Nat}
    (h : f.StandsAt n index) : (f.prune n.id).place n.parent index n = f := by
  obtain ⟨siblings, hheld, hindex⟩ := h
  cases hp : n.parent with
  | none =>
      rw [hp] at hheld
      cases hheld
      show insertAt index { n with parent := none } (f.prune n.id) = f
      rw [link_self hp, insertAt_prune hd hindex]
  | some holder =>
      rw [hp] at hheld
      obtain ⟨m, hm, rfl⟩ := Option.map_eq_some_iff.mp hheld
      exact insertUnder_prune hd hm hindex hp

/-- The link of a node does not matter where it is put: it is set there. -/
theorem place_relink (holder parent : Option String) (index : Nat) (n : Node) (f : Forest) :
    f.place holder index { n with parent := parent } = f.place holder index n := by
  cases holder with
  | none => rfl
  | some h =>
      show insertUnder h index { n with parent := parent } f = insertUnder h index n f
      induction f using Forest.induction with
      | nil => rw [insertUnder, insertUnder]
      | cons i p widget children rest ihc ihr => rw [insertUnder_cons, insertUnder_cons, ihc, ihr]

/-! ## The way back is open -/

/-- The node that holds a node is there and does not lie in it. -/
theorem StandsAt.holder {f : Forest} (hd : f.ids.Nodup) {n : Node} {index : Nat}
    (h : f.StandsAt n index) : ∀ i ∈ n.parent, i ≠ n.id ∧ i ∉ ids n.children ∧ i ∈ f.ids := by
  obtain ⟨siblings, hheld, hindex⟩ := h
  intro i hi
  rw [hi] at hheld
  obtain ⟨m, hm, rfl⟩ := Option.map_eq_some_iff.mp hheld
  obtain ⟨hmem, rfl⟩ := find?_eq_some hm
  have hnot := (List.nodup_cons.mp (hd.sublist (ids_subtree_sublist hmem))).1
  have hsubtree := ids_subtree_sublist (mem_preorder_of_mem (List.mem_of_getElem? hindex))
  exact ⟨fun heq => hnot (hsubtree.subset (heq ▸ List.mem_cons_self)),
    fun hbelow => hnot (hsubtree.subset (List.mem_cons_of_mem _ hbelow)), id_mem_ids hmem⟩

/-! ## The edits -/

theorem add_eq_place {f : Forest} {holder : Option String} (index : Nat) (n : Node)
    (hh : ∀ i ∈ holder, i ∈ f.ids) : f.add n holder index = some (f.place holder index n) := by
  refine if_pos ?_
  cases holder with
  | none => rfl
  | some i => exact contains_iff.mpr (hh i rfl)

theorem move_eq_place {f : Forest} {n : Node} (hn : f.find? n.id = some n)
    {holder : Option String} (index : Nat)
    (hh : ∀ i ∈ holder, i ≠ n.id ∧ i ∉ ids n.children ∧ i ∈ f.ids) :
    f.move n.id holder index = some ((f.prune n.id).place holder index n) := by
  rw [move, hn]
  exact if_pos (canHold_iff.mpr hh)

theorem remove_eq_prune {f : Forest} {id : String} (hid : id ∈ f.ids) :
    f.remove id = some (f.prune id) :=
  if_pos (contains_iff.mpr hid)

theorem remove_place {f : Forest} {n : Node} {holder : Option String} (index : Nat)
    (h : n.id ∉ f.ids) (hh : ∀ i ∈ holder, i ∈ f.ids) :
    (f.place holder index n).remove n.id = some f := by
  have hin : n.id ∈ (f.place holder index n).ids :=
    contains_iff.mp (Option.isSome_iff_exists.mpr ⟨_, find?_place index h hh⟩)
  rw [remove_eq_prune hin, prune_place holder index h]

theorem StandsAt.add_prune {f : Forest} (hd : f.ids.Nodup) {n : Node} {index : Nat}
    (h : f.StandsAt n index) : (f.prune n.id).add n n.parent index = some f := by
  have hn := find?_of_mem hd h.mem
  rw [add_eq_place index n fun i hi => mem_ids_prune hd hn (h.holder hd i hi), h.place_prune hd]

/-- Wherever a node was moved, the move back restores the forest. -/
theorem StandsAt.move_move {f f' : Forest} (hd : f.ids.Nodup) {n : Node} {index : Nat}
    (h : f.StandsAt n index) {holder : Option String} {position : Nat}
    (hmove : f.move n.id holder position = some f') : f'.move n.id n.parent index = some f := by
  have hids := ids_move_perm hd hmove
  have hn := find?_of_mem hd h.mem
  obtain ⟨m, hm, hholder, rfl⟩ := move_eq_some hmove
  obtain rfl : n = m := Option.some.inj (hn.symm.trans hm)
  have hgone : n.id ∉ (f.prune n.id).ids := not_mem_ids_prune n.id f
  -- What stands in the forest between the moves is the node with another link, in which the node
  -- that held it does not lie any more than before.
  have hfound := find?_place position hgone fun i hi => mem_ids_prune hd hn (hholder i hi)
  have hback : ∀ i ∈ n.parent, i ≠ n.id ∧ i ∉ ids n.children ∧
      i ∈ ids ((f.prune n.id).place holder position n) := by
    intro i hi
    obtain ⟨hne, hbelow, hin⟩ := h.holder hd i hi
    exact ⟨hne, hbelow, hids.mem_iff.mpr hin⟩
  rw [move_eq_place (n := { n with parent := holder }) hfound index hback]
  simp only [prune_place holder position hgone, place_relink, h.place_prune hd]

/-- **Edits cancel.** In a well-formed forest every node has a place. A node with a new id that is
added anywhere can be removed, and a node that is removed can be added where it stood; a node that
is moved anywhere can be moved back to its parent and index; a copy with a new id can be removed
by it. Each time the forest is the one before. -/
theorem edits_cancel {f : Forest} (hf : f.WellFormed) :
    (∀ (n : Node) (holder : Option String) (index : Nat), n.id ∉ f.ids →
      (∀ i ∈ holder, i ∈ f.ids) →
        ∃ f', f.add n holder index = some f' ∧ f'.remove n.id = some f) ∧
    (∀ id ∈ f.ids, ∃ n index, f.find? id = some n ∧ f.StandsAt n index) ∧
    ∀ n index, f.StandsAt n index →
      (∃ f', f.remove n.id = some f' ∧ f'.add n n.parent index = some f) ∧
      (∀ holder position f', f.move n.id holder position = some f' →
        f'.move n.id n.parent index = some f) ∧
      (∀ k, mint k ∉ f.ids →
        ∃ f' copy, f.duplicate n.id k = some (f', copy) ∧ f'.remove copy.id = some f) := by
  refine ⟨fun n holder index hnew hh => ?_, fun id hid => ?_, fun n index h => ⟨?_, ?_, ?_⟩⟩
  · exact ⟨_, add_eq_place index n hh, remove_place index hnew hh⟩
  · obtain ⟨n, hn⟩ := exists_find?_eq hid
    obtain ⟨index, hindex⟩ := exists_standsAt hf (find?_eq_some hn).1
    exact ⟨n, index, hn, hindex⟩
  · exact ⟨_, remove_eq_prune (id_mem_ids h.mem), h.add_prune hf.distinct⟩
  · exact fun holder position f' => h.move_move hf.distinct
  · intro k hnew
    have hholder : ∀ i ∈ n.parent, i ∈ f.ids := fun i hi => (h.holder hf.distinct i hi).2.2
    exact ⟨_, _, h.duplicate_eq hf k, remove_place (n := n.fresh k) (index + 1) hnew hholder⟩

/-- A row with a text in it is taken to the roots and back behind its sibling, is taken out and
put back there, and is copied for a while. -/
theorem edits_cancel_of_row :
    let text : Node := ⟨"c", some "b", { component := "Text" }, []⟩
    let row : Node := ⟨"b", some "a", { component := "Row" }, [text]⟩
    let rule : Node := ⟨"d", some "a", { component := "Divider" }, []⟩
    let f : Forest := [⟨"a", none, { component := "Card" }, [rule, row]⟩]
    let left : Forest := [⟨"a", none, { component := "Card" }, [rule]⟩]
    let moved : Forest := { row with parent := none } :: left
    f.WellFormed ∧ f.StandsAt row 1 ∧
      f.move "b" none 0 = some moved ∧ moved.move "b" (some "a") 1 = some f ∧
      f.remove "b" = some left ∧ left.add row (some "a") 1 = some f ∧
      ∃ f' copy, f.duplicate "b" 0 = some (f', copy) ∧ f'.remove copy.id = some f := by
  intro text row rule f left moved
  have hids : f.ids = ["a", "d", "b", "c"] := by simp [f, row, rule, text]
  have hf : f.WellFormed := wellFormed_iff.mpr
    ⟨by rw [hids]; decide, by simp [f, row, rule, text]⟩
  have hrow : f.StandsAt row 1 := ⟨[rule, row], by simp [held?, find?, f, row], rfl⟩
  have hmoved : f.move "b" none 0 = some moved := by cbv
  have hleft : f.remove "b" = some left := by cbv
  obtain ⟨_, _, hcancel⟩ := edits_cancel hf
  obtain ⟨⟨g, hg, hadd⟩, hback, hcopy⟩ := hcancel row 1 hrow
  obtain rfl : left = g := Option.some.inj (hleft.symm.trans hg)
  exact ⟨hf, hrow, hmoved, hback none 0 moved hmoved, hleft, hadd,
    hcopy 0 (by rw [hids]; decide)⟩

end Tandem.Forest
