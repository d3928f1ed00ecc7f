import Mathlib.Data.List.InsertIdx
import Tandem.Forest.Edit
import Tandem.Proofs.Forest.Edits

/-!
# A move takes one subtree to one place

To move a node is to prune it and to place it again. What that does to the forest is said
through what pruning and placing undo of each other:

* **placing, then looking up** — `find?_place`: the node that was placed is found under its
  id, with its link set; `held?_place`: among the nodes of its holder it stands at the index,
  and the others are as they were;
* **placing, then pruning** — `prune_place`: the forest is the one before;
* **both** — `move_eq_some`, `ids_move_perm`: no node is lost or doubled, as the holder is
  among the nodes that pruning leaves (`mem_ids_prune`).

`move_relocates` is the whole of it, with the exact conditions under which a move is refused.
-/

namespace Tandem.Forest

/-- The nodes under a holder, or the roots. -/
def held? (f : Forest) : Option String → Option Forest
  | none => some f
  | some h => (f.find? h).map (·.children)

/-! ## Placing, then looking up -/

theorem preorder_append (f g : Forest) : preorder (f ++ g) = f.preorder ++ g.preorder := by
  induction f with
  | nil => simp
  | cons n rest ih => simp [ih]

theorem find?_append (f g : Forest) (id : String) :
    find? (f ++ g) id = (f.find? id).or (g.find? id) := by
  simp only [find?, preorder_append, List.find?_append]

/-- A node is put between the siblings before its index and those behind it. -/
theorem exists_insertAt_eq (index : Nat) (n : Node) (siblings : Forest) :
    ∃ before behind, siblings = before ++ behind ∧
      insertAt index n siblings = before ++ n :: behind := by
  rw [insertAt]
  have hle : min index siblings.length ≤ siblings.length := Nat.min_le_right _ _
  generalize min index siblings.length = i at hle
  induction siblings generalizing i with
  | nil =>
      have hi : i = 0 := Nat.le_zero.mp hle
      exact ⟨[], [], rfl, by rw [hi]; rfl⟩
  | cons m rest ih =>
      cases i with
      | zero => exact ⟨[], m :: rest, rfl, rfl⟩
      | succ i =>
          obtain ⟨before, behind, hrest, hinsert⟩ := ih i (Nat.le_of_succ_le_succ hle)
          refine ⟨m :: before, behind, congrArg (m :: ·) hrest, ?_⟩
          rw [List.insertIdx_succ_cons, hinsert, List.cons_append]

theorem find?_insertAt {n : Node} {siblings : Forest} (index : Nat) (h : n.id ∉ siblings.ids) :
    (insertAt index n siblings).find? n.id = some n := by
  obtain ⟨before, behind, rfl, heq⟩ := exists_insertAt_eq index n siblings
  have hbefore : before.find? n.id = none := by
    have hnone := find?_eq_none h
    rw [find?_append, Option.or_eq_none_iff] at hnone
    exact hnone.1
  rw [heq, find?_append, hbefore, Option.none_or, find?_cons, if_pos rfl]

/-- The node that was placed is found, linked to its holder. -/
theorem find?_insertUnder {n : Node} {holder : String} {f : Forest} (index : Nat)
    (h : n.id ∉ f.ids) (hh : holder ∈ f.ids) :
    (insertUnder holder index n f).find? n.id = some { n with parent := some holder } := by
  induction f using Forest.induction with
  | nil => simp at hh
  | cons i parent widget children rest ihc ihr =>
      simp only [ids_cons, List.mem_cons, List.mem_append, not_or] at h
      obtain ⟨hi, hc, hr⟩ := h
      rw [insertUnder_cons, find?_cons]
      by_cases hholder : i = holder
      · subst hholder
        simp only [if_true, if_neg (Ne.symm hi)]
        have hfound := find?_insertAt (n := { n with parent := some i }) index hc
        rw [hfound, Option.some_or]
      · simp only [if_neg hholder, if_neg (Ne.symm hi)]
        simp only [ids_cons, List.mem_cons, List.mem_append, Ne.symm hholder, false_or] at hh
        by_cases hin : holder ∈ children.ids
        · rw [ihc hc hin, Option.some_or]
        · rw [insertUnder_eq_self index n hin, find?_eq_none hc, Option.none_or,
            ihr hr (hh.resolve_left hin)]

theorem find?_place {n : Node} {holder : Option String} {f : Forest} (index : Nat)
    (h : n.id ∉ f.ids) (hh : ∀ i ∈ holder, i ∈ f.ids) :
    (f.place holder index n).find? n.id = some { n with parent := holder } := by
  cases holder with
  | none => exact find?_insertAt (n := { n with parent := none }) index h
  | some i => exact find?_insertUnder index h (hh i rfl)

/-- The holder has its nodes as before, and the new one at the index. -/
theorem find?_holder_insertUnder (holder : String) (index : Nat) (n : Node) (f : Forest) :
    (insertUnder holder index n f).find? holder = (f.find? holder).map fun m =>
      { m with children := insertAt index { n with parent := some holder } m.children } := by
  induction f using Forest.induction with
  | nil => rw [insertUnder, find?_eq_none (by simp), Option.map_none]
  | cons i parent widget children rest ihc ihr =>
      rw [insertUnder_cons, find?_cons, find?_cons]
      by_cases hi : i = holder
      · simp only [if_pos hi, Option.map_some]
      · simp only [if_neg hi, ihc, ihr]
        cases find? children holder <;> rfl

theorem held?_place (holder : Option String) (index : Nat) (n : Node) (f : Forest) :
    (f.place holder index n).held? holder =
      (f.held? holder).map (insertAt index { n with parent := holder }) := by
  cases holder with
  | none => rfl
  | some h =>
      show ((insertUnder h index n f).find? h).map _ = ((f.find? h).map _).map _
      rw [find?_holder_insertUnder, Option.map_map, Option.map_map]
      rfl

theorem exists_held?_eq {f : Forest} {holder : Option String} (hh : ∀ i ∈ holder, i ∈ f.ids) :
    ∃ siblings, f.held? holder = some siblings := by
  cases holder with
  | none => exact ⟨f, rfl⟩
  | some h =>
      obtain ⟨n, hn⟩ := exists_find?_eq (hh h rfl)
      exact ⟨n.children, by rw [held?, hn, Option.map_some]⟩

/-! ## Placing, then pruning -/

theorem prune_append (id : String) (f g : Forest) :
    prune id (f ++ g) = f.prune id ++ g.prune id := by
  induction f with
  | nil => rw [List.nil_append, prune, List.nil_append]
  | cons n rest ih =>
      rw [List.cons_append, prune_cons, prune_cons, ih]
      split <;> rfl

theorem prune_insertAt {n : Node} {siblings : Forest} (index : Nat) (h : n.id ∉ siblings.ids) :
    (insertAt index n siblings).prune n.id = siblings := by
  obtain ⟨before, behind, hsiblings, heq⟩ := exists_insertAt_eq index n siblings
  calc (insertAt index n siblings).prune n.id
      _ = (before ++ behind).prune n.id := by
        rw [heq, prune_append, prune_append, prune_cons, if_pos rfl]
      _ = siblings := by rw [← hsiblings, prune_eq_self h]

theorem prune_insertUnder {n : Node} {f : Forest} (holder : String) (index : Nat)
    (h : n.id ∉ f.ids) : (insertUnder holder index n f).prune n.id = f := by
  induction f using Forest.induction with
  | nil => rw [insertUnder, prune]
  | cons i parent widget children rest ihc ihr =>
      simp only [ids_cons, List.mem_cons, List.mem_append, not_or] at h
      obtain ⟨hi, hc, hr⟩ := h
      have hchildren := prune_insertAt (n := { n with parent := some holder }) index hc
      rw [insertUnder_cons, prune_cons, ihr hr]
      by_cases hholder : i = holder
      · simp only [if_pos hholder, if_neg (Ne.symm hi), hchildren]
      · simp only [if_neg hholder, if_neg (Ne.symm hi), ihc hc]

/-- Pruning takes back what was placed. -/
theorem prune_place {n : Node} {f : Forest} (holder : Option String) (index : Nat)
    (h : n.id ∉ f.ids) : (f.place holder index n).prune n.id = f := by
  cases holder with
  | none => exact prune_insertAt (n := { n with parent := none }) index h
  | some i => exact prune_insertUnder i index h

/-! ## Moving -/

/-- A move is refused for want of the node or of a place for it, and for no other reason. -/
theorem move_eq_none_iff {f : Forest} {id : String} {holder : Option String} {index : Nat} :
    f.move id holder index = none ↔ id ∉ f.ids ∨ ∃ h ∈ holder,
      h ∉ f.ids ∨ h = id ∨ ∃ n, f.find? id = some n ∧ h ∈ ids n.children := by
  rw [move]
  cases hn : f.find? id with
  | none =>
      have hid : id ∉ f.ids := find?_eq_none_iff.mp hn
      simp [hid]
  | some n =>
      obtain ⟨hmem, rfl⟩ := find?_eq_some hn
      have hid := id_mem_ids hmem
      simp only [ite_eq_right_iff, reduceCtorEq, imp_false, canHold_iff, hid, not_true_eq_false,
        false_or, Option.some.injEq, exists_eq_left', not_forall, exists_prop]
      refine exists_congr fun h => and_congr_right fun _ => ?_
      tauto

/-- A move neither loses an id nor doubles one. -/
theorem ids_move_perm {f f' : Forest} (hd : f.ids.Nodup) {id : String} {holder : Option String}
    {index : Nat} (h : f.move id holder index = some f') : f'.ids.Perm f.ids := by
  obtain ⟨n, hn, hholder, rfl⟩ := move_eq_some h
  have hleft : (f.prune id).ids.Nodup := hd.sublist (ids_prune_sublist id f)
  have hin : ∀ h ∈ holder, h ∈ (f.prune id).ids := fun h hh =>
    mem_ids_prune hd hn (hholder h hh)
  exact (ids_place_perm index n hleft hin).trans (ids_perm_prune hd hn).symm

/-- **A move takes one subtree to one place.** In a forest of different ids a move is refused
exactly if the node is missing, the target is missing, or the target is the node itself or
below it. Else the node is found with everything below it as it was and the target as its
parent; without it the forest is the same as before without it; among the nodes of the target
it stands at the index, or behind them all if they are fewer, and the others are those that
are left when it is taken out; and the ids are the same ones. -/
theorem move_relocates {f : Forest} (hd : f.ids.Nodup) (id : String) (holder : Option String)
    (index : Nat) :
    (f.move id holder index = none ↔ id ∉ f.ids ∨ ∃ h ∈ holder,
      h ∉ f.ids ∨ h = id ∨ ∃ n, f.find? id = some n ∧ h ∈ ids n.children) ∧
    ∀ f', f.move id holder index = some f' →
      ∃ n left siblings, f.find? id = some n ∧ f'.find? id = some { n with parent := holder } ∧
        f'.prune id = f.prune id ∧
        (f.prune id).held? holder = some left ∧ f'.held? holder = some siblings ∧
        siblings[min index left.length]? = some { n with parent := holder } ∧
        siblings.eraseIdx (min index left.length) = left ∧
        f'.ids.Perm f.ids := by
  refine ⟨move_eq_none_iff, fun f' h => ?_⟩
  have hperm := ids_move_perm hd h
  obtain ⟨n, hn, hholder, rfl⟩ := move_eq_some h
  obtain ⟨_, rfl⟩ := find?_eq_some hn
  have hgone : n.id ∉ (f.prune n.id).ids := not_mem_ids_prune n.id f
  have hin : ∀ h ∈ holder, h ∈ (f.prune n.id).ids := fun h hh =>
    mem_ids_prune hd hn (hholder h hh)
  obtain ⟨left, hleft⟩ := exists_held?_eq hin
  have hsiblings : ((f.prune n.id).place holder index n).held? holder =
      some (insertAt index { n with parent := holder } left) := by
    rw [held?_place, hleft, Option.map_some]
  refine ⟨n, left, _, hn, find?_place index hgone hin, ?_, hleft, hsiblings, ?_, ?_, hperm⟩
  · exact prune_place holder index hgone
  · rw [insertAt, List.getElem?_insertIdx_self, if_pos (Nat.min_le_right _ _)]
  · exact List.eraseIdx_insertIdx_self _

/-- A row with a text in it goes behind its sibling, as there are not seven nodes to go behind;
into the text it cannot go. -/
theorem move_relocates_of_row :
    let text : Node := ⟨"c", some "b", { component := "Text" }, []⟩
    let row : Node := ⟨"b", some "a", { component := "Row" }, [text]⟩
    let rule : Node := ⟨"d", some "a", { component := "Divider" }, []⟩
    let f : Forest := [⟨"a", none, { component := "Card" }, [row, rule]⟩]
    let f' : Forest := [⟨"a", none, { component := "Card" }, [rule, row]⟩]
    f.ids.Nodup ∧ f.move "b" (some "a") 7 = some f' ∧ f'.find? "b" = some row ∧
      f'.prune "b" = f.prune "b" ∧ f'.ids.Perm f.ids ∧ f.move "b" (some "c") 0 = none := by
  intro text row rule f f'
  have hd : f.ids.Nodup := by
    have hids : f.ids = ["a", "b", "c", "d"] := by simp [f, row, rule, text]
    rw [hids]
    decide
  have hrow : f.find? "b" = some row := by cbv
  have hmove : f.move "b" (some "a") 7 = some f' := by cbv
  obtain ⟨n, left, siblings, hn, hfound, hpruned, _, _, _, _, hperm⟩ :=
    (move_relocates hd "b" (some "a") 7).2 f' hmove
  obtain rfl : row = n := Option.some.inj (hrow.symm.trans hn)
  refine ⟨hd, hmove, hfound, hpruned, hperm, (move_relocates hd "b" (some "c") 0).1.mpr ?_⟩
  exact .inr ⟨"c", rfl, .inr (.inr ⟨row, hrow, by simp [row, text]⟩)⟩

end Tandem.Forest
