import Mathlib.Data.List.InsertIdx
import Tandem.Forest.Edit
import Tandem.Proofs.Forest.WellFormed

/-!
# Edits keep a forest well-formed

What each edit does to the ids and to the links, primitive by primitive: pruning
takes the ids of a subtree away, placing a node adds its ids, patching a widget
touches neither. From these every edit keeps well-formedness
(`WellFormed.place`, `WellFormed.prune`, `WellFormed.move`, `WellFormed.patch`), and
fresh ids make a copy that may be placed (`Outline.stamp_wellFormed`).
-/

namespace Tandem

/-- A node with everything below it can be put into a forest: its ids are all
different and the links below it are right. -/
structure Node.WellFormed (n : Node) : Prop where
  distinct : (n.id :: Forest.ids n.children).Nodup
  linked : Forest.Linked (some n.id) n.children

namespace Forest

open scoped List

/-! ## Pruning -/

theorem prune_cons (id : String) (n : Node) (rest : Forest) :
    prune id (n :: rest) =
      if n.id = id then prune id rest
      else { n with children := prune id n.children } :: prune id rest := by
  cases n
  rw [prune]

theorem prune_eq_self {id : String} {f : Forest} (h : id ∉ f.ids) : f.prune id = f := by
  induction f using Forest.induction with
  | nil => rw [prune]
  | cons i parent widget children rest ihc ihr =>
      simp only [ids_cons, List.mem_cons, List.mem_append, not_or] at h
      rw [prune_cons, if_neg (Ne.symm h.1), ihc h.2.1, ihr h.2.2]

theorem ids_prune_sublist (id : String) (f : Forest) : (f.prune id).ids.Sublist f.ids := by
  induction f using Forest.induction with
  | nil => rw [prune]
  | cons i parent widget children rest ihc ihr =>
      rw [prune_cons, ids_cons]
      split
      · exact (ihr.trans (List.sublist_append_right _ _)).cons _
      · rw [ids_cons]
        exact (ihc.append ihr).cons_cons _

theorem not_mem_ids_prune (id : String) (f : Forest) : id ∉ (f.prune id).ids := by
  induction f using Forest.induction with
  | nil => simp [prune]
  | cons i parent widget children rest ihc ihr =>
      rw [prune_cons]
      split
      next => exact ihr
      next hne =>
        simp only [ids_cons, List.mem_cons, List.mem_append, not_or]
        exact ⟨Ne.symm hne, ihc, ihr⟩

theorem linked_prune (id : String) {parent : Option String} {f : Forest} (h : Linked parent f) :
    Linked parent (f.prune id) := by
  induction f using Forest.induction generalizing parent with
  | nil => rw [prune]; exact h
  | cons i p widget children rest ihc ihr =>
      obtain ⟨hp, hc, hr⟩ := linked_cons.mp h
      rw [prune_cons]
      split
      · exact ihr hr
      · exact linked_cons.mpr ⟨hp, ihc hc, ihr hr⟩

theorem find?_cons (id : String) (n : Node) (rest : Forest) :
    find? (n :: rest) id =
      if n.id = id then some n else (find? n.children id).or (find? rest id) := by
  simp only [find?, preorder_cons, List.find?_cons, List.find?_append]
  by_cases h : n.id = id <;> simp [h]

theorem find?_eq_none {f : Forest} {id : String} (h : id ∉ f.ids) : f.find? id = none :=
  find?_eq_none_iff.mpr h

/-- Pruning splits the ids: those of the subtree of the id, and those that are left. -/
theorem ids_perm_prune {id : String} {f : Forest} (hd : f.ids.Nodup) {n : Node}
    (hn : f.find? id = some n) : f.ids.Perm ((n.id :: ids n.children) ++ (f.prune id).ids) := by
  induction f using Forest.induction with
  | nil => simp [find?] at hn
  | cons i parent widget children rest ihc ihr =>
      simp only [ids_cons, List.nodup_cons, List.nodup_append, List.mem_append, not_or] at hd
      obtain ⟨⟨hic, hir⟩, hdc, hdr, hcr⟩ := hd
      rw [find?_cons] at hn
      rw [prune_cons, ids_cons]
      by_cases hi : i = id
      · subst hi
        simp only [if_true, Option.some.injEq] at hn ⊢
        subst hn
        rw [prune_eq_self hir]
        rfl
      · simp only [if_neg hi] at hn ⊢
        rw [ids_cons]
        -- As no id comes twice, the node stands on one side only, and the other side is
        -- left alone.
        cases hfc : find? children id with
        | some m =>
            rw [hfc, Option.some_or, Option.some.injEq] at hn
            subst hn
            obtain ⟨hm, hmid⟩ := find?_eq_some hfc
            have hidr : id ∉ ids rest := fun h => hcr _ (hmid ▸ id_mem_ids hm) _ h rfl
            rw [prune_eq_self hidr]
            calc i :: (ids children ++ ids rest)
                _ ~ i :: ((m.id :: ids m.children) ++ ids (prune id children) ++ ids rest) :=
                  ((ihc hdc hfc).append_right _).cons _
                _ ~ (m.id :: ids m.children) ++ (i :: (ids (prune id children) ++ ids rest)) := by
                  rw [List.append_assoc]
                  exact List.perm_middle.symm
        | none =>
            rw [hfc, Option.none_or] at hn
            have hidc : id ∉ ids children := find?_eq_none_iff.mp hfc
            rw [prune_eq_self hidc]
            calc i :: (ids children ++ ids rest)
                _ ~ i :: (ids children ++ ((n.id :: ids n.children) ++ ids (prune id rest))) :=
                  ((ihr hdr hn).append_left _).cons _
                _ ~ (n.id :: ids n.children) ++ (i :: (ids children ++ ids (prune id rest))) := by
                  refine (List.Perm.cons i ?_).trans List.perm_middle.symm
                  rw [← List.append_assoc, ← List.append_assoc]
                  exact List.perm_append_comm.append_right _

/-! ## Placing -/

theorem ids_insertAt_perm (index : Nat) (n : Node) (siblings : Forest) :
    (insertAt index n siblings).ids.Perm ((n.id :: ids n.children) ++ siblings.ids) := by
  have hperm := List.perm_insertIdx n siblings (Nat.min_le_right index siblings.length)
  have hids := ids_perm hperm
  rw [ids_cons] at hids
  exact hids

theorem linked_insertAt {parent : Option String} {n : Node} {siblings : Forest} (index : Nat)
    (hp : n.parent = parent) (hn : Linked (some n.id) n.children) (hs : Linked parent siblings) :
    Linked parent (insertAt index n siblings) := by
  have hperm := List.perm_insertIdx n siblings (Nat.min_le_right index siblings.length)
  rw [linked_iff_forall_mem]
  intro m hm
  rcases List.mem_cons.mp (hperm.mem_iff.mp hm) with rfl | hm
  · exact ⟨hp, hn⟩
  · exact linked_iff_forall_mem.mp hs m hm

theorem insertUnder_cons (holder : String) (index : Nat) (n m : Node) (rest : Forest) :
    insertUnder holder index n (m :: rest) =
      (if m.id = holder then
        { m with children := insertAt index { n with parent := some holder } m.children }
      else { m with children := insertUnder holder index n m.children })
        :: insertUnder holder index n rest := by
  cases m
  rw [insertUnder]

theorem insertUnder_eq_self {holder : String} {f : Forest} (index : Nat) (n : Node)
    (h : holder ∉ f.ids) : insertUnder holder index n f = f := by
  induction f using Forest.induction with
  | nil => rw [insertUnder]
  | cons i parent widget children rest ihc ihr =>
      simp only [ids_cons, List.mem_cons, List.mem_append, not_or] at h
      rw [insertUnder_cons, if_neg (Ne.symm h.1), ihc h.2.1, ihr h.2.2]

theorem ids_insertUnder_perm {holder : String} {f : Forest} (index : Nat) (n : Node)
    (hd : f.ids.Nodup) (hh : holder ∈ f.ids) :
    (insertUnder holder index n f).ids.Perm ((n.id :: ids n.children) ++ f.ids) := by
  induction f using Forest.induction with
  | nil => simp at hh
  | cons i parent widget children rest ihc ihr =>
      simp only [ids_cons, List.nodup_cons, List.nodup_append, List.mem_append, not_or] at hd
      obtain ⟨⟨hic, hir⟩, hdc, hdr, hcr⟩ := hd
      rw [insertUnder_cons, ids_cons, ids_cons]
      by_cases hi : i = holder
      · subst hi
        rw [if_pos rfl, insertUnder_eq_self index n hir]
        refine (List.Perm.cons i ?_).trans List.perm_middle.symm
        rw [← List.append_assoc]
        exact (ids_insertAt_perm index _ children).append_right _
      · rw [if_neg hi]
        simp only [ids_cons, List.mem_cons, List.mem_append, Ne.symm hi, false_or] at hh
        refine (List.Perm.cons i ?_).trans List.perm_middle.symm
        -- The holder stands on one side only, too.
        rcases hh with hh | hh
        · rw [insertUnder_eq_self index n fun h => hcr _ hh _ h rfl, ← List.append_assoc]
          exact (ihc hdc hh).append_right _
        · rw [insertUnder_eq_self index n fun h => hcr _ h _ hh rfl]
          refine ((ihr hdr hh).append_left _).trans ?_
          rw [← List.append_assoc, ← List.append_assoc]
          exact List.perm_append_comm.append_right _

theorem linked_insertUnder {parent : Option String} {holder : String} {f : Forest} (index : Nat)
    {n : Node} (hn : Linked (some n.id) n.children) (h : Linked parent f) :
    Linked parent (insertUnder holder index n f) := by
  induction f using Forest.induction generalizing parent with
  | nil => rw [insertUnder]; exact h
  | cons i p widget children rest ihc ihr =>
      obtain ⟨hp, hc, hr⟩ := linked_cons.mp h
      rw [insertUnder_cons]
      split
      next heq =>
        refine linked_cons.mpr ⟨hp, linked_insertAt index ?_ hn hc, ihr hr⟩
        rw [← heq]
      next => exact linked_cons.mpr ⟨hp, ihc hc, ihr hr⟩

/-- To place a node is to add its ids. -/
theorem ids_place_perm {f : Forest} {holder : Option String} (index : Nat) (n : Node)
    (hd : f.ids.Nodup) (hh : ∀ h ∈ holder, h ∈ f.ids) :
    (place holder index n f).ids.Perm ((n.id :: ids n.children) ++ f.ids) := by
  cases holder with
  | none => exact ids_insertAt_perm index _ f
  | some h => exact ids_insertUnder_perm index n hd (hh h rfl)

/-- A node with ids of its own can be placed anywhere in a well-formed forest. -/
theorem WellFormed.place {f : Forest} (hf : f.WellFormed) {n : Node} (hn : n.WellFormed)
    {holder : Option String} (index : Nat) (hh : ∀ h ∈ holder, h ∈ f.ids)
    (hdisjoint : ∀ id ∈ n.id :: ids n.children, id ∉ f.ids) :
    (Forest.place holder index n f).WellFormed := by
  obtain ⟨hd, hl⟩ := wellFormed_iff.mp hf
  refine wellFormed_iff.mpr ⟨?_, ?_⟩
  · rw [(ids_place_perm index n hd hh).nodup_iff, List.nodup_append]
    exact ⟨hn.distinct, hd, fun a ha b hb heq => hdisjoint a ha (heq ▸ hb)⟩
  · cases holder with
    | none => exact linked_insertAt index rfl hn.linked hl
    | some h => exact linked_insertUnder index hn.linked hl

theorem WellFormed.prune {f : Forest} (hf : f.WellFormed) (id : String) :
    (f.prune id).WellFormed := by
  obtain ⟨hd, hl⟩ := wellFormed_iff.mp hf
  exact wellFormed_iff.mpr ⟨hd.sublist (ids_prune_sublist id f), linked_prune id hl⟩

/-- A node of a well-formed forest, with what it holds, is well-formed. -/
theorem WellFormed.node {f : Forest} (hf : f.WellFormed) {n : Node} (hn : n ∈ f.preorder) :
    n.WellFormed := by
  obtain ⟨hd, hl⟩ := wellFormed_iff.mp hf
  exact ⟨hd.sublist (ids_subtree_sublist hn), hl.children hn⟩

/-! ## The edits -/

theorem add_eq_some {f f' : Forest} {n : Node} {holder : Option String} {index : Nat}
    (h : f.add n holder index = some f') :
    (∀ i ∈ holder, i ∈ f.ids) ∧ f' = f.place holder index n := by
  rw [add] at h
  split at h
  next hholder =>
    cases h
    refine ⟨fun i hi => ?_, rfl⟩
    subst hi
    exact contains_iff.mp (by simpa using hholder)
  next => cases h

theorem WellFormed.add {f f' : Forest} (hf : f.WellFormed) {n : Node} (hn : n.WellFormed)
    {holder : Option String} {index : Nat}
    (hdisjoint : ∀ id ∈ n.id :: ids n.children, id ∉ f.ids)
    (h : f.add n holder index = some f') : f'.WellFormed := by
  obtain ⟨hholder, rfl⟩ := add_eq_some h
  exact hf.place hn index hholder hdisjoint

theorem remove_eq_some {f f' : Forest} {id : String} (h : f.remove id = some f') :
    f' = f.prune id := by
  rw [remove] at h
  split at h
  · cases h
    rfl
  · cases h

theorem WellFormed.remove {f f' : Forest} (hf : f.WellFormed) {id : String}
    (h : f.remove id = some f') : f'.WellFormed := by
  rw [remove_eq_some h]
  exact hf.prune id

theorem canHold_iff {f : Forest} {n : Node} {holder : Option String} :
    f.canHold n holder = true ↔ ∀ h ∈ holder, h ≠ n.id ∧ h ∉ ids n.children ∧ h ∈ f.ids := by
  cases holder with
  | none => simp [canHold]
  | some h =>
      have hbelow : Forest.contains n.children h = false ↔ h ∉ ids n.children := by
        rw [← contains_iff, Bool.not_eq_true]
      simp [canHold, hbelow, contains_iff, and_assoc]

/-- A move prunes the node and places it under a holder outside of it. -/
theorem move_eq_some {f f' : Forest} {id : String} {holder : Option String} {index : Nat}
    (h : f.move id holder index = some f') :
    ∃ n, f.find? id = some n ∧ (∀ h ∈ holder, h ≠ id ∧ h ∉ ids n.children ∧ h ∈ f.ids) ∧
      f' = (f.prune id).place holder index n := by
  rw [Forest.move] at h
  cases hn : f.find? id with
  | none => rw [hn] at h; cases h
  | some n =>
      obtain ⟨_, rfl⟩ := find?_eq_some hn
      simp only [hn] at h
      split at h
      next hcan =>
        cases h
        exact ⟨n, rfl, canHold_iff.mp hcan, rfl⟩
      next => cases h

/-- What the pruned node does not hold is left. -/
theorem mem_ids_prune {f : Forest} (hd : f.ids.Nodup) {id : String} {n : Node}
    (hn : f.find? id = some n) {h : String} (hh : h ≠ id ∧ h ∉ ids n.children ∧ h ∈ f.ids) :
    h ∈ (f.prune id).ids := by
  obtain ⟨hne, hbelow, hin⟩ := hh
  obtain ⟨_, rfl⟩ := find?_eq_some hn
  have hsplit := (ids_perm_prune hd hn).mem_iff.mp hin
  simp only [List.mem_append, List.mem_cons] at hsplit
  exact hsplit.resolve_left fun hsubtree => hsubtree.elim hne hbelow

/-- A node that moves takes its own ids along, and its new place is not in itself. -/
theorem WellFormed.move {f f' : Forest} (hf : f.WellFormed) {id : String}
    {holder : Option String} {index : Nat} (h : f.move id holder index = some f') :
    f'.WellFormed := by
  obtain ⟨n, hn, hholder, rfl⟩ := move_eq_some h
  have hnodup := (ids_perm_prune hf.distinct hn).nodup_iff.mp hf.distinct
  refine (hf.prune id).place (hf.node (find?_eq_some hn).1) index ?_ ?_
  · exact fun h hh => mem_ids_prune hf.distinct hn (hholder h hh)
  · intro i hi hleft
    exact (List.nodup_append.mp hnodup).2.2 i hi i hleft rfl

theorem mapWidget_cons (id : String) (change : Widget → Widget) (n : Node) (rest : Forest) :
    mapWidget id change (n :: rest) =
      (if n.id = id then { n with widget := change n.widget }
      else { n with children := mapWidget id change n.children }) :: mapWidget id change rest := by
  cases n
  rw [mapWidget]

theorem ids_mapWidget (id : String) (change : Widget → Widget) (f : Forest) :
    (f.mapWidget id change).ids = f.ids := by
  induction f using Forest.induction with
  | nil => rw [mapWidget]
  | cons i parent widget children rest ihc ihr =>
      rw [mapWidget_cons]
      split <;> simp [ihc, ihr]

theorem linked_mapWidget (id : String) (change : Widget → Widget) {parent : Option String}
    {f : Forest} (h : Linked parent f) : Linked parent (f.mapWidget id change) := by
  induction f using Forest.induction generalizing parent with
  | nil => rw [mapWidget]; exact h
  | cons i p widget children rest ihc ihr =>
      obtain ⟨hp, hc, hr⟩ := linked_cons.mp h
      rw [mapWidget_cons]
      split
      · exact linked_cons.mpr ⟨hp, hc, ihr hr⟩
      · exact linked_cons.mpr ⟨hp, ihc hc, ihr hr⟩

theorem patch_eq_some {f f' : Forest} {id : String} {p : Patch} (h : f.patch id p = some f') :
    f' = f.mapWidget id (.apply p) := by
  rw [patch] at h
  split at h
  · cases h
    rfl
  · cases h

theorem WellFormed.patch {f f' : Forest} (hf : f.WellFormed) {id : String} {p : Patch}
    (h : f.patch id p = some f') : f'.WellFormed := by
  obtain ⟨hd, hl⟩ := wellFormed_iff.mp hf
  rw [patch_eq_some h]
  exact wellFormed_iff.mpr ⟨by rw [ids_mapWidget]; exact hd, linked_mapWidget id _ hl⟩

end Forest

end Tandem
