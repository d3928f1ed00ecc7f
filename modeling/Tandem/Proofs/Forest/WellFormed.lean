import Mathlib.Data.List.Nodup
import Mathlib.Data.List.Perm.Basic
import Tandem.Forest.Query

/-!
# Well-formed forests

Look-ups by id mean something only on a forest whose ids are all different, and
the parent links must say where a node really stands. `Forest.WellFormed` is both.
The links are also read from the top down (`Forest.Linked`), which is the form that
goes through a recursion over siblings (`Forest.wellFormed_iff`).

On a well-formed forest the search for a parent and the parent link agree at every
node (`Forest.WellFormed.parent?_eq`).
-/

namespace Tandem

namespace Forest

/-! ## Ids -/

@[simp]
theorem preorder_nil : preorder [] = [] := by rw [preorder]

@[simp]
theorem preorder_cons (n : Node) (rest : Forest) :
    preorder (n :: rest) = n :: (preorder n.children ++ preorder rest) := by
  cases n
  rw [preorder]

@[simp]
theorem ids_nil : ids [] = [] := by simp [ids]

@[simp]
theorem ids_cons (n : Node) (rest : Forest) :
    ids (n :: rest) = n.id :: (ids n.children ++ ids rest) := by
  simp [ids]

theorem ids_eq_flatMap (f : Forest) : f.ids = f.flatMap fun n => n.id :: ids n.children := by
  induction f with
  | nil => simp
  | cons n rest ih => simp [ih]

theorem ids_perm {f g : Forest} (h : f.Perm g) : f.ids.Perm g.ids := by
  rw [ids_eq_flatMap, ids_eq_flatMap]
  exact h.flatMap_right _

theorem mem_preorder_of_mem {n : Node} {f : Forest} (h : n ∈ f) : n ∈ f.preorder := by
  induction f with
  | nil => cases h
  | cons m rest ih =>
      rw [preorder_cons]
      rcases List.mem_cons.mp h with rfl | h
      · exact List.mem_cons_self
      · exact List.mem_cons_of_mem _ (List.mem_append_right _ (ih h))

theorem id_mem_ids {n : Node} {f : Forest} (h : n ∈ f.preorder) : n.id ∈ f.ids :=
  List.mem_map_of_mem h

theorem map_id_sublist (f : Forest) : (f.map (·.id)).Sublist f.ids := by
  induction f with
  | nil => simp
  | cons n rest ih =>
      rw [List.map_cons, ids_cons]
      exact (ih.trans (List.sublist_append_right _ _)).cons_cons _

theorem map_id_subset (f : Forest) : f.map (·.id) ⊆ f.ids := (map_id_sublist f).subset

theorem preorder_children_subset {f : Forest} {n : Node} (hn : n ∈ f.preorder) :
    preorder n.children ⊆ f.preorder := by
  induction f using Forest.induction with
  | nil => simp at hn
  | cons id parent widget children rest ihc ihr =>
      rw [preorder_cons] at hn ⊢
      intro m hm
      refine List.mem_cons_of_mem _ (List.mem_append.mpr ?_)
      rcases List.mem_cons.mp hn with rfl | hn
      · exact .inl hm
      · rcases List.mem_append.mp hn with hn | hn
        · exact .inl (ihc hn hm)
        · exact .inr (ihr hn hm)

/-- The ids of one node and of what it holds come from those of the forest. -/
theorem ids_subtree_sublist {f : Forest} {n : Node} (hn : n ∈ f.preorder) :
    (n.id :: ids n.children).Sublist f.ids := by
  induction f using Forest.induction with
  | nil => simp at hn
  | cons id parent widget children rest ihc ihr =>
      rw [preorder_cons] at hn
      rw [ids_cons]
      rcases List.mem_cons.mp hn with rfl | hn
      · exact List.Sublist.cons_cons _ (List.sublist_append_left _ _)
      · rcases List.mem_append.mp hn with hn | hn
        · exact ((ihc hn).trans (List.sublist_append_left _ _)).cons _
        · exact ((ihr hn).trans (List.sublist_append_right _ _)).cons _

/-! ## Looking up -/

theorem find?_eq_some {f : Forest} {id : String} {n : Node} (h : f.find? id = some n) :
    n ∈ f.preorder ∧ n.id = id :=
  ⟨List.mem_of_find?_eq_some h, by simpa using List.find?_some h⟩

theorem find?_eq_none_iff {f : Forest} {id : String} : f.find? id = none ↔ id ∉ f.ids := by
  simp [find?, ids]

theorem exists_find?_eq {f : Forest} {id : String} (h : id ∈ f.ids) :
    ∃ n, f.find? id = some n :=
  Option.ne_none_iff_exists'.mp fun hnone => find?_eq_none_iff.mp hnone h

/-- Where ids are different, the search for an id ends at the node that has it. -/
theorem find?_of_mem {f : Forest} (hd : f.ids.Nodup) {n : Node} (hn : n ∈ f.preorder) :
    f.find? n.id = some n := by
  obtain ⟨m, hm⟩ := exists_find?_eq (id_mem_ids hn)
  obtain ⟨hmem, hid⟩ := find?_eq_some hm
  obtain rfl : m = n := List.inj_on_of_nodup_map hd hmem hn hid
  exact hm

theorem contains_iff {f : Forest} {id : String} : f.contains id = true ↔ id ∈ f.ids := by
  simp [contains, find?, ids]

theorem parent?_eq_some {f : Forest} {id : String} {h : Node} (hp : f.parent? id = some h) :
    h ∈ f.preorder ∧ ∃ n ∈ h.children, n.id = id :=
  ⟨List.mem_of_find?_eq_some hp, by simpa using List.find?_some hp⟩

theorem parent?_eq_none {f : Forest} {id : String} (h : id ∉ f.ids) : f.parent? id = none := by
  refine Option.eq_none_iff_forall_ne_some.mpr fun p hp => h ?_
  obtain ⟨hmem, n, hn, rfl⟩ := parent?_eq_some hp
  exact id_mem_ids (preorder_children_subset hmem (mem_preorder_of_mem hn))

theorem parent?_cons (n : Node) (rest : Forest) (id : String) :
    parent? (n :: rest) id =
      if n.children.any (·.id = id) then some n
      else (parent? n.children id).or (parent? rest id) := by
  simp only [parent?, preorder_cons, List.find?_cons, List.find?_append]
  cases n.children.any (·.id = id) <;> rfl

theorem any_id_eq_false {f : Forest} {id : String} (h : id ∉ f.map (·.id)) :
    f.any (·.id = id) = false := by
  simpa using fun n hn heq => h (List.mem_map.mpr ⟨n, hn, heq⟩)

/-! ## Links -/

/-- The siblings and all below them have the right links, `parent` holding them. -/
def Linked (parent : Option String) : Forest → Prop
  | [] => True
  | ⟨id, p, _, children⟩ :: rest => p = parent ∧ Linked (some id) children ∧ Linked parent rest

@[simp]
theorem linked_nil (parent : Option String) : Linked parent [] := by rw [Linked]; trivial

@[simp]
theorem linked_cons {parent : Option String} {n : Node} {rest : Forest} :
    Linked parent (n :: rest) ↔
      n.parent = parent ∧ Linked (some n.id) n.children ∧ Linked parent rest := by
  cases n
  rw [Linked]

theorem linked_iff_forall_mem {parent : Option String} {f : Forest} :
    Linked parent f ↔ ∀ n ∈ f, n.parent = parent ∧ Linked (some n.id) n.children := by
  induction f with
  | nil => simp
  | cons n rest ih => simp [ih, and_assoc]

/-- Links are right from the top down when each node is linked to the one that holds it. -/
theorem linked_iff {parent : Option String} {f : Forest} :
    Linked parent f ↔ (∀ n ∈ f, n.parent = parent) ∧
      ∀ n ∈ f.preorder, ∀ m ∈ n.children, m.parent = some n.id := by
  induction f using Forest.induction generalizing parent with
  | nil => simp
  | cons id p widget children rest ihc ihr =>
      simp only [linked_cons, ihc, ihr, preorder_cons, List.forall_mem_cons, List.forall_mem_append]
      tauto

theorem Linked.children {parent : Option String} {f : Forest} (h : Linked parent f) {n : Node}
    (hn : n ∈ f.preorder) : Linked (some n.id) n.children := by
  obtain ⟨_, hlinks⟩ := linked_iff.mp h
  exact linked_iff.mpr ⟨hlinks n hn, fun m hm => hlinks m (preorder_children_subset hn hm)⟩

/-- The ids are all different, roots have no parent link, and every other node is
linked to the node that holds it. -/
structure WellFormed (f : Forest) : Prop where
  distinct : f.ids.Nodup
  roots : ∀ n ∈ f, n.parent = none
  children : ∀ n ∈ f.preorder, ∀ m ∈ n.children, m.parent = some n.id

theorem wellFormed_iff {f : Forest} : f.WellFormed ↔ f.ids.Nodup ∧ Linked none f :=
  ⟨fun h => ⟨h.distinct, linked_iff.mpr ⟨h.roots, h.children⟩⟩,
    fun ⟨hd, hl⟩ => ⟨hd, (linked_iff.mp hl).1, (linked_iff.mp hl).2⟩⟩

theorem wellFormed_nil : WellFormed [] := wellFormed_iff.mpr ⟨by simp, by simp⟩

/-- Among linked siblings, a node is either one of them, and no node holds it, or the
node that holds it is the one it is linked to. -/
theorem Linked.parent?_cases {parent : Option String} {f : Forest} (hl : Linked parent f)
    (hd : f.ids.Nodup) : ∀ n ∈ f.preorder,
      (n ∈ f ∧ f.parent? n.id = none ∧ n.parent = parent) ∨
      (n.id ∉ f.map (·.id) ∧ ∃ h, f.parent? n.id = some h ∧ n.parent = some h.id) := by
  induction f using Forest.induction generalizing parent with
  | nil => simp
  | cons id p widget children rest ihc ihr =>
      obtain ⟨hp, hlc, hlr⟩ := linked_cons.mp hl
      simp only [ids_cons, List.nodup_cons, List.nodup_append, List.mem_append, not_or] at hd
      obtain ⟨⟨hidc, hidr⟩, hdc, hdr, hcr⟩ := hd
      intro n hn
      simp only [preorder_cons, List.mem_cons, List.mem_append] at hn
      rw [parent?_cons]
      rcases hn with rfl | hn | hn
      · -- the first root: nothing below it or beside it has its id
        have hany := any_id_eq_false fun h => hidc (map_id_subset _ h)
        refine .inl ⟨List.mem_cons_self, ?_, hp⟩
        simp only [hany, parent?_eq_none hidc, parent?_eq_none hidr]
        rfl
      · have hmem := id_mem_ids hn
        have hid : n.id ≠ id := fun heq => hidc (heq ▸ hmem)
        have hrest : n.id ∉ rest.map (·.id) := fun hr => hcr _ hmem _ (map_id_subset _ hr) rfl
        have hnot : n.id ∉ List.map (·.id) (⟨id, p, widget, children⟩ :: rest) := by
          simp only [List.map_cons, List.mem_cons, not_or]
          exact ⟨hid, hrest⟩
        refine .inr ⟨hnot, ?_⟩
        rcases ihc hlc hdc n hn with ⟨hc, _, hpar⟩ | ⟨hc, h, hh, hpar⟩
        · have hany : children.any (·.id = n.id) = true := by simpa using ⟨n, hc, rfl⟩
          exact ⟨_, by simp only [hany, if_true], hpar⟩
        · have hany := any_id_eq_false hc
          exact ⟨h, by simp only [hany, hh]; rfl, hpar⟩
      · have hmem := id_mem_ids hn
        have hid : n.id ≠ id := fun heq => hidr (heq ▸ hmem)
        have hnc : n.id ∉ ids children := fun hc => hcr _ hc _ hmem rfl
        have hany := any_id_eq_false fun h => hnc (map_id_subset _ h)
        simp only [hany, parent?_eq_none hnc, Option.none_or]
        rcases ihr hlr hdr n hn with ⟨hr, hnone, hpar⟩ | ⟨hr, h, hh, hpar⟩
        · exact .inl ⟨List.mem_cons_of_mem _ hr, hnone, hpar⟩
        · refine .inr ⟨?_, h, hh, hpar⟩
          simp only [List.map_cons, List.mem_cons, not_or]
          exact ⟨hid, hr⟩

/-- The node that a search finds to hold a node is the one it is linked to. -/
theorem WellFormed.parent?_eq {f : Forest} (h : f.WellFormed) {n : Node} (hn : n ∈ f.preorder) :
    (f.parent? n.id).map (·.id) = n.parent := by
  obtain ⟨hd, hl⟩ := wellFormed_iff.mp h
  rcases hl.parent?_cases hd n hn with ⟨_, hnone, hpar⟩ | ⟨_, p, hp, hpar⟩
  · rw [hnone, hpar]
    rfl
  · rw [hp, hpar]
    rfl

end Forest

end Tandem
