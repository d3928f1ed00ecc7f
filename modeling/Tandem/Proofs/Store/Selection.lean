import Mathlib.Data.List.Permutation
import Tandem.Proofs.Forest.Identity
import Tandem.Proofs.Forest.Move
import Tandem.Proofs.Store.Steps

/-!
# Selected and hovered nodes are live

The store remembers the selected and the hovered node by their ids, while commands replace the
forest under them. The ids never point at a node that is gone, as long as ids name one node
each (`Store.Attached`):

* **an edit inserts** — the new node is selected (`Command.inserted?`), and no id is lost;
* **an edit removes** — ids that are gone are let go of;
* **an edit rearranges** — a move or a patch keeps every id, so nothing needs to be let go of;
* **the forest is replaced** — by an undo, a redo or a reading: stale ids are let go of, and
  an undo or a redo selects nothing.

`Store.run_edit_cases` says which of the first three an edit is. What the host owes is said by
`Store.Allows`: ids that come in are new, and it selects and hovers live nodes only.
-/

namespace Tandem

open Forest

namespace Command

/-- The node that an edit of `f` puts in, with fresh ids from `mint k` on where it needs them. -/
def inserted? (k : Nat) (f : Forest) : Command → Option Node
  | .add n holder _ => some { n with parent := holder }
  | .addComponent c holder _ => some (Outline.stamp holder k ⟨c.widget, []⟩)
  | .duplicate id =>
    (f.find? id).map fun n => { n.fresh k with parent := (f.parent? id).map (·.id) }
  | _ => none

theorem isEdit_of_inserted? {k : Nat} {f : Forest} {c : Command} {n : Node}
    (h : c.inserted? k f = some n) : c.isEdit = true := by
  cases c with
  | add | addComponent | duplicate => rfl
  | _ => cases h

end Command

namespace Store

/-- What a host owes with a command so that ids keep naming one live node each: a node that is
added has different ids, ids that come in are new to the live forest, a forest that is put in
place has different ids, and only live nodes are selected or hovered. -/
def Allows (s : Store) : Command → Prop
  | .add n _ _ =>
    (n.id :: ids n.children).Nodup ∧ ∀ id ∈ n.id :: ids n.children, id ∉ s.forest.ids
  | .addComponent .. => mint s.fresh ∉ s.forest.ids
  | .duplicate id =>
    ∀ n ∈ s.forest.find? id, ∀ i ∈ minted s.fresh n.outline.size, i ∉ s.forest.ids
  | .setForest f => f.ids.Nodup
  | .select id | .hover id => ∀ i ∈ id, i ∈ s.forest.ids
  | _ => True

def AllowsAll (s : Store) : List Command → Prop
  | [] => True
  | c :: cs => s.Allows c ∧ (s.run c).2.AllowsAll cs

/-- The ids that come in with an edit are different and new. -/
theorem Allows.inserted {s : Store} {c : Command} (hc : s.Allows c) {n : Node}
    (hn : c.inserted? s.fresh s.forest = some n) :
    (n.id :: ids n.children).Nodup ∧ ∀ id ∈ n.id :: ids n.children, id ∉ s.forest.ids := by
  cases c with
  | add m holder index =>
      cases hn
      exact hc
  | addComponent c holder index =>
      cases hn
      have hsize : Outline.size ⟨c.widget, []⟩ = 1 := by rw [Outline.size, Outline.count]
      rw [Outline.ids_stamp, hsize]
      refine ⟨nodup_minted _ _, fun id hid => ?_⟩
      obtain rfl : id = mint s.fresh := List.mem_singleton.mp hid
      exact hc
  | duplicate id =>
      obtain ⟨m, hm, rfl⟩ := Option.map_eq_some_iff.mp hn
      rw [Node.ids_fresh s.fresh m]
      exact ⟨nodup_minted _ _, hc m hm⟩
  | _ => cases hn

/-- What an edit that makes a forest does to it and to what is selected and hovered: it puts
a node in, takes one out, or keeps all nodes. -/
theorem run_edit_cases {s : Store} {c : Command} {f : Forest} {k : Nat}
    (h : c.edit? s.fresh s.forest = some (f, k)) :
    let s' := (s.run c).2
    (∃ n holder index, c.inserted? s.fresh s.forest = some { n with parent := holder } ∧
      (∀ i ∈ holder, i ∈ s.forest.ids) ∧ f = s.forest.place holder index n ∧
      s'.selected = some n.id ∧ s'.hovered = s.hovered) ∨
    (∃ id, c.inserted? s.fresh s.forest = none ∧ f = s.forest.prune id ∧
      s'.selected = s.selected.filter f.contains ∧ s'.hovered = s.hovered.filter f.contains) ∨
    (c.inserted? s.fresh s.forest = none ∧ (s.forest.ids.Nodup → f.ids.Perm s.forest.ids) ∧
      s'.selected = s.selected ∧ s'.hovered = s.hovered) := by
  cases c with
  | add n holder index =>
      obtain ⟨f', hf, heq⟩ := Option.map_eq_some_iff.mp h
      cases heq
      obtain ⟨hholder, rfl⟩ := add_eq_some hf
      simp only [run, add?, hf, Option.map_some, reporting]
      exact .inl ⟨n, holder, index, rfl, hholder, rfl, rfl, rfl⟩
  | addComponent c holder index =>
      obtain ⟨f', hf, heq⟩ := Option.map_eq_some_iff.mp h
      cases heq
      obtain ⟨hholder, rfl⟩ := add_eq_some hf
      simp only [run, addComponent?, add?, hf, Option.map_some]
      exact .inl ⟨_, holder, index, rfl, hholder, rfl, rfl, rfl⟩
  | remove id =>
      obtain ⟨f', hf, heq⟩ := Option.map_eq_some_iff.mp h
      cases heq
      obtain rfl := remove_eq_some hf
      simp only [run, remove?, hf, Option.map_some, reporting]
      exact .inr (.inl ⟨id, rfl, rfl, rfl, rfl⟩)
  | move id holder index =>
      obtain ⟨f', hf, heq⟩ := Option.map_eq_some_iff.mp h
      cases heq
      simp only [run, move?, hf, Option.map_some, reporting]
      exact .inr (.inr ⟨rfl, fun hd => ids_move_perm hd hf, rfl, rfl⟩)
  | patch id p =>
      obtain ⟨f', hf, heq⟩ := Option.map_eq_some_iff.mp h
      cases heq
      simp only [run, patch?, hf, Option.map_some, reporting]
      obtain rfl := patch_eq_some hf
      exact .inr (.inr ⟨rfl, fun _ => .of_eq (ids_mapWidget _ _ _), rfl, rfl⟩)
  | duplicate id =>
      obtain ⟨⟨f', copy⟩, hr, heq⟩ := Option.map_eq_some_iff.mp h
      cases heq
      obtain ⟨n, index, hn, rfl, rfl⟩ := duplicate_eq_some hr
      simp only [run, duplicate?, hr, Option.map_some]
      refine .inl ⟨n.fresh s.fresh, _, index + 1, ?_, ?_, rfl, rfl, rfl⟩
      · simp only [Command.inserted?, hn, Option.map_some]
      · exact mem_ids_of_parent?
  | _ => cases h

/-- The ids are all different in every forest the store keeps, and the selected and the hovered
id are ids of live nodes. -/
structure Attached (s : Store) : Prop where
  distinct : s.forest.ids.Nodup
  kept : ∀ f ∈ s.history.entries, f.ids.Nodup
  selected : ∀ id ∈ s.selected, id ∈ s.forest.ids
  hovered : ∀ id ∈ s.hovered, id ∈ s.forest.ids

theorem attached_new (limit : Nat) : (Store.new limit).Attached where
  distinct := by
    rw [show (Store.new limit).forest.ids = [] from ids_nil]
    exact List.nodup_nil
  kept := fun f hf => by cases hf
  selected := fun id hid => by cases hid
  hovered := fun id hid => by cases hid

/-- An id that is kept because the forest contains it is one of the forest. -/
theorem mem_ids_of_filter {f : Forest} {o : Option String} {id : String}
    (h : id ∈ o.filter f.contains) : id ∈ f.ids :=
  contains_iff.mp (Option.mem_filter_iff.mp h).2

/-- When a forest of the history is put in place, nothing is selected and a stale id is let
go of. -/
theorem attached_restore (s : Store) {f : Forest} {h : History} (hf : f ∈ h.entries)
    (hh : ∀ g ∈ h.entries, g.ids.Nodup) : (s.restore f h).Attached where
  distinct := hh f hf
  kept := hh
  selected := fun id hid => by cases hid
  hovered := fun _ hid => mem_ids_of_filter hid

theorem Attached.setForest {s : Store} (hs : s.Attached) {f : Forest} (hf : f.ids.Nodup) :
    (s.setForest f).Attached where
  distinct := hf
  kept := hs.kept
  selected := fun _ hid => mem_ids_of_filter hid
  hovered := fun _ hid => mem_ids_of_filter hid

theorem Attached.edit {s : Store} (hs : s.Attached) {c : Command} (hc : s.Allows c)
    {f : Forest} {k : Nat} (h : c.edit? s.fresh s.forest = some (f, k)) :
    f.ids.Nodup ∧ (∀ id ∈ (s.run c).2.selected, id ∈ f.ids) ∧
      ∀ id ∈ (s.run c).2.hovered, id ∈ f.ids := by
  rcases run_edit_cases h with ⟨n, holder, index, hn, hholder, rfl, hsel, hhov⟩ |
    ⟨id, _, rfl, hsel, hhov⟩ | ⟨_, hperm, hsel, hhov⟩
  · obtain ⟨hnodup, hnew⟩ := hc.inserted hn
    have hids := ids_place_perm index n hs.distinct hholder
    rw [hsel, hhov]
    refine ⟨?_, ?_, fun id hid => ?_⟩
    · rw [hids.nodup_iff, List.nodup_append]
      exact ⟨hnodup, hs.distinct, fun a ha b hb heq => hnew a ha (heq ▸ hb)⟩
    · rintro id ⟨⟩
      exact hids.mem_iff.mpr (List.mem_append_left _ List.mem_cons_self)
    · exact hids.mem_iff.mpr (List.mem_append_right _ (hs.hovered id hid))
  · rw [hsel, hhov]
    exact ⟨hs.distinct.sublist (ids_prune_sublist id s.forest), fun _ => mem_ids_of_filter,
      fun _ => mem_ids_of_filter⟩
  · have hids := hperm hs.distinct
    rw [hsel, hhov]
    exact ⟨hids.nodup_iff.mpr hs.distinct, fun id hid => hids.mem_iff.mpr (hs.selected id hid),
      fun id hid => hids.mem_iff.mpr (hs.hovered id hid)⟩

theorem Attached.run {s : Store} (hs : s.Attached) {c : Command} (hc : s.Allows c) :
    (s.run c).2.Attached := by
  cases he : c.edit? s.fresh s.forest with
  | some fk =>
      obtain ⟨f, k⟩ := fk
      obtain ⟨hd, hsel, hhov⟩ := hs.edit hc he
      obtain ⟨_, selected, hovered, hrun⟩ := run_of_edit_eq_some he
      rw [hrun] at hsel hhov ⊢
      refine ⟨hd, fun g hg => ?_, hsel, hhov⟩
      rcases History.mem_entries_push hg with rfl | hg
      · exact hs.distinct
      · exact hs.kept g hg
  | none =>
      cases hedit : c.isEdit with
      | true => rw [(run_of_edit_eq_none hedit he).2]; exact hs
      | false =>
          cases c with
          | undo =>
              rw [run_undo]
              cases hu : s.history.undo s.forest with
              | none => exact hs
              | some fh =>
                  obtain ⟨hf, hmem⟩ := History.mem_entries_undo hu
                  refine s.attached_restore hf fun g hg => ?_
                  rcases hmem g hg with rfl | hg
                  · exact hs.distinct
                  · exact hs.kept g hg
          | redo =>
              rw [run_redo]
              cases hr : s.history.redo with
              | none => exact hs
              | some fh =>
                  obtain ⟨hf, hentries⟩ := History.mem_entries_redo hr
                  exact s.attached_restore (hentries ▸ hf) fun g hg => hs.kept g (hentries ▸ hg)
          | clearHistory =>
              exact ⟨hs.distinct, fun g hg => absurd hg List.not_mem_nil, hs.selected, hs.hovered⟩
          | setForest f => exact hs.setForest hc
          | select id => exact ⟨hs.distinct, hs.kept, hc, hs.hovered⟩
          | hover id => exact ⟨hs.distinct, hs.kept, hs.selected, hc⟩
          | subscribe | search | toggle => exact ⟨hs.distinct, hs.kept, hs.selected, hs.hovered⟩
          | _ => cases hedit

theorem Attached.runAll {s : Store} (hs : s.Attached) {cs : List Command}
    (hcs : s.AllowsAll cs) : (s.runAll cs).2.Attached := by
  induction cs generalizing s with
  | nil => exact hs
  | cons c cs ih => exact ih (hs.run hcs.1) hcs.2

theorem allowsAll_concat {s : Store} {cs : List Command} {c : Command} :
    s.AllowsAll (cs ++ [c]) ↔ s.AllowsAll cs ∧ (s.runAll cs).2.Allows c := by
  induction cs generalizing s with
  | nil => simp [AllowsAll, runAll]
  | cons d cs ih => simp [AllowsAll, runAll, ih, and_assoc]

/-! ## What is selected behind a command -/

/-- An undo or a redo that is carried out selects nothing. -/
theorem selected_of_restored {s : Store} {c : Command} (hc : c = .undo ∨ c = .redo)
    (haccepted : (s.run c).1.accepted = true) : (s.run c).2.selected = none := by
  rcases hc with rfl | rfl
  · rw [run_undo] at haccepted ⊢
    cases hu : s.history.undo s.forest with
    | none => rw [hu] at haccepted; cases haccepted
    | some fh => rfl
  · rw [run_redo] at haccepted ⊢
    cases hr : s.history.redo with
    | none => rw [hr] at haccepted; cases haccepted
    | some fh => rfl

/-- An insertion that is carried out selects the new node, which is found as it was put in. -/
theorem selected_of_inserted {s : Store} {c : Command} (hc : s.Allows c)
    {n : Node} (hn : c.inserted? s.fresh s.forest = some n)
    (haccepted : (s.run c).1.accepted = true) :
    (s.run c).2.selected = some n.id ∧ (s.run c).2.selectedNode? = some n := by
  cases he : c.edit? s.fresh s.forest with
  | none =>
      rw [(run_of_edit_eq_none (Command.isEdit_of_inserted? hn) he).1] at haccepted
      cases haccepted
  | some fk =>
      obtain ⟨f, k⟩ := fk
      have hforest : (s.run c).2.forest = f := by
        obtain ⟨_, selected, hovered, hrun⟩ := run_of_edit_eq_some he
        rw [hrun]
        rfl
      rcases run_edit_cases he with ⟨m, holder, index, hm, hholder, rfl, hsel, _⟩ |
        ⟨_, hnone, _⟩ | ⟨hnone, _⟩
      · obtain rfl : n = { m with parent := holder } := Option.some.inj (hn.symm.trans hm)
        have hnew := (hc.inserted hn).2 m.id List.mem_cons_self
        refine ⟨hsel, ?_⟩
        rw [selectedNode?, hsel, hforest, Option.bind_some, find?_place index hnew hholder]
      · rw [hn] at hnone
        cases hnone
      · rw [hn] at hnone
        cases hnone

end Store

/-- **Nothing gone is selected or hovered.** Run any commands on an empty store, as long as the
host selects and hovers live nodes only and ids that come in are different and new. After
each of them the selected and the hovered id are ids of live nodes, if there are any; an undo
or a redo that is carried out has selected nothing; and an edit that has put a node in, an
added one, a new one of a component or a copy, has selected that node. -/
theorem runAll_selects_live (limit : Nat) (cs : List Command) (c : Command)
    (hallowed : (Store.new limit).AllowsAll (cs ++ [c])) :
    let before := ((Store.new limit).runAll cs).2
    let r := before.run c
    (∀ id ∈ r.2.selected, id ∈ r.2.forest.ids) ∧ (∀ id ∈ r.2.hovered, id ∈ r.2.forest.ids) ∧
    (c = .undo ∨ c = .redo → r.1.accepted = true → r.2.selected = none) ∧
    ∀ n, c.inserted? before.fresh before.forest = some n → r.1.accepted = true →
      r.2.selected = some n.id ∧ r.2.selectedNode? = some n := by
  intro before r
  obtain ⟨hbefore, hc⟩ := Store.allowsAll_concat.mp hallowed
  have hattached : before.Attached := (Store.attached_new limit).runAll hbefore
  have hbehind : r.2.Attached := hattached.run hc
  exact ⟨hbehind.selected, hbehind.hovered, Store.selected_of_restored,
    fun n hn => Store.selected_of_inserted hc hn⟩

/-- A text is added to a row, which selects it as it stands in the row; the pointer stands on
it when the adding is undone. -/
theorem runAll_selects_live_of_row :
    let row : Node := ⟨"a", none, { component := "Row" }, []⟩
    let text : Node := ⟨"b", none, { component := "Text" }, []⟩
    let start := Store.new 3
    let added := (start.runAll [.add row none 0]).2.run (.add text (some "a") 0)
    let undone := (start.runAll
      [.add row none 0, .add text (some "a") 0, .hover (some "b")]).2.run .undo
    start.AllowsAll [.add row none 0, .add text (some "a") 0, .hover (some "b"), .undo] ∧
      added.2.selectedNode? = some { text with parent := some "a" } ∧
      undone.2.selected = none ∧ ∀ id ∈ undone.2.hovered, id ∈ undone.2.forest.ids := by
  intro row text start added undone
  have hrow : start.Allows (.add row none 0) := by
    refine ⟨by simp [row], fun id _ => ?_⟩
    show id ∉ ids []
    simp
  have htext : (start.run (.add row none 0)).2.Allows (.add text (some "a") 0) := by
    have hids : (start.run (.add row none 0)).2.forest.ids = ["a"] := by
      simp only [start, row]
      cbv
    refine ⟨by simp [text], ?_⟩
    rw [hids]
    simp [text]
  have hpoint : added.2.Allows (.hover (some "b")) := by
    have hids : added.2.forest.ids = ["a", "b"] := by
      simp only [added, start, row, text]
      cbv
    rintro i ⟨⟩
    rw [hids]
    exact List.mem_cons_of_mem _ List.mem_cons_self
  have hadded : added.1.accepted = true := by
    simp only [added, start, row, text]
    cbv
  have hundone : undone.1.accepted = true := by
    simp only [undone, start, row, text]
    cbv
  have hallowed : start.AllowsAll
      [.add row none 0, .add text (some "a") 0, .hover (some "b"), .undo] :=
    ⟨hrow, htext, hpoint, trivial, trivial⟩
  obtain ⟨_, _, _, hselects⟩ :=
    runAll_selects_live 3 [.add row none 0] (.add text (some "a") 0) ⟨hrow, htext, trivial⟩
  obtain ⟨_, hhovered, hnothing, _⟩ := runAll_selects_live 3
    [.add row none 0, .add text (some "a") 0, .hover (some "b")] .undo hallowed
  exact ⟨hallowed, (hselects _ rfl hadded).2, hnothing (.inl rfl) hundone, hhovered⟩

end Tandem
