import Mathlib
import Tandem.Proofs.Forest.Identity
import Tandem.Proofs.Store.Steps
import Tandem.Proofs.Sync.Run

/-!
# The forest stays well-formed

Whatever a host does with the controller, the live forest and every forest on the
undo timeline keep different ids and right parent links. The host's part of the bargain
is said event by event (`Controller.Admits`): a node that is added is well-formed and
brings ids of its own, and an id is new to the live forest when it is given out.

* **one command** — `Store.WellFormed.run`, by the edit lemmas of the forest;
* **one event** — `Store.WellFormed.step`, where a text brings a stamped or a carried forest;
* **a run** — `steps_wellFormed`, with the search for parents agreeing with the links.
-/

namespace Tandem

namespace Store

/-- The live forest and all forests of the timeline are well-formed. -/
structure WellFormed (s : Store) : Prop where
  live : s.forest.WellFormed
  kept : ∀ f ∈ s.history.entries, f.WellFormed

/-- The next `n` ids that are given out are new to the live forest. -/
def IsNew (s : Store) (n : Nat) : Prop := ∀ id ∈ minted s.fresh n, id ∉ s.forest.ids

/-- What a host owes to the store with a command: an added node is well-formed with ids
of its own, and ids that are given out are new. A forest that replaces the live one is
well-formed. -/
def Admits (s : Store) : Command → Prop
  | .add n _ _ => n.WellFormed ∧ ∀ id ∈ n.id :: Forest.ids n.children, id ∉ s.forest.ids
  | .addComponent .. => s.IsNew 1
  | .duplicate id => ∀ n ∈ s.forest.find? id, s.IsNew n.outline.size
  | .setForest f => f.WellFormed
  | _ => True

def AdmitsAll (s : Store) : List Command → Prop
  | [] => True
  | c :: cs => s.Admits c ∧ (s.run c).2.AdmitsAll cs

theorem WellFormed.edit {s : Store} (hs : s.WellFormed) {c : Command} (hc : s.Admits c)
    {f : Forest} {k : Nat} (h : c.edit? s.fresh s.forest = some (f, k)) : f.WellFormed := by
  cases c with
  | add n holder index =>
      obtain ⟨f', hf, heq⟩ := Option.map_eq_some_iff.mp h
      cases heq
      exact hs.live.add hc.1 hc.2 hf
  | addComponent c holder index =>
      obtain ⟨f', hf, heq⟩ := Option.map_eq_some_iff.mp h
      cases heq
      refine hs.live.add (Outline.stamp_wellFormed none s.fresh ⟨c.widget, []⟩) ?_ hf
      rw [Outline.ids_stamp]
      have hsize : Outline.size ⟨c.widget, []⟩ = 1 := by rw [Outline.size, Outline.count]
      rw [hsize]
      exact hc
  | remove id =>
      obtain ⟨f', hf, heq⟩ := Option.map_eq_some_iff.mp h
      cases heq
      exact hs.live.remove hf
  | move id holder index =>
      obtain ⟨f', hf, heq⟩ := Option.map_eq_some_iff.mp h
      cases heq
      exact hs.live.move hf
  | patch id p =>
      obtain ⟨f', hf, heq⟩ := Option.map_eq_some_iff.mp h
      cases heq
      exact hs.live.patch hf
  | duplicate id =>
      obtain ⟨⟨f', copy⟩, hr, heq⟩ := Option.map_eq_some_iff.mp h
      cases heq
      obtain ⟨n, _, hn, rfl, _⟩ := Forest.duplicate_eq_some hr
      refine hs.live.duplicate hr ?_
      rw [Node.outline_fresh]
      exact hc n hn
  | _ => cases h

/-- A forest from the timeline is well-formed, and so are those that stay on it. -/
theorem WellFormed.restore {s : Store} {f : Forest} {h : History} (hf : f ∈ h.entries)
    (hh : ∀ g ∈ h.entries, g.WellFormed) : (s.restore f h).WellFormed :=
  ⟨hh f hf, hh⟩

theorem WellFormed.run {s : Store} (hs : s.WellFormed) {c : Command} (hc : s.Admits c) :
    (s.run c).2.WellFormed := by
  cases he : c.edit? s.fresh s.forest with
  | some fk =>
      obtain ⟨_, selected, hovered, hrun⟩ := run_of_edit_eq_some he
      rw [hrun]
      refine ⟨hs.edit hc he, fun g hg => ?_⟩
      rcases History.mem_entries_push hg with rfl | hg
      · exact hs.live
      · exact hs.kept g hg
  | none =>
      cases hedit : c.isEdit with
      | true => rw [(run_of_edit_eq_none hedit he).2]; exact hs
      | false =>
          cases c with
          | undo =>
              rw [run_undo]
              cases hu : s.history.undo s.forest with
              | none => exact hs
              | some fh =>
                  obtain ⟨hf, hmem⟩ := History.mem_entries_undo hu
                  refine WellFormed.restore hf fun g hg => ?_
                  rcases hmem g hg with rfl | hg
                  · exact hs.live
                  · exact hs.kept g hg
          | redo =>
              rw [run_redo]
              cases hr : s.history.redo with
              | none => exact hs
              | some fh =>
                  obtain ⟨hf, hentries⟩ := History.mem_entries_redo hr
                  exact WellFormed.restore (hentries ▸ hf) fun g hg => hs.kept g (hentries ▸ hg)
          | clearHistory => exact ⟨hs.live, fun g hg => by cases hg⟩
          | setForest f => exact ⟨hc, hs.kept⟩
          | select | hover | subscribe | search | toggle => exact ⟨hs.live, hs.kept⟩
          | _ => cases hedit

theorem WellFormed.runAll {s : Store} (hs : s.WellFormed) {cs : List Command}
    (hcs : s.AdmitsAll cs) : (s.runAll cs).2.WellFormed := by
  induction cs generalizing s with
  | nil => exact hs
  | cons c cs ih => exact ih (hs.run hcs.1) hcs.2

end Store

namespace Controller

variable (digest : String → String)

/-- What a host owes to the controller with an event: the ids that a text's nodes get
are new, and the commands are admitted by the store. -/
def Admits (c : Controller) : Event → Prop
  | .source text =>
    text ≠ c.lastSource → c.store.IsNew (Outline.count (Source.readRoots text))
  | .mutate commands => c.store.AdmitsAll commands

def AdmitsRun (c : Controller) : List Event → Prop
  | [] => True
  | e :: es => c.Admits e ∧ (c.step digest e).AdmitsRun es

/-- The forest of a text is well-formed, whether ids are carried over or not. -/
theorem wellFormed_readAgain {c : Controller} (hc : c.store.WellFormed) {text : String}
    (hnew : c.store.IsNew (Outline.count (Source.readRoots text))) :
    (c.readAgain text).WellFormed := by
  have hparsed : (Source.readForest c.store.fresh text).WellFormed :=
    Forest.wellFormed_stampAll _ _
  simp only [readAgain]
  split
  · refine Forest.wellFormed_carryIds hc.live hparsed fun id hid => hnew id ?_
    rwa [Source.readForest, Forest.ids_stampAll] at hid
  · exact hparsed

theorem wellFormed_step {c : Controller} (hc : c.store.WellFormed) {e : Event}
    (he : c.Admits e) : (c.step digest e).store.WellFormed := by
  cases e with
  | mutate commands =>
      show (c.mutateAll digest commands).2.2.store.WellFormed
      rw [mutateAll_store]
      exact hc.runAll he
  | source text =>
      show (c.sourceChanged digest text).2.store.WellFormed
      rw [sourceChanged]
      split
      · exact hc
      next hskip =>
        have htext : text ≠ c.lastSource := fun h => hskip (.inr h)
        simp only
        split
        · exact ⟨hc.live, hc.kept⟩
        · exact ⟨wellFormed_readAgain hc (he htext), hc.kept⟩

theorem wellFormed_steps {c : Controller} (hc : c.store.WellFormed) {events : List Event}
    (he : c.AdmitsRun digest events) : (c.steps digest events).store.WellFormed := by
  induction events generalizing c with
  | nil => exact hc
  | cons e es ih => exact ih (wellFormed_step digest hc he.1) he.2

theorem wellFormed_start (options : SyncOptions) (writer : Source.Writer)
    (fileName : Option String) : (start digest options writer fileName).store.WellFormed :=
  ⟨Forest.wellFormed_nil, fun f hf => by cases hf⟩

end Controller

/-- **The forest stays well-formed.** After any run of a new controller in which the
host keeps its part, the live forest and every forest of the undo timeline have
different ids, roots without a parent link and all other nodes linked to the node that
holds them, and the search for the parent of a node finds what the node is linked to. -/
theorem steps_wellFormed (digest : String → String) (options : SyncOptions)
    (writer : Source.Writer) (fileName : Option String) (events : List Event)
    (hadmits : (Controller.start digest options writer fileName).AdmitsRun digest events) :
    let s := ((Controller.start digest options writer fileName).steps digest events).store
    ∀ f, f = s.forest ∨ f ∈ s.history.entries →
      f.ids.Nodup ∧ (∀ n ∈ f, n.parent = none) ∧
      (∀ n ∈ f.preorder, ∀ m ∈ n.children, m.parent = some n.id) ∧
      ∀ n ∈ f.preorder, (f.parent? n.id).map (·.id) = n.parent := by
  intro s f hf
  have hs := Controller.wellFormed_steps digest
    (Controller.wellFormed_start digest options writer fileName) hadmits
  have hwf : f.WellFormed := by
    rcases hf with rfl | hf
    · exact hs.live
    · exact hs.kept f hf
  exact ⟨hwf.distinct, hwf.roots, hwf.children, fun n hn => hwf.parent?_eq hn⟩

theorem mint_ne_singleton (k : Nat) (x : Char) : mint k ≠ String.ofList [x] := by
  intro h
  have hlen := congrArg List.length (String.ofList_inj.mp h)
  have hdigits : 10 ≤ (paddedDigits k).length := by
    simp only [paddedDigits, List.length_append, List.length_replicate]
    omega
  simp only [List.length_append, List.length_singleton] at hlen
  omega

/-- Two nodes are added, one is moved out of the other and back by an undo, a text is
read over them, and the host walks through the history. -/
theorem steps_wellFormed_of_edits_and_text :
    let a : Node := ⟨"a", none, { component := "Row" }, []⟩
    let b : Node := ⟨"b", none, { component := "Text" }, []⟩
    let edits : List Command := [.add a none 0, .add b (some "a") 0, .move "b" none 0, .undo]
    let events : List Event := [.mutate edits,
      .source "page P \x7b <Row><Text>x</Text></Row> <Row /> \x7d",
      .mutate [.remove "b", .undo, .redo]]
    let c := Controller.start id {} {} none
    c.AdmitsRun id events ∧ (c.steps id events).store.forest.ids.Nodup := by
  intro a b edits events c
  have hadd : c.store.Admits (.add a none 0) := by
    refine ⟨⟨by simp [a], by simp [a]⟩, ?_⟩
    show ∀ id ∈ _, id ∉ Forest.ids []
    simp
  have hadd' : (c.store.run (.add a none 0)).2.Admits (.add b (some "a") 0) := by
    refine ⟨⟨by simp [b], by simp [b]⟩, ?_⟩
    have hids : (c.store.run (.add a none 0)).2.forest.ids = ["a"] := by cbv
    rw [hids]
    simp [b]
  have hlive : (c.store.runAll edits).2.forest.ids = ["a", "b"] := by cbv
  have hnew : ∀ n, (c.store.runAll edits).2.IsNew n := by
    intro n id hid
    obtain ⟨k, _, _, rfl⟩ := mem_minted.mp hid
    rw [hlive]
    intro hmem
    rcases List.mem_cons.mp hmem with h | h
    · exact mint_ne_singleton k 'a' h
    · exact mint_ne_singleton k 'b' (List.mem_singleton.mp h)
  have hadmits : c.AdmitsRun id events := by
    refine ⟨⟨hadd, hadd', trivial, trivial, trivial⟩, fun _ => ?_, ?_⟩
    · show (c.mutateAll id edits).2.2.store.IsNew _
      rw [Controller.mutateAll_store]
      exact hnew _
    · exact ⟨⟨trivial, trivial, trivial, trivial⟩, trivial⟩
  exact ⟨hadmits, (steps_wellFormed id {} {} none events hadmits _ (.inl rfl)).1⟩

end Tandem
