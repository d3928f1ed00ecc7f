import Tandem.Store

/-!
# What a command does to the store

Six commands edit the forest. What they make of it depends on the forest and on the
number of the next fresh id alone, so it is one pure function (`Command.edit?`).
`Store.run` carries an edit out by committing that forest
(`Store.run_of_edit_eq_some`) and refuses it exactly when there is none
(`Store.run_of_edit_eq_none`); every later statement about runs reads the store
through these two. What a step does to the timeline is to keep the live forest on it
at most (`History.mem_entries_push`, `History.mem_entries_undo`).
-/

namespace Tandem

namespace Reply

def accepted : Reply → Bool
  | .done => true
  | .outcome ok => ok
  | .made id => id.isSome

end Reply

namespace Command

/-- The command edits the live forest and is recorded in the history. -/
def isEdit : Command → Bool
  | .add .. | .addComponent .. | .remove .. | .move .. | .patch .. | .duplicate .. => true
  | _ => false

/-- The forest that an edit makes of `f` with fresh ids from `mint k` on, and the
number of the next fresh id. -/
def edit? (k : Nat) (f : Forest) : Command → Option (Forest × Nat)
  | .add n holder index => (f.add n holder index).map (·, k)
  | .addComponent c holder index =>
    (f.add (Outline.stamp none k ⟨c.widget, []⟩) holder index).map (·, k + 1)
  | .remove id => (f.remove id).map (·, k)
  | .move id holder index => (f.move id holder index).map (·, k)
  | .patch id p => (f.patch id p).map (·, k)
  | .duplicate id => (f.duplicate id k).map fun r => (r.1, k + r.2.outline.size)
  | _ => none

end Command

namespace History

/-- A push keeps nothing but the live forest and what was kept. -/
theorem mem_entries_push {h : History} {before f : Forest} (hf : f ∈ (h.push before).entries) :
    f = before ∨ f ∈ h.entries := by
  have hkept : f ∈ h.entries.take h.cursor ++ [before] := by
    simp only [push] at hf
    split at hf
    · exact List.mem_of_mem_tail hf
    · exact hf
  rcases List.mem_append.mp hkept with hf | hf
  · exact .inr (List.mem_of_mem_take hf)
  · exact .inl (List.mem_singleton.mp hf)

theorem mem_withLive {h : History} {live f : Forest} (hf : f ∈ h.withLive live) :
    f = live ∨ f ∈ h.entries := by
  rw [withLive] at hf
  split at hf
  · rcases List.mem_append.mp hf with hf | hf
    · exact .inr hf
    · exact .inl (List.mem_singleton.mp hf)
  · exact .inr hf

/-- An undo shows a forest of its timeline, which keeps nothing but the live forest
and what was kept. -/
theorem mem_entries_undo {h h' : History} {live f : Forest} (hu : h.undo live = some (f, h')) :
    f ∈ h'.entries ∧ ∀ g ∈ h'.entries, g = live ∨ g ∈ h.entries := by
  simp only [undo] at hu
  split at hu
  · cases hu
  · cases hu
    exact ⟨List.getElem_mem _, fun g hg => mem_withLive hg⟩

theorem mem_entries_redo {h h' : History} {f : Forest} (hr : h.redo = some (f, h')) :
    f ∈ h.entries ∧ h'.entries = h.entries := by
  rw [redo] at hr
  split at hr
  · cases hr
    exact ⟨List.getElem_mem _, rfl⟩
  · cases hr

end History

namespace Store

@[simp]
theorem notify_forest (s : Store) : s.notify.forest = s.forest := rfl

@[simp]
theorem notify_history (s : Store) : s.notify.history = s.history := rfl

@[simp]
theorem notify_fresh (s : Store) : s.notify.fresh = s.fresh := rfl

@[simp]
theorem commit_forest (s : Store) (f : Forest) : (s.commit f).forest = f := rfl

@[simp]
theorem commit_history (s : Store) (f : Forest) :
    (s.commit f).history = s.history.push s.forest := rfl

@[simp]
theorem restore_forest (s : Store) (f : Forest) (h : History) : (s.restore f h).forest = f := rfl

@[simp]
theorem restore_history (s : Store) (f : Forest) (h : History) : (s.restore f h).history = h := rfl

@[simp]
theorem restore_fresh (s : Store) (f : Forest) (h : History) :
    (s.restore f h).fresh = s.fresh := rfl

/-- An edit that makes a forest is accepted, and the forest is committed; beyond that
only the selection and the supply of fresh ids change. -/
theorem run_of_edit_eq_some {s : Store} {c : Command} {f : Forest} {k : Nat}
    (h : c.edit? s.fresh s.forest = some (f, k)) :
    (s.run c).1.accepted = true ∧
      ∃ selected hovered, (s.run c).2 = { s.commit f with selected, hovered, fresh := k } := by
  cases c with
  | add n holder index =>
      obtain ⟨f', hf, heq⟩ := Option.map_eq_some_iff.mp h
      cases heq
      simp only [run, add?, hf, Option.map_some, reporting]
      exact ⟨rfl, _, _, rfl⟩
  | addComponent c holder index =>
      obtain ⟨f', hf, heq⟩ := Option.map_eq_some_iff.mp h
      cases heq
      simp only [run, addComponent?, add?, hf, Option.map_some]
      exact ⟨rfl, _, _, rfl⟩
  | remove id =>
      obtain ⟨f', hf, heq⟩ := Option.map_eq_some_iff.mp h
      cases heq
      simp only [run, remove?, hf, Option.map_some, reporting]
      exact ⟨rfl, _, _, rfl⟩
  | move id holder index =>
      obtain ⟨f', hf, heq⟩ := Option.map_eq_some_iff.mp h
      cases heq
      simp only [run, move?, hf, Option.map_some, reporting]
      exact ⟨rfl, _, _, rfl⟩
  | patch id p =>
      obtain ⟨f', hf, heq⟩ := Option.map_eq_some_iff.mp h
      cases heq
      simp only [run, patch?, hf, Option.map_some, reporting]
      exact ⟨rfl, _, _, rfl⟩
  | duplicate id =>
      obtain ⟨r, hr, heq⟩ := Option.map_eq_some_iff.mp h
      cases heq
      simp only [run, duplicate?, hr, Option.map_some]
      exact ⟨rfl, _, _, rfl⟩
  | _ => cases h

/-- An edit that makes no forest is refused and changes nothing. -/
theorem run_of_edit_eq_none {s : Store} {c : Command} (hc : c.isEdit = true)
    (h : c.edit? s.fresh s.forest = none) :
    (s.run c).1.accepted = false ∧ (s.run c).2 = s := by
  cases c with
  | add n holder index =>
      have hf := Option.map_eq_none_iff.mp h
      simp [run, add?, hf, reporting, Reply.accepted]
  | addComponent c holder index =>
      have hf := Option.map_eq_none_iff.mp h
      simp [run, addComponent?, add?, hf, Reply.accepted]
  | remove id =>
      have hf := Option.map_eq_none_iff.mp h
      simp [run, remove?, hf, reporting, Reply.accepted]
  | move id holder index =>
      have hf := Option.map_eq_none_iff.mp h
      simp [run, move?, hf, reporting, Reply.accepted]
  | patch id p =>
      have hf := Option.map_eq_none_iff.mp h
      simp [run, patch?, hf, reporting, Reply.accepted]
  | duplicate id =>
      have hr := Option.map_eq_none_iff.mp h
      simp [run, duplicate?, hr, Reply.accepted]
  | _ => cases hc

/-- A command that neither edits the forest, nor moves through the history, nor
clears it, nor replaces the forest leaves all three alone. -/
theorem run_aside {s : Store} {c : Command} (hc : c.isEdit = false)
    (hundo : c ≠ .undo) (hredo : c ≠ .redo) (hclear : c ≠ .clearHistory)
    (hset : ∀ f, c ≠ .setForest f) :
    (s.run c).2.forest = s.forest ∧ (s.run c).2.history = s.history ∧
      (s.run c).2.fresh = s.fresh := by
  cases c with
  | undo => exact absurd rfl hundo
  | redo => exact absurd rfl hredo
  | clearHistory => exact absurd rfl hclear
  | setForest f => exact absurd rfl (hset f)
  | select | hover | subscribe | search | toggle => exact ⟨rfl, rfl, rfl⟩
  | _ => cases hc

theorem run_undo (s : Store) :
    s.run .undo = match s.history.undo s.forest with
      | none => (.outcome false, s)
      | some (f, h) => (.outcome true, s.restore f h) := by
  simp only [run, undo?]
  cases s.history.undo s.forest <;> rfl

theorem run_redo (s : Store) :
    s.run .redo = match s.history.redo with
      | none => (.outcome false, s)
      | some (f, h) => (.outcome true, s.restore f h) := by
  simp only [run, redo?]
  cases s.history.redo <;> rfl

end Store

end Tandem
