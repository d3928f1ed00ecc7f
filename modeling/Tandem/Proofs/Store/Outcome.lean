import Mathlib.Data.List.Permutation
import Tandem.Proofs.Store.Steps

/-!
# A command is carried out or leaves no trace

Eight commands answer whether they were carried out: the six edits, undo and redo. There is
no third way:

* **refused** — `Store.run_refused`: the store is the one before, in all its parts;
* **carried out** — `Store.calls_run`: each listener has been called once, in the order of
  subscription, with the forest that is live now, and nobody else has;
* **recorded** — `History.redo_push` and `History.undo_push`: behind an edit nothing can be
  redone, and an undo goes to the forest before it. That takes a history that keeps at least
  one step, which no command changes (`Store.limit_run`).
-/

namespace Tandem

/-- The command answers whether it was carried out, and shows another forest if it was. -/
def Command.isAnswered : Command → Bool
  | .undo | .redo => true
  | c => c.isEdit

namespace History

@[simp]
theorem limit_push (h : History) (f : Forest) : (h.push f).limit = h.limit := rfl

@[simp]
theorem limit_clear (h : History) : h.clear.limit = h.limit := rfl

/-- A history keeps at least one step when it is made. -/
theorem limit_new_pos (limit : Nat) : 0 < (new limit).limit :=
  Nat.lt_of_lt_of_le Nat.one_pos (Nat.le_max_right limit 1)

theorem limit_undo {h h' : History} {live f : Forest} (hu : h.undo live = some (f, h')) :
    h'.limit = h.limit := by
  simp only [undo] at hu
  split at hu
  · cases hu
  · cases hu
    rfl

theorem limit_redo {h h' : History} {f : Forest} (hr : h.redo = some (f, h')) :
    h'.limit = h.limit := by
  rw [redo] at hr
  split at hr
  · cases hr
    rfl
  · cases hr

/-- What was undone is given up by a push. -/
theorem canRedo_push (h : History) (f : Forest) : (h.push f).canRedo = false :=
  decide_eq_false Nat.not_succ_lt_self

theorem redo_push (h : History) (f : Forest) : (h.push f).redo = none :=
  dif_neg (of_decide_eq_false (h.canRedo_push f))

/-- The forest that was pushed is the last one, even if an older one had to go for it. -/
theorem entries_push {h : History} (hlimit : 0 < h.limit) (f : Forest) :
    ∃ older, (h.push f).entries = older ++ [f] := by
  show ∃ older, (if h.limit < (h.entries.take h.cursor ++ [f]).length
    then (h.entries.take h.cursor ++ [f]).tail else h.entries.take h.cursor ++ [f]) = older ++ [f]
  split
  next hlong =>
    -- There are at least two, so the one that goes is not the one that came.
    have hne : h.entries.take h.cursor ≠ [] := by
      intro hnil
      rw [hnil] at hlong
      exact absurd hlong (Nat.not_lt.mpr hlimit)
    exact ⟨_, List.tail_append_of_ne_nil hne⟩
  next => exact ⟨_, rfl⟩

/-- An undo behind a push goes to the forest that was pushed. -/
theorem undo_push {h : History} (hlimit : 0 < h.limit) (f live : Forest) :
    ∃ h', (h.push f).undo live = some (f, h') := by
  obtain ⟨older, holder⟩ := entries_push hlimit f
  have hcursor : (h.push f).cursor = older.length + 1 := by
    show (h.push f).entries.length = _
    rw [holder, List.length_append, List.length_singleton]
  have hne : (h.push f).cursor ≠ 0 := by omega
  have hend : (h.push f).cursor = (h.push f).entries.length := rfl
  have hlast : ((h.push f).withLive live)[(h.push f).cursor - 1]? = some f := by
    rw [withLive, if_pos hend, hcursor, holder, Nat.add_sub_cancel, List.append_assoc,
      List.getElem?_append_right (Nat.le_refl _), Nat.sub_self]
    rfl
  obtain ⟨hlt, hf⟩ := List.getElem?_eq_some_iff.mp hlast
  simp only [undo, if_neg hne, hf]
  exact ⟨_, rfl⟩

end History

namespace Store

/-- The listeners are called one after the other with a forest. -/
def callsWith (s : Store) (f : Forest) : List Call :=
  (List.range s.listeners).map fun i => ⟨i + 1, f⟩

theorem calls_commit (s : Store) (f : Forest) :
    (s.commit f).calls = s.calls ++ s.callsWith f := rfl

theorem calls_restore (s : Store) (f : Forest) (h : History) :
    (s.restore f h).calls = s.calls ++ s.callsWith f := rfl

/-! ## One command -/

/-- A command that is refused changes nothing. -/
theorem run_refused {s : Store} {c : Command} (hrefused : (s.run c).1.accepted = false) :
    (s.run c).2 = s := by
  cases hc : c.isEdit with
  | true =>
      cases he : c.edit? s.fresh s.forest with
      | none => exact (run_of_edit_eq_none hc he).2
      | some fk => rw [(run_of_edit_eq_some he).1] at hrefused; cases hrefused
  | false =>
      cases c with
      | undo =>
          rw [run_undo] at hrefused ⊢
          cases hu : s.history.undo s.forest with
          | none => rfl
          | some r => rw [hu] at hrefused; cases hrefused
      | redo =>
          rw [run_redo] at hrefused ⊢
          cases hr : s.history.redo with
          | none => rfl
          | some r => rw [hr] at hrefused; cases hrefused
      | clearHistory | setForest => cases hrefused
      | select | hover | subscribe | search | toggle => cases hrefused
      | _ => cases hc

/-- An edit that was carried out has made a forest, which has been committed. -/
theorem exists_of_accepted {s : Store} {c : Command} (hc : c.isEdit = true)
    (haccepted : (s.run c).1.accepted = true) :
    ∃ f selected hovered fresh, (s.run c).2 = { s.commit f with selected, hovered, fresh } := by
  cases he : c.edit? s.fresh s.forest with
  | none => rw [(run_of_edit_eq_none hc he).1] at haccepted; cases haccepted
  | some fk =>
      obtain ⟨_, selected, hovered, hrun⟩ := run_of_edit_eq_some he
      exact ⟨fk.1, selected, hovered, fk.2, hrun⟩

/-- A command that is carried out calls each listener once with the live forest. -/
theorem calls_run {s : Store} {c : Command} (hc : c.isAnswered = true)
    (haccepted : (s.run c).1.accepted = true) :
    (s.run c).2.calls = s.calls ++ s.callsWith (s.run c).2.forest := by
  cases hedit : c.isEdit with
  | true =>
      obtain ⟨f, selected, hovered, fresh, hrun⟩ := exists_of_accepted hedit haccepted
      rw [hrun]
      exact s.calls_commit f
  | false =>
      cases c with
      | undo =>
          rw [run_undo] at haccepted ⊢
          cases hu : s.history.undo s.forest with
          | none => rw [hu] at haccepted; cases haccepted
          | some r => exact s.calls_restore r.1 r.2
      | redo =>
          rw [run_redo] at haccepted ⊢
          cases hr : s.history.redo with
          | none => rw [hr] at haccepted; cases haccepted
          | some r => exact s.calls_restore r.1 r.2
      | _ => cases hedit.symm.trans hc

/-- An edit that is carried out keeps the forest before it in the history. -/
theorem history_run_edit {s : Store} {c : Command} (hc : c.isEdit = true)
    (haccepted : (s.run c).1.accepted = true) :
    (s.run c).2.history = s.history.push s.forest := by
  obtain ⟨f, selected, hovered, fresh, hrun⟩ := exists_of_accepted hc haccepted
  rw [hrun]
  exact s.commit_history f

/-- Behind a push a redo is refused, and an undo shows the forest that was pushed. -/
theorem run_behind_push {s : Store} {h : History} {f : Forest} (hlimit : 0 < h.limit)
    (hs : s.history = h.push f) :
    s.run .redo = (.outcome false, s) ∧
      (s.run .undo).1 = .outcome true ∧ (s.run .undo).2.forest = f := by
  obtain ⟨h', hundo⟩ := History.undo_push hlimit f s.forest
  rw [run_redo, run_undo, hs, History.redo_push, hundo]
  exact ⟨rfl, rfl, rfl⟩

/-! ## Runs -/

/-- No command changes how many steps the history keeps. -/
theorem limit_run (s : Store) (c : Command) : (s.run c).2.history.limit = s.history.limit := by
  cases hedit : c.isEdit with
  | true =>
      cases haccepted : (s.run c).1.accepted with
      | true =>
          obtain ⟨f, selected, hovered, fresh, hrun⟩ := exists_of_accepted hedit haccepted
          rw [hrun]
          exact s.history.limit_push s.forest
      | false => rw [run_refused haccepted]
  | false =>
      cases c with
      | undo =>
          rw [run_undo]
          cases hu : s.history.undo s.forest with
          | none => rfl
          | some r => exact History.limit_undo hu
      | redo =>
          rw [run_redo]
          cases hr : s.history.redo with
          | none => rfl
          | some r => exact History.limit_redo hr
      | clearHistory => exact s.history.limit_clear
      | setForest => rfl
      | select | hover | subscribe | search | toggle => rfl
      | _ => cases hedit

theorem limit_runAll (s : Store) (cs : List Command) :
    (s.runAll cs).2.history.limit = s.history.limit := by
  induction cs generalizing s with
  | nil => rfl
  | cons c cs ih => exact (ih (s.run c).2).trans (s.limit_run c)

end Store

/-- **A command is carried out or leaves no trace.** Start with any store whose history keeps
at least one step, as every history does when it is made, and carry out any commands, also
such as put a forest in place or subscribe a listener. If an edit, an undo or a redo is
refused then, nothing at all has changed. If it is carried out, each listener has been called
once more, in the order of subscription and with the forest that is live now; and behind an
edit a redo is refused, and an undo succeeds and shows the forest before the edit. -/
theorem runAll_carries_out_or_keeps (s : Store) (hlimit : 0 < s.history.limit)
    (cs : List Command) (c : Command) (hc : c.isAnswered = true) :
    let before := (s.runAll cs).2
    let r := before.run c
    (r.1.accepted = false → r.2 = before) ∧
    (r.1.accepted = true →
      r.2.calls = before.calls ++ before.callsWith r.2.forest ∧
      (c.isEdit = true →
        r.2.history.canRedo = false ∧ r.2.run .redo = (.outcome false, r.2) ∧
        (r.2.run .undo).1 = .outcome true ∧ (r.2.run .undo).2.forest = before.forest)) := by
  intro before r
  have hpos : 0 < before.history.limit := by
    rw [s.limit_runAll cs]
    exact hlimit
  refine ⟨Store.run_refused, fun haccepted => ⟨Store.calls_run hc haccepted, fun hedit => ?_⟩⟩
  have hhistory : r.2.history = before.history.push before.forest :=
    Store.history_run_edit hedit haccepted
  refine ⟨?_, Store.run_behind_push hpos hhistory⟩
  rw [hhistory]
  exact before.history.canRedo_push before.forest

/-- A row is put in place and two listeners subscribe. The row cannot be moved into itself, and
when a text is added to it both listeners see the text in the row. -/
theorem runAll_carries_out_or_keeps_of_add :
    let row : Node := ⟨"a", none, { component := "Row" }, []⟩
    let text : Node := ⟨"b", some "a", { component := "Text" }, []⟩
    let full : Node := ⟨"a", none, { component := "Row" }, [text]⟩
    let before := ((Store.new 1).runAll [.setForest [row], .subscribe, .subscribe]).2
    let refused := before.run (.move "a" (some "a") 0)
    let r := before.run (.add text (some "a") 0)
    0 < (Store.new 1).history.limit ∧ refused.1 = .outcome false ∧ refused.2 = before ∧
      r.2.calls = before.calls ++ [⟨1, [full]⟩, ⟨2, [full]⟩] ∧
      (r.2.run .undo).2.forest = [row] := by
  intro row text full before refused r
  have hlimit : 0 < (Store.new 1).history.limit := History.limit_new_pos 1
  have hreply : refused.1 = .outcome false := by
    simp only [refused, before, row]
    cbv
  have haccepted : r.1.accepted = true := by
    simp only [r, before, row, text]
    cbv
  have hforest : r.2.forest = [full] := by
    simp only [r, before, row, text, full]
    cbv
  have hproperty := runAll_carries_out_or_keeps (Store.new 1) hlimit
    [.setForest [row], .subscribe, .subscribe]
  have hkept := (hproperty (.move "a" (some "a") 0) rfl).1 (congrArg Reply.accepted hreply)
  obtain ⟨hcalls, hbehind⟩ := (hproperty (.add text (some "a") 0) rfl).2 haccepted
  refine ⟨hlimit, hreply, hkept, ?_, (hbehind rfl).2.2.2⟩
  exact hcalls.trans (congrArg (fun f => before.calls ++ before.callsWith f) hforest)

end Tandem
