import Tandem.Proofs.History.Zipper

/-!
# Redo goes back to what undo left

Right after an undo a redo is possible, whatever came before. What it shows is decided by
the timeline: an undo puts the live forest on it only while the cursor stands behind its
last forest, and a forest that is put in place by a text is not recorded. So the run is
followed by where the live forest comes from (`Origin`), which is what the timeline knows
of it (`Origin.Fits`):

* **one step** — `Origin.Fits.run`, for every command;
* **there and back** — `Origin.Fits.redo_undo`, read off the timeline alone;
* **a run** — `runAll_redo_undo`: the live forest comes back, unless it was put in the
  place of one that an undo or a redo had shown.
-/

namespace Tandem

/-- Where the live forest comes from. -/
inductive Origin where
  /-- From the last recorded change or from the start of the history, or it was put in place
  behind that. -/
  | recorded
  /-- From an undo or a redo. -/
  | restored
  /-- It was put in the place of a forest that an undo or a redo had shown. -/
  | replaced (shown : Forest)

namespace Origin

/-- Where a forest comes from that is put in the place of the live one. -/
def replace (o : Origin) (live : Forest) : Origin :=
  match o with
  | restored => replaced live
  | o => o

/-- Where the live forest comes from after a command that has been carried out. -/
def after (o : Origin) (live : Forest) : Command → Origin
  | .undo | .redo => restored
  | .clearHistory => recorded
  | .setForest _ => o.replace live
  | c => if c.isEdit then recorded else o

/-- Where the live forest of `s` comes from after a command. -/
def step (o : Origin) (s : Store) (c : Command) : Origin :=
  if (s.run c).1.accepted then o.after s.forest c else o

/-- Where the live forest comes from after several commands. -/
def steps (o : Origin) (s : Store) : List Command → Origin
  | [] => o
  | c :: cs => (o.step s c).steps (s.run c).2 cs

/-- The forest that a redo shows right after an undo. -/
def redone (o : Origin) (live : Forest) : Forest :=
  match o with
  | replaced shown => shown
  | _ => live

/-- The cursor stands behind the timeline as long as nothing is restored, and else at the
forest that was shown. -/
def Fits (s : Store) : Origin → Prop
  | recorded => s.history.cursor = s.history.entries.length
  | restored => s.history.entries[s.history.cursor]? = some s.forest
  | replaced shown => s.history.entries[s.history.cursor]? = some shown

end Origin

/-- Only edits make a forest. -/
theorem Command.isEdit_of_edit?_eq_some {k : Nat} {f : Forest} {c : Command} {r : Forest × Nat}
    (h : c.edit? k f = some r) : c.isEdit = true := by
  cases c with
  | undo | redo | clearHistory | setForest => cases h
  | select | hover | subscribe | search | toggle => cases h
  | _ => rfl

theorem Origin.after_of_isEdit {o : Origin} {live : Forest} {c : Command}
    (hc : c.isEdit = true) : o.after live c = recorded := by
  cases c with
  | undo | redo | clearHistory | setForest => cases hc
  | select | hover | subscribe | search | toggle => cases hc
  | _ => rfl

namespace History

/-- An undo stands at the forest that it shows, one place before where it began. -/
theorem undo_eq_some {h h' : History} {live f : Forest} (hu : h.undo live = some (f, h')) :
    h'.entries[h'.cursor]? = some f ∧ h'.entries = h.withLive live ∧
      h'.cursor + 1 = h.cursor := by
  simp only [undo] at hu
  split at hu
  next => cases hu
  next hpos =>
    cases hu
    refine ⟨List.getElem?_eq_getElem _, rfl, ?_⟩
    show h.cursor - 1 + 1 = h.cursor
    omega

theorem redo_eq_some {h h' : History} {f : Forest} (hr : h.redo = some (f, h')) :
    h'.entries[h'.cursor]? = some f := by
  rw [redo] at hr
  split at hr
  next => cases hr; exact List.getElem?_eq_getElem _
  next => cases hr

/-- What an undo has left can be redone: it is the forest at its cursor, or the live one. -/
theorem redo_undo {h h' : History} {live f : Forest} (hu : h.undo live = some (f, h')) :
    ∃ g h'', h'.redo = some (g, h'') ∧ (h.withLive live)[h.cursor]? = some g := by
  obtain ⟨_, hentries, hcursor⟩ := undo_eq_some hu
  have hlt : h'.cursor + 1 < h'.entries.length := by
    rw [hentries, hcursor]
    exact h.cursor_lt_length_withLive live
  refine ⟨h'.entries[h'.cursor + 1], _, by rw [redo, dif_pos hlt], ?_⟩
  rw [← hentries, ← hcursor]
  exact List.getElem?_eq_getElem hlt

end History

namespace Origin.Fits

variable {s : Store} {o : Origin}

/-- With the live forest on it, the timeline has at the cursor what a redo will show. -/
theorem getElem?_withLive (ho : o.Fits s) :
    (s.history.withLive s.forest)[s.history.cursor]? = some (o.redone s.forest) := by
  rw [History.withLive]
  cases o with
  | recorded =>
      have hend : s.history.cursor = s.history.entries.length := ho
      rw [if_pos hend, hend, List.getElem?_concat_length]
      rfl
  | restored | replaced =>
      -- The cursor stands at a forest, so the live one is not put on the timeline.
      have hat := ho
      rw [Fits] at hat
      obtain ⟨hlt, _⟩ := List.getElem?_eq_some_iff.mp hat
      rw [if_neg (Nat.ne_of_lt hlt), hat]
      rfl

theorem redo_undo (ho : o.Fits s) (hundo : (s.run .undo).1 = .outcome true) :
    ((s.run .undo).2.run .redo).1 = .outcome true ∧
      ((s.run .undo).2.run .redo).2.forest = o.redone s.forest := by
  rw [Store.run_undo] at hundo ⊢
  cases hu : s.history.undo s.forest with
  | none => rw [hu] at hundo; cases hundo
  | some r =>
      obtain ⟨g, h'', hredo, hg⟩ := History.redo_undo hu
      rw [ho.getElem?_withLive] at hg
      show ((s.restore r.1 r.2).run .redo).1 = _ ∧ ((s.restore r.1 r.2).run .redo).2.forest = _
      rw [Store.run_redo, Store.restore_history, hredo]
      exact ⟨rfl, (Option.some.inj hg).symm⟩

/-- Each command keeps the timeline in step with where the live forest comes from. -/
theorem run (ho : o.Fits s) (c : Command) : (o.step s c).Fits (s.run c).2 := by
  rw [step]
  cases he : c.edit? s.fresh s.forest with
  | some fk =>
      obtain ⟨haccepted, selected, hovered, hrun⟩ := Store.run_of_edit_eq_some he
      rw [if_pos haccepted, Origin.after_of_isEdit (Command.isEdit_of_edit?_eq_some he), hrun]
      rfl
  | none =>
      cases hc : c.isEdit with
      | true =>
          obtain ⟨hrefused, hrun⟩ := Store.run_of_edit_eq_none hc he
          rw [if_neg (by rw [hrefused]; exact Bool.false_ne_true), hrun]
          exact ho
      | false =>
          cases c with
          | undo =>
              rw [Store.run_undo]
              cases hu : s.history.undo s.forest with
              | none => exact ho
              | some r => exact (History.undo_eq_some hu).1
          | redo =>
              rw [Store.run_redo]
              cases hr : s.history.redo with
              | none => exact ho
              | some r => exact History.redo_eq_some hr
          | clearHistory => rfl
          | setForest f =>
              cases o with
              | recorded | restored | replaced => exact ho
          | select | hover | subscribe | search | toggle =>
              cases o with
              | recorded | restored | replaced => exact ho
          | _ => cases hc

theorem runAll (ho : o.Fits s) (cs : List Command) : (o.steps s cs).Fits (s.runAll cs).2 := by
  induction cs generalizing s o with
  | nil => exact ho
  | cons c cs ih => exact ih (ho.run c)

end Origin.Fits

/-- **Redo goes back to what undo left.** Start with an empty history of any limit and carry
out any commands, also such as put a forest in place without recording it. When an undo
succeeds then, so does a redo right after it. The forest that was live before is live again,
unless it had been put in the place of one that an undo or a redo had shown, with no change
recorded and the history not cleared since: then that one is live. -/
theorem runAll_redo_undo (limit : Nat) (s : Store) (cs : List Command) :
    let start := s.withHistoryLimit limit
    let s' := (start.runAll cs).2
    (s'.run .undo).1 = .outcome true →
      let back := (s'.run .undo).2.run .redo
      back.1 = .outcome true ∧
      ((∀ shown, Origin.recorded.steps start cs ≠ .replaced shown) →
        back.2.forest = s'.forest) ∧
      ∀ shown, Origin.recorded.steps start cs = .replaced shown → back.2.forest = shown := by
  intro start s' hundo back
  have hstart : Origin.recorded.Fits start := rfl
  have ho := hstart.runAll cs
  obtain ⟨hredo, hforest⟩ := ho.redo_undo hundo
  refine ⟨hredo, fun hkept => ?_, fun shown hshown => ?_⟩
  · rw [hforest]
    cases horigin : Origin.recorded.steps start cs with
    | recorded | restored => rfl
    | replaced shown => exact absurd horigin (hkept shown)
  · rw [hforest, hshown]
    rfl

/-- A row is added and a text is put in its place: both an undo and a redo later, the text is
back. -/
theorem runAll_redo_undo_of_text :
    let row : Node := ⟨"a", none, { component := "Row" }, []⟩
    let text : Node := ⟨"b", none, { component := "Text" }, []⟩
    let cs : List Command := [.add row none 0, .setForest [text]]
    let s' := ((({} : Store).withHistoryLimit 1).runAll cs).2
    (s'.run .undo).1 = .outcome true ∧ ((s'.run .undo).2.run .redo).2.forest = [text] := by
  intro row text cs s'
  have hundo : (s'.run .undo).1 = .outcome true := rfl
  have horigin : Origin.recorded.steps (({} : Store).withHistoryLimit 1) cs = .recorded := rfl
  obtain ⟨_, hback, _⟩ := runAll_redo_undo 1 {} cs hundo
  refine ⟨hundo, hback fun shown => ?_⟩
  rw [horigin]
  exact Origin.noConfusion

/-- The row is brought back before the text is put in its place, and the text is lost. -/
theorem redo_loses_replaced_text :
    let row : Node := ⟨"a", none, { component := "Row" }, []⟩
    let text : Node := ⟨"b", none, { component := "Text" }, []⟩
    let cs : List Command := [.add row none 0, .undo, .redo, .setForest [text]]
    let s' := ((({} : Store).withHistoryLimit 1).runAll cs).2
    (s'.run .undo).1 = .outcome true ∧
      ((s'.run .undo).2.run .redo).2.forest ≠ s'.forest := by
  intro row text cs s'
  refine ⟨rfl, ?_⟩
  show [row] ≠ [text]
  simp [row, text]

end Tandem
