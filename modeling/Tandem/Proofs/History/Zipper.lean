import Tandem.Proofs.Store.Steps

/-!
# The undo history is a bounded zipper

The textbook state of undo and redo is a zipper: the forests of the past, the present
one and those of the undone future. The store keeps one timeline with a cursor
instead, and puts the live forest on it only at the first undo. `Store.Follows` says
how a timeline stands for a zipper, and the two are joined here:

* **one step** — whatever a command does to the store, the zipper step does to the
  zipper (`Store.Follows.run`);
* **a run** — so a store that starts with an empty history follows the zipper for
  ever (`Store.Follows.runAll`), and shows the same forest, the same answers and the
  same bounds (`runAll_follows_zipper`).
-/

namespace Tandem

/-- The textbook state of undo and redo, with the supply of fresh ids. -/
structure Zipper where
  /-- The forests before the changes that can be undone, oldest first. -/
  past : List Forest
  present : Forest
  /-- The forests that can be redone to, the next one first. -/
  future : List Forest
  fresh : Nat

namespace Zipper

/-- Show a changed forest: the present one joins the past, of which only the last
`limit` forests are kept, and there is no future any more. -/
def change (limit : Nat) (z : Zipper) (f : Forest) (fresh : Nat) : Zipper :=
  let past := z.past ++ [z.present]
  { past := past.drop (past.length - limit), present := f, future := [], fresh }

def undo (z : Zipper) : Zipper :=
  match z.past.getLast? with
  | none => z
  | some f => { z with past := z.past.dropLast, present := f, future := z.present :: z.future }

def redo (z : Zipper) : Zipper :=
  match z.future with
  | [] => z
  | f :: rest => { z with past := z.past ++ [z.present], present := f, future := rest }

def clear (z : Zipper) : Zipper := { z with past := [], future := [] }

/-- What a command does to the zipper. -/
def step (limit : Nat) (z : Zipper) (c : Command) : Zipper :=
  match c with
  | .undo => z.undo
  | .redo => z.redo
  | .clearHistory => z.clear
  | c =>
    match c.edit? z.fresh z.present with
    | some (f, k) => z.change limit f k
    | none => z

def steps (limit : Nat) (z : Zipper) (cs : List Command) : Zipper := cs.foldl (step limit) z

theorem step_of_edit_eq_some {limit k : Nat} {z : Zipper} {c : Command} {f : Forest}
    (h : c.edit? z.fresh z.present = some (f, k)) : z.step limit c = z.change limit f k := by
  cases c with
  | undo | redo | clearHistory => cases h
  | _ => simp only [step, h]

theorem step_of_edit_eq_none {limit : Nat} {z : Zipper} {c : Command}
    (h : c.edit? z.fresh z.present = none) (hundo : c ≠ .undo) (hredo : c ≠ .redo)
    (hclear : c ≠ .clearHistory) : z.step limit c = z := by
  cases c with
  | undo => exact absurd rfl hundo
  | redo => exact absurd rfl hredo
  | clearHistory => exact absurd rfl hclear
  | _ => simp only [step, h]

/-- A change leaves a past, and to undo it shows the present forest again. -/
theorem undo_change {limit : Nat} (hlimit : 1 ≤ limit) (z : Zipper) (f : Forest) (fresh : Nat) :
    (z.change limit f fresh).past ≠ [] ∧ (z.change limit f fresh).undo.present = z.present := by
  have hdrop : z.past.length + 1 - limit ≤ z.past.length := by omega
  have hpast : (z.change limit f fresh).past =
      z.past.drop (z.past.length + 1 - limit) ++ [z.present] := by
    simp only [change, List.length_append, List.length_singleton]
    exact List.drop_append_of_le_length hdrop
  refine ⟨by simp [hpast], ?_⟩
  rw [undo, hpast]
  simp

end Zipper

/-- The timeline stands for the zipper: the forests before the cursor are its past.
The cursor stands behind the last forest while there is no future, and else at the
present one, with the future behind it. -/
structure History.Represents (h : History) (z : Zipper) : Prop where
  past : h.entries.take h.cursor = z.past
  ahead : h.entries.drop h.cursor = z.present :: z.future ∨
    h.entries.drop h.cursor = [] ∧ z.future = []
  bound : z.past.length + z.future.length ≤ h.limit

namespace History.Represents

variable {h : History} {z : Zipper}

theorem length_past (r : h.Represents z) : z.past.length = h.cursor := by
  rw [← r.past, List.length_take]
  exact Nat.min_eq_left h.cursor_le

/-- The timeline is the past and what the cursor stands at. -/
theorem entries_eq (r : h.Represents z) : h.entries = z.past ++ h.entries.drop h.cursor := by
  rw [← r.past, List.take_append_drop]

theorem canUndo_eq (r : h.Represents z) : h.canUndo = !z.past.isEmpty := by
  rw [canUndo, ← r.length_past]
  cases z.past <;> simp

theorem canRedo_eq (r : h.Represents z) : h.canRedo = !z.future.isEmpty := by
  have hlen : (h.entries.drop h.cursor).length = h.entries.length - h.cursor :=
    List.length_drop
  rw [canRedo]
  rcases r.ahead with ha | ⟨ha, hf⟩
  · -- the present forest stands at the cursor, and only the future behind it counts
    rw [ha, List.length_cons] at hlen
    cases hz : z.future with
    | nil => rw [hz, List.length_nil] at hlen; simp; omega
    | cons f rest => rw [hz, List.length_cons] at hlen; simp; omega
  · rw [ha, List.length_nil] at hlen
    rw [hf]
    simp
    omega

/-- The live forest and the bound on the past are all that is kept. -/
theorem length_entries_le (r : h.Represents z) : h.entries.length ≤ h.limit + 1 := by
  have hb := r.bound
  rw [r.entries_eq, List.length_append]
  rcases r.ahead with ha | ⟨ha, _⟩
  · rw [ha, List.length_cons]; omega
  · rw [ha, List.length_nil]; omega

theorem push (r : h.Represents z) (f : Forest) (fresh : Nat) :
    (h.push z.present).Represents (z.change h.limit f fresh) := by
  have hb := r.bound
  have hkept : (h.push z.present).entries = (z.change h.limit f fresh).past := by
    simp only [History.push, Zipper.change, r.past, List.length_append, List.length_singleton]
    split
    next hlt =>
      -- at most one forest is too many, as there were no more than `limit` before
      have hone : z.past.length + 1 - h.limit = 1 := by omega
      rw [hone, List.drop_one]
    next hge =>
      have hnone : z.past.length + 1 - h.limit = 0 := by omega
      rw [hnone, List.drop_zero]
  have hcursor : (h.push z.present).cursor = (h.push z.present).entries.length := rfl
  refine ⟨?_, .inr ⟨?_, rfl⟩, ?_⟩
  · rw [hcursor, List.take_length, hkept]
  · rw [hcursor, List.drop_length]
  · simp only [Zipper.change, List.length_drop, List.length_append, List.length_singleton,
      List.length_nil]
    show _ ≤ h.limit
    omega

/-- With the live forest on it, the timeline is the zipper read from left to right. -/
theorem withLive_eq (r : h.Represents z) :
    h.withLive z.present = z.past ++ z.present :: z.future := by
  rw [withLive]
  rcases r.ahead with ha | ⟨ha, hf⟩
  · have hne : h.cursor ≠ h.entries.length := by
      intro heq
      rw [heq, List.drop_length] at ha
      cases ha
    rw [if_neg hne, r.entries_eq, ha]
  · have heq : h.cursor = h.entries.length :=
      Nat.le_antisymm h.cursor_le (List.drop_eq_nil_iff.mp ha)
    rw [if_pos heq, hf, r.entries_eq, ha, List.append_nil]

theorem undo_of_past_eq_nil (r : h.Represents z) (hp : z.past = []) :
    h.undo z.present = none := by
  have hcursor : h.cursor = 0 := by rw [← r.length_past, hp, List.length_nil]
  simp only [History.undo, if_pos hcursor]

theorem undo_of_past_ne_nil (r : h.Represents z) (hp : z.past ≠ []) :
    ∃ h', h.undo z.present = some (z.undo.present, h') ∧ h'.Represents z.undo ∧
      h'.limit = h.limit := by
  have hlen := r.length_past
  have hb := r.bound
  obtain ⟨past, f, hz⟩ : ∃ past f, z.past = past ++ [f] :=
    ⟨z.past.dropLast, z.past.getLast hp, (List.dropLast_concat_getLast hp).symm⟩
  rw [hz, List.length_append, List.length_singleton] at hlen hb
  have hne : h.cursor ≠ 0 := by omega
  have hcursor : h.cursor - 1 = past.length := by omega
  have hundo : z.undo = { z with past, present := f, future := z.present :: z.future } := by
    simp [Zipper.undo, hz]
  have hw : h.withLive z.present = past ++ f :: z.present :: z.future := by
    rw [r.withLive_eq, hz, List.append_assoc, List.singleton_append]
  -- The first undo has put the live forest on the timeline; it is the future from now on.
  refine ⟨⟨h.limit, h.withLive z.present, h.cursor - 1, ?_⟩, ?_, ⟨?_, .inl ?_, ?_⟩, rfl⟩
  · have hlt := h.cursor_lt_length_withLive z.present
    omega
  · simp only [History.undo, if_neg hne, hundo, Option.some.injEq, Prod.mk.injEq, and_true]
    simp only [hw, hcursor]
    simp
  · simp only [hw, hcursor, List.take_left, hundo]
  · simp only [hw, hcursor, List.drop_left, hundo]
  · simp only [hundo, List.length_cons]
    omega

theorem redo_of_future_eq_nil (r : h.Represents z) (hf : z.future = []) : h.redo = none := by
  have hcan := r.canRedo_eq
  rw [hf, canRedo] at hcan
  have hge : ¬h.cursor + 1 < h.entries.length := by simpa using hcan
  simp only [History.redo, dif_neg hge]

theorem redo_of_future_ne_nil (r : h.Represents z) (hf : z.future ≠ []) :
    ∃ h', h.redo = some (z.redo.present, h') ∧ h'.Represents z.redo ∧ h'.limit = h.limit := by
  have hlen := r.length_past
  have hb := r.bound
  obtain ⟨f, rest, hz⟩ := List.exists_cons_of_ne_nil hf
  rw [hz, List.length_cons] at hb
  have hentries : h.entries = (z.past ++ [z.present]) ++ f :: rest := by
    rcases r.ahead with ha | ⟨_, hnil⟩
    · rw [r.entries_eq, ha, hz, List.append_assoc, List.singleton_append]
    · exact absurd hnil hf
  have hcursor : h.cursor + 1 = (z.past ++ [z.present]).length := by simp [hlen]
  have hlt : h.cursor + 1 < h.entries.length := by
    rw [hentries, hcursor]
    simp only [List.length_append, List.length_cons]
    omega
  have hredo : z.redo = { z with past := z.past ++ [z.present], present := f, future := rest } := by
    simp only [Zipper.redo, hz]
  refine ⟨⟨h.limit, h.entries, h.cursor + 1, Nat.le_of_lt hlt⟩, ?_, ⟨?_, .inl ?_, ?_⟩, rfl⟩
  · simp only [History.redo, dif_pos hlt, hredo, Option.some.injEq, Prod.mk.injEq, and_true]
    simp only [hcursor]
    simp [hentries]
  · simp only [hcursor, hentries, List.take_left, hredo]
  · simp only [hcursor, hentries, List.drop_left, hredo]
  · simp only [hredo, List.length_append, List.length_singleton]
    omega

end History.Represents

theorem History.represents_clear (h : History) (z : Zipper) : h.clear.Represents z.clear :=
  ⟨rfl, .inr ⟨rfl, rfl⟩, Nat.zero_le _⟩

/-- The store stands for the zipper, keeping `limit` steps. -/
structure Store.Follows (limit : Nat) (s : Store) (z : Zipper) : Prop where
  present : s.forest = z.present
  fresh : s.fresh = z.fresh
  limit_eq : s.history.limit = limit
  history : s.history.Represents z

namespace Store.Follows

variable {limit : Nat} {s : Store} {z : Zipper}

/-- The live forest goes on the timeline, and a changed one takes its place. -/
theorem run_edit (r : s.Follows limit z) {c : Command} {f : Forest} {k : Nat}
    (h : c.edit? s.fresh s.forest = some (f, k)) : (s.run c).2.Follows limit (z.step limit c) := by
  obtain ⟨_, selected, hovered, hrun⟩ := run_of_edit_eq_some h
  rw [r.present, r.fresh] at h
  rw [hrun, Zipper.step_of_edit_eq_some h, ← r.limit_eq]
  refine ⟨rfl, rfl, rfl, ?_⟩
  show (s.history.push s.forest).Represents _
  rw [r.present]
  exact r.history.push f k

theorem run_undo (r : s.Follows limit z) : (s.run .undo).2.Follows limit z.undo := by
  rw [Store.run_undo, r.present]
  by_cases hp : z.past = []
  · have hz : z.undo = z := by simp [Zipper.undo, hp]
    rw [r.history.undo_of_past_eq_nil hp, hz]
    exact r
  · obtain ⟨h', hundo, hrep, hlimit⟩ := r.history.undo_of_past_ne_nil hp
    have hfresh : z.undo.fresh = z.fresh := by rw [Zipper.undo]; split <;> rfl
    rw [hundo]
    exact ⟨rfl, r.fresh.trans hfresh.symm, hlimit.trans r.limit_eq, hrep⟩

theorem run_redo (r : s.Follows limit z) : (s.run .redo).2.Follows limit z.redo := by
  rw [Store.run_redo]
  by_cases hf : z.future = []
  · have hz : z.redo = z := by simp only [Zipper.redo, hf]
    rw [r.history.redo_of_future_eq_nil hf, hz]
    exact r
  · obtain ⟨h', hredo, hrep, hlimit⟩ := r.history.redo_of_future_ne_nil hf
    have hfresh : z.redo.fresh = z.fresh := by rw [Zipper.redo]; split <;> rfl
    rw [hredo]
    exact ⟨rfl, r.fresh.trans hfresh.symm, hlimit.trans r.limit_eq, hrep⟩

/-- One command: what it does to the store, the zipper step does to the zipper. -/
theorem run (r : s.Follows limit z) {c : Command} (hset : ∀ f, c ≠ .setForest f) :
    (s.run c).2.Follows limit (z.step limit c) := by
  cases he : c.edit? s.fresh s.forest with
  | some fk => exact r.run_edit he
  | none =>
      by_cases hundo : c = .undo
      · subst hundo; exact r.run_undo
      by_cases hredo : c = .redo
      · subst hredo; exact r.run_redo
      by_cases hclear : c = .clearHistory
      · subst hclear
        exact ⟨r.present, r.fresh, r.limit_eq, History.represents_clear _ _⟩
      -- Left are edits that are refused and commands that are no edits: nothing happens.
      have hz : c.edit? z.fresh z.present = none := by rw [← r.present, ← r.fresh]; exact he
      rw [Zipper.step_of_edit_eq_none hz hundo hredo hclear]
      cases hc : c.isEdit with
      | true =>
          rw [(run_of_edit_eq_none hc he).2]
          exact r
      | false =>
          obtain ⟨hforest, hhistory, hfresh⟩ := run_aside hc hundo hredo hclear hset
          exact ⟨hforest.trans r.present, hfresh.trans r.fresh, by rw [hhistory]; exact r.limit_eq,
            by rw [hhistory]; exact r.history⟩

theorem runAll (r : s.Follows limit z) {cs : List Command}
    (hset : ∀ c ∈ cs, ∀ f, c ≠ .setForest f) :
    (s.runAll cs).2.Follows limit (z.steps limit cs) := by
  induction cs generalizing s z with
  | nil => exact r
  | cons c cs ih =>
      exact ih (r.run (hset c List.mem_cons_self))
        (fun c' hc' => hset c' (List.mem_cons_of_mem _ hc'))

theorem run_undo_reply (r : s.Follows limit z) :
    (s.run .undo).1 = .outcome (!z.past.isEmpty) := by
  rw [Store.run_undo, r.present]
  by_cases hp : z.past = []
  · rw [r.history.undo_of_past_eq_nil hp, hp]
    rfl
  · obtain ⟨h', hundo, _, _⟩ := r.history.undo_of_past_ne_nil hp
    rw [hundo]
    simp [hp]

theorem run_redo_reply (r : s.Follows limit z) :
    (s.run .redo).1 = .outcome (!z.future.isEmpty) := by
  rw [Store.run_redo]
  by_cases hf : z.future = []
  · rw [r.history.redo_of_future_eq_nil hf, hf]
    rfl
  · obtain ⟨h', hredo, _, _⟩ := r.history.redo_of_future_ne_nil hf
    rw [hredo]
    simp [hf]

/-- An undo right after an edit that was carried out succeeds, and shows the forest
before it. -/
theorem undo_run_edit (hlimit : 1 ≤ limit) (r : s.Follows limit z) {c : Command}
    (hc : c.isEdit = true) (haccepted : (s.run c).1.accepted = true) :
    ((s.run c).2.run .undo).1 = .outcome true ∧
      ((s.run c).2.run .undo).2.forest = s.forest := by
  cases he : c.edit? s.fresh s.forest with
  | none => rw [(run_of_edit_eq_none hc he).1] at haccepted; cases haccepted
  | some fk =>
      have hchange := r.run_edit he
      rw [r.present, r.fresh] at he
      rw [Zipper.step_of_edit_eq_some he] at hchange
      obtain ⟨hpast, hundo⟩ := z.undo_change hlimit fk.1 fk.2
      refine ⟨?_, ?_⟩
      · rw [hchange.run_undo_reply]
        simp [hpast]
      · rw [hchange.run_undo.present, hundo, r.present]

end Store.Follows

/-- A store with an empty history, whatever else it holds. -/
def Store.withHistoryLimit (limit : Nat) (s : Store) : Store := { s with history := .new limit }

theorem Store.withHistoryLimit_follows (limit : Nat) (s : Store) :
    (s.withHistoryLimit limit).Follows (max limit 1) ⟨[], s.forest, [], s.fresh⟩ :=
  ⟨rfl, rfl, rfl, rfl, .inr ⟨rfl, rfl⟩, Nat.zero_le _⟩

/-- **The undo history refines the bounded zipper.** Start with an empty history of
any limit, 0 counting as 1, and carry out any commands that record or recall forests:
then the live forest is the present one of the zipper that took the same steps; undo
and redo are possible, and succeed, exactly while it has a past or a future; the past
stays within the limit, and the store keeps at most one forest more; and to undo an
edit right after it brings the exact forest before it back. -/
theorem runAll_follows_zipper (limit : Nat) (s : Store) (cs : List Command)
    (hset : ∀ c ∈ cs, ∀ f, c ≠ .setForest f) :
    let s' := ((s.withHistoryLimit limit).runAll cs).2
    let z := Zipper.steps (max limit 1) ⟨[], s.forest, [], s.fresh⟩ cs
    s'.forest = z.present ∧
    s'.history.canUndo = !z.past.isEmpty ∧
    s'.history.canRedo = !z.future.isEmpty ∧
    (s'.run .undo).1 = .outcome (!z.past.isEmpty) ∧
    (s'.run .redo).1 = .outcome (!z.future.isEmpty) ∧
    z.past.length ≤ max limit 1 ∧
    s'.history.entries.length ≤ max limit 1 + 1 ∧
    ∀ c : Command, c.isEdit = true → (s'.run c).1.accepted = true →
      ((s'.run c).2.run .undo).1 = .outcome true ∧
      ((s'.run c).2.run .undo).2.forest = s'.forest := by
  intro s' z
  have r : s'.Follows (max limit 1) z := (s.withHistoryLimit_follows limit).runAll hset
  have hpast : z.past.length ≤ max limit 1 := by
    have hb := r.history.bound
    rw [r.limit_eq] at hb
    omega
  have hentries := r.history.length_entries_le
  rw [r.limit_eq] at hentries
  refine ⟨r.present, r.history.canUndo_eq, r.history.canRedo_eq, r.run_undo_reply,
    r.run_redo_reply, hpast, hentries, ?_⟩
  exact fun c hc haccepted => r.undo_run_edit (Nat.le_max_right _ _) hc haccepted

/-- Two nodes are added and one addition is undone while a single step is kept: the
first node is shown, nothing further can be undone, and the second can be redone. -/
theorem runAll_follows_zipper_of_two_adds :
    let first : Node := ⟨"a", none, { component := "Row" }, []⟩
    let second : Node := ⟨"b", none, { component := "Text" }, []⟩
    let cs : List Command := [.add first none 0, .add second (some "a") 0, .undo]
    let s' := ((({} : Store).withHistoryLimit 0).runAll cs).2
    (∀ c ∈ cs, ∀ f, c ≠ .setForest f) ∧ s'.forest = [first] ∧
      s'.history.canUndo = false ∧ s'.history.canRedo = true := by
  intro first second cs s'
  have hset : ∀ c ∈ cs, ∀ f, c ≠ .setForest f := by simp [cs]
  obtain ⟨hforest, hundo, hredo, _⟩ := runAll_follows_zipper 0 {} cs hset
  exact ⟨hset, hforest.trans (by cbv), hundo.trans (by cbv), hredo.trans (by cbv)⟩

end Tandem
