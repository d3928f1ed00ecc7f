import Tandem.Proofs.Sync.Echo

/-!
# Edits that are not reported

A host may also edit the store directly and report that the forest has changed later, or
never. Until it does, the controller remembers the fingerprint of a forest that is not live
any more, and a changed text is held against that one. The run is followed by the forest
that is remembered (`Controller.notedInRun`), which needs nothing of the digest:

* **one step** — `Controller.Remembers.act`;
* **reported edits** — `Controller.settled_acts`: once every direct edit has been reported,
  the live forest is the remembered one;
* **a changed text** — `acts_take_effect`: a replaced forest is always the one of the text,
  and a text that is answered with "unchanged" means the remembered forest.
-/

namespace Tandem

/-- What a host does that also edits the store behind the controller's back. -/
inductive Act where
  | source (text : String)
  /-- Carry out a command on the store alone. -/
  | direct (command : Command)
  /-- Say that the forest may have changed. -/
  | report

/-- Every direct edit has been reported since. -/
def Act.Reported : List Act → Prop
  | [] => True
  | .direct _ :: as => .report ∈ as ∧ Reported as
  | _ :: as => Reported as

namespace Controller

variable (digest : String → String)

def act (c : Controller) : Act → Controller
  | .source text => (c.sourceChanged digest text).2
  | .direct command => (c.direct command).2
  | .report => (c.treeChanged digest).2

def acts (c : Controller) (as : List Act) : Controller := as.foldl (act digest) c

/-- The forest whose fingerprint is remembered after an act, `f` being the one before. -/
def noted (c : Controller) (f : Forest) : Act → Forest
  | .source text => if text = c.lastSource then f else c.readAgain text
  | .direct _ => f
  | .report => c.store.forest

/-- The forest whose fingerprint is remembered after a run, `f` being the one before. -/
def notedInRun (c : Controller) (f : Forest) : List Act → Forest
  | [] => f
  | a :: as => (c.act digest a).notedInRun (c.noted f a) as

/-- The controller is idle and remembers the fingerprint of `f`. -/
structure Remembers (c : Controller) (f : Forest) : Prop where
  idle : c.phase = .idle
  print : c.lastPrint = digest f.text

variable {digest} in
theorem Settled.remembers {c : Controller} (hc : c.Settled digest) :
    c.Remembers digest c.store.forest := ⟨hc.idle, hc.print⟩

theorem Remembers.report {c : Controller} {f : Forest} (hc : c.Remembers digest f) :
    (c.act digest .report).Settled digest := by
  have hbusy := c.phase_ne_of_idle hc.idle
  simp only [act, treeChanged, if_neg hbusy]
  split
  next hsame => exact ⟨hc.idle, hsame.symm⟩
  next =>
    split
    next => exact ⟨rfl, rfl⟩
    next => exact ⟨rfl, rfl⟩

/-- Whether or not the forest of a text is put in place, its fingerprint is remembered. -/
theorem Remembers.source {c : Controller} {f : Forest} (hc : c.Remembers digest f)
    {text : String} (htext : text ≠ c.lastSource) :
    (c.act digest (.source text)).Remembers digest (c.readAgain text) := by
  show (c.sourceChanged digest text).2.Remembers digest _
  rw [sourceChanged_of_ne digest hc.idle htext]
  split
  next hsame => exact ⟨hc.idle, hsame.symm⟩
  next => exact ⟨hc.idle, rfl⟩

theorem Remembers.act {c : Controller} {f : Forest} (hc : c.Remembers digest f) (a : Act) :
    (c.act digest a).Remembers digest (c.noted f a) := by
  cases a with
  | direct command => exact ⟨hc.idle, hc.print⟩
  | report =>
      have hstore : (c.act digest .report).store = c.store := treeChanged_store digest c
      rw [noted, ← hstore]
      exact hc.report.remembers
  | source text =>
      rw [noted]
      split
      next htext =>
        show (c.sourceChanged digest text).2.Remembers digest f
        rw [htext, sourceChanged_lastSource]
        exact hc
      next htext => exact hc.source digest htext

theorem Remembers.acts {c : Controller} {f : Forest} (hc : c.Remembers digest f)
    (as : List Act) : (c.acts digest as).Remembers digest (c.notedInRun digest f as) := by
  induction as generalizing c f with
  | nil => exact hc
  | cons a as ih => exact ih (hc.act digest a)

/-- A controller that is settled, or will yet be told of what happened, is settled behind
the last report. -/
theorem settled_acts {c : Controller} {f : Forest} (hc : c.Remembers digest f) {as : List Act}
    (has : Act.Reported as) (hlive : c.Settled digest ∨ .report ∈ as) :
    (c.acts digest as).Settled digest := by
  induction as generalizing c f with
  | nil => exact hlive.resolve_right (List.not_mem_nil)
  | cons a as ih =>
      have hc' := hc.act digest a
      cases a with
      | direct command => exact ih hc' has.2 (.inr has.1)
      | report => exact ih hc' has (.inl (hc.report digest))
      | source text =>
          refine ih hc' has ?_
          rcases hlive with hsettled | hmem
          · exact .inl (hsettled.sourceChanged digest text).1
          · rcases List.mem_cons.mp hmem with heq | hmem
            · cases heq
            · exact .inr hmem

theorem readAgain_eq_nil (c : Controller) {text : String} (h : Source.readRoots text = []) :
    c.readAgain text = [] := by
  have houtlines := c.outlines_readAgain text
  rw [h] at houtlines
  cases hf : c.readAgain text with
  | nil => rfl
  | cons n rest =>
      obtain ⟨id, parent, widget, children⟩ := n
      rw [hf, Forest.outlines] at houtlines
      cases houtlines

end Controller

/-- **A changed text takes effect.** Let a host hand over texts, edit the store directly and
report the edits or not, in any order, and then hand over one more text. It is skipped
exactly if it is the remembered one. If the forest is replaced, the store holds the forest
of the text. If the answer is "unchanged" then the forest is left alone, and the text means
the one that was reported or read last; every direct edit being reported, this is the live
one. -/
theorem acts_take_effect (digest : String → String) (options : SyncOptions)
    (writer : Source.Writer) (fileName : Option String) (as : List Act) (text : String) :
    let start := Controller.start digest options writer fileName
    let c := start.acts digest as
    let noted := start.notedInRun digest [] as
    let r := c.sourceChanged digest text
    (r.1 = .skipped ↔ text = c.lastSource) ∧
    (∀ roots, r.1 = .replaced roots →
      r.2.store.forest.outlines = Source.readRoots text ∧ r.2.store.forest.length = roots) ∧
    (r.1 = .unchanged → r.2.store.forest = c.store.forest ∧
      (CollisionFree digest [noted, c.store.forest, c.readAgain text] →
        noted.outlines = Source.readRoots text ∧
        (Act.Reported as → r.2.store.forest.outlines = Source.readRoots text))) := by
  intro start c noted r
  have hstart : start.Settled digest := Controller.settled_start digest options writer fileName
  have hc : c.Remembers digest noted := hstart.remembers.acts digest as
  have houtlines : (c.readAgain text).outlines = Source.readRoots text :=
    Controller.outlines_readAgain c text
  by_cases htext : text = c.lastSource
  · have hr : r = (.skipped, c) := by
      show c.sourceChanged digest text = _
      rw [htext, Controller.sourceChanged_lastSource]
    rw [hr]
    simp [htext]
  by_cases hsame : digest (c.readAgain text).text = c.lastPrint
  · -- The forest is left alone. Its fingerprint tells it apart from all but the noted one.
    have hr := Controller.sourceChanged_of_print_eq digest hc.idle htext hsame
    rw [show r = _ from hr]
    refine ⟨by simp [htext], by simp, fun _ => ⟨rfl, fun hfree => ⟨?_, fun has => ?_⟩⟩⟩
    · have hnoted : noted = c.readAgain text :=
        hfree _ (by simp) _ (by simp) (hc.print ▸ hsame.symm)
      rw [hnoted, houtlines]
    · have hsettled := Controller.settled_acts digest hstart.remembers has (.inl hstart)
      have hlive : c.store.forest = c.readAgain text :=
        hfree _ (by simp) _ (by simp) (hsettled.print ▸ hsame.symm)
      show c.store.forest.outlines = _
      rw [hlive, houtlines]
  · have hr := Controller.sourceChanged_of_print_ne digest hc.idle htext hsame
    rw [show r = _ from hr]
    refine ⟨by simp [htext], fun roots hroots => ⟨houtlines, ?_⟩, by simp⟩
    exact SourceOutcome.replaced.inj hroots

/-- The text of a page without nodes. -/
def blankPage : String := "page P \x7b\n\x7d\n"

theorem readRoots_blankPage : Source.readRoots blankPage = [] :=
  List.length_eq_zero_iff.mp (by decide +kernel)

/-- A row is added and the addition undone, both edits are reported, and a page without nodes
is handed over. -/
theorem acts_take_effect_of_reported_edits :
    let row : Node := ⟨"a", none, { component := "Row" }, []⟩
    let edits : List Act := [.direct (.add row none 0), .direct .undo]
    let c := (Controller.start id {} {} none).acts id (edits ++ [.report])
    let r := c.sourceChanged id blankPage
    r.1 = .unchanged ∧ CollisionFree id [[], c.store.forest, c.readAgain blankPage] ∧
      Act.Reported (edits ++ [.report]) ∧
      r.2.store.forest.outlines = Source.readRoots blankPage := by
  intro row edits c r
  let edited := (Controller.start id {} {} none).acts id edits
  have hsettled : edited.Settled id := ⟨rfl, rfl⟩
  have hc : c = edited := by
    show (edited.treeChanged id).2 = edited
    rw [hsettled.treeChanged]
  have htext : blankPage ≠ c.lastSource := by
    rw [hc]
    show blankPage ≠ ""
    decide
  have hsame : id (c.readAgain blankPage).text = c.lastPrint := by
    rw [c.readAgain_eq_nil readRoots_blankPage, hc]
    rfl
  have hr := Controller.sourceChanged_of_print_eq id (hc ▸ hsettled.idle) htext hsame
  have hanswer : r.1 = .unchanged := congrArg Prod.fst hr
  have hfree := collisionFree_id [[], c.store.forest, c.readAgain blankPage]
  have hreported : Act.Reported (edits ++ [.report]) := by simp [edits, Act.Reported]
  have hnoted : (Controller.start id {} {} none).notedInRun id [] (edits ++ [.report]) = [] := rfl
  obtain ⟨_, _, hunchanged⟩ :=
    acts_take_effect id {} {} none (edits ++ [.report]) blankPage
  obtain ⟨_, hmeans⟩ := hunchanged hanswer
  rw [hnoted] at hmeans
  exact ⟨hanswer, hfree, hreported, (hmeans hfree).2 hreported⟩

/-- A row is added and not reported. The page without nodes is taken for the live forest. -/
theorem blankPage_leaves_unreported_row :
    let row : Node := ⟨"a", none, { component := "Row" }, []⟩
    let c := (Controller.start digest {} {} none).acts digest [.direct (.add row none 0)]
    let r := c.sourceChanged digest blankPage
    r.1 = .unchanged ∧ r.2.store.forest.outlines ≠ Source.readRoots blankPage := by
  intro row c r
  have hsame : digest (c.readAgain blankPage).text = c.lastPrint := by
    rw [c.readAgain_eq_nil readRoots_blankPage]
    rfl
  have htext : blankPage ≠ c.lastSource := by
    show blankPage ≠ ""
    decide
  have hr := Controller.sourceChanged_of_print_eq digest rfl htext hsame
  rw [show r = _ from hr, readRoots_blankPage]
  refine ⟨rfl, ?_⟩
  show Forest.outlines [row] ≠ []
  simp [row, Forest.outlines]

end Tandem
