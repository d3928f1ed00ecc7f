import Tandem.Proofs.Source.RoundTrip
import Tandem.Proofs.Sync.Coherence

/-!
# A change ends on the other side

A controller is settled if it is idle and remembers the fingerprint of the live forest.
When a settled controller is handed the text it remembers, or is asked whether the forest
has a new text, it answers that there is nothing to do and stays as it is. So a change
that is signalled back to the side it came from, any number of times, ends there.

* **settled** — `Settled.step`: every event keeps a controller settled. Unlike coherence
  this needs nothing of the digest, as fingerprints are only compared with themselves;
* **quiet** — `Settled.signals`: all signals about the remembered text are answered with
  silence;
* **both sides** — `steps_quiet`: a written text and a text that was handed over are
  remembered by a settled controller.
-/

namespace Tandem

/-- What a host may report while nothing has changed since: that the source is a text
once more, or that the forest has been touched. -/
inductive Signal where
  | source
  | tree
  deriving DecidableEq

/-- What the controller answers to a signal: the outcome of a source text, or the text
that it has written for the forest. -/
inductive Answer where
  | source (outcome : SourceOutcome)
  | tree (written : Option String)
  deriving DecidableEq

/-- The answer that there is nothing to do. -/
def Signal.silence : Signal → Answer
  | source => .source .skipped
  | tree => .tree none

namespace Controller

variable (digest : String → String)

/-- Report to the controller that the source is `text`, or that the forest was touched. -/
def signal (text : String) (c : Controller) : Signal → Answer × Controller
  | .source =>
    let r := c.sourceChanged digest text
    (.source r.1, r.2)
  | .tree =>
    let r := c.treeChanged digest
    (.tree r.1, r.2)

/-- The answers to several signals, and the controller behind the last one. -/
def signals (text : String) (c : Controller) : List Signal → List Answer × Controller
  | [] => ([], c)
  | s :: ss =>
    let r := c.signal digest text s
    let rs := r.2.signals text ss
    (r.1 :: rs.1, rs.2)

/-- The controller is idle and remembers the fingerprint of the live forest. -/
structure Settled (c : Controller) : Prop where
  idle : c.phase = .idle
  print : c.lastPrint = digest c.store.forest.text

theorem phase_ne_of_idle (c : Controller) (hidle : c.phase = .idle) :
    c.phase ≠ .applyingSource := by
  rw [hidle]
  intro h
  cases h

theorem settled_start (options : SyncOptions) (writer : Source.Writer)
    (fileName : Option String) : (start digest options writer fileName).Settled digest :=
  ⟨rfl, rfl⟩

/-- A text is remembered, whether or not it was skipped. If the forest is left alone then
its fingerprint is still the remembered one, and otherwise that of the new forest is. -/
theorem Settled.sourceChanged {c : Controller} (hc : c.Settled digest) (text : String) :
    (c.sourceChanged digest text).2.Settled digest ∧
      (c.sourceChanged digest text).2.lastSource = text := by
  by_cases htext : text = c.lastSource
  · rw [htext, sourceChanged_lastSource]
    exact ⟨hc, rfl⟩
  · rw [sourceChanged_of_ne digest hc.idle htext]
    split
    next => exact ⟨⟨hc.idle, hc.print⟩, rfl⟩
    next => exact ⟨⟨hc.idle, rfl⟩, rfl⟩

/-- Whatever the commands did to the forest, its fingerprint is taken behind them. A text
that is written is remembered. -/
theorem Settled.mutateAll {c : Controller} (hc : c.Settled digest) (commands : List Command) :
    (c.mutateAll digest commands).2.2.Settled digest ∧
      ∀ text, (c.mutateAll digest commands).2.1 = some text →
        (c.mutateAll digest commands).2.2.lastSource = text := by
  have hbusy := c.phase_ne_of_idle hc.idle
  simp only [Controller.mutateAll, treeChanged, if_neg hbusy]
  split
  next hsame =>
    refine ⟨⟨hc.idle, hsame.symm⟩, ?_⟩
    intro text h
    cases h
  next =>
    split
    next =>
      refine ⟨⟨rfl, rfl⟩, ?_⟩
      intro text h
      cases h
    next =>
      refine ⟨⟨rfl, rfl⟩, ?_⟩
      intro text h
      exact Option.some.inj h

theorem Settled.step {c : Controller} (hc : c.Settled digest) (e : Event) :
    (c.step digest e).Settled digest := by
  cases e with
  | source text => exact (hc.sourceChanged digest text).1
  | mutate commands => exact (hc.mutateAll digest commands).1

theorem Settled.steps {c : Controller} (hc : c.Settled digest) (events : List Event) :
    (c.steps digest events).Settled digest := by
  induction events generalizing c with
  | nil => exact hc
  | cons e es ih => exact ih (hc.step digest e)

theorem Settled.treeChanged {c : Controller} (hc : c.Settled digest) :
    c.treeChanged digest = (none, c) := by
  have hbusy := c.phase_ne_of_idle hc.idle
  simp only [Controller.treeChanged, if_neg hbusy]
  rw [if_pos hc.print.symm]

/-- A forest with a new fingerprint is written, if its text is a new one. -/
theorem treeChanged_of_ne {c : Controller} (hidle : c.phase = .idle)
    (hprint : digest c.store.forest.text ≠ c.lastPrint) (htext : c.written ≠ c.lastSource) :
    (c.treeChanged digest).1 = some c.written := by
  rw [treeChanged_writes digest hidle hprint htext]

theorem written_ne_empty {c : Controller} {options : WriterOptions}
    (hwriter : c.writer = { options }) : c.written ≠ "" := by
  intro hempty
  unfold written at hempty
  rw [hwriter, Source.write_eq] at hempty
  have hlength := congrArg (fun s => s.toList.length) hempty
  simp at hlength

/-- A settled controller answers a signal about the remembered text with silence. -/
theorem Settled.signal {c : Controller} (hc : c.Settled digest) (s : Signal) :
    c.signal digest c.lastSource s = (s.silence, c) := by
  cases s with
  | source =>
      show (Answer.source (c.sourceChanged digest c.lastSource).1, _) = _
      rw [sourceChanged_lastSource]
      rfl
  | tree =>
      show (Answer.tree (c.treeChanged digest).1, _) = _
      rw [hc.treeChanged]
      rfl

theorem Settled.signals {c : Controller} (hc : c.Settled digest) (ss : List Signal) :
    c.signals digest c.lastSource ss = (ss.map Signal.silence, c) := by
  induction ss with
  | nil => rfl
  | cons s ss ih =>
      -- The first answer leaves the controller as it was, so the rest is asked of the same.
      show ((c.signal digest c.lastSource s).1 ::
        ((c.signal digest c.lastSource s).2.signals digest c.lastSource ss).1, _) = _
      rw [hc.signal, ih]
      rfl

end Controller

/-- **A change ends on the other side.** After any run of a new controller: if commands make
it write a text, then that text may be handed back to it and the forest be reported as
touched, as often and in any order, and all it answers is that there is nothing to do, and
nothing of it changes, neither store nor memory. After any text was handed over, readable
or not, the forest has no new text, the text is remembered, and asking changes nothing. -/
theorem steps_quiet (digest : String → String) (options : SyncOptions) (writer : Source.Writer)
    (fileName : Option String) (events : List Event) :
    let c := (Controller.start digest options writer fileName).steps digest events
    (∀ commands text, (c.mutateAll digest commands).2.1 = some text →
      let c' := (c.mutateAll digest commands).2.2
      ∀ ss, c'.signals digest text ss = (ss.map Signal.silence, c')) ∧
    ∀ text,
      let c' := (c.sourceChanged digest text).2
      c'.treeChanged digest = (none, c') ∧ c'.lastSource = text := by
  intro c
  have hc : c.Settled digest :=
    (Controller.settled_start digest options writer fileName).steps digest events
  refine ⟨?_, ?_⟩
  · intro commands text hwritten c' ss
    obtain ⟨hsettled, hlast⟩ := hc.mutateAll digest commands
    have htext : c'.lastSource = text := hlast text hwritten
    rw [← htext]
    exact hsettled.signals digest ss
  · intro text c'
    obtain ⟨hsettled, hlast⟩ := hc.sourceChanged digest text
    exact ⟨hsettled.treeChanged, hlast⟩

/-- A row is added to an empty page, and the text that is written for it comes back twice,
around a report that the forest was touched. -/
theorem steps_quiet_of_added_row :
    let c := Controller.start id {} {} none
    let r := c.mutateAll id [.add ⟨"a", none, { component := "Row" }, []⟩ none 0]
    ∃ text, r.2.1 = some text ∧
      r.2.2.signals id text [.source, .tree, .source] =
        ([.source .skipped, .tree none, .source .skipped], r.2.2) := by
  intro c r
  let row : Node := ⟨"a", none, { component := "Row" }, []⟩
  let added : Controller := { c with store := (c.store.runAll [.add row none 0]).2 }
  have hprint : Forest.text [row] ≠ Forest.text [] :=
    Forest.text_ne_text_nil (List.cons_ne_nil _ _)
  have hwritten : r.2.1 = some added.written :=
    added.treeChanged_of_ne id rfl hprint (added.written_ne_empty rfl)
  refine ⟨added.written, hwritten, ?_⟩
  have hquiet := (steps_quiet id {} {} none []).1
  have hstart : (Controller.start id {} {} none).steps id [] = c := rfl
  rw [hstart] at hquiet
  exact hquiet [.add row none 0] _ hwritten [.source, .tree, .source]

end Tandem
