import Tandem.Proofs.Forest.Identity
import Tandem.Proofs.Source.Written
import Tandem.Proofs.Sync.Run

/-!
# Text and forest stay in step

Between two events the controller is idle, it remembers the fingerprint of the live
forest, and the text it remembers says what the live forest shows. Fingerprints are
digests, so this needs that the digest keeps the forests of the run apart
(`CollisionFree`); it is asked of these forests only.

* **one direction each** — `Coherent.sourceChanged` and `Coherent.mutateAll`: an outcome
  that leaves the forest alone does so because the fingerprints, hence the forests, agree;
* **a run** — `steps_coherent`, with the forest that each text leads to.
-/

namespace Tandem

/-- The digest has different values at the texts of different forests of a list. -/
def CollisionFree (digest : String → String) (fs : List Forest) : Prop :=
  ∀ f ∈ fs, ∀ g ∈ fs, digest f.text = digest g.text → f = g

theorem CollisionFree.mono {digest : String → String} {fs gs : List Forest}
    (h : CollisionFree digest gs) (hsub : fs ⊆ gs) : CollisionFree digest fs :=
  fun f hf g hg => h f (hsub hf) g (hsub hg)

/-- Texts that are not shortened keep all forests apart. -/
theorem collisionFree_id (fs : List Forest) : CollisionFree id fs :=
  fun _ _ _ _ h => Forest.text_injective h

namespace Controller

variable (digest : String → String)

/-- The text says what the forest shows: it is the text of the forest, under some name
and as some kind of document, or it is read as the outlines of the forest. -/
def Says (c : Controller) (text : String) (f : Forest) : Prop :=
  (∃ name kind, text = c.writer.write f name kind) ∨ Source.readRoots text = f.outlines

/-- The controller is idle, and what it remembers of text and forest is up to date. -/
structure Coherent (c : Controller) : Prop where
  idle : c.phase = .idle
  print : c.lastPrint = digest c.store.forest.text
  source : c.Says c.lastSource c.store.forest

/-- The forest whose fingerprint is taken at an event: the one that a text means, or the
one that commands lead to. -/
def met (c : Controller) : Event → Forest
  | .source text => c.readAgain text
  | .mutate commands => (c.store.runAll commands).2.forest

/-- The forests whose fingerprints are taken in a run. -/
def metInRun (c : Controller) : List Event → List Forest
  | [] => []
  | e :: es => c.met e :: (c.step digest e).metInRun es

theorem outlines_readAgain (c : Controller) (text : String) :
    (c.readAgain text).outlines = Source.readRoots text := by
  have hparsed : (Source.readForest c.store.fresh text).outlines = Source.readRoots text :=
    Forest.outlines_stampAll _ _ _
  simp only [readAgain]
  split
  · rw [Forest.carryIds, Forest.outlines_carry, hparsed]
  · exact hparsed

/-- What a controller was set up with. -/
def setUp (c : Controller) : Source.Writer × SyncOptions × Option String :=
  (c.writer, c.options, c.fileName)

theorem setUp_step (c : Controller) (e : Event) : (c.step digest e).setUp = c.setUp := by
  cases e with
  | source text =>
      show (c.sourceChanged digest text).2.setUp = _
      simp only [sourceChanged]
      repeat' split
      all_goals rfl
  | mutate commands =>
      show (c.mutateAll digest commands).2.2.setUp = _
      simp only [mutateAll, treeChanged]
      repeat' split
      all_goals rfl

theorem setUp_steps (c : Controller) (events : List Event) :
    (c.steps digest events).setUp = c.setUp := by
  induction events generalizing c with
  | nil => rfl
  | cons e es ih => exact (ih (c.step digest e)).trans (setUp_step digest c e)

theorem steps_settings (c : Controller) (events : List Event) :
    (c.steps digest events).writer = c.writer ∧ (c.steps digest events).options = c.options := by
  have hsetUp := setUp_steps digest c events
  exact ⟨congrArg (·.1) hsetUp, congrArg (·.2.1) hsetUp⟩

/-- A text that is not skipped is remembered, and the live forest is the one it means: if
the forest is left alone then because it is that one already. -/
theorem Coherent.forest_sourceChanged {c : Controller} (hc : c.Coherent digest) {text : String}
    (hfree : CollisionFree digest [c.store.forest, c.readAgain text])
    (htext : text ≠ c.lastSource) :
    (c.sourceChanged digest text).2.store.forest = c.readAgain text ∧
      (c.sourceChanged digest text).2.lastSource = text := by
  rw [sourceChanged_of_ne digest hc.idle htext]
  split
  next heq =>
    refine ⟨?_, rfl⟩
    show c.store.forest = c.readAgain text
    exact hfree _ (by simp) _ (by simp) (hc.print ▸ heq.symm)
  · exact ⟨rfl, rfl⟩

theorem Coherent.sourceChanged {c : Controller} (hc : c.Coherent digest) {text : String}
    (hfree : CollisionFree digest [c.store.forest, c.readAgain text]) :
    (c.sourceChanged digest text).2.Coherent digest := by
  by_cases htext : text = c.lastSource
  · rw [htext, sourceChanged_lastSource]
    exact hc
  · obtain ⟨hforest, hsource⟩ := hc.forest_sourceChanged digest hfree htext
    refine ⟨?_, ?_, .inr ?_⟩
    · rw [sourceChanged_of_ne digest hc.idle htext]
      split
      · exact hc.idle
      · exact hc.idle
    · rw [sourceChanged_of_ne digest hc.idle htext]
      split
      · exact hc.print
      · rfl
    · rw [hforest, hsource, outlines_readAgain]

/-- Coherence after commands. If no text is written then the fingerprint is the remembered
one, and the forest is the one before the commands. -/
theorem Coherent.mutateAll {c : Controller} (hc : c.Coherent digest) {commands : List Command}
    (hfree : CollisionFree digest [c.store.forest, (c.store.runAll commands).2.forest]) :
    (c.mutateAll digest commands).2.2.Coherent digest := by
  have hbusy : c.phase ≠ .applyingSource := by rw [hc.idle]; decide
  simp only [Controller.mutateAll, treeChanged, if_neg hbusy]
  split
  next heq =>
    have hsame : c.store.forest = (c.store.runAll commands).2.forest :=
      hfree _ (by simp) _ (by simp) (hc.print ▸ heq.symm)
    refine ⟨hc.idle, heq.symm, ?_⟩
    show c.Says c.lastSource (c.store.runAll commands).2.forest
    rw [← hsame]
    exact hc.source
  next =>
    split
    next hwritten => exact ⟨rfl, rfl, .inl ⟨_, _, hwritten.symm⟩⟩
    next => exact ⟨rfl, rfl, .inl ⟨_, _, rfl⟩⟩

theorem Coherent.step {c : Controller} (hc : c.Coherent digest) {e : Event}
    (hfree : CollisionFree digest [c.store.forest, c.met e]) :
    (c.step digest e).Coherent digest := by
  cases e with
  | source text => exact hc.sourceChanged digest hfree
  | mutate commands => exact hc.mutateAll digest hfree

/-- The live forest after an event is the one before it or the one whose fingerprint
was taken. -/
theorem step_forest (c : Controller) (e : Event) :
    (c.step digest e).store.forest = c.store.forest ∨
      (c.step digest e).store.forest = c.met e := by
  cases e with
  | mutate commands =>
      right
      show (c.mutateAll digest commands).2.2.store.forest = _
      rw [mutateAll_store]
      rfl
  | source text =>
      show (c.sourceChanged digest text).2.store.forest = _ ∨
        (c.sourceChanged digest text).2.store.forest = _
      rw [Controller.sourceChanged]
      split
      · exact .inl rfl
      · simp only
        split
        · exact .inl rfl
        · exact .inr rfl

theorem Coherent.steps {c : Controller} (hc : c.Coherent digest) {events : List Event}
    (hfree : CollisionFree digest (c.store.forest :: c.metInRun digest events)) :
    (c.steps digest events).Coherent digest := by
  induction events generalizing c with
  | nil => exact hc
  | cons e es ih =>
      refine ih (hc.step digest (hfree.mono ?_)) (hfree.mono ?_)
      · exact List.cons_subset_cons _ (List.cons_subset_cons _ (List.nil_subset _))
      · -- The forest that the rest of the run starts from has been met.
        refine List.cons_subset.mpr ⟨?_, ?_⟩
        · rcases step_forest digest c e with h | h
          · rw [h]; exact List.mem_cons_self
          · rw [h]; exact List.mem_cons_of_mem _ List.mem_cons_self
        · exact fun f hf => List.mem_cons_of_mem _ (List.mem_cons_of_mem _ hf)

theorem coherent_start (options : SyncOptions) (writer : Source.Writer)
    (fileName : Option String) : (start digest options writer fileName).Coherent digest := by
  refine ⟨rfl, rfl, .inr ?_⟩
  show Source.readRoots "" = Forest.outlines []
  have hheader : Source.header? "".toList = none := by rfl
  rw [Source.readRoots, Source.Document.read?, hheader, Forest.outlines]

theorem forest_steps_mem (c : Controller) (events : List Event) :
    (c.steps digest events).store.forest ∈ c.store.forest :: c.metInRun digest events := by
  induction events generalizing c with
  | nil => exact List.mem_cons_self
  | cons e es ih =>
      rcases List.mem_cons.mp (ih (c.step digest e)) with h | h
      · rcases step_forest digest c e with hstep | hstep
        · exact (h.trans hstep) ▸ List.mem_cons_self
        · exact (h.trans hstep) ▸ List.mem_cons_of_mem _ List.mem_cons_self
      · exact List.mem_cons_of_mem _ (List.mem_cons_of_mem _ h)

theorem steps_append (c : Controller) (before after : List Event) :
    c.steps digest (before ++ after) = (c.steps digest before).steps digest after :=
  List.foldl_append ..

theorem metInRun_append (c : Controller) (before after : List Event) :
    c.metInRun digest (before ++ after) =
      c.metInRun digest before ++ (c.steps digest before).metInRun digest after := by
  induction before generalizing c with
  | nil => rfl
  | cons e es ih => exact congrArg (c.met e :: ·) (ih (c.step digest e))

end Controller

/-- A row with a gap. -/
def gapRow : Widget := { component := "Row", props := .ofList [("gap", .num (.int 8))] }

def gapPage : String := "page P \x7b\n  <Row gap=\x7b8\x7d />\n\x7d\n"

theorem read?_gapPage : Source.Document.read? gapPage = .ok ⟨.page, "P", [⟨gapRow, []⟩]⟩ := by
  have hheader : Source.header? gapPage.toList =
      some ⟨.page, "P", "\n  <Row gap=\x7b8\x7d />\n\x7d\n".toList⟩ := by decide +kernel
  have hinside : Markup.blockInside? "\n  <Row gap=\x7b8\x7d />\n\x7d\n".toList =
      some "\n  <Row gap=\x7b8\x7d />\n".toList := by decide +kernel
  have htag : Markup.tag? (Text.trim "\n  <Row gap=\x7b8\x7d />\n".toList) =
      some (⟨"Row".toList, [⟨"gap".toList, .braced "8".toList⟩], true⟩, []) := by decide +kernel
  exact Source.read?_void hheader hinside (by decide +kernel) htag (by decide +kernel)

/-- **Text and forest stay in step.** After any run of a new controller whose digest
keeps the forests of the run apart, the controller is idle, it remembers the fingerprint
of the live forest, and the text it remembers is the text of that forest or is read as
its outlines. If the run ends in a text that was not skipped, that text is remembered
and the live forest is the one it means, whether or not the store was given a forest. -/
theorem steps_coherent (digest : String → String) (options : SyncOptions)
    (writer : Source.Writer) (fileName : Option String) (events : List Event)
    (hfree : CollisionFree digest
      ([] :: (Controller.start digest options writer fileName).metInRun digest events)) :
    let start := Controller.start digest options writer fileName
    let c := start.steps digest events
    c.phase = .idle ∧ c.lastPrint = digest c.store.forest.text ∧
      ((∃ name kind, c.lastSource = writer.write c.store.forest name kind) ∨
        Source.readRoots c.lastSource = c.store.forest.outlines) ∧
      ∀ before text, events = before ++ [.source text] →
        let s := (start.steps digest before).store
        ((start.steps digest before).sourceChanged digest text).1 ≠ .skipped →
          c.lastSource = text ∧
          c.store.forest =
            if options.preserveIds then
              Forest.carryIds s.forest (Source.readForest s.fresh text)
            else Source.readForest s.fresh text := by
  intro start c
  have hstart := Controller.coherent_start digest options writer fileName
  have hc : c.Coherent digest := hstart.steps digest hfree
  have hwriter : c.writer = writer := (Controller.steps_settings digest start events).1
  refine ⟨hc.idle, hc.print, hwriter ▸ hc.source, ?_⟩
  intro before text hevents s hskipped
  have hmet : start.metInRun digest events =
      start.metInRun digest before ++ [(start.steps digest before).readAgain text] := by
    rw [hevents, Controller.metInRun_append]
    rfl
  have hbefore : (start.steps digest before).Coherent digest := by
    refine hstart.steps digest (hfree.mono ?_)
    rw [hmet, ← List.cons_append]
    exact List.subset_append_left _ _
  have htext : text ≠ (start.steps digest before).lastSource := by
    rintro rfl
    rw [Controller.sourceChanged_lastSource] at hskipped
    exact hskipped rfl
  have hpair : CollisionFree digest [s.forest, (start.steps digest before).readAgain text] := by
    refine hfree.mono ?_
    rw [hmet, ← List.cons_append]
    refine List.cons_subset.mpr ⟨?_, List.subset_append_right _ _⟩
    exact List.mem_append_left _ (Controller.forest_steps_mem digest start before)
  obtain ⟨hforest, hsource⟩ := hbefore.forest_sourceChanged digest hpair htext
  have hoptions := (Controller.steps_settings digest start before).2
  have hlast : c = ((start.steps digest before).sourceChanged digest text).2 := by
    show start.steps digest events = _
    rw [hevents, Controller.steps_append]
    rfl
  rw [hlast, hsource, hforest, Controller.readAgain, hoptions]
  exact ⟨rfl, rfl⟩

/-- A row is added, and a text in which it has a gap is read over it. -/
theorem steps_coherent_of_edit_and_text :
    let a : Node := ⟨"a", none, { component := "Row" }, []⟩
    let events : List Event := [.mutate [.add a none 0], .source gapPage]
    let start := Controller.start id {} {} none
    let c := start.steps id events
    CollisionFree id ([] :: start.metInRun id events) ∧
      Source.Document.read? gapPage = .ok ⟨.page, "P", [⟨gapRow, []⟩]⟩ ∧
      c.lastSource = gapPage ∧ c.lastPrint = c.store.forest.text ∧
      c.store.forest = [⟨"a", none, gapRow, []⟩] := by
  intro a events start c
  let added := start.edited [.add a none 0]
  have hfront : added.written.toList.take 6 = "page M".toList := by
    have hname : added.documentName = "MyPage" := by decide +kernel
    have hkind : added.documentKind = .page := by decide +kernel
    rw [Controller.written, hname, hkind, show added.writer = {} from rfl, Source.write_eq,
      String.toList_ofList, Source.headerLine_page]
    rfl
  have hother : ∀ text : String, text.toList.take 6 ≠ "page M".toList → added.written ≠ text := by
    rintro _ hne rfl
    exact hne hfront
  have hmutate : start.steps id [.mutate [.add a none 0]] =
      { added with lastPrint := Forest.text [a], lastSource := added.written } :=
    congrArg Prod.snd (Controller.treeChanged_writes id (c := added) rfl
      (Forest.text_ne_text_nil (List.cons_ne_nil _ _)) (hother "" (by decide)))
  have hskipped : ((start.steps id [.mutate [.add a none 0]]).sourceChanged id gapPage).1 ≠
      .skipped := by
    rw [hmutate, Controller.sourceChanged_of_ne id rfl (hother gapPage (by decide)).symm]
    split
    · exact SourceOutcome.noConfusion
    · exact SourceOutcome.noConfusion
  have hfree := collisionFree_id ([] :: start.metInRun id events)
  obtain ⟨_, hprint, _, hlast⟩ := steps_coherent id {} {} none events hfree
  obtain ⟨hsource, hforest⟩ := hlast [.mutate [.add a none 0]] gapPage rfl hskipped
  refine ⟨hfree, read?_gapPage, hsource, hprint, hforest.trans ?_⟩
  -- The row is told by its component, so its id is carried over.
  rw [hmutate, if_pos rfl, Source.readForest, Source.readRoots, read?_gapPage]
  show Forest.carryIds [a] (Outline.stampAll none 0 [⟨gapRow, []⟩]) = _
  simp only [Outline.stampAll, Forest.carryIds, Forest.carry, a, gapRow, if_true]

end Tandem
