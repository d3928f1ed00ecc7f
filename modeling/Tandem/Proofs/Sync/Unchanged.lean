import Tandem.Proofs.Source.Written
import Tandem.Proofs.Sync.Echo

/-!
# A text that shows the same is not noticed

Someone reformats the source text, and what it shows stays the same. Its nodes get new ids
when it is read, and all of these give way to the ids of the live forest, as the two have
the same shape (`Controller.readAgain_eq_forest`). So the fingerprint is the remembered
one, ids and all, and the text is the only thing that the controller takes note of
(`Controller.Settled.sourceChanged_same`, and for every run `steps_reformatted`).
-/

namespace Tandem

namespace Controller

variable (digest : String → String)

/-- A text that shows what the live forest shows means the live forest, if ids are kept. -/
theorem readAgain_eq_forest {c : Controller} (hpreserve : c.options.preserveIds = true)
    (hlinked : Forest.Linked none c.store.forest) {text : String}
    (hsame : Source.readRoots text = c.store.forest.outlines) :
    c.readAgain text = c.store.forest := by
  have hparsed : (Source.readForest c.store.fresh text).outlines = c.store.forest.outlines := by
    rw [Source.readForest, Forest.outlines_stampAll, hsame]
  rw [readAgain, if_pos hpreserve]
  exact Forest.carry_eq_self hlinked hparsed

/-- The text is remembered, and the ids that its nodes got are used up. -/
theorem Settled.sourceChanged_same {c : Controller} (hc : c.Settled digest)
    (hpreserve : c.options.preserveIds = true) (hlinked : Forest.Linked none c.store.forest)
    {text : String} (hsame : Source.readRoots text = c.store.forest.outlines)
    (htext : text ≠ c.lastSource) :
    c.sourceChanged digest text = (.unchanged, { c with
      lastSource := text
      store := { c.store with
        fresh := c.store.fresh + Outline.count (Source.readRoots text) } }) := by
  apply sourceChanged_of_print_eq digest hc.idle htext
  rw [readAgain_eq_forest hpreserve hlinked hsame]
  exact hc.print.symm

end Controller

/-- **A text that shows the same is not noticed.** Let a controller that keeps ids have gone
through any run, its forest being well-formed, and hand it a text that shows what the forest
shows. It answers that the text is known or that it means the same forest. The text is
remembered, and the ids that were stamped on it are used up; all the rest is as before, the
forest with its ids, selection and pointer, history and the calls of listeners. -/
theorem steps_reformatted (digest : String → String) (options : SyncOptions)
    (writer : Source.Writer) (fileName : Option String) (events : List Event)
    (hpreserve : options.preserveIds = true) :
    let c := (Controller.start digest options writer fileName).steps digest events
    c.store.forest.WellFormed →
      ∀ text, Source.readRoots text = c.store.forest.outlines →
        let r := c.sourceChanged digest text
        (r.1 = if text = c.lastSource then .skipped else .unchanged) ∧
        r.2 = { c with
          lastSource := text
          store := { c.store with fresh := r.2.store.fresh } } := by
  intro c hwf text hsame r
  have hc : c.Settled digest :=
    (Controller.settled_start digest options writer fileName).steps digest events
  have hoptions : c.options = options := (Controller.steps_settings digest _ events).2
  obtain ⟨_, hlinked⟩ := Forest.wellFormed_iff.mp hwf
  by_cases htext : text = c.lastSource
  · have hr : r = (.skipped, c) := by
      show c.sourceChanged digest text = _
      rw [htext, Controller.sourceChanged_lastSource]
    rw [if_pos htext, hr, htext]
    exact ⟨rfl, rfl⟩
  · have hr := hc.sourceChanged_same digest (hoptions ▸ hpreserve) hlinked hsame htext
    rw [if_neg htext, show r = _ from hr]
    exact ⟨rfl, rfl⟩

/-- A row is added and pointed at, and then a text comes that shows just a row: the row keeps
its id, and it stays selected and pointed at. -/
theorem steps_reformatted_of_row :
    let row : Node := ⟨"a", none, { component := "Row" }, []⟩
    let c := (Controller.start id {} {} none).steps id
      [.mutate [.add row none 0, .hover (some "a")]]
    let text := "page P \x7b\n\n  <Row />\n\x7d"
    c.store.forest.WellFormed ∧ Source.readRoots text = c.store.forest.outlines ∧
      let s := (c.sourceChanged id text).2.store
      s.forest = [row] ∧ s.selected = some "a" ∧ s.hovered = some "a" := by
  intro row c text
  have hstore : c.store = ((Controller.start id {} {} none).store.runAll
      [.add row none 0, .hover (some "a")]).2 := Controller.mutateAll_store id _ _
  have hforest : c.store.forest = [row] := by rw [hstore]; rfl
  have hwf : c.store.forest.WellFormed := by
    rw [hforest]
    exact Forest.wellFormed_iff.mpr ⟨by simp [row], by simp [row]⟩
  have hread : Source.Document.read? text = .ok ⟨.page, "P", [⟨row.widget, []⟩]⟩ := by
    have hheader : Source.header? text.toList =
        some ⟨.page, "P", "\n\n  <Row />\n\x7d".toList⟩ := by decide +kernel
    have hinside : Markup.blockInside? "\n\n  <Row />\n\x7d".toList =
        some "\n\n  <Row />\n".toList := by decide +kernel
    have htag : Markup.tag? (Text.trim "\n\n  <Row />\n".toList) =
        some (⟨"Row".toList, [], true⟩, []) := by decide +kernel
    exact Source.read?_void hheader hinside (by decide +kernel) htag (by decide +kernel)
  have hsame : Source.readRoots text = c.store.forest.outlines := by
    rw [Source.readRoots, hread, hforest]
    simp only [row, Forest.outlines]
  obtain ⟨_, hkept⟩ := steps_reformatted id {} {} none _ rfl hwf text hsame
  refine ⟨hwf, hsame, ?_⟩
  rw [hkept, hstore]
  exact ⟨rfl, rfl, rfl⟩

end Tandem
