import Tandem.Proofs.Fingerprint
import Tandem.Sync

/-!
# Runs of the controller

A host drives the controller by two kinds of events: it hands over a changed source
text, or it carries out commands on the store and has the change written. A run
starts from a new controller with any writer and any file name.
-/

namespace Tandem

/-- What a host does to the controller. -/
inductive Event where
  | source (text : String)
  /-- Carry out commands and write the changed forest. -/
  | mutate (commands : List Command)

/-- A forest with nodes has another text than the one without. -/
theorem Forest.text_ne_text_nil {f : Forest} (hf : f ≠ []) : f.text ≠ Forest.text [] :=
  mt text_injective hf

namespace Controller

/-- A new controller with a writer and a file name of the host's choice. -/
def start (digest : String → String) (options : SyncOptions) (writer : Source.Writer)
    (fileName : Option String) : Controller :=
  { new digest options with writer, fileName }

/-- The controller behind commands whose change has not been written yet. -/
def edited (c : Controller) (commands : List Command) : Controller :=
  { c with store := (c.store.runAll commands).2 }

def step (digest : String → String) (c : Controller) : Event → Controller
  | .source text => (c.sourceChanged digest text).2
  | .mutate commands => (c.mutateAll digest commands).2.2

def steps (digest : String → String) (c : Controller) (events : List Event) : Controller :=
  events.foldl (step digest) c

variable (digest : String → String)

theorem treeChanged_store (c : Controller) : (c.treeChanged digest).2.store = c.store := by
  simp only [treeChanged]
  repeat' split
  all_goals rfl

/-- The text that is remembered is the one that was written, if one was. -/
theorem treeChanged_lastSource (c : Controller) :
    (c.treeChanged digest).2.lastSource = (c.treeChanged digest).1.getD c.lastSource := by
  simp only [treeChanged]
  repeat' split
  all_goals rfl

/-- A forest with a new fingerprint is written, if its text is a new one. -/
theorem treeChanged_writes {c : Controller} (hidle : c.phase = .idle)
    (hprint : digest c.store.forest.text ≠ c.lastPrint) (htext : c.written ≠ c.lastSource) :
    c.treeChanged digest = (some c.written, { c with
      lastPrint := digest c.store.forest.text
      lastSource := c.written }) := by
  have hbusy : c.phase ≠ .applyingSource := by
    rw [hidle]
    decide
  simp only [treeChanged, if_neg hbusy, if_neg hprint, if_neg htext, ← hidle]

theorem mutateAll_store (c : Controller) (commands : List Command) :
    (c.mutateAll digest commands).2.2.store = (c.store.runAll commands).2 :=
  treeChanged_store digest _

/-- A text that is not skipped becomes the last one, and then the store is left alone
but for the supply of ids, or it is given the forest of the text. -/
theorem sourceChanged_of_ne {c : Controller} {text : String} (hphase : c.phase = .idle)
    (htext : text ≠ c.lastSource) :
    let seen : Controller := { c with
      lastSource := text
      store := { c.store with
        fresh := c.store.fresh + Outline.count (Source.readRoots text) } }
    let f := c.readAgain text
    c.sourceChanged digest text =
      if digest f.text = c.lastPrint then (.unchanged, seen)
      else (.replaced f.length,
        { seen with lastPrint := digest f.text, store := seen.store.setForest f }) := by
  intro seen f
  have hskip : ¬(c.phase ≠ .idle ∨ text = c.lastSource) := by
    rintro (h | h)
    · exact h hphase
    · exact htext h
  rw [sourceChanged, if_neg hskip]

/-- A text that means a forest with the remembered fingerprint. -/
theorem sourceChanged_of_print_eq {c : Controller} {text : String} (hphase : c.phase = .idle)
    (htext : text ≠ c.lastSource) (hprint : digest (c.readAgain text).text = c.lastPrint) :
    c.sourceChanged digest text = (.unchanged, { c with
      lastSource := text
      store := { c.store with
        fresh := c.store.fresh + Outline.count (Source.readRoots text) } }) :=
  (sourceChanged_of_ne digest hphase htext).trans (if_pos hprint)

/-- A text that means a forest with another fingerprint. -/
theorem sourceChanged_of_print_ne {c : Controller} {text : String} (hphase : c.phase = .idle)
    (htext : text ≠ c.lastSource) (hprint : digest (c.readAgain text).text ≠ c.lastPrint) :
    c.sourceChanged digest text = (.replaced (c.readAgain text).length, { c with
      lastSource := text
      lastPrint := digest (c.readAgain text).text
      store := ({ c.store with
        fresh := c.store.fresh + Outline.count (Source.readRoots text) } : Store).setForest
          (c.readAgain text) }) :=
  (sourceChanged_of_ne digest hphase htext).trans (if_neg hprint)

theorem sourceChanged_lastSource (c : Controller) :
    c.sourceChanged digest c.lastSource = (.skipped, c) := by
  rw [sourceChanged, if_pos (.inr rfl)]

end Controller

end Tandem
