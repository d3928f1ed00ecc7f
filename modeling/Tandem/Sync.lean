import Tandem.Fingerprint
import Tandem.Forest.Carry
import Tandem.Source.Reader
import Tandem.Source.Writer
import Tandem.Store
import Tandem.Text.FileName

/-!
# Keeping text and forest in step

The controller holds the store and remembers the source text it last saw or wrote
and the fingerprint of the forest it last saw or made. A text that equals the
remembered one is skipped; any other is read, and the forest is replaced if its
fingerprint is a new one. After a change of the forest a new text is written,
unless the fingerprint or the text is the remembered one. As each direction
records what it made, a change that comes back from the other side ends there.

Fingerprints are digests of the canonical text of a forest; the operations take
the digest function as their first argument.
-/

namespace Tandem

open Source

inductive Phase where
  | idle
  /-- It reads a changed text. -/
  | applyingSource
  /-- It writes a changed forest. -/
  | applyingTree
  deriving DecidableEq, Inhabited

def Phase.label : Phase → String
  | idle => "idle"
  | applyingSource => "applyingSourceChange"
  | applyingTree => "applyingTreeChange"

/-- What a changed text did to the forest. -/
inductive SourceOutcome where
  /-- The text is known, or the controller is busy. -/
  | skipped
  /-- The text means the remembered forest. -/
  | unchanged
  /-- The store holds the forest of the text, with this many roots. -/
  | replaced (roots : Nat)
  deriving DecidableEq, Inhabited

structure Controller where
  store : Store
  writer : Writer
  options : SyncOptions
  phase : Phase := .idle
  /-- The text it last saw or wrote. -/
  lastSource : String := ""
  /-- The fingerprint of the forest it last saw or made. -/
  lastPrint : String
  fileName : Option String := none
  deriving Inhabited

namespace Controller

def new (digest : String → String) (options : SyncOptions) : Controller where
  store := .new options.historyLimit
  writer := { options := options.writer }
  options
  lastPrint := digest (Forest.text [])

/-- The name of the document: the declared one, or the stem of the file name, or the
default. -/
def documentName (c : Controller) : String :=
  (((name? c.lastSource).or (c.fileName.bind Text.fileStem?)).filter fun n => !n.isEmpty).getD
    c.options.writer.defaultName

/-- The source text declares a component. -/
def isComponent (c : Controller) : Bool := kind? c.lastSource == some .component

def documentKind (c : Controller) : Kind := if c.isComponent then .component else .page

def written (c : Controller) : String := c.writer.write c.store.forest c.documentName c.documentKind

/-- The forest of a text: ids are taken over from the live one if the options say so. -/
def readAgain (c : Controller) (source : String) : Forest :=
  let parsed := readForest c.store.fresh source
  if c.options.preserveIds then Forest.carryIds c.store.forest parsed else parsed

def sourceChanged (digest : String → String) (c : Controller) (source : String) :
    SourceOutcome × Controller :=
  if c.phase ≠ .idle ∨ source = c.lastSource then (.skipped, c)
  else
    let f := c.readAgain source
    -- ids are given out before it is known whether any of them is needed
    let fresh := c.store.fresh + Outline.count (readRoots source)
    let seen : Controller := { c with lastSource := source, store := { c.store with fresh } }
    let print := digest f.text
    if print = c.lastPrint then (.unchanged, seen)
    else (.replaced f.length, { seen with lastPrint := print, store := seen.store.setForest f })

/-- The forest has changed: the new source text, unless it is known. -/
def treeChanged (digest : String → String) (c : Controller) : Option String × Controller :=
  let print := digest c.store.forest.text
  if c.phase = .applyingSource then (none, { c with lastPrint := print })
  else if print = c.lastPrint then (none, c)
  else
    let source := c.written
    let seen : Controller := { c with phase := .idle, lastPrint := print }
    if source = c.lastSource then (none, seen)
    else (some source, { seen with lastSource := source })

/-- Carry out a command on the store alone. -/
def direct (c : Controller) (command : Command) : Reply × Controller :=
  let r := c.store.run command
  (r.1, { c with store := r.2 })

/-- Carry out a command and write the changed forest. -/
def mutate (digest : String → String) (c : Controller) (command : Command) :
    Reply × Option String × Controller :=
  let r := c.direct command
  (r.1, treeChanged digest r.2)

/-- Carry out several commands and then write the changed forest once. -/
def mutateAll (digest : String → String) (c : Controller) (commands : List Command) :
    List Reply × Option String × Controller :=
  let r := c.store.runAll commands
  (r.1, treeChanged digest { c with store := r.2 })

theorem mutateAll_singleton (digest : String → String) (c : Controller) (command : Command) :
    c.mutateAll digest [command] =
      ([(c.mutate digest command).1], (c.mutate digest command).2) := rfl

end Controller

end Tandem
