import Tandem.Catalog.Search
import Tandem.Forest.Edit
import Tandem.History

/-!
# The editor's state

The store holds the live forest with what belongs to it: the selected and the
hovered node, the undo history, the palette's query and open drawers, and the
listeners with a log of their calls. `Store.run` carries out a `Command`. A change
of the forest keeps the forest before it in the history and then calls every
listener once, in the order of subscription; a command that is refused changes
nothing.
-/

namespace Tandem

/-- A listener was called with a forest. Listeners are numbered from one. -/
structure Call where
  listener : Nat
  forest : Forest
  deriving Inhabited

structure Store where
  forest : Forest := []
  selected : Option String := none
  /-- The id of the node under the pointer. -/
  hovered : Option String := none
  history : History := .standard
  /-- The palette's query. -/
  query : String := ""
  /-- The palette's open drawers. -/
  expanded : List Category := [.layout, .typography, .button]
  /-- How many listeners have subscribed. -/
  listeners : Nat := 0
  calls : List Call := []
  /-- The number of the next fresh id. -/
  fresh : Nat := 0
  deriving Inhabited

/-- What the store can be told to do. -/
inductive Command where
  /-- Add a node at an index under a holder, or among the roots, and select it. -/
  | add (n : Node) (holder : Option String) (index : Nat)
  /-- Add a new node of a component. -/
  | addComponent (c : Component) (holder : Option String) (index : Nat)
  | remove (id : String)
  | move (id : String) (holder : Option String) (index : Nat)
  | patch (id : String) (p : Patch)
  | duplicate (id : String)
  | undo
  | redo
  | clearHistory
  /-- Replace the forest without a history entry. -/
  | setForest (f : Forest)
  | select (id : Option String)
  | hover (id : Option String)
  | subscribe
  | search (query : String)
  | toggle (c : Category)

/-- What a command answers. -/
inductive Reply where
  | done
  /-- Whether it was carried out. -/
  | outcome (ok : Bool)
  /-- The id of the node it made, if it was carried out. -/
  | made (id : Option String)
  deriving DecidableEq, Inhabited

namespace Store

/-- An empty store that keeps some undo steps. -/
def new (historyLimit : Nat) : Store := { history := .new historyLimit }

def selectedNode? (s : Store) : Option Node := s.selected.bind s.forest.find?

def visible (s : Store) : List Component := Catalog.search s.query

def openDrawers (s : Store) : List Category := Category.all.filter s.expanded.contains

def notify (s : Store) : Store :=
  { s with calls := s.calls ++ (List.range s.listeners).map fun i => ⟨i + 1, s.forest⟩ }

/-- Let go of selected and hovered nodes that are no longer there. -/
def dropStale (s : Store) : Store :=
  { s with
    selected := s.selected.filter s.forest.contains
    hovered := s.hovered.filter s.forest.contains }

/-- Keep the live forest in the history and put a changed one in its place. -/
def commit (s : Store) (next : Forest) : Store :=
  notify { s with history := s.history.push s.forest, forest := next }

/-- Put a forest from the history in place. Nothing is selected then. -/
def restore (s : Store) (f : Forest) (history : History) : Store :=
  ({ s with forest := f, history, selected := none } : Store).dropStale.notify

def add? (s : Store) (n : Node) (holder : Option String) (index : Nat) : Option Store :=
  (s.forest.add n holder index).map fun f => { s.commit f with selected := some n.id }

def addComponent? (s : Store) (c : Component) (holder : Option String) (index : Nat) :
    Option Store :=
  -- the id is given out before the place is looked for
  ({ s with fresh := s.fresh + 1 } : Store).add? (Outline.stamp none s.fresh ⟨c.widget, []⟩)
    holder index

def remove? (s : Store) (id : String) : Option Store :=
  (s.forest.remove id).map fun f => (s.commit f).dropStale

def move? (s : Store) (id : String) (holder : Option String) (index : Nat) : Option Store :=
  (s.forest.move id holder index).map s.commit

def patch? (s : Store) (id : String) (p : Patch) : Option Store :=
  (s.forest.patch id p).map s.commit

def duplicate? (s : Store) (id : String) : Option (Store × String) :=
  (s.forest.duplicate id s.fresh).map fun r =>
    ({ s.commit r.1 with selected := some r.2.id, fresh := s.fresh + r.2.outline.size }, r.2.id)

def undo? (s : Store) : Option Store :=
  (s.history.undo s.forest).map fun r => s.restore r.1 r.2

def redo? (s : Store) : Option Store :=
  s.history.redo.map fun r => s.restore r.1 r.2

/-- Replace the forest without a history entry, as reading a text does. -/
def setForest (s : Store) (f : Forest) : Store :=
  ({ s with forest := f } : Store).dropStale.notify

def toggle (s : Store) (c : Category) : Store :=
  { s with
    expanded := if s.expanded.contains c then s.expanded.filter (· ≠ c) else c :: s.expanded }

/-- The answer and the state after a command that says whether it was carried out. -/
def reporting (s : Store) : Option Store → Reply × Store
  | none => (.outcome false, s)
  | some s' => (.outcome true, s')

def run (s : Store) : Command → Reply × Store
  | .add n holder index => s.reporting (s.add? n holder index)
  | .addComponent c holder index =>
    match s.addComponent? c holder index with
    | none => (.made none, s)
    | some s' => (.made s'.selected, s')
  | .remove id => s.reporting (s.remove? id)
  | .move id holder index => s.reporting (s.move? id holder index)
  | .patch id p => s.reporting (s.patch? id p)
  | .duplicate id =>
    match s.duplicate? id with
    | none => (.made none, s)
    | some (s', copy) => (.made (some copy), s')
  | .undo => s.reporting s.undo?
  | .redo => s.reporting s.redo?
  | .clearHistory => (.done, { s with history := s.history.clear })
  | .setForest f => (.done, s.setForest f)
  | .select id => (.done, { s with selected := id })
  | .hover id => (.done, { s with hovered := id })
  | .subscribe => (.done, { s with listeners := s.listeners + 1 })
  | .search query => (.done, { s with query })
  | .toggle c => (.done, s.toggle c)

/-- Carry out commands one after the other: the answers, and the state at the end. -/
def runAll (s : Store) : List Command → List Reply × Store
  | [] => ([], s)
  | c :: cs =>
    let r := s.run c
    let rs := r.2.runAll cs
    (r.1 :: rs.1, rs.2)

end Store

end Tandem
