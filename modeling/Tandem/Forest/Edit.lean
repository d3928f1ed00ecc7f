import Tandem.Forest.Query
import Tandem.Node.Identity
import Tandem.Text.Blank

/-!
# Editing a forest

Every edit makes a new forest from the old one. `none` says that the node or the
place it names does not exist, or that a node would move into itself; nothing
changes then. The parent link of a node is set where the node is put.
-/

namespace Tandem

/-- A change of one of a widget's dictionaries. -/
inductive Patch where
  /-- New property values; `null` unsets a property. -/
  | props (changes : Dict Json)
  /-- New style values; a blank one removes the declaration. -/
  | styles (changes : Dict String)
  /-- New handler bodies; a blank one removes the handler. -/
  | events (changes : Dict String)

/-- A blank text stands for a removal. -/
def unlessBlank (s : String) : Option String := if Text.isBlankString s then none else some s

/-- A `null` stands for a removal. -/
def unlessNull (v : Json) : Option Json := if v = .null then none else some v

def Widget.apply (p : Patch) (w : Widget) : Widget :=
  match p with
  | .props changes => { w with props := w.props.patch (changes.map unlessNull) }
  | .styles changes => { w with styles := w.styles.patch (changes.map unlessBlank) }
  | .events changes => { w with events := w.events.patch (changes.map unlessBlank) }

namespace Forest

/-- The forest without the nodes of an id and what they hold. -/
def prune (id : String) : Forest → Forest
  | [] => []
  | ⟨i, parent, widget, children⟩ :: rest =>
    if i = id then prune id rest
    else ⟨i, parent, widget, prune id children⟩ :: prune id rest
decreasing_by all_goals simp only [List.cons.sizeOf_spec, Node.mk.sizeOf_spec]; omega

/-- Put a node among siblings at an index, at the end if there are fewer. -/
def insertAt (index : Nat) (n : Node) (siblings : Forest) : Forest :=
  siblings.insertIdx (min index siblings.length) n

def insertUnder (holder : String) (index : Nat) (n : Node) : Forest → Forest
  | [] => []
  | ⟨i, parent, widget, children⟩ :: rest =>
    (if i = holder then
      ⟨i, parent, widget, insertAt index { n with parent := some holder } children⟩
    else ⟨i, parent, widget, insertUnder holder index n children⟩)
      :: insertUnder holder index n rest

def place (holder : Option String) (index : Nat) (n : Node) (f : Forest) : Forest :=
  match holder with
  | none => insertAt index { n with parent := none } f
  | some holder => insertUnder holder index n f

def mapWidget (id : String) (change : Widget → Widget) : Forest → Forest
  | [] => []
  | ⟨i, parent, widget, children⟩ :: rest =>
    (if i = id then ⟨i, parent, change widget, children⟩
    else ⟨i, parent, widget, mapWidget id change children⟩) :: mapWidget id change rest

def add (f : Forest) (n : Node) (holder : Option String) (index : Nat) : Option Forest :=
  if holder.all f.contains then some (f.place holder index n) else none

def remove (f : Forest) (id : String) : Option Forest :=
  if f.contains id then some (f.prune id) else none

/-- The place exists and does not lie in the node itself. -/
def canHold (f : Forest) (n : Node) (holder : Option String) : Bool :=
  match holder with
  | none => true
  | some h => h ≠ n.id && !Forest.contains n.children h && f.contains h

/-- Take a node out and put it back at an index under `holder`, or among the roots;
the index counts the siblings that are left. -/
def move (f : Forest) (id : String) (holder : Option String) (index : Nat) : Option Forest :=
  match f.find? id with
  | none => none
  | some n => if f.canHold n holder then some ((f.prune id).place holder index n) else none

def patch (f : Forest) (id : String) (p : Patch) : Option Forest :=
  if f.contains id then some (f.mapWidget id (.apply p)) else none

/-- Copy a node with everything below it, under fresh ids from `mint k` on, and put
the copy right behind it. Gives the forest and the copy. -/
def duplicate (f : Forest) (id : String) (k : Nat) : Option (Forest × Node) := do
  let node ← f.find? id
  let holder := f.parent? id
  let siblings : Forest := holder.elim f (·.children)
  let index ← siblings.findIdx? (·.id = id)
  let copy := node.fresh k
  return (f.place (holder.map (·.id)) (index + 1) copy, copy)

end Forest

end Tandem
