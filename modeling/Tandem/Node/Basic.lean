import Tandem.Json.Basic

/-!
# Components on the page

The page is a forest of nodes. What a node shows is its `Widget`: the kind of
component with its properties, styles and event handlers. A `Node` adds an id, a
link to its parent and children; an `Outline` is the same tree without ids and
links, which is all that a source text says.

Everything that walks a forest is one function on lists of siblings that goes
into the first node's children and on to the rest. `Forest.induction` is the
matching proof rule.
-/

namespace Tandem

/-- What a node shows, apart from its place and its children. -/
structure Widget where
  /-- The kind of component, or the tag of a plain element. -/
  component : String
  props : Dict Json := .empty
  styles : Dict String := .empty
  /-- The bodies of the event handlers. -/
  events : Dict String := .empty
  deriving DecidableEq, Inhabited

/-- A tree of widgets without ids. -/
structure Outline where
  widget : Widget
  children : List Outline
  deriving Inhabited

/-- A node of the page with everything below it. -/
structure Node where
  /-- The name of the node, unique on its page. -/
  id : String
  /-- The id of the node that holds it, if any. -/
  parent : Option String
  widget : Widget
  children : List Node
  deriving Inhabited

/-- Sibling nodes in order; a page is the forest of its roots. -/
abbrev Forest := List Node

/-- To prove something of every forest, prove it of the empty one, and of a forest
with a first node from its children and the other siblings. -/
theorem Forest.induction {motive : Forest → Prop} (nil : motive [])
    (cons : ∀ id parent widget children rest, motive children → motive rest →
      motive (⟨id, parent, widget, children⟩ :: rest)) : ∀ f, motive f
  | [] => nil
  | ⟨id, parent, widget, children⟩ :: rest =>
    cons id parent widget children rest (induction nil cons children) (induction nil cons rest)

theorem Outline.induction {motive : List Outline → Prop} (nil : motive [])
    (cons : ∀ widget children rest, motive children → motive rest →
      motive (⟨widget, children⟩ :: rest)) : ∀ os, motive os
  | [] => nil
  | ⟨widget, children⟩ :: rest =>
    cons widget children rest (induction nil cons children) (induction nil cons rest)

def Outline.count : List Outline → Nat
  | [] => 0
  | ⟨_, children⟩ :: rest => count children + 1 + count rest

namespace Forest

/-- The forest without ids and links. -/
def outlines : Forest → List Outline
  | [] => []
  | ⟨_, _, widget, children⟩ :: rest => ⟨widget, outlines children⟩ :: outlines rest

/-- The nodes, each before those it holds, siblings in order. -/
def preorder : Forest → List Node
  | [] => []
  | ⟨id, parent, widget, children⟩ :: rest =>
    ⟨id, parent, widget, children⟩ :: (preorder children ++ preorder rest)

def ids (f : Forest) : List String := f.preorder.map (·.id)

def count (f : Forest) : Nat := f.preorder.length

end Forest

def Node.outline (n : Node) : Outline := ⟨n.widget, Forest.outlines n.children⟩

end Tandem
