import Tandem.Catalog.Basic
import Tandem.Node.Basic

/-!
# Fresh ids

Ids that the library gives out itself are numbered: `mint k` is the `k`-th one. It
is a letter and at least sixteen letters and digits, so that it can serve as a
class name. Stamping an outline gives its widgets consecutive ids, each node
before those it holds, and links every node to its holder.
-/

namespace Tandem

/-- The decimal digits of a number, at least ten of them. -/
def paddedDigits (n : Nat) : List Char :=
  let ds := Nat.toDigits 10 n
  List.replicate (10 - ds.length) '0' ++ ds

/-- The `k`-th id that the library gives out. It stands for a source of ids made of the time,
random digits and a counter. General results use two facts about it only: no id is given out
twice (`mint_injective`), and every id is a class name (`isClassName_mint`). What else is in it
matters to single runs alone, which compare it with ids of their own. -/
def mint (k : Nat) : String := String.ofList ("nstamped".toList ++ paddedDigits k)

namespace Outline

/-- Nodes for the outlines, ids from `mint k` on, held by `parent`. -/
def stampAll (parent : Option String) (k : Nat) : List Outline → Forest
  | [] => []
  | ⟨widget, children⟩ :: rest =>
    ⟨mint k, parent, widget, stampAll (some (mint k)) (k + 1) children⟩
      :: stampAll parent (k + 1 + count children) rest

def stamp (parent : Option String) (k : Nat) (o : Outline) : Node :=
  ⟨mint k, parent, o.widget, stampAll (some (mint k)) (k + 1) o.children⟩

/-- How many ids stamping one outline takes. -/
def size (o : Outline) : Nat := count o.children + 1

end Outline

/-- A copy of the node under the same parent in which every node has a fresh id. -/
def Node.fresh (k : Nat) (n : Node) : Node := n.outline.stamp n.parent k

/-- A widget with every default that its definition declares. -/
def Component.widget (c : Component) : Widget where
  component := c.name
  props := .ofList (c.props.filterMap fun p => p.defaultValue.map (p.name, ·))

end Tandem
