import Tandem.Node.Basic

/-!
# Looking into a forest

Look-ups go through the nodes in preorder and answer with the first that fits.
-/

namespace Tandem.Forest

def find? (f : Forest) (id : String) : Option Node := f.preorder.find? (·.id = id)

/-- The node that holds the node with an id; there is none for roots. -/
def parent? (f : Forest) (id : String) : Option Node :=
  f.preorder.find? fun n => n.children.any (·.id = id)

def contains (f : Forest) (id : String) : Bool := (f.find? id).isSome

end Tandem.Forest
