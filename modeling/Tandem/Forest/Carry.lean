import Tandem.Node.Basic

/-!
# Carrying ids over

When a text is read again its nodes get new ids. So that a selected node stays
selected, a node takes over the id of the old node at the same path, as long as
the components agree at every step of the path; below the first disagreement all
ids are new. The parent links are those of the new forest.
-/

namespace Tandem.Forest

/-- The parsed siblings, held by `parent`, with the ids of the previous ones. -/
def carry (parent : Option String) (previous : Forest) : (parsed : Forest) → Forest
  | [] => []
  | ⟨id, _, widget, children⟩ :: rest =>
    match previous with
    | [] => ⟨id, parent, widget, carry (some id) [] children⟩ :: carry parent [] rest
    | old :: olds =>
      if old.widget.component = widget.component then
        ⟨old.id, parent, widget, carry (some old.id) old.children children⟩
          :: carry parent olds rest
      else ⟨id, parent, widget, carry (some id) [] children⟩ :: carry parent olds rest
decreasing_by all_goals simp only [List.cons.sizeOf_spec, Node.mk.sizeOf_spec]; omega

def carryIds (previous parsed : Forest) : Forest := carry none previous parsed

end Tandem.Forest
