import Tandem.Catalog.Entries
import Tandem.Text.Blank
import Tandem.Text.Split

/-!
# Searching the palette

A query matches a component if it stands, case aside, in the component's name,
description or category label. Blanks around the query do not count, and a blank
query matches everything.
-/

namespace Tandem.Catalog

/-- The lower case of a character, as far as it can be ASCII: the Kelvin sign is the
only character beyond ASCII whose lower case is an ASCII letter. -/
def fold (c : Char) : Char := if c.toNat = 0x212A then 'k' else c.toLower

/-- `word`, already folded, stands in the text, case aside. -/
def mentions (word : List Char) (s : String) : Bool := Text.occurs word (s.toList.map fold)

def isHit (word : List Char) (c : Component) : Bool :=
  mentions word c.name || mentions word c.description || mentions word c.category.label

/-- The components that match a query, in palette order. -/
def search (query : String) : List Component :=
  let word := (Text.trim query.toList).map fold
  if word.isEmpty then all else all.filter (isHit word)

end Tandem.Catalog
