import Tandem.Text.Split

/-!
# File names

The stem of a path names a document that does not name itself.
-/

namespace Tandem.Text

/-- The last part of a path; empty parts and `.` do not count, and `..` is no name. -/
def fileName? (path : String) : Option (List Char) :=
  let parts := (splitOn '/' path.toList).filter fun p => !p.isEmpty && p ≠ ['.']
  parts.getLast?.filter (· ≠ ['.', '.'])

/-- The file name without its extension. A name that only starts with a dot has none. -/
def fileStem? (path : String) : Option String :=
  (fileName? path).map fun name =>
    let stem := ((name.reverse.dropWhile (· ≠ '.')).drop 1).reverse
    String.ofList (if stem.isEmpty then name else stem)

end Tandem.Text
