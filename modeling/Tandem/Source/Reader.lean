import Tandem.Error
import Tandem.Node.Identity
import Tandem.Source.Header
import Tandem.Source.Outline

/-!
# Reading a source text

A source text is a header and a body in braces. The body may have one style block,
which can stand anywhere outside tags; the rest is markup. `Document.read?` gives
the document or the cause of failure, and `readForest` the stamped forest, empty if
there is no document.
-/

namespace Tandem.Source

open Text Markup Style

structure Document where
  kind : Kind
  name : String
  roots : List Outline

/-! ## The style block -/

/-- The pieces without a word of single characters at their front. -/
def dropMarks : List Char → List Piece → Option (List Piece)
  | [], ps => some ps
  | _ :: _, [] => none
  | c :: cs, p :: ps => if p = .mark c then dropMarks cs ps else none

def dropBlankMarks : List Piece → List Piece
  | [] => []
  | .mark c :: ps => if isBlank c then dropBlankMarks ps else .mark c :: ps
  | .tag t :: ps => .tag t :: ps

/-- What follows the header of a style block, `style {` or `style scoped {`. -/
def styleHeader? (ps : List Piece) : Option (List Piece) :=
  (dropMarks "style".toList ps).bind fun ps =>
    let ps := dropBlankMarks ps
    let ps := match dropMarks "scoped".toList ps with
      | some ps => dropBlankMarks ps
      | none => ps
    dropMarks ['\x7b'] ps

def Piece.endsWord : Piece → Bool
  | .tag _ => false
  | .mark c => isWord c

/-- The pieces before the first style header that is not behind a word character,
and those behind its brace. -/
def findStyle (afterWord : Bool) : List Piece → Option (List Piece × List Piece)
  | [] => none
  | p :: ps =>
    match if afterWord then none else styleHeader? (p :: ps) with
    | some rest => some ([], rest)
    | none => (findStyle (Piece.endsWord p) ps).map fun s => (p :: s.1, s.2)

/-- A body cut into its markup and the text of its style block. -/
structure Body where
  markup : List Char
  style : List Char

/-- Cut a body that starts at an octet position. -/
def Body.read? (start : Nat) (cs : List Char) : Except Error Body :=
  match findStyle false (pieces cs) with
  | none => .ok ⟨trim cs, []⟩
  | some (before, rest) =>
    match splitBlock 0 rest with
    | none => .error (.unterminatedStyleBlock (start + octetLength (textOf before)))
    | some (inside, after) => .ok ⟨trim (textOf before ++ textOf after), textOf inside⟩

def Body.roots (b : Body) : List Outline :=
  outlines (Sheet.ofRules (rules b.style)) (unwrapped (Element.readAll b.markup))

/-! ## The document -/

def Document.read? (source : String) : Except Error Document :=
  let cs := source.toList
  match header? cs with
  | none => .error .missingDeclaration
  | some h =>
    let start := octetLength cs - octetLength h.rest
    match blockInside? h.rest with
    | none => .error (.unbalancedBraces (start - 1))
    | some inside => (Body.read? start inside).map fun b => ⟨h.kind, h.name, b.roots⟩

/-- The contents of a source text; a text that cannot be read has none. -/
def readRoots (source : String) : List Outline :=
  match Document.read? source with
  | .ok d => d.roots
  | .error _ => []

/-- The contents as a forest with ids from `mint k` on. -/
def readForest (k : Nat) (source : String) : Forest := Outline.stampAll none k (readRoots source)

end Tandem.Source
