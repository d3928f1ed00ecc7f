import Tandem.Markup.Bracket

/-!
# Markup as tags and other characters

Braces in markup are counted without regard to quotes, but a brace inside a tag
does not count. So a text is cut into `Piece`s, whole tags and single other
characters, and a block ends at the first piece that is a brace closing it.
-/

namespace Tandem.Markup

/-- An opening tag starts here: an angle bracket and a letter. -/
def startsElement : List Char → Bool
  | '<' :: c :: _ => c.isAlpha
  | _ => false

/-- A tag, opening or closing, starts here. -/
def startsTag : List Char → Bool
  | '<' :: '/' :: c :: _ => c.isAlpha
  | '<' :: c :: _ => c.isAlpha
  | _ => false

/-- What follows the tag that starts here, if one does and it is closed. -/
def tagRest? (cs : List Char) : Option (List Char) :=
  if startsTag cs then closeTag cs.tail else none

/-- A whole tag, or a character outside tags. -/
inductive Piece where
  | tag (text : List Char)
  | mark (c : Char)
  deriving DecidableEq

def Piece.text : Piece → List Char
  | .tag cs => cs
  | .mark c => [c]

theorem tagRest?_length {c : Char} {cs rest : List Char} (h : tagRest? (c :: cs) = some rest) :
    rest.length < (c :: cs).length := by
  rw [tagRest?] at h
  split at h
  · exact Nat.lt_succ_of_lt (close_length_lt h)
  · cases h

/-- The pieces of a text. A tag that is not closed is no tag. -/
def pieces (cs : List Char) : List Piece :=
  match cs with
  | [] => []
  | c :: rest =>
    match _h : tagRest? (c :: rest) with
    | some after => .tag (Text.upTo (c :: rest) after) :: pieces after
    | none => .mark c :: pieces rest
termination_by cs.length
decreasing_by
  · exact tagRest?_length _h
  · simp

def textOf (ps : List Piece) : List Char := ps.flatMap Piece.text

/-- Split behind the brace that closes the block, `depth` further blocks being open
in it: the pieces inside, and the pieces after the brace. -/
def splitBlock (depth : Nat) : List Piece → Option (List Piece × List Piece)
  | [] => none
  | p :: ps =>
    if p = .mark '\x7d' then
      match depth with
      | 0 => some ([], ps)
      | d + 1 => (splitBlock d ps).map fun s => (p :: s.1, s.2)
    else
      (splitBlock (if p = .mark '\x7b' then depth + 1 else depth) ps).map fun s => (p :: s.1, s.2)

/-- The inside of a block, the text starting behind its opening brace. -/
def blockInside? (cs : List Char) : Option (List Char) :=
  (splitBlock 0 (pieces cs)).map fun s => textOf s.1

/-- The position, counted in characters, does not lie within a tag. -/
def isOutside (position : Nat) : List Piece → Bool
  | [] => true
  | p :: ps =>
    if position = 0 then true
    else if position < p.text.length then false
    else isOutside (position - p.text.length) ps

end Tandem.Markup
