import Tandem.Text.Split

/-!
# Character references

Attribute values and element text are written with the characters that markup
gives a meaning to replaced by references. `escapeAttribute` and `escapeText`
write them, `decode` reads either kind back; a `&` that starts none of the seven
known references stands for itself.
-/

namespace Tandem.Text

/-- The reference for a character in a quoted attribute value. -/
def attributeReference (c : Char) : List Char :=
  match c with
  | '&' => "&amp;".toList
  | '"' => "&quot;".toList
  | '\'' => "&#39;".toList
  | '<' => "&lt;".toList
  | '>' => "&gt;".toList
  | _ => [c]

/-- The reference for a character in element text. -/
def textReference (c : Char) : List Char :=
  match c with
  | '&' => "&amp;".toList
  | '<' => "&lt;".toList
  | '>' => "&gt;".toList
  | '{' => "&#123;".toList
  | '}' => "&#125;".toList
  | _ => [c]

def escapeAttribute (cs : List Char) : List Char := cs.flatMap attributeReference

def escapeText (cs : List Char) : List Char := cs.flatMap textReference

/-- The known references, without their `&`, and what they stand for. -/
def references : List (List Char × Char) := [
  ("amp;".toList, '&'), ("quot;".toList, '"'), ("#39;".toList, '\''), ("lt;".toList, '<'),
  ("gt;".toList, '>'), ("#123;".toList, '\x7b'), ("#125;".toList, '\x7d')]

/-- The reference whose rest starts the text: its character and its length. -/
def reference? (cs : List Char) : Option (Char × Nat) :=
  (references.find? fun r => r.1.isPrefixOf cs).map fun r => (r.2, r.1.length)

/-- Decode, where `skip` characters of a decoded reference are still to be passed over. -/
def decodeFrom (skip : Nat) : List Char → List Char
  | [] => []
  | c :: cs =>
    match skip with
    | n + 1 => decodeFrom n cs
    | 0 =>
      if c = '&' then
        match reference? cs with
        | some (r, n) => r :: decodeFrom n cs
        | none => '&' :: decodeFrom 0 cs
      else c :: decodeFrom 0 cs

/-- Every known reference replaced by the character it stands for. -/
def decode (cs : List Char) : List Char := decodeFrom 0 cs

end Tandem.Text
