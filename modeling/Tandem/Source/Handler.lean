import Tandem.Text.Blank
import Tandem.Text.Split

/-!
# Event handlers

An event attribute holds an arrow function of no arguments, `() => { body }`, and
a widget keeps its body. `unwrap` takes the body out, `wrap` puts it back; a body
with a line comment is put on a line of its own, so that the comment ends before
the closing braces.
-/

namespace Tandem.Source

open Text

/-- What follows the arrow of an arrow function, its opening brace and blanks passed over. -/
def arrowRest? (cs : List Char) : Option (List Char) :=
  (dropKeyword "()" cs).bind fun cs =>
    (dropKeyword "=>" (cs.dropWhile isBlank)).map fun cs =>
      match cs.dropWhile isBlank with
      | '\x7b' :: cs => cs.dropWhile isBlank
      | cs => cs

/-- The text without a closing brace at its end and the blanks before that. -/
def dropBrace (cs : List Char) : List Char :=
  if cs.getLast? = some '\x7d' then trimEnd cs.dropLast else trimEnd cs

/-- The body of a handler; a handler that is no arrow function is its own body. -/
def unwrap (handler : String) : String :=
  let cs := trim handler.toList
  String.ofList (((arrowRest? cs).map dropBrace).getD cs)

/-- The handler of a body, at a level of nesting, with `pad` giving the indent of a level. -/
def wrap (pad : Nat → List Char) (level : Nat) (body : String) : List Char :=
  if occurs "//".toList body.toList then
    "() => \x7b\n".toList ++ pad (level + 1) ++ trim body.toList ++ '\n' :: pad level ++ ['\x7d']
  else "() => \x7b ".toList ++ body.toList ++ " \x7d".toList

/-- The name of an event: `on` and a capital letter. -/
def isEventName (name : String) : Bool :=
  match name.toList with
  | 'o' :: 'n' :: c :: _ => c.isUpper
  | _ => false

end Tandem.Source
