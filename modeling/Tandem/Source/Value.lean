import Tandem.Json.Printer
import Tandem.Json.Reader
import Tandem.Markup.Tag
import Tandem.Text.Blank
import Tandem.Text.Entity
import Tandem.Text.Word

/-!
# Property values as attributes

A property is written as an attribute: text in quotes, everything else in braces.
Text that looks like code (`isExpression`) is written in braces as well, unless it
would be read back as an array or object. What is read from braces is a JSON
value if it is one, and else text.
-/

namespace Tandem.Source

open Text Markup

/-- A whole number, a point and a whole number. -/
def isDecimal (cs : List Char) : Bool :=
  let rest := cs.dropWhile isDigit
  !(cs.takeWhile isDigit).isEmpty && rest.head? == some '.' && !rest.tail.isEmpty
    && rest.tail.all isDigit

/-- The operators that make a text an expression. -/
def operators : List String := ["===", "!==", "==", "!=", ">=", "<=", "&&", "||"]

/-- The text looks like code: a call, arithmetic, a comparison, a condition, a member
or element, a negation or a template. Single words and decimals do not. -/
def isExpression (s : String) : Bool :=
  let cs := s.toList
  !isBlankString s &&
    ((cs.contains '(' && cs.contains ')')
      || cs.contains '+' || cs.contains '*' || cs.contains '/'
      || operators.any (fun op => occurs op.toList cs)
      || (cs.contains '?' && cs.contains ':')
      || (cs.contains '.' && !isDecimal cs)
      || (cs.contains '[' && cs.contains ']')
      || cs.head? == some '!'
      || cs.contains '\x60' || occurs "$\x7b".toList cs)

/-- The text would be read back as an array or object. -/
def readsAsStructure (s : String) : Bool :=
  match Json.ofText? s.toList with
  | some (.arr _) | some (.obj _) => true
  | _ => false

def isWrittenBraced (name s : String) : Bool :=
  name ≠ "className" && isExpression s && !readsAsStructure s

/-- The attribute value of a property; `null` and the empty text are not written. -/
def attrValue? (name : String) : Json → Option AttrValue
  | .null => none
  | .bool true => some .bare
  | .bool false => some (.braced "false".toList)
  | .num n => some (.braced (Json.printNumber n))
  | .str s =>
    if s.isEmpty then none
    else if isWrittenBraced name s then some (.braced s.toList)
    else some (.quoted (escapeAttribute s.toList))
  | .arr items => some (.braced (Json.print (.arr items)))
  | .obj fields => some (.braced (Json.print (.obj fields)))

/-- The value of an expression: a JSON value, or the text itself. -/
def expressionValue (cs : List Char) : Json := (Json.ofText? cs).getD (.str (String.ofList cs))

/-- A property that is missing, `null`, empty or false. -/
def isUnset : Option Json → Bool
  | none | some .null | some (.bool false) => true
  | some (.str s) => s.isEmpty
  | _ => false

/-- Read one attribute into the properties. A bare one sets only what is unset. -/
def setAttr (props : Dict Json) (a : Attr) : Dict Json :=
  let name := String.ofList a.name
  match a.value with
  | .quoted cs => props.insert name (.str (String.ofList (decode cs)))
  | .braced cs => props.insert name (expressionValue cs)
  | .bare => if isUnset (props.get? name) then props.insert name (.bool true) else props

end Tandem.Source
