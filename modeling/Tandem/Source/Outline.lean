import Tandem.Catalog.Entries
import Tandem.Markup.Element
import Tandem.Node.Basic
import Tandem.Source.Handler
import Tandem.Source.Value
import Tandem.Style.Sheet

/-!
# What elements mean

An element stands for a widget. Its attributes are the properties; from these the
`style` text becomes inline declarations, `class` picks rules of the style sheet,
which override them, and event attributes become handlers. Inner text goes to the
property that the component's definition reserves for it, if that is unset.
-/

namespace Tandem.Source

open Text Markup Style

/-- The attributes as properties; of a repeated attribute the last counts. -/
def propsOf (attrs : List Attr) : Dict Json := attrs.foldl setAttr .empty

/-- The inline declarations, and the properties without them. -/
def takeInline (props : Dict Json) : Dict String × Dict Json :=
  match props.get? "style" with
  | some (.str inline) => (inlineStyles inline, props.erase "style")
  | _ => (.empty, props)

/-- The classes that an element lists. -/
def classesOf (props : Dict Json) : List String :=
  match props.get? "class" with
  | some (.str s) => (words s.toList).map String.ofList
  | _ => []

/-- The body of a handler property; other values are no handlers. -/
def handler? : Json → Option String
  | .str s => some (unwrap s)
  | _ => none

/-- The widget of an element with the given attributes, without inner text. -/
def widgetOf (sheet : Sheet) (name : List Char) (attrs : List Attr) : Widget :=
  let (inline, props) := takeInline (propsOf attrs)
  let plain := props.erase "class"
  { component := String.ofList name
    props := plain.filterKeys (fun k => !isEventName k)
    styles := sheet.cascade inline (classesOf props)
    events := (plain.filterKeys isEventName).filterMap handler? }

/-- The widget with inner text in its text property, if it has one that is unset.
Text that starts with a brace is an expression of the page and no property. -/
def withInner (w : Widget) (inner : List Char) : Widget :=
  if inner.isEmpty || inner.head? == some '\x7b' then w
  else
    match textProp? (Catalog.find? w.component) with
    | none => w
    | some prop =>
      if isUnset (w.props.get? prop) then
        { w with props := w.props.insert prop (.str (String.ofList (decode inner))) }
      else w

mutual

def outline (sheet : Sheet) : Element → Outline
  | .void name attrs => ⟨widgetOf sheet name attrs, []⟩
  | .text name attrs inner => ⟨withInner (widgetOf sheet name attrs) inner, []⟩
  | .nest name attrs children => ⟨widgetOf sheet name attrs, outlines sheet children⟩

def outlines (sheet : Sheet) : List Element → List Outline
  | [] => []
  | e :: es => outline sheet e :: outlines sheet es

end

/-- The tag that several roots are wrapped in. -/
def wrapperName : String := "div"

def isClassed (e : Element) : Bool := e.attrs.any (·.name == "class".toList)

/-- The roots of a page. Several roots are written inside a bare wrapper, where all
of them have a class; any other bare element is a root itself. -/
def unwrapped : List Element → List Element
  | [.nest name [] children] =>
    if name = wrapperName.toList ∧ 2 ≤ children.length ∧ children.all isClassed then children
    else [.nest name [] children]
  | es => es

end Tandem.Source
