import Tandem.Node.Basic
import Tandem.Options
import Tandem.Source.Header
import Tandem.Source.Outline
import Tandem.Text.Entity

/-!
# Writing a source text

A forest is written as a header, state declarations, a style block and markup. The
markup is made in two steps: nodes become elements (`elementsOf`), and elements
become lines (`Element.lines`). Every element has the id of its node as its class,
and every styled node a rule for that class. Nodes without children, or whose
component holds none, are void or carry the text of their text property.
-/

namespace Tandem

open Text Markup

/-! ## Elements as text -/

namespace Markup

def Attr.text (a : Attr) : List Char :=
  match a.value with
  | .quoted cs => a.name ++ '=' :: '"' :: (cs ++ ['"'])
  | .braced cs => a.name ++ '=' :: '\x7b' :: (cs ++ ['\x7d'])
  | .bare => a.name

/-- The start of a tag, up to its last attribute. -/
def openText (name : List Char) (attrs : List Attr) : List Char :=
  '<' :: (name ++ attrs.flatMap fun a => ' ' :: a.text)

def closeText (name : List Char) : List Char := '<' :: '/' :: (name ++ ['>'])

mutual

/-- The lines of an element at a level of nesting, with `pad` giving the indents. -/
def Element.lines (pad : Nat → List Char) (level : Nat) : Element → List (List Char)
  | .void name attrs => [pad level ++ openText name attrs ++ [' ', '/', '>']]
  | .text name attrs inner => [pad level ++ openText name attrs ++ '>' :: (inner ++ closeText name)]
  | .nest name attrs children =>
    (pad level ++ openText name attrs ++ ['>'])
      :: (Element.linesAll pad (level + 1) children ++ [pad level ++ closeText name])

def Element.linesAll (pad : Nat → List Char) (level : Nat) : List Element → List (List Char)
  | [] => []
  | e :: es => e.lines pad level ++ Element.linesAll pad level es

end

end Markup

namespace Source

/-! ## Nodes as elements -/

/-- The text that is written between the tags of a widget, with its property. -/
def innerText? (w : Widget) : Option (String × String) :=
  (textProp? (Catalog.find? w.component)).bind fun prop =>
    match w.props.get? prop with
    | some (.str s) => if s.isEmpty then none else some (prop, s)
    | _ => none

/-- The properties that are never attributes: a class is always the id of a node, and
styles stand in the style block. -/
def reservedProps : List String := ["class", "style"]

def isDefault (c : Option Component) (name : String) (v : Json) : Bool :=
  ((c.bind (·.prop? name)).bind (·.defaultValue)) == some v

/-- The attribute of a property, unless it is reserved, written as text, or default. -/
def propAttr? (c : Option Component) (textProp : Option String) (name : String) (v : Json) :
    Option Attr :=
  if reservedProps.contains name || some name == textProp || isDefault c name v then none
  else (attrValue? name v).map fun value => ⟨name.toList, value⟩

/-- The properties in the order in which they are written: declared ones as they are
declared, the others by name. -/
def orderedProps (c : Option Component) (props : Dict Json) : List (String × Json) :=
  let declared : List String := c.elim [] fun c => c.props.map (·.name)
  declared.filterMap (fun name => (props.get? name).map (name, ·))
    ++ props.entries.filter fun e => !declared.contains e.1

/-- The attributes of a node: properties, class, and handlers that are not blank. -/
def attrsOf (pad : Nat → List Char) (level : Nat) (id : String) (w : Widget)
    (textProp : Option String) : List Attr :=
  let c := Catalog.find? w.component
  (orderedProps c w.props).filterMap (fun e => propAttr? c textProp e.1 e.2)
    ++ ⟨"class".toList, .quoted id.toList⟩
    :: (w.events.entries.filter fun e => !isBlankString e.2).map fun e =>
        ⟨e.1.toList, .braced (wrap pad level e.2)⟩

/-- The nodes of the forest are written between the tags of their holder. -/
def rendersChildren (w : Widget) (children : Forest) : Bool :=
  acceptsChildren (Catalog.find? w.component) && !children.isEmpty

def elementsOf (pad : Nat → List Char) (level : Nat) : Forest → List Element
  | [] => []
  | ⟨id, _, w, children⟩ :: rest =>
    (if rendersChildren w children then
      .nest w.component.toList (attrsOf pad level id w none) (elementsOf pad (level + 1) children)
    else match innerText? w with
      | some (prop, s) =>
        .text w.component.toList (attrsOf pad level id w (some prop)) (escapeText s.toList)
      | none => .void w.component.toList (attrsOf pad level id w none))
    :: elementsOf pad level rest

/-! ## Documents -/

structure StateDeclaration where
  name : String
  initialValue : String
  deriving DecidableEq, Inhabited

structure Writer where
  options : WriterOptions := {}
  /-- The state variables that a forest needs; usually none are made up. -/
  states : Forest → List StateDeclaration := fun _ => []
  deriving Inhabited

def joinLines (lines : List (List Char)) : List Char := ['\n'].intercalate lines

def headerLine (kind : Kind) (name : String) : List Char :=
  match kind with
  | .page => "page ".toList ++ name.toList ++ " \x7b".toList
  | .component => "component ".toList ++ name.toList ++ "() \x7b".toList

namespace Writer

def pad (g : Writer) (level : Nat) : List Char := List.replicate (level * g.options.indentWidth) ' '

/-- The lines that declare state variables, with an empty one behind them. -/
def stateLines (g : Writer) (f : Forest) : List (List Char) :=
  match g.states f with
  | [] => []
  | states =>
    states.map (fun s =>
      g.pad 1 ++ "state ".toList ++ s.name.toList ++ " = ".toList ++ s.initialValue.toList) ++ [[]]

def ruleLines (g : Writer) (n : Node) : List (List Char) :=
  (g.pad 2 ++ '.' :: (n.id.toList ++ " \x7b".toList))
    :: (n.widget.styles.entries.map fun e =>
      g.pad 3 ++ e.1.toList ++ ": ".toList ++ e.2.toList ++ [';'])
    ++ [g.pad 2 ++ ['\x7d']]

/-- The nodes that have a rule, in preorder. -/
def styled (f : Forest) : List Node := f.preorder.filter fun n => !n.widget.styles.isEmpty

/-- The lines of the style block, with an empty one behind it, if a node is styled. -/
def styleLines (g : Writer) (f : Forest) : List (List Char) :=
  match styled f with
  | [] => []
  | nodes =>
    (g.pad 1 ++ "style \x7b".toList) :: nodes.flatMap g.ruleLines ++ [g.pad 1 ++ ['\x7d'], []]

/-- The lines of the markup. Several roots are wrapped in one bare element. -/
def markupLines (g : Writer) (f : Forest) : List (List Char) :=
  match f with
  | [_] => Element.linesAll g.pad 1 (elementsOf g.pad 1 f)
  | _ => Element.lines g.pad 1 (.nest wrapperName.toList [] (elementsOf g.pad 2 f))

def write (g : Writer) (f : Forest) (name : String) (kind : Kind) : String :=
  String.ofList <|
    if f.isEmpty then joinLines [headerLine kind name, ['\x7d'], []]
    else joinLines (headerLine kind name ::
      (g.stateLines f ++ g.styleLines f ++ g.markupLines f ++ [['\x7d'], []]))

/-- The markup of one node at a level of nesting. -/
def writeNode (g : Writer) (level : Nat) (n : Node) : String :=
  String.ofList (joinLines (Element.linesAll g.pad level (elementsOf g.pad level [n])))

end Writer

end Source

end Tandem
