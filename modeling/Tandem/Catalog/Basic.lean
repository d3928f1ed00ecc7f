import Tandem.Json.Basic

/-!
# Component definitions

What the palette knows about a kind of component: its category, the properties it
declares with their types and defaults, its events, and whether it holds other
components. A component's inner text belongs to the first of `textProps` that its
definition declares.
-/

namespace Tandem

/-- The drawers of the palette, in palette order. -/
inductive Category where
  | layout | typography | button | form | feedback | navigation | dataDisplay
  | media | overlay | commerce | social | marketing | utility
  deriving DecidableEq, Inhabited

namespace Category

def all : List Category :=
  [layout, typography, button, form, feedback, navigation, dataDisplay, media, overlay, commerce,
    social, marketing, utility]

def label : Category → String
  | layout => "Layout"
  | typography => "Typography"
  | button => "Button"
  | form => "Form"
  | feedback => "Feedback"
  | navigation => "Navigation"
  | dataDisplay => "Data Display"
  | media => "Media"
  | overlay => "Overlay"
  | commerce => "E-commerce"
  | social => "Social"
  | marketing => "Marketing"
  | utility => "Utility"

def ofLabel? (s : String) : Option Category := all.find? (·.label = s)

end Category

/-- What values a property takes. -/
inductive PropType where
  | string | number | boolean | select | color | expression | array | object
  deriving DecidableEq, Inhabited

namespace PropType

def all : List PropType := [string, number, boolean, select, color, expression, array, object]

def label : PropType → String
  | string => "string"
  | number => "number"
  | boolean => "boolean"
  | select => "select"
  | color => "color"
  | expression => "expression"
  | array => "array"
  | object => "object"

def ofLabel? (s : String) : Option PropType := all.find? (·.label = s)

end PropType

structure PropSpec where
  name : String
  type : PropType
  required : Bool := false
  /-- The value it has when it is not set, which is not written out. -/
  defaultValue : Option Json := none
  description : String := ""
  /-- The values to choose from. -/
  options : Option (List String) := none
  placeholder : Option String := none
  deriving DecidableEq, Inhabited

structure EventSpec where
  name : String
  description : String
  /-- The parts of the event object that handlers use. -/
  objectProps : Option (List String) := none
  deriving DecidableEq, Inhabited

structure Component where
  /-- Its name, which is the tag it is written with. -/
  name : String
  category : Category
  description : String
  icon : String
  /-- Its properties, in the order in which they are written. -/
  props : List PropSpec
  events : List EventSpec
  acceptsChildren : Bool
  deriving DecidableEq, Inhabited

namespace Component

/-- The declaration of a property, the first if there are several. -/
def prop? (c : Component) (name : String) : Option PropSpec := c.props.find? (·.name = name)

def declares (c : Component) (name : String) : Bool := (c.prop? name).isSome

end Component

/-- The properties that can hold inner text, the most fitting first. -/
def textProps : List String := ["content", "text", "message", "title", "label"]

/-- The property that holds a component's inner text; undefined components have none. -/
def textProp? (c : Option Component) : Option String := c.bind fun c => textProps.find? c.declares

/-- The component holds others; undefined components, such as plain tags, do. -/
def acceptsChildren (c : Option Component) : Bool := c.all (·.acceptsChildren)

end Tandem
