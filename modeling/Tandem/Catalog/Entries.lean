import Tandem.Catalog.Basic

/-!
# The catalog

The component kinds of the palette, drawer by drawer. The order of the entries is
the order of the palette, and the order of a component's properties is the order
in which its attributes are written.
-/

namespace Tandem.Catalog

/-- A property without default. -/
def prop (name : String) (type : PropType) (description : String) : PropSpec :=
  { name, type, description }

/-- A property that takes one of a few words. -/
def choice (name description : String) (options : List String) (start : String) : PropSpec :=
  { name, type := .select, description, options := some options, defaultValue := some (.str start) }

def flag (name description : String) (start : Bool) : PropSpec :=
  { name, type := .boolean, description, defaultValue := some (.bool start) }

def count (name description : String) (start : Nat) : PropSpec :=
  { name, type := .number, description, defaultValue := some (.ofNat start) }

/-- An event, with the parts of its event object that handlers use. -/
def event (name description : String) (objectProps : List String) : EventSpec :=
  { name, description, objectProps := if objectProps.isEmpty then none else some objectProps }

def click : EventSpec := event "onClick" "Fires when the element is clicked" []

def layoutComponents : List Component := [
  { name := "Container", category := .layout, icon := "box"
    description := "Generic block container"
    acceptsChildren := true
    props := [
      { prop "maxWidth" .string "Maximum content width" with placeholder := some "1200px" }]
    events := [click] },
  { name := "Row", category := .layout, icon := "columns"
    description := "Horizontal flex layout"
    acceptsChildren := true
    props := [
      count "gap" "Space between children" 0,
      choice "align" "Cross-axis alignment" ["start", "center", "end", "stretch"] "stretch",
      flag "wrap" "Wrap children onto new lines" false]
    events := [] },
  { name := "Column", category := .layout, icon := "rows"
    description := "Vertical flex layout"
    acceptsChildren := true
    props := [
      count "gap" "Space between children" 0,
      choice "align" "Cross-axis alignment" ["start", "center", "end", "stretch"] "stretch"]
    events := [] },
  { name := "Grid", category := .layout, icon := "grid"
    description := "CSS grid layout"
    acceptsChildren := true
    props := [
      count "columns" "Number of columns" 2,
      count "gap" "Space between cells" 16]
    events := [] },
  { name := "Card", category := .layout, icon := "square"
    description := "Elevated surface for grouped content"
    acceptsChildren := true
    props := [
      prop "title" .string "Card heading",
      flag "elevated" "Draw a drop shadow" true]
    events := [click] },
  { name := "Section", category := .layout, icon := "layout"
    description := "Page section with vertical padding"
    acceptsChildren := true
    props := [
      prop "id" .string "Anchor id"]
    events := [] }]

def typographyComponents : List Component := [
  { name := "Text", category := .typography, icon := "type"
    description := "Inline or block text"
    acceptsChildren := false
    props := [
      { prop "content" .string "Displayed text" with placeholder := some "Enter text" },
      choice "variant" "Text style" ["body", "caption", "overline", "lead"] "body",
      prop "color" .color "Text color"]
    events := [click] },
  { name := "Heading", category := .typography, icon := "heading"
    description := "Section heading"
    acceptsChildren := false
    props := [
      { prop "content" .string "Heading text" with
        required := true, placeholder := some "Heading" },
      choice "level" "Heading level" ["1", "2", "3", "4", "5", "6"] "2"]
    events := [] },
  { name := "Link", category := .typography, icon := "link"
    description := "Hyperlink"
    acceptsChildren := false
    props := [
      prop "text" .string "Link text",
      { prop "href" .string "Target URL" with
        required := true, placeholder := some "https://" },
      flag "external" "Open in a new tab" false]
    events := [click] }]

def buttonComponents : List Component := [
  { name := "Button", category := .button, icon := "mouse-pointer-click"
    description := "Clickable button"
    acceptsChildren := false
    props := [
      { prop "content" .string "Button label" with placeholder := some "Click me" },
      choice "variant" "Visual style"
        ["primary", "secondary", "outline", "ghost", "danger"] "primary",
      choice "size" "Button size" ["small", "medium", "large"] "medium",
      flag "disabled" "Disable interaction" false]
    events := [click, event "onHover" "Fires when the pointer enters the button" []] },
  { name := "IconButton", category := .button, icon := "circle-dot"
    description := "Button showing only an icon"
    acceptsChildren := false
    props := [
      { prop "icon" .string "Icon name" with required := true },
      prop "label" .string "Accessible label"]
    events := [click] }]

def formComponents : List Component := [
  { name := "Form", category := .form, icon := "clipboard-list"
    description := "Form wrapper that handles submission"
    acceptsChildren := true
    props := [
      prop "action" .string "Submission endpoint"]
    events := [event "onSubmit" "Fires when the form is submitted" ["target"]] },
  { name := "Input", category := .form, icon := "text-cursor-input"
    description := "Single-line text field"
    acceptsChildren := false
    props := [
      prop "label" .string "Field label",
      prop "placeholder" .string "Placeholder text",
      prop "value" .expression "Bound value",
      choice "type" "Input type" ["text", "email", "password", "number", "search"] "text",
      flag "required" "Mark as required" false]
    events := [
      event "onChange" "Fires when the value changes" ["target.value"],
      event "onKeyDown" "Fires on key press" ["key"]] },
  { name := "Textarea", category := .form, icon := "align-left"
    description := "Multi-line text field"
    acceptsChildren := false
    props := [
      prop "placeholder" .string "Placeholder text",
      count "rows" "Visible rows" 3,
      prop "value" .expression "Bound value"]
    events := [event "onChange" "Fires when the value changes" ["target.value"]] },
  { name := "Checkbox", category := .form, icon := "check-square"
    description := "Boolean toggle with label"
    acceptsChildren := false
    props := [
      prop "label" .string "Checkbox label",
      flag "checked" "Checked state" false]
    events := [event "onChange" "Fires when toggled" ["target.checked"]] },
  { name := "Select", category := .form, icon := "chevron-down"
    description := "Dropdown selection"
    acceptsChildren := false
    props := [
      prop "options" .array "Available options",
      prop "value" .expression "Bound value",
      prop "placeholder" .string "Placeholder text"]
    events := [event "onChange" "Fires when the selection changes" ["target.value"]] }]

def feedbackComponents : List Component := [
  { name := "Alert", category := .feedback, icon := "alert-circle"
    description := "Inline status message"
    acceptsChildren := false
    props := [
      { prop "message" .string "Alert text" with required := true },
      choice "variant" "Severity" ["info", "success", "warning", "error"] "info",
      flag "dismissible" "Show a close button" false]
    events := [event "onDismiss" "Fires when the alert is closed" []] },
  { name := "Badge", category := .feedback, icon := "tag"
    description := "Small status label"
    acceptsChildren := false
    props := [
      prop "text" .string "Badge text",
      prop "color" .color "Badge color"]
    events := [] },
  { name := "Spinner", category := .feedback, icon := "loader"
    description := "Loading indicator"
    acceptsChildren := false
    props := [
      choice "size" "Spinner size" ["small", "medium", "large"] "medium"]
    events := [] },
  { name := "Progress", category := .feedback, icon := "bar-chart"
    description := "Progress bar"
    acceptsChildren := false
    props := [
      count "value" "Current value" 0,
      count "max" "Maximum value" 100]
    events := [] }]

def navigationComponents : List Component := [
  { name := "Navbar", category := .navigation, icon := "menu"
    description := "Top navigation bar"
    acceptsChildren := true
    props := [
      prop "brand" .string "Brand text",
      flag "sticky" "Stick to the top on scroll" false]
    events := [] },
  { name := "Tabs", category := .navigation, icon := "folder"
    description := "Tabbed navigation"
    acceptsChildren := true
    props := [
      prop "tabs" .array "Tab labels",
      prop "active" .expression "Active tab index"]
    events := [event "onChange" "Fires when the active tab changes" ["index"]] },
  { name := "Breadcrumb", category := .navigation, icon := "chevrons-right"
    description := "Path trail"
    acceptsChildren := false
    props := [
      prop "items" .array "Breadcrumb entries"]
    events := [] }]

def dataDisplayComponents : List Component := [
  { name := "List", category := .dataDisplay, icon := "list"
    description := "Rendered collection"
    acceptsChildren := true
    props := [
      prop "items" .array "Items to render",
      flag "ordered" "Numbered list" false]
    events := [] },
  { name := "Table", category := .dataDisplay, icon := "table"
    description := "Tabular data"
    acceptsChildren := false
    props := [
      prop "columns" .array "Column definitions",
      prop "data" .expression "Row data",
      flag "striped" "Alternate row shading" false]
    events := [event "onRowClick" "Fires when a row is clicked" ["row", "index"]] },
  { name := "Avatar", category := .dataDisplay, icon := "user"
    description := "User picture or initials"
    acceptsChildren := false
    props := [
      prop "src" .string "Image URL",
      prop "name" .string "Name used for initials",
      count "size" "Diameter in pixels" 40]
    events := [] }]

def mediaComponents : List Component := [
  { name := "Image", category := .media, icon := "image"
    description := "Responsive image"
    acceptsChildren := false
    props := [
      { prop "src" .string "Image URL" with required := true },
      prop "alt" .string "Alternative text",
      choice "fit" "Object fit" ["cover", "contain", "fill"] "cover"]
    events := [event "onLoad" "Fires when the image has loaded" []] },
  { name := "Video", category := .media, icon := "video"
    description := "Video player"
    acceptsChildren := false
    props := [
      { prop "src" .string "Video URL" with required := true },
      flag "autoplay" "Start playing automatically" false,
      flag "controls" "Show player controls" true]
    events := [event "onEnded" "Fires when playback ends" []] },
  { name := "Icon", category := .media, icon := "star"
    description := "Vector icon"
    acceptsChildren := false
    props := [
      { prop "name" .string "Icon name" with required := true },
      count "size" "Size in pixels" 16]
    events := [] }]

def overlayComponents : List Component := [
  { name := "Modal", category := .overlay, icon := "square-stack"
    description := "Dialog over the page"
    acceptsChildren := true
    props := [
      prop "title" .string "Dialog title",
      prop "open" .expression "Visibility binding"]
    events := [event "onClose" "Fires when the dialog is dismissed" []] },
  { name := "Tooltip", category := .overlay, icon := "message-square"
    description := "Hover hint around its child"
    acceptsChildren := true
    props := [
      prop "text" .string "Tooltip text",
      choice "placement" "Placement" ["top", "right", "bottom", "left"] "top"]
    events := [] }]

def commerceComponents : List Component := [
  { name := "ProductCard", category := .commerce, icon := "shopping-bag"
    description := "Product summary tile"
    acceptsChildren := false
    props := [
      prop "title" .string "Product name",
      prop "price" .number "Price",
      prop "image" .string "Product image URL"]
    events := [event "onAddToCart" "Fires when the add-to-cart button is pressed" []] },
  { name := "PriceTag", category := .commerce, icon := "dollar-sign"
    description := "Formatted price"
    acceptsChildren := false
    props := [
      { prop "amount" .number "Amount" with required := true },
      { prop "currency" .string "ISO currency code" with defaultValue := some (.str "USD") }]
    events := [] }]

def socialComponents : List Component := [
  { name := "ShareButton", category := .social, icon := "share"
    description := "Share to a social network"
    acceptsChildren := false
    props := [
      prop "label" .string "Button label",
      choice "network" "Target network" ["twitter", "facebook", "linkedin", "email"] "twitter"]
    events := [click] },
  { name := "Comment", category := .social, icon := "message-circle"
    description := "User comment"
    acceptsChildren := false
    props := [
      prop "text" .string "Comment body",
      prop "author" .string "Author name"]
    events := [] }]

def marketingComponents : List Component := [
  { name := "Hero", category := .marketing, icon := "sparkles"
    description := "Large introductory banner"
    acceptsChildren := true
    props := [
      prop "title" .string "Headline",
      prop "subtitle" .string "Supporting line"]
    events := [] },
  { name := "CallToAction", category := .marketing, icon := "megaphone"
    description := "Prominent action prompt"
    acceptsChildren := false
    props := [
      prop "label" .string "Action label",
      prop "href" .string "Target URL"]
    events := [click] }]

def utilityComponents : List Component := [
  { name := "Divider", category := .utility, icon := "minus"
    description := "Horizontal rule"
    acceptsChildren := false
    props := [
      count "spacing" "Margin above and below" 16]
    events := [] },
  { name := "Spacer", category := .utility, icon := "move-vertical"
    description := "Fixed empty space"
    acceptsChildren := false
    props := [
      count "size" "Height in pixels" 16]
    events := [] }]

/-- Every component, in palette order. -/
def all : List Component :=
  layoutComponents ++ typographyComponents ++ buttonComponents ++ formComponents ++
    feedbackComponents ++ navigationComponents ++ dataDisplayComponents ++ mediaComponents ++
    overlayComponents ++ commerceComponents ++ socialComponents ++ marketingComponents ++
    utilityComponents

def find? (name : String) : Option Component := all.find? (·.name = name)

def inCategory (c : Category) : List Component := all.filter (·.category = c)

end Tandem.Catalog
