import Tandem.Json.Record
import Tandem.Node.Basic

/-!
# Nodes as JSON

A node is exchanged as a record of its id, component name, the three
dictionaries, the children and the parent's id, written in that order. When read,
only the id and the component name must be given. As a value it is an object like
any other, with its fields in ascending order of name (`Forest.values`).
-/

namespace Tandem

open Json (Decoder Raw)

/-- The fields of a node, given its children as JSON. -/
def Node.fields (id : String) (parent : Option String) (widget : Widget) (children : List Json) :
    List (String × Json) :=
  [("id", .str id), ("componentName", .str widget.component),
    ("props", .ofDict (fun v => v) widget.props), ("styles", .ofDict .str widget.styles),
    ("events", .ofDict .str widget.events), ("children", .arr children),
    ("parentId", .ofOption .str parent)]

/-- The record of a node, given those of its children. -/
def Node.record (id : String) (parent : Option String) (widget : Widget) (children : List Json) :
    Json :=
  .obj (Node.fields id parent widget children)

def Forest.records : Forest → List Json
  | [] => []
  | ⟨id, parent, widget, children⟩ :: rest =>
    Node.record id parent widget (records children) :: records rest

def Forest.json (f : Forest) : Json := .arr f.records

def Node.json (n : Node) : Json := Node.record n.id n.parent n.widget (Forest.records n.children)

/-- The nodes as values, their fields in order of name. -/
def Forest.values : Forest → List Json
  | [] => []
  | ⟨id, parent, widget, children⟩ :: rest =>
    .object (Node.fields id parent widget (values children)) :: values rest

namespace Node

def fieldNames : List String :=
  ["id", "componentName", "props", "styles", "events", "children", "parentId"]

def decode : Decoder Node
  | 0, _ => none
  | depth + 1, r => do
    let fields ← Decoder.given? fieldNames r
    let id ← Decoder.required .string depth (fields.lookup "id")
    let component ← Decoder.required .string depth (fields.lookup "componentName")
    let props ← Decoder.withDefault (.dict .value) .empty depth (fields.lookup "props")
    let styles ← Decoder.withDefault (.dict .string) .empty depth (fields.lookup "styles")
    let events ← Decoder.withDefault (.dict .string) .empty depth (fields.lookup "events")
    let children ← match fields.lookup "children", depth with
      | none, _ => some []
      | some (.arr items), d + 1 => items.mapM (decode d)
      | _, _ => none
    let parent ← Decoder.withDefault (.optional .string) none depth (fields.lookup "parentId")
    return ⟨id, parent, { component, props, styles, events }, children⟩

end Node

def Forest.decode : Decoder Forest := .list Node.decode

end Tandem
