import Tandem.Catalog.Basic
import Tandem.Json.Record

/-!
# Definitions as JSON

Component definitions are exchanged as records. Unset optional parts are left out
when written; when read they may be missing or `null`.
-/

namespace Tandem

open Json (Decoder)

/-- The fields of optional parts that are set. -/
def Json.setFields (fields : List (String × Option Json)) : List (String × Json) :=
  fields.filterMap fun f => f.2.map (f.1, ·)

def Json.ofStrings (xs : List String) : Json := .ofList .str xs

namespace PropSpec

def json (p : PropSpec) : Json :=
  .object ([("name", .str p.name), ("type", .str p.type.label), ("required", .bool p.required),
      ("description", .str p.description)] ++
    Json.setFields [("defaultValue", p.defaultValue), ("options", p.options.map .ofStrings),
      ("placeholder", p.placeholder.map .str)])

def decode : Decoder PropSpec :=
  .record ["name", "type", "required", "defaultValue", "description", "options", "placeholder"]
    fun depth field => do
      let name ← Decoder.required .string depth (field "name")
      let type ← Decoder.required (.word PropType.ofLabel?) depth (field "type")
      let required ← Decoder.required .bool depth (field "required")
      let defaultValue ← Decoder.withDefault (.optional .value) none depth (field "defaultValue")
      let description ← Decoder.withDefault .string "" depth (field "description")
      let options ← Decoder.withDefault (.optional (.list .string)) none depth (field "options")
      let placeholder ← Decoder.withDefault (.optional .string) none depth (field "placeholder")
      return { name, type, required, defaultValue, description, options, placeholder }

end PropSpec

namespace EventSpec

def json (e : EventSpec) : Json :=
  .object ([("name", .str e.name), ("description", .str e.description)] ++
    Json.setFields [("eventObjectProps", e.objectProps.map .ofStrings)])

def decode : Decoder EventSpec :=
  .record ["name", "description", "eventObjectProps"] fun depth field => do
    let name ← Decoder.required .string depth (field "name")
    let description ← Decoder.required .string depth (field "description")
    let objectProps ←
      Decoder.withDefault (.optional (.list .string)) none depth (field "eventObjectProps")
    return { name, description, objectProps }

end EventSpec

namespace Component

def json (c : Component) : Json :=
  .object [("name", .str c.name), ("category", .str c.category.label),
    ("description", .str c.description), ("icon", .str c.icon),
    ("props", .ofList PropSpec.json c.props), ("events", .ofList EventSpec.json c.events),
    ("acceptsChildren", .bool c.acceptsChildren)]

def decode : Decoder Component :=
  .record ["name", "category", "description", "icon", "props", "events", "acceptsChildren"]
    fun depth field => do
      let name ← Decoder.required .string depth (field "name")
      let category ← Decoder.required (.word Category.ofLabel?) depth (field "category")
      let description ← Decoder.required .string depth (field "description")
      let icon ← Decoder.required .string depth (field "icon")
      let props ← Decoder.required (.list PropSpec.decode) depth (field "props")
      let events ← Decoder.required (.list EventSpec.decode) depth (field "events")
      let acceptsChildren ← Decoder.required .bool depth (field "acceptsChildren")
      return { name, category, description, icon, props, events, acceptsChildren }

end Component

end Tandem
