import Tandem.Json.Printer
import Tandem.Node.Json
import Tandem.Sha256

/-!
# Fingerprints

Two forests are compared by a digest of a canonical text. `Forest.text` is the
compact JSON of the whole forest. `Forest.structureText` leaves out the ids and
parent links of the nodes, so that forests whose ids were given out separately
can agree; they are taken out of the forest's value (`Json.withoutIds`).
-/

namespace Tandem

/-- The digest of a text: the SHA-256 of its UTF-8 octets. -/
def digest (text : String) : String := Sha256.hexDigest text.toUTF8.toList

mutual

/-- Without the fields for the id and the parent, in an object or in those of an array, and
in turn in what the field for the children holds. What the other fields hold is kept. -/
def Json.withoutIds : Json → Json
  | .arr items => .arr (withoutIdsItems items)
  | .obj fields => .obj (withoutIdsFields fields)
  | v => v

def Json.withoutIdsItems : List Json → List Json
  | [] => []
  | v :: vs => v.withoutIds :: withoutIdsItems vs

def Json.withoutIdsFields : List (String × Json) → List (String × Json)
  | [] => []
  | (name, v) :: fs =>
    if name = "id" ∨ name = "parentId" then withoutIdsFields fs
    else (name, if name = "children" then v.withoutIds else v) :: withoutIdsFields fs

end

namespace Forest

def text (f : Forest) : String := f.json.text

def structureText (f : Forest) : String := (Json.arr f.values).withoutIds.text

/-- Differs when anything differs, ids included. -/
def fingerprint (f : Forest) : String := digest f.text

/-- Differs when anything but ids and parent links differs. -/
def structuralFingerprint (f : Forest) : String := digest f.structureText

end Forest

end Tandem
