import Tandem.Json.Reader

/-!
# Reading records

A record is read from an object by field name or from an array by position. Every
field has one decoder; unknown fields are passed over unread, a known field that
comes twice is an error, and an array may not be longer than the record. `Decoder`
is the type of all readers of domain values: it takes the levels of nesting that
are left and the tree.
-/

namespace Tandem.Json

/-- Reads a domain value from a tree, within some levels of nesting. -/
abbrev Decoder (α : Type) := Nat → Raw → Option α

namespace Decoder

def string : Decoder String
  | _, .str s => s
  | _, _ => none

def bool : Decoder Bool
  | _, .bool b => some b
  | _, _ => none

/-- A count: a whole number that is not negative. -/
def count : Decoder Nat
  | _, .num (some (.int (.ofNat n))) => some n
  | _, _ => none

def value : Decoder Json := fun depth r => r.value? depth

/-- `null` for a missing value. -/
def optional {α : Type} (d : Decoder α) : Decoder (Option α)
  | _, .null => some none
  | depth, r => (d depth r).map some

def list {α : Type} (d : Decoder α) : Decoder (List α)
  | depth + 1, .arr items => items.mapM (d depth)
  | _, _ => none

/-- An object of values of one kind; of a repeated name the last counts. -/
def dict {α : Type} (d : Decoder α) : Decoder (Dict α)
  | depth + 1, .obj fields =>
    (fields.mapM fun (f : Option String × Raw) => do
      return (← f.1, ← d depth f.2)).map Dict.ofList
  | _, _ => none

/-- One of a few words: the string, or an object with the word as its only name
and `null` as its value. -/
def word {α : Type} (ofWord? : String → Option α) : Decoder α
  | _, .str s => s.bind ofWord?
  | _ + 1, .obj [(some k, .null)] => ofWord? k
  | _, _ => none

/-- The fields of a record that are given, by name. -/
def given? (names : List String) : Raw → Option (List (String × Raw))
  | .arr items => if items.length ≤ names.length then some (names.zip items) else none
  | .obj fields => do
    let named ← fields.mapM fun (f : Option String × Raw) => f.1.map (·, f.2)
    let known := named.filter fun f => names.contains f.1
    if (known.map (·.1)).Nodup then some known else none
  | _ => none

/-- A record with the given field names, put together by `build` from a look-up of
the fields that are given. -/
def record {α : Type} (names : List String) (build : Nat → (String → Option Raw) → Option α) :
    Decoder α
  | 0, _ => none
  | depth + 1, r => (given? names r).bind fun fields => build depth (fields.lookup ·)

def required {α : Type} (d : Decoder α) (depth : Nat) (r : Option Raw) : Option α :=
  r.bind (d depth)

def withDefault {α : Type} (d : Decoder α) (default : α) (depth : Nat) : Option Raw → Option α
  | none => some default
  | some r => d depth r

def ofText? {α : Type} (d : Decoder α) (cs : List Char) : Option α :=
  (Raw.ofText? cs).bind (d depthLimit)

/-- Read a value that is already at hand, however deep it nests. -/
def ofValue? {α : Type} (d : Decoder α) (v : Json) : Option α := d v.raw.depth v.raw

end Decoder

end Tandem.Json
