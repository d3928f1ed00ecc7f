import Tandem.Json.Token

/-!
# Reading JSON

Tokens are put together by a machine with a stack of the arrays and objects that
are still open (`Open`); one token moves it one step (`State.step`), so reading
needs no recursion on nesting. What it builds is a `Raw` tree, which keeps
repeated names and the holes of unreadable literals. `Raw.value?` turns a tree
into a value: holes are errors, a repeated name keeps its last value, and no more
than `depth` arrays and objects may stand inside one another.
-/

namespace Tandem.Json

/-- A JSON text's structure, with `none` for literals that have no value. -/
inductive Raw where
  | null
  | bool (b : Bool)
  | num (n : Option Number)
  | str (s : Option String)
  | arr (items : List Raw)
  /-- An object, its fields in the order of the text. -/
  | obj (fields : List (Option String × Raw))
  deriving Inhabited

/-- An array or object that is still open. -/
inductive Open where
  /-- An array, with the items before the one being read, last first. -/
  | array (items : List Raw)
  /-- An object, with the fields before the one being read, last first, and its name. -/
  | object (fields : List (Option String × Raw)) (name : Option String)

/-- What the reader waits for. -/
inductive State where
  | value (stack : List Open)
  /-- An array was opened: its first item or its end must follow. -/
  | arrayStart (stack : List Open)
  /-- An object was opened: its first name or its end must follow. -/
  | objectStart (stack : List Open)
  | name (fields : List (Option String × Raw)) (stack : List Open)
  | colon (fields : List (Option String × Raw)) (name : Option String) (stack : List Open)
  | after (v : Raw) (stack : List Open)

/-- A value's first token. -/
def State.begin (stack : List Open) : Token → Option State
  | .null => some (.after .null stack)
  | .bool b => some (.after (.bool b) stack)
  | .num n => some (.after (.num n) stack)
  | .str s => some (.after (.str s) stack)
  | .openArray => some (.arrayStart stack)
  | .openObject => some (.objectStart stack)
  | _ => none

def State.step : State → Token → Option State
  | .value stack, t => State.begin stack t
  | .arrayStart stack, .closeArray => some (.after (.arr []) stack)
  | .arrayStart stack, t => State.begin (.array [] :: stack) t
  | .objectStart stack, .closeObject => some (.after (.obj []) stack)
  | .objectStart stack, .str k => some (.colon [] k stack)
  | .name fields stack, .str k => some (.colon fields k stack)
  | .colon fields k stack, .colon => some (.value (.object fields k :: stack))
  | .after v (.array items :: stack), .comma => some (.value (.array (v :: items) :: stack))
  | .after v (.array items :: stack), .closeArray => some (.after (.arr (v :: items).reverse) stack)
  | .after v (.object fields k :: stack), .comma => some (.name ((k, v) :: fields) stack)
  | .after v (.object fields k :: stack), .closeObject =>
    some (.after (.obj ((k, v) :: fields).reverse) stack)
  | _, _ => none

def State.run (s : State) : List Token → Option State
  | [] => some s
  | t :: ts => (s.step t).bind (·.run ts)

/-- The one value that the tokens write. -/
def Raw.ofTokens? (ts : List Token) : Option Raw :=
  match State.run (.value []) ts with
  | some (.after v []) => some v
  | _ => none

def Raw.ofText? (cs : List Char) : Option Raw := (tokens? cs).bind Raw.ofTokens?

mutual

/-- The number of arrays and objects that stand inside one another. -/
def Raw.depth : Raw → Nat
  | .arr items => Raw.depthItems items + 1
  | .obj fields => Raw.depthFields fields + 1
  | _ => 0

def Raw.depthItems : List Raw → Nat
  | [] => 0
  | v :: vs => max v.depth (Raw.depthItems vs)

def Raw.depthFields : List (Option String × Raw) → Nat
  | [] => 0
  | (_, v) :: fs => max v.depth (Raw.depthFields fs)

end

mutual

/-- The value of a tree, with at most `depth` levels of nesting. -/
def Raw.value? (depth : Nat) : Raw → Option Json
  | .null => some .null
  | .bool b => some (.bool b)
  | .num n => n.map .num
  | .str s => s.map .str
  | .arr items =>
    match depth with
    | 0 => none
    | d + 1 => (Raw.items? d items).map .arr
  | .obj fields =>
    match depth with
    | 0 => none
    | d + 1 => (Raw.fields? d fields).map Json.object

def Raw.items? (depth : Nat) : List Raw → Option (List Json)
  | [] => some []
  | v :: vs => do return (← v.value? depth) :: (← Raw.items? depth vs)

def Raw.fields? (depth : Nat) : List (Option String × Raw) → Option (List (String × Json))
  | [] => some []
  | (k, v) :: fs => do return (← k, ← v.value? depth) :: (← Raw.fields? depth fs)

end

mutual

/-- A value as a tree without holes. -/
def raw : Json → Raw
  | .null => .null
  | .bool b => .bool b
  | .num n => .num (some n)
  | .str s => .str (some s)
  | .arr items => .arr (rawItems items)
  | .obj fields => .obj (rawFields fields)

def rawItems : List Json → List Raw
  | [] => []
  | v :: vs => v.raw :: rawItems vs

def rawFields : List (String × Json) → List (Option String × Raw)
  | [] => []
  | (k, v) :: fs => (some k, v.raw) :: rawFields fs

end

/-- How deep the arrays and objects of a text may nest. -/
def depthLimit : Nat := 127

/-- The value that a text writes. -/
def ofText? (cs : List Char) : Option Json := (Raw.ofText? cs).bind (Raw.value? depthLimit)

end Tandem.Json
