import Tandem.Text.Split

/-!
# Closing quotes, braces and tags

Where a quoted value, an expression in braces or a tag ends is decided by one
machine that reads a character at a time over a stack of what is open (`Frame`).
Inside braces it knows strings, template literals with their substitutions and
both kinds of comment; inside a tag, quoted values and expressions.

* `close` runs the machine and gives what follows the closing character.
* `closeQuote`, `closeBrace` and `closeTag` are its three uses.

As the machine never looks ahead, what it answers depends only on the text up to
the closing character.
-/

namespace Tandem.Markup

/-- Something that is open. The flags remember the character just read where the
next one decides. -/
inductive Frame where
  /-- An expression in braces; the flag says that the last character was a slash. -/
  | code (slash : Bool)
  | quoted (quote : Char)
  /-- A template literal; the flag says that the last character was a dollar sign. -/
  | template (dollar : Bool)
  /-- A character that a backslash protects. -/
  | escaped
  | lineNote
  /-- A comment in `/*` and `*/`; the flag says that the last character was a star. -/
  | blockNote (star : Bool)
  | tag
  deriving DecidableEq

/-- The stack after a character inside an expression over `below`. -/
def codeStep (slash : Bool) (below : List Frame) (c : Char) : List Frame :=
  if c = '"' ∨ c = '\'' then .quoted c :: .code false :: below
  else if c = '\x60' then .template false :: .code false :: below
  else if c = '\x7b' then .code false :: .code false :: below
  else if c = '\x7d' then below
  else if c = '/' then if slash then .lineNote :: .code false :: below else .code true :: below
  else if c = '*' ∧ slash then .blockNote false :: .code false :: below
  else .code false :: below

def templateStep (dollar : Bool) (below : List Frame) (c : Char) : List Frame :=
  if c = '\\' then .escaped :: .template false :: below
  else if c = '\x60' then below
  else if c = '\x7b' ∧ dollar then .code false :: .template false :: below
  else .template (c = '$') :: below

/-- The stack after a character inside a tag over `below`. A new tag cannot start there. -/
def tagStep (below : List Frame) (c : Char) : Option (List Frame) :=
  if c = '"' ∨ c = '\'' then some (.quoted c :: .tag :: below)
  else if c = '\x7b' then some (.code false :: .tag :: below)
  else if c = '>' then some below
  else if c = '<' then none
  else some (.tag :: below)

def step : List Frame → Char → Option (List Frame)
  | [], _ => none
  | .code slash :: below, c => some (codeStep slash below c)
  | .quoted q :: below, c =>
    some (if c = '\\' then .escaped :: .quoted q :: below
      else if c = q then below else .quoted q :: below)
  | .template dollar :: below, c => some (templateStep dollar below c)
  | .escaped :: below, _ => some below
  | .lineNote :: below, c => some (if c = '\n' then below else .lineNote :: below)
  | .blockNote star :: below, c =>
    some (if c = '/' ∧ star then below else .blockNote (c = '*') :: below)
  | .tag :: below, c => tagStep below c

/-- Read until nothing is open any more; what follows is the answer. -/
def close : List Frame → List Char → Option (List Char)
  | [], rest => some rest
  | _ :: _, [] => none
  | f :: below, c :: cs =>
    match step (f :: below) c with
    | none => none
    | some stack => close stack cs

/-- What follows a quoted value, the text starting behind its opening quote. -/
def closeQuote (quote : Char) (cs : List Char) : Option (List Char) := close [.quoted quote] cs

def closeBrace (cs : List Char) : Option (List Char) := close [.code false] cs

def closeTag (cs : List Char) : Option (List Char) := close [.tag] cs

theorem close_length_le {stack : List Frame} {cs rest : List Char}
    (h : close stack cs = some rest) : rest.length ≤ cs.length := by
  induction cs generalizing stack with
  | nil => cases stack with
    | nil => cases h; exact Nat.le_refl _
    | cons => cases h
  | cons c cs ih => cases stack with
    | nil => cases h; exact Nat.le_refl _
    | cons f below =>
      rw [close] at h
      split at h
      · cases h
      · exact Nat.le_succ_of_le (ih h)

theorem close_length_lt {f : Frame} {below : List Frame} {cs rest : List Char}
    (h : close (f :: below) cs = some rest) : rest.length < cs.length := by
  cases cs with
  | nil => cases h
  | cons c cs =>
    rw [close] at h
    split at h
    · cases h
    · exact Nat.lt_succ_of_le (close_length_le h)

end Tandem.Markup
