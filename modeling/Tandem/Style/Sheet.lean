import Tandem.Dict
import Tandem.Text.Blank
import Tandem.Text.Split

/-!
# Style rules

A style block is a list of class rules, `.name { property: value; … }`. The
reader takes what it recognises and passes over the rest. `Sheet.ofRules` brings
the rules of one class together, and `Sheet.cascade` gives the declarations that a
list of classes adds up to: later declarations, rules and classes win.
-/

namespace Tandem.Style

open Text

/-- A declaration: a property and its value. -/
abbrev Declaration := List Char × List Char

structure Rule where
  name : List Char
  declarations : List Declaration
  deriving DecidableEq

/-- A character of a class name. -/
def isClassChar (c : Char) : Bool := c.isAlphanum || c == '_' || c == '-'

def isPropertyChar (c : Char) : Bool := c.isAlpha || c == '-'

/-- The declaration that stands here, and what follows it. Its value runs up to a
semicolon and must have at least one character, which may be a blank. -/
def declaration? (cs : List Char) : Option (Declaration × List Char) :=
  let name := cs.takeWhile isPropertyChar
  if name.isEmpty then none
  else
    match (cs.dropWhile isPropertyChar).dropWhile isBlank with
    | ':' :: rest =>
      let value := rest.takeWhile (· ≠ ';')
      if value.isEmpty then none
      else some ((name, trim value), (rest.dropWhile (· ≠ ';')).tail)
    | _ => none

/-- The rule that stands here, and what follows it. -/
def ruleText? (cs : List Char) : Option (List Char × List Char × List Char) :=
  match cs with
  | '.' :: cs =>
    let name := cs.takeWhile isClassChar
    if name.isEmpty then none
    else
      match (cs.dropWhile isClassChar).dropWhile isBlank with
      | '\x7b' :: rest =>
        match rest.dropWhile (· ≠ '\x7d') with
        | [] => none
        | _ :: after => some (name, rest.takeWhile (· ≠ '\x7d'), after)
      | _ => none
  | _ => none

theorem declaration?_length {cs rest : List Char} {d : Declaration}
    (h : declaration? cs = some (d, rest)) : rest.length < cs.length := by
  simp only [declaration?] at h
  split at h
  · cases h
  · split at h
    · rename_i r hr
      split at h
      · cases h
      · have h1 := length_dropWhile_le isPropertyChar cs
        have h2 := length_dropWhile_le isBlank (cs.dropWhile isPropertyChar)
        have h3 := length_dropWhile_le (fun c => decide (c ≠ ';')) r
        rw [hr] at h2
        cases h
        simp only [List.length_cons, List.length_tail] at *
        omega
    · cases h

theorem ruleText?_length {cs name body rest : List Char}
    (h : ruleText? cs = some (name, body, rest)) : rest.length < cs.length := by
  unfold ruleText? at h
  split at h
  · rename_i cs'
    simp only at h
    split at h
    · cases h
    · split at h
      · rename_i r hr
        split at h
        · cases h
        · rename_i c after ha
          have h1 := length_dropWhile_le isClassChar cs'
          have h2 := length_dropWhile_le isBlank (cs'.dropWhile isClassChar)
          have h3 := length_dropWhile_le (fun c => decide (c ≠ '\x7d')) r
          rw [hr] at h2
          rw [ha] at h3
          cases h
          simp only [List.length_cons] at *
          omega
      · cases h
  · cases h

def declarations (cs : List Char) : List Declaration :=
  match cs with
  | [] => []
  | c :: rest =>
    match _h : declaration? (c :: rest) with
    | some (d, after) => d :: declarations after
    | none => declarations rest
termination_by cs.length
decreasing_by
  · exact declaration?_length _h
  · simp

def rules (cs : List Char) : List Rule :=
  match cs with
  | [] => []
  | c :: rest =>
    match _h : ruleText? (c :: rest) with
    | some (name, body, after) => ⟨name, declarations body⟩ :: rules after
    | none => rules rest
termination_by cs.length
decreasing_by
  · exact ruleText?_length _h
  · simp

/-- Declarations as a dictionary; of a repeated property the last counts. -/
def ofDeclarations (ds : List Declaration) : Dict String :=
  .ofList (ds.map fun d => (String.ofList d.1, String.ofList d.2))

/-- The declarations of every class. -/
abbrev Sheet := Dict (Dict String)

/-- Add a rule to those of its class. A rule without declarations leaves no trace. -/
def Sheet.addRule (s : Sheet) (r : Rule) : Sheet :=
  if r.declarations.isEmpty then s
  else
    let name := String.ofList r.name
    s.insert name (((s.get? name).getD .empty).merge (ofDeclarations r.declarations))

/-- The rules of a block, brought together by class. -/
def Sheet.ofRules (rs : List Rule) : Sheet := rs.foldl Sheet.addRule .empty

/-- The given declarations, overridden by those of the classes in turn. -/
def Sheet.cascade (s : Sheet) (inline : Dict String) (classes : List String) : Dict String :=
  classes.foldl (fun acc c => acc.merge ((s.get? c).getD .empty)) inline

/-- The declaration written in one part of a style attribute: a property and a
value around the first colon, both there. -/
def inlineDeclaration? (cs : List Char) : Option Declaration :=
  (cutAt ':' cs).bind fun p =>
    let name := trim p.1
    let value := trim p.2
    if name.isEmpty || value.isEmpty then none else some (name, value)

def inlineStyles (s : String) : Dict String :=
  ofDeclarations ((splitOn ';' s.toList).filterMap inlineDeclaration?)

end Tandem.Style
