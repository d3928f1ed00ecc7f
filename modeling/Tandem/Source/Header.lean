import Tandem.Text.Blank
import Tandem.Text.Split
import Tandem.Text.Word

/-!
# Headers

A source text declares a page, `page Name {`, or a component,
`component Name(…) {`. The keyword may stand anywhere but behind a word character;
a page is preferred over a component, and of several headers of a kind the first
counts. The name of a component is already known when only its parenthesis is.
-/

namespace Tandem.Source

open Text

inductive Kind where
  | page
  | component
  deriving DecidableEq, Inhabited

def Kind.keyword : Kind → String
  | page => "page"
  | component => "component"

/-- A header, and the text behind its opening brace. -/
structure Header where
  kind : Kind
  name : String
  /-- What follows the opening brace. -/
  rest : List Char
  deriving DecidableEq

/-- The first place that is not behind a word character and where `p` succeeds. -/
def searchWord {α : Type} (p : List Char → Option α) (afterWord : Bool) : List Char → Option α
  | [] => none
  | c :: cs =>
    match if afterWord then none else p (c :: cs) with
    | some a => some a
    | none => searchWord p (isWord c) cs

/-- The name behind a keyword, and what follows the name and blanks. -/
def named? (keyword : String) (cs : List Char) : Option (List Char × List Char) :=
  match dropKeyword keyword cs with
  | some (c :: cs) =>
    if isBlank c then
      let cs := cs.dropWhile isBlank
      let name := cs.takeWhile isWord
      if name.isEmpty then none else some (name, (cs.dropWhile isWord).dropWhile isBlank)
    else none
  | _ => none

/-- The name of a page whose header stands here, and what follows its brace. -/
def page? (cs : List Char) : Option (List Char × List Char) :=
  match named? Kind.page.keyword cs with
  | some (name, '\x7b' :: rest) => some (name, rest)
  | _ => none

/-- The name of a component that is declared here, and what follows its parenthesis. -/
def componentName? (cs : List Char) : Option (List Char × List Char) :=
  match named? Kind.component.keyword cs with
  | some (name, '(' :: rest) => some (name, rest)
  | _ => none

/-- The name of a component whose header stands here, and what follows its brace. -/
def component? (cs : List Char) : Option (List Char × List Char) :=
  match componentName? cs with
  | some (name, rest) =>
    match rest.dropWhile (· ≠ ')') with
    | _ :: rest =>
      match rest.dropWhile isBlank with
      | '\x7b' :: rest => some (name, rest)
      | _ => none
    | [] => none
  | none => none

def header? (cs : List Char) : Option Header :=
  -- a page anywhere in the text comes before a component at its front
  match searchWord page? false cs with
  | some (name, rest) => some ⟨.page, String.ofList name, rest⟩
  | none => (searchWord component? false cs).map fun p => ⟨.component, String.ofList p.1, p.2⟩

def kind? (source : String) : Option Kind := (header? source.toList).map (·.kind)

/-- The declared name, which a component has before its header is complete. -/
def name? (source : String) : Option String :=
  match searchWord page? false source.toList with
  | some (name, _) => some (String.ofList name)
  | none => (searchWord componentName? false source.toList).map fun p => String.ofList p.1

def isReadable (source : String) : Bool := (header? source.toList).isSome

end Tandem.Source
