/-!
# Errors

Why a source text cannot be read, or options cannot be used. Positions are
counted in UTF-8 octets.
-/

namespace Tandem

/-- An option that has an unusable value. -/
inductive ConfigFault where
  /-- No history would be kept. -/
  | historyLimit
  /-- Nothing would be indented. -/
  | indentWidth
  deriving DecidableEq

def ConfigFault.message : ConfigFault → String
  | historyLimit => "historyLimit must be at least 1"
  | indentWidth => "codegen.indentWidth must be at least 1"

inductive Error where
  /-- The text declares no page or component. -/
  | missingDeclaration
  /-- The body that opens at `offset` is not closed. -/
  | unbalancedBraces (offset : Nat)
  /-- The style block that starts at `offset` is not closed. -/
  | unterminatedStyleBlock (offset : Nat)
  | invalidConfig (fault : ConfigFault)
  /-- A JSON text does not hold what it should. -/
  | serialization
  deriving DecidableEq

def Error.message : Error → String
  | missingDeclaration =>
    "No \x60page Name \x7b\x60 or \x60component Name(...) \x7b\x60 declaration found"
  | unbalancedBraces offset =>
    "Unbalanced braces: block opened at byte " ++ toString offset ++ " is never closed"
  | unterminatedStyleBlock offset =>
    "Style block opened at byte " ++ toString offset ++ " is never closed"
  | invalidConfig fault => "Invalid configuration: " ++ fault.message
  | serialization => "Serialization error"

end Tandem
