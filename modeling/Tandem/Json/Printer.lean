import Tandem.Decimal.Shortest
import Tandem.Json.Basic

/-!
# Compact JSON text

The one way the library writes a value: no blanks, fields in the order they
stand in, and in strings only the characters that must be escaped. Floats take
the fewest digits that read back (`floatLayout`).
-/

namespace Tandem.Json

open Decimal

/-- Positional from `0.00001` up to sixteen places, `.0` after whole numbers, a
plus sign before exponents. -/
def floatLayout : Layout := ⟨-4, 16, ['.', '0'], ['+']⟩

def printFloat (x : Binary64) : List Char :=
  let body := if x.magnitude = 0 then ['0', '.', '0'] else floatLayout.write (shortest x.magnitude)
  if x.isNegative then '-' :: body else body

def printInt : Int → List Char
  | .ofNat n => digitsOf n
  | .negSucc n => '-' :: digitsOf (n + 1)

def printNumber : Number → List Char
  | .int n => printInt n
  | .float x => printFloat x

def hexDigit (n : Nat) : Char := Nat.digitChar n

/-- A character inside a string. Quotes, backslashes and control characters are
escaped, the common ones by a letter. -/
def printChar (c : Char) : List Char :=
  match c with
  | '"' => ['\\', '"']
  | '\\' => ['\\', '\\']
  | '\n' => ['\\', 'n']
  | '\r' => ['\\', 'r']
  | '\t' => ['\\', 't']
  | _ =>
    if c.toNat = 8 then ['\\', 'b']
    else if c.toNat = 12 then ['\\', 'f']
    else if c.toNat < 32 then
      ['\\', 'u', '0', '0', hexDigit (c.toNat / 16), hexDigit (c.toNat % 16)]
    else [c]

def printString (s : String) : List Char := '"' :: (s.toList.flatMap printChar ++ ['"'])

mutual

/-- The compact text of a value. -/
def print : Json → List Char
  | .null => "null".toList
  | .bool true => "true".toList
  | .bool false => "false".toList
  | .num n => printNumber n
  | .str s => printString s
  | .arr items => '[' :: (printItems items ++ [']'])
  | .obj fields => '\x7b' :: (printFields fields ++ ['\x7d'])

def printItems : List Json → List Char
  | [] => []
  | [v] => print v
  | v :: vs => print v ++ ',' :: printItems vs

def printFields : List (String × Json) → List Char
  | [] => []
  | [(k, v)] => printString k ++ ':' :: print v
  | (k, v) :: fs => printString k ++ ':' :: (print v ++ ',' :: printFields fs)

end

def text (v : Json) : String := String.ofList (print v)

end Tandem.Json
