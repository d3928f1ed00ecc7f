/-!
# Finding, cutting and replacing

Plain searches over character lists: keywords at the front, parts between
separators, occurrences inside a text, and the length in UTF-8 octets by which
positions are reported.
-/

namespace Tandem.Text

/-- What is left of `cs` behind `word`, if it starts with it. -/
def dropKeyword (word : String) (cs : List Char) : Option (List Char) :=
  word.toList.isPrefixOf? cs

def occurs (word : List Char) : List Char → Bool
  | [] => word.isEmpty
  | c :: cs => word.isPrefixOf (c :: cs) || occurs word cs

/-- Cut at the first `sep`: the parts before and after it. -/
def cutAt (sep : Char) : List Char → Option (List Char × List Char)
  | [] => none
  | c :: cs =>
    if c = sep then some ([], cs) else (cutAt sep cs).map fun p => (c :: p.1, p.2)

/-- The parts between the separators; one more than there are separators. -/
def splitOn (sep : Char) : List Char → List (List Char)
  | [] => [[]]
  | c :: cs =>
    if c = sep then [] :: splitOn sep cs
    else match splitOn sep cs with
      | [] => [[c]]
      | part :: parts => (c :: part) :: parts

/-- The characters of `cs` that come before its tail `rest`. -/
def upTo (cs rest : List Char) : List Char := cs.take (cs.length - rest.length)

def octetLength (cs : List Char) : Nat := cs.foldl (fun n c => n + c.utf8Size) 0

/-- The UTF-8 octets of a text, each as the character of that code, so that the
scanners can be asked about any octet position. -/
def octets (s : String) : List Char := s.toUTF8.toList.map fun b => Char.ofNat b.toNat

/-- `cs` with every occurrence of `word` replaced, from the left, where `skip`
characters of a replaced occurrence are still to be passed over. -/
def replaceFrom (word new : List Char) (skip : Nat) : List Char → List Char
  | [] => []
  | c :: cs =>
    match skip with
    | n + 1 => replaceFrom word new n cs
    | 0 =>
      if word.isPrefixOf (c :: cs) then new ++ replaceFrom word new (word.length - 1) cs
      else c :: replaceFrom word new 0 cs

/-- Replace every occurrence of `word`. The empty word stands before every
character and at the end. -/
def replaceAll (s word new : String) : String :=
  if word.isEmpty then
    new ++ String.ofList (s.toList.flatMap fun c => c :: new.toList)
  else String.ofList (replaceFrom word.toList new.toList 0 s.toList)

theorem length_dropWhile_le (p : Char → Bool) (cs : List Char) :
    (cs.dropWhile p).length ≤ cs.length :=
  (List.dropWhile_suffix p).length_le

theorem isPrefixOf?_length {word cs rest : List Char} (h : word.isPrefixOf? cs = some rest) :
    rest.length ≤ cs.length := by
  induction word generalizing cs with
  | nil => exact Option.some.inj h ▸ Nat.le_refl _
  | cons w ws ih =>
    cases cs with
    | nil => cases h
    | cons c cs =>
      change (if w == c then ws.isPrefixOf? cs else none) = some rest at h
      split at h
      · exact Nat.le_succ_of_le (ih h)
      · cases h

theorem length_upTo_le (cs rest : List Char) : (upTo cs rest).length ≤ cs.length := by
  simp [upTo]

end Tandem.Text
