import Tandem.Proofs.Octet.Text
import Tandem.Source.Reader

/-!
# The reader as a program over octets

The same reader as a program that goes through the UTF-8 octets of a text by position,
counts open blocks in numbers, and takes ranges out of the text by their ends. Everything
that could go wrong on the way is an answer of its own (`Stop`): a range that is no text,
a count that would become negative, a loop that would not move on. An octet is only ever
looked at if it is there.

A scan that does not find what it looks for ends with `Stop.absent`, and `optional` turns
that into `none` where the program goes on without it.
-/

namespace Tandem.Octet

open Text Markup Source Style

/-- The answer of a scan that may be in vain. -/
def optional {α : Type} : Scan α → Scan (Option α)
  | .ok a => .ok (some a)
  | .error .absent => .ok none
  | .error e => .error e

/-- One less: what is left of a count of open blocks when one is closed, or the position in
front of the last octet. -/
def countDown : Nat → Scan Nat
  | 0 => .error .uncounted
  | d + 1 => .ok d

/-! ## Quotes, braces and tags -/

/-- The position behind the closing quote, a backslash protecting the octet behind it. -/
def skipQuoted (text : List Char) (quote : Char) (i : Nat) : Scan Nat :=
  if h : i < (encode text).length then
    if (encode text)[i] = '\\' then skipQuoted text quote (i + 2)
    else if (encode text)[i] = quote then .ok (i + 1)
    else skipQuoted text quote (i + 1)
  else .error .absent
termination_by (encode text).length - i

/-- The position behind the quoted text whose opening quote is at a position. -/
def skipString (text : List Char) (start : Nat) : Scan Nat :=
  match (encode text)[start]? with
  | some quote => skipQuoted text quote (start + 1)
  | none => .error .absent

/-- The position of the line break that ends a line. -/
def lineEnd (text : List Char) (i : Nat) : Nat :=
  if h : i < (encode text).length then
    if (encode text)[i] = '\n' then i else lineEnd text (i + 1)
  else i
termination_by (encode text).length - i

/-- The position of the first occurrence of a word. -/
def find? (word : List Char) : List Char → Option Nat
  | [] => if word.isEmpty then some 0 else none
  | c :: cs =>
    if word.isPrefixOf (c :: cs) then some 0 else (find? word cs).map (c.utf8Size + ·)

mutual

/-- The position of the brace that closes an expression, `depth` braces being open. -/
def matchBrace (text : List Char) (depth i : Nat) : Scan Nat :=
  if h : i < (encode text).length then
    if (encode text)[i] = '"' ∨ (encode text)[i] = '\'' then do
      let next ← skipString text i
      if i < next then matchBrace text depth next else .error .stuck
    else if (encode text)[i] = '\x60' then do
      let next ← skipTemplate text (i + 1)
      if i < next then matchBrace text depth next else .error .stuck
    else if (encode text)[i] = '/' ∧ (encode text)[i + 1]? = some '/' then
      if i < lineEnd text i then matchBrace text depth (lineEnd text i) else .error .stuck
    else if (encode text)[i] = '/' ∧ (encode text)[i + 1]? = some '*' then do
      let note ← slice text (i + 2) (encode text).length
      match find? ['*', '/'] note with
      | some p => matchBrace text depth (i + 2 + p + 2)
      | none => .error .absent
    else if (encode text)[i] = '\x7b' then matchBrace text (depth + 1) (i + 1)
    else if (encode text)[i] = '\x7d' then do
      let depth ← countDown depth
      if depth = 0 then .ok i else matchBrace text depth (i + 1)
    else matchBrace text depth (i + 1)
  else .error .absent
termination_by (encode text).length - i

/-- The position behind the template literal whose inside goes on at a position. -/
def skipTemplate (text : List Char) (i : Nat) : Scan Nat :=
  if h : i < (encode text).length then
    if (encode text)[i] = '\\' then skipTemplate text (i + 2)
    else if (encode text)[i] = '\x60' then .ok (i + 1)
    else if (encode text)[i] = '$' ∧ (encode text)[i + 1]? = some '\x7b' then do
      let close ← matchBrace text 0 (i + 1)
      if i < close + 1 then skipTemplate text (close + 1) else .error .stuck
    else skipTemplate text (i + 1)
  else .error .absent
termination_by (encode text).length - i

end

/-- The position of the brace that closes the one at a position. -/
def findBrace (text : List Char) (start : Nat) : Scan Nat :=
  if (encode text)[start]? = some '\x7b' then matchBrace text 0 start else .error .absent

/-- The position behind the tag whose inside goes on at a position. -/
def tagEnd (text : List Char) (i : Nat) : Scan Nat :=
  if h : i < (encode text).length then
    if (encode text)[i] = '"' ∨ (encode text)[i] = '\'' then do
      let next ← skipString text i
      if i < next then tagEnd text next else .error .stuck
    else if (encode text)[i] = '\x7b' then do
      let close ← findBrace text i
      if i < close + 1 then tagEnd text (close + 1) else .error .stuck
    else if (encode text)[i] = '>' then .ok (i + 1)
    else if (encode text)[i] = '<' then .error .absent
    else tagEnd text (i + 1)
  else .error .absent
termination_by (encode text).length - i

/-! ## Blocks -/

def isTagStart (text : List Char) (i : Nat) : Bool :=
  (encode text)[i]? == some '<' && (encode text)[i + 1]?.any Char.isAlpha

def isClosingTagStart (text : List Char) (i : Nat) : Bool :=
  (encode text)[i]? == some '<' && (encode text)[i + 1]? == some '/'
    && (encode text)[i + 2]?.any Char.isAlpha

/-- The position behind the tag that starts at a position, if one does and it is closed. -/
def tagEndAt (text : List Char) (i : Nat) : Scan (Option Nat) :=
  if isTagStart text i || isClosingTagStart text i then optional (tagEnd text (i + 1)) else .ok none

/-- The position of the brace that closes a block, `depth` blocks being open. -/
def blockEnd (text : List Char) (depth i : Nat) : Scan Nat :=
  if h : i < (encode text).length then do
    match ← tagEndAt text i with
    | some next => if i < next then blockEnd text depth next else .error .stuck
    | none =>
      if (encode text)[i] = '\x7b' then blockEnd text (depth + 1) (i + 1)
      else if (encode text)[i] = '\x7d' then do
        let depth ← countDown depth
        if depth = 0 then .ok i else blockEnd text depth (i + 1)
      else blockEnd text depth (i + 1)
  else .error .absent
termination_by (encode text).length - i

/-- The position of the brace that closes the block opened at a position. -/
def findBlockEnd (text : List Char) (start : Nat) : Scan Nat :=
  if (encode text)[start]? = some '\x7b' then blockEnd text 0 start else .error .absent

/-- The position does not lie in a tag, as far as tags start at `i` or behind it. -/
def outsideTags (text : List Char) (position i : Nat) : Scan Bool :=
  if i < position then do
    match ← tagEndAt text i with
    | some next =>
      if position < next then .ok false
      else if i < next then outsideTags text position next else .error .stuck
    | none => outsideTags text position (i + 1)
  else .ok true
termination_by position - i

/-! ## Tags -/

def skipSpacing (text : List Char) (i : Nat) : Nat :=
  if h : i < (encode text).length then
    if isSpacing (encode text)[i] then skipSpacing text (i + 1) else i
  else i
termination_by (encode text).length - i

theorem le_skipSpacing (text : List Char) (i : Nat) : i ≤ skipSpacing text i := by
  fun_induction skipSpacing text i with
  | case1 i h hspacing ih => exact Nat.le_of_succ_le ih
  | case2 => exact Nat.le_refl _
  | case3 => exact Nat.le_refl _

/-- Where a value without quotes ends. -/
def unquotedEnd (text : List Char) (i : Nat) : Nat :=
  if h : i < (encode text).length then
    if isSpacing (encode text)[i] || (encode text)[i] == '>'
        || ((encode text)[i] == '/' && (encode text)[i + 1]? == some '>') then i
    else unquotedEnd text (i + 1)
  else i
termination_by (encode text).length - i

/-- The value that stands at a position, and the position behind it. -/
def attrValue (text : List Char) (i : Nat) : Scan (AttrValue × Nat) :=
  match (encode text)[i]? with
  | none => .error .absent
  | some c =>
    if c = '"' ∨ c = '\'' then do
      let next ← skipString text i
      let close ← countDown next
      let value ← slice text (i + 1) close
      return (.quoted value, next)
    else if c = '\x7b' then do
      let close ← findBrace text i
      let value ← slice text (i + 1) close
      return (.braced (trim value), close + 1)
    else do
      let value ← slice text i (unquotedEnd text i)
      return (.quoted value, unquotedEnd text i)

/-- The attribute that stands at a position, and the position behind it. A character that
starts no attribute is stepped over. -/
def nextAttr (text : List Char) (i : Nat) : Scan (Option Attr × Nat) := do
  let rest ← slice text i (encode text).length
  match attrName? rest with
  | none => return (none, i + rest.head?.elim 1 Char.utf8Size)
  | some (name, _) =>
    let next := skipSpacing text (i + octetLength name)
    if (encode text)[next]? = some '=' then do
      let (value, next) ← attrValue text (skipSpacing text (next + 1))
      return (some ⟨name, value⟩, next)
    else return (some ⟨name, .bare⟩, next)

/-- The attributes up to the end of the tag, whether it closes itself, and the position
behind it. -/
def attrsFrom (text : List Char) (i : Nat) : Scan (List Attr × Bool × Nat) :=
  if h : skipSpacing text i < (encode text).length then
    if (encode text)[skipSpacing text i] = '>' then .ok ([], false, skipSpacing text i + 1)
    else if (encode text)[skipSpacing text i] = '/'
        ∧ (encode text)[skipSpacing text i + 1]? = some '>' then
      .ok ([], true, skipSpacing text i + 2)
    else if (encode text)[skipSpacing text i] = '<' then .error .absent
    else do
      let (attr, next) ← nextAttr text (skipSpacing text i)
      if skipSpacing text i < next then do
        let (attrs, selfClosing, stop) ← attrsFrom text next
        return (attr.toList ++ attrs, selfClosing, stop)
      else .error .stuck
  else .error .absent
termination_by (encode text).length - i
decreasing_by
  have := le_skipSpacing text i
  omega

/-- The opening tag that starts at a position, and the position behind it. -/
def openTag (text : List Char) (start : Nat) : Scan (Tag × Nat) := do
  let rest ← slice text start (encode text).length
  match tagName? rest with
  | none => .error .absent
  | some (name, _) => do
    let (attrs, selfClosing, stop) ← attrsFrom text (start + 1 + octetLength name)
    return (⟨name, attrs, selfClosing⟩, stop)

/-! ## Elements -/

/-- The position behind the closing tag of `name` that starts at a position, if one does. -/
def closingEnd (text name : List Char) (i : Nat) : Option Nat :=
  let front := '<' :: '/' :: name
  let next := skipSpacing text (i + octetLength front)
  if (encode front).isPrefixOf ((encode text).drop i) && (encode text)[next]? == some '>' then
    some (next + 1)
  else none

/-- The opening tag that starts at a position, if one does and it is closed. -/
def tagAt (text : List Char) (i : Nat) : Scan (Option (Tag × Nat)) :=
  if isTagStart text i then optional (openTag text i) else .ok none

/-- The positions around the closing tag that ends an element, `depth` elements of the same
name being open. -/
def findClosing (text name : List Char) (depth i : Nat) : Scan (Nat × Nat) :=
  if i < (encode text).length then
    match closingEnd text name i with
    | some next => do
      let depth ← countDown depth
      if depth = 0 then .ok (i, next)
      else if i < next then findClosing text name depth next else .error .stuck
    | none => do
      match ← tagAt text i with
      | some (t, next) =>
        if i < next then
          findClosing text name (if t.name = name ∧ ¬t.selfClosing then depth + 1 else depth) next
        else .error .stuck
      | none => findClosing text name depth (i + 1)
  else .error .absent
termination_by (encode text).length - i

/-- The element that starts at a position, and the position behind it. One whose closing
tag is missing takes all that is left. -/
def element (text : List Char) (start : Nat) : Scan (Fragment × Option Nat) := do
  let (t, next) ← openTag text start
  if t.selfClosing then return (⟨t.name, t.attrs, none⟩, some next)
  else
    match ← optional (findClosing text t.name 1 next) with
    | some (closing, stop) => do
      let inner ← slice text next closing
      return (⟨t.name, t.attrs, some (trim inner)⟩, some stop)
    | none => do
      let inner ← slice text next (encode text).length
      return (⟨t.name, t.attrs, some (trim inner)⟩, none)

def tagStartFrom (text : List Char) (i : Nat) : Option Nat :=
  if i < (encode text).length then if isTagStart text i then some i else tagStartFrom text (i + 1)
  else none
termination_by (encode text).length - i

/-- The elements from a position on; a tag that is not closed ends the list. -/
def elements (text : List Char) (i : Nat) : Scan (List Fragment) :=
  match tagStartFrom text i with
  | none => .ok []
  | some start => do
    match ← optional (element text start) with
    | none => return []
    | some (part, none) => return [part]
    | some (part, some next) =>
      if i < next ∧ next ≤ (encode text).length then do
        let parts ← elements text next
        return part :: parts
      else .error .stuck
termination_by (encode text).length - i

/-! ## Outlines -/

/-- The known references with their `&`. -/
def entities : List (List Char × Char) := references.map fun r => ('&' :: r.1, r.2)

/-- The character that a text from an ampersand on starts with, and its octets. -/
def entityAt (text : List Char) : Char × Nat :=
  match entities.find? fun e => e.1.isPrefixOf text with
  | some (word, c) => (c, octetLength word)
  | none => ('&', 1)

/-- Every known reference replaced by the character it stands for. -/
def decodeEntities (text : List Char) : Scan (List Char) :=
  match find? ['&'] text with
  | none => .ok text
  | some i => do
    let front ← slice text 0 i
    let rest ← slice text i (encode text).length
    let tail ← slice rest (entityAt rest).2 (encode rest).length
    if tail.length < text.length then do
      let decoded ← decodeEntities tail
      return front ++ (entityAt rest).1 :: decoded
    else .error .stuck
termination_by text.length

/-- Read one attribute into the properties. -/
def readAttr (props : Dict Json) (a : Attr) : Scan (Dict Json) :=
  match a.value with
  | .quoted cs => do
    let value ← decodeEntities cs
    return props.insert (String.ofList a.name) (.str (String.ofList value))
  | _ => .ok (setAttr props a)

/-- The widget of an element with the given properties, without inner text. -/
def widgetFrom (sheet : Sheet) (name : List Char) (props : Dict Json) : Widget :=
  let (inline, props) := takeInline props
  let plain := props.erase "class"
  { component := String.ofList name
    props := plain.filterKeys (fun k => !isEventName k)
    styles := sheet.cascade inline (classesOf props)
    events := (plain.filterKeys isEventName).filterMap handler? }

/-- The widget with inner text in its text property, if it has one that is unset. -/
def readInner (w : Widget) (inner : List Char) : Scan Widget :=
  if inner.isEmpty || inner.head? == some '\x7b' then .ok w
  else
    match textProp? (Catalog.find? w.component) with
    | none => .ok w
    | some prop =>
      if isUnset (w.props.get? prop) then do
        let value ← decodeEntities inner
        return { w with props := w.props.insert prop (.str (String.ofList value)) }
      else .ok w

/-- A measure of the markup inside an element. -/
def weight (f : Fragment) : Nat := f.inner.elim 0 fun inner => inner.length + 1

def outlineOf (sheet : Sheet) (f : Fragment) : Scan Outline := do
  let props ← f.attrs.foldlM readAttr .empty
  let w := widgetFrom sheet f.name props
  match f.inner with
  | none => return ⟨w, []⟩
  | some inner =>
    if (tagStartFrom inner 0).isSome then do
      let parts ← elements inner 0
      let children ← parts.mapM fun p =>
        if weight p < weight f then outlineOf sheet p else .error .stuck
      return ⟨w, children⟩
    else do
      let w ← readInner w inner
      return ⟨w, []⟩
termination_by weight f

/-- The roots of a page, taken out of the wrapper if they are in one. -/
def unwrapRoots (parts : List Fragment) : Scan (List Fragment) :=
  match parts with
  | [⟨name, [], some inner⟩] =>
    if name = wrapperName.toList then do
      let roots ← elements inner 0
      return if 2 ≤ roots.length ∧ roots.all fun r => r.attrs.any (·.name == "class".toList) then
        roots
      else parts
    else .ok parts
  | _ => .ok parts

/-! ## Documents -/

/-- What follows the brace that the text starts with. -/
def braceRest? : List Char → Option (List Char)
  | '\x7b' :: rest => some rest
  | _ => none

/-- What follows the header of a style block that stands here. -/
def styleHead? (cs : List Char) : Option (List Char) :=
  (dropKeyword "style" cs).bind fun cs =>
    let cs := cs.dropWhile isBlank
    let cs := match dropKeyword "scoped" cs with
      | some cs => cs.dropWhile isBlank
      | none => cs
    braceRest? cs

/-- The positions around all style headers that are not behind a word character. -/
def styleHeads (text : List Char) (afterWord : Bool) : List Char → List (Nat × Nat)
  | [] => []
  | c :: cs =>
    match if afterWord then none else styleHead? (c :: cs) with
    | some rest =>
      (offset text (c :: cs), offset text rest) :: styleHeads text (isWord c) cs
    | none => styleHeads text (isWord c) cs

def firstOutside (text : List Char) : List (Nat × Nat) → Scan (Option (Nat × Nat))
  | [] => .ok none
  | (start, stop) :: heads => do
    if ← outsideTags text start 0 then return some (start, stop) else firstOutside text heads

/-- Cut a body that starts at an octet position. -/
def bodyOf (base : Nat) (text : List Char) : Scan (Except Error Body) := do
  match ← firstOutside text (styleHeads text false text) with
  | none => return .ok ⟨trim text, []⟩
  | some (start, stop) =>
    let brace ← countDown stop
    match ← optional (findBlockEnd text brace) with
    | none => return .error (.unterminatedStyleBlock (base + start))
    | some close => do
      let style ← slice text (brace + 1) close
      let before ← slice text 0 start
      let after ← slice text (close + 1) (encode text).length
      return .ok ⟨trim (before ++ after), style⟩

/-- The document of a source text, or the cause of failure. -/
def document (source : String) : Scan (Except Error Document) := do
  let text := source.toList
  match header? text with
  | none => return .error .missingDeclaration
  | some header =>
    let brace ← countDown (offset text header.rest)
    match ← optional (findBlockEnd text brace) with
    | none => return .error (.unbalancedBraces brace)
    | some close => do
      let inside ← slice text (brace + 1) close
      match ← bodyOf (brace + 1) inside with
      | .error e => return .error e
      | .ok body => do
        let parts ← elements body.markup 0
        let roots ← unwrapRoots parts
        let outlines ← roots.mapM (outlineOf (Sheet.ofRules (rules body.style)))
        return .ok ⟨header.kind, header.name, outlines⟩

end Tandem.Octet
