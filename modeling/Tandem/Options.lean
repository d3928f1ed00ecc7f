import Tandem.Error
import Tandem.Json.Record
import Tandem.Text.Blank

/-!
# Options

Options come as JSON records in which every field has a default. Those of the
controller are checked after they are read: the history must keep something,
markup must be indented, and a blank default name gives way to the usual one.
-/

namespace Tandem

open Json (Decoder)

structure WriterOptions where
  /-- The spaces of a level of nesting. -/
  indentWidth : Nat := 2
  /-- The name of a document that nothing else names. -/
  defaultName : String := "MyPage"
  deriving DecidableEq, Inhabited

structure SyncOptions where
  /-- How many undo steps are kept. -/
  historyLimit : Nat := 50
  /-- Nodes keep their ids when the text is read again. -/
  preserveIds : Bool := true
  writer : WriterOptions := {}
  deriving DecidableEq, Inhabited

namespace WriterOptions

def decode : Decoder WriterOptions :=
  .record ["indentWidth", "defaultName"] fun depth field => do
    let standard : WriterOptions := {}
    let indentWidth ← Decoder.withDefault .count standard.indentWidth depth (field "indentWidth")
    let defaultName ← Decoder.withDefault .string standard.defaultName depth (field "defaultName")
    return { indentWidth, defaultName }

/-- The options of a JSON text, unchecked. -/
def ofText? (text : String) : Except Error WriterOptions :=
  (decode.ofText? text.toList).elim (.error .serialization) .ok

end WriterOptions

namespace SyncOptions

def decode : Decoder SyncOptions :=
  .record ["historyLimit", "preserveIdsOnReparse", "codegen"] fun depth field => do
    let standard : SyncOptions := {}
    let historyLimit ← Decoder.withDefault .count standard.historyLimit depth (field "historyLimit")
    let preserveIds ←
      Decoder.withDefault .bool standard.preserveIds depth (field "preserveIdsOnReparse")
    let writer ← Decoder.withDefault WriterOptions.decode standard.writer depth (field "codegen")
    return { historyLimit, preserveIds, writer }

/-- The option that has an unusable value, if there is one. -/
def fault? (o : SyncOptions) : Option ConfigFault :=
  if o.historyLimit = 0 then some .historyLimit
  else if o.writer.indentWidth = 0 then some .indentWidth
  else none

/-- The options with the usual name in place of a blank one. -/
def named (o : SyncOptions) : SyncOptions :=
  if Text.isBlankString o.writer.defaultName then
    { o with writer := { o.writer with defaultName := ({} : WriterOptions).defaultName } }
  else o

/-- The options of a JSON text, checked. -/
def ofText? (text : String) : Except Error SyncOptions :=
  match decode.ofText? text.toList with
  | none => .error .serialization
  | some o =>
    match o.fault? with
    | some fault => .error (.invalidConfig fault)
    | none => .ok o.named

end SyncOptions

end Tandem
