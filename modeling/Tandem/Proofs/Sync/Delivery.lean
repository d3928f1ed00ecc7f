import Tandem.Proofs.Source.Written
import Tandem.Proofs.Sync.Echo

/-!
# Texts that come back late

A text that the controller writes comes back to it when the host gets round to it, and other
commands may be carried out in between. The host and the controller form an `Exchange`: the
controller, and the texts that are on their way back.

The controller remembers one text only. So a text is known when it comes back if no other one
has been written since (`Exchange.Timely`), whatever else was carried out, and then the
delivery changes nothing (`Exchange.turns_keep_edits`). A text that has been overtaken is
taken for a new one, and it brings back a forest that has been edited since
(`Exchange.overtaken_text_reverts_edit`).
-/

namespace Tandem

/-- What happens next: the host carries out commands, or the oldest text that is on its way
comes back. -/
inductive Turn where
  | mutate (commands : List Command)
  | deliver

/-- The events of the commands alone, without the deliveries. -/
def Turn.edits : List Turn → List Event
  | [] => []
  | .mutate commands :: ts => .mutate commands :: edits ts
  | .deliver :: ts => edits ts

/-- A controller and the texts it has written that have not come back, oldest first. -/
structure Exchange where
  controller : Controller
  underway : List String := []

namespace Exchange

variable (digest : String → String)

def turn (x : Exchange) : Turn → Exchange
  | .mutate commands =>
    let r := x.controller.mutateAll digest commands
    ⟨r.2.2, x.underway ++ r.2.1.toList⟩
  | .deliver =>
    match x.underway with
    | [] => x
    | text :: rest => ⟨(x.controller.sourceChanged digest text).2, rest⟩

def turns (x : Exchange) (ts : List Turn) : Exchange := ts.foldl (turn digest) x

/-- Whenever a text comes back, it is still the one that was written last. -/
def Timely (x : Exchange) : List Turn → Prop
  | [] => True
  | t :: ts =>
    (t = .deliver → x.underway.head? = x.underway.getLast?) ∧ (x.turn digest t).Timely ts

/-- The controller is settled, and of the texts that are on their way it remembers the
newest. -/
structure InStep (x : Exchange) : Prop where
  settled : x.controller.Settled digest
  newest : ∀ text ∈ x.underway.getLast?, text = x.controller.lastSource

theorem turns_append (x : Exchange) (before after : List Turn) :
    x.turns digest (before ++ after) = (x.turns digest before).turns digest after :=
  List.foldl_append

theorem timely_append {x : Exchange} {before after : List Turn} :
    x.Timely digest (before ++ after) ↔
      x.Timely digest before ∧ (x.turns digest before).Timely digest after := by
  induction before generalizing x with
  | nil => simp [Timely, turns]
  | cons t ts ih =>
      rw [List.cons_append, Timely, Timely, ih, and_assoc]
      rfl

/-- After commands the newest text is the one that they made the controller write, or else
the newest one before, and the same holds of the text that is remembered. -/
theorem InStep.mutate {x : Exchange} (hx : x.InStep digest) (commands : List Command) :
    (x.turn digest (.mutate commands)).InStep digest := by
  refine ⟨(hx.settled.mutateAll digest commands).1, ?_⟩
  let r := x.controller.mutateAll digest commands
  have hlast : r.2.2.lastSource = r.2.1.getD x.controller.lastSource :=
    Controller.treeChanged_lastSource digest _
  show ∀ text ∈ (x.underway ++ r.2.1.toList).getLast?, text = r.2.2.lastSource
  rw [hlast]
  cases r.2.1 with
  | none => simpa using hx.newest
  | some written => simp

/-- A text that has not been overtaken is known when it comes back. -/
theorem InStep.deliver {x : Exchange} (hx : x.InStep digest)
    (hnewest : x.underway.head? = x.underway.getLast?) :
    (x.turn digest .deliver).controller = x.controller ∧
      (x.turn digest .deliver).InStep digest := by
  obtain ⟨c, underway⟩ := x
  cases underway with
  | nil => exact ⟨rfl, hx⟩
  | cons text rest =>
      have htext : text = c.lastSource := hx.newest text hnewest.symm
      have hturn : (Exchange.mk c (text :: rest)).turn digest .deliver = ⟨c, rest⟩ := by
        show Exchange.mk (c.sourceChanged digest text).2 rest = _
        rw [htext, c.sourceChanged_lastSource]
      rw [hturn]
      refine ⟨rfl, hx.settled, fun later hlater => hx.newest later ?_⟩
      rw [List.getLast?_cons, Option.mem_def.mp hlater]
      rfl

/-- Nothing less will do: a text that has been overtaken is remembered instead. -/
theorem InStep.deliver_eq_iff {x : Exchange} (hx : x.InStep digest) :
    (x.turn digest .deliver).controller = x.controller ↔
      x.underway.head? = x.underway.getLast? := by
  refine ⟨fun hkept => ?_, fun hnewest => (hx.deliver digest hnewest).1⟩
  obtain ⟨c, underway⟩ := x
  cases underway with
  | nil => rfl
  | cons text rest =>
      obtain ⟨_, hlast⟩ := hx.settled.sourceChanged digest text
      have hsame : (c.sourceChanged digest text).2 = c := hkept
      have htext : c.lastSource = text := by rw [← hlast, hsame]
      have hnewest := hx.newest _ (List.getLast?_eq_some_getLast (List.cons_ne_nil text rest))
      rw [List.getLast?_eq_some_getLast (List.cons_ne_nil text rest), hnewest, List.head?_cons]
      exact congrArg some htext.symm

theorem InStep.turns {x : Exchange} (hx : x.InStep digest) {ts : List Turn}
    (htimely : x.Timely digest ts) :
    (x.turns digest ts).InStep digest ∧
      (x.turns digest ts).controller = x.controller.steps digest (Turn.edits ts) := by
  induction ts generalizing x with
  | nil => exact ⟨hx, rfl⟩
  | cons t ts ih =>
      obtain ⟨hnewest, hrest⟩ := htimely
      cases t with
      | mutate commands => exact ih (hx.mutate digest commands) hrest
      | deliver =>
          obtain ⟨hkept, hquiet⟩ := hx.deliver digest (hnewest rfl)
          obtain ⟨hstep, hcontroller⟩ := ih hquiet hrest
          rw [hkept] at hcontroller
          exact ⟨hstep, hcontroller⟩

/-- Commands that change the forest, and the text that is written of it. -/
theorem turn_mutate_writes {x : Exchange} {commands : List Command} {f : Forest} {text : String}
    (hidle : x.controller.phase = .idle)
    (hforest : (x.controller.edited commands).store.forest = f)
    (hprint : digest f.text ≠ x.controller.lastPrint)
    (hwritten : (x.controller.edited commands).written = text)
    (htext : text ≠ x.controller.lastSource) :
    x.turn digest (.mutate commands) =
      ⟨{ x.controller.edited commands with lastPrint := digest f.text, lastSource := text },
        x.underway ++ [text]⟩ := by
  subst hforest hwritten
  let c := x.controller.edited commands
  have htree : c.treeChanged digest = _ := Controller.treeChanged_writes digest hidle hprint htext
  show Exchange.mk (c.treeChanged digest).2 (x.underway ++ (c.treeChanged digest).1.toList) = _
  rw [htree]
  rfl

/-! ## A row that is added to an empty page -/

def row : Node := ⟨"a", none, { component := "Row" }, []⟩

/-- The text that is written of the row. -/
def rowPage : String := "page MyPage \x7b\n  <Row class=\"a\" />\n\x7d\n"

/-- The text that is written of no nodes. -/
def emptyPage : String := "page MyPage \x7b\n\x7d\n"

theorem readRoots_rowPage : Source.readRoots rowPage = [⟨row.widget, []⟩] := by
  have hheader : Source.header? rowPage.toList =
      some ⟨.page, "MyPage", "\n  <Row class=\"a\" />\n\x7d\n".toList⟩ := by decide +kernel
  have hinside : Markup.blockInside? "\n  <Row class=\"a\" />\n\x7d\n".toList =
      some "\n  <Row class=\"a\" />\n".toList := by decide +kernel
  have htag : Markup.tag? (Text.trim "\n  <Row class=\"a\" />\n".toList) =
      some (⟨"Row".toList, [⟨"class".toList, .quoted "a".toList⟩], true⟩, []) := by decide +kernel
  have hread := Source.read?_void hheader hinside (by decide +kernel) htag
    (w := row.widget) (by decide +kernel)
  rw [Source.readRoots, hread]

/-- The exchange before anything has happened. -/
def empty : Exchange where
  controller := .start id {} {} none

/-- The exchange behind the addition of the row. -/
def added : Exchange where
  controller := { empty.controller.edited [.add row none 0] with
    lastPrint := Forest.text [row]
    lastSource := rowPage }
  underway := [rowPage]

theorem turn_add : empty.turn id (.mutate [.add row none 0]) = added := by
  let c := empty.controller.edited [.add row none 0]
  have hwritten : c.written = rowPage := by
    have hname : c.documentName = "MyPage" := by decide +kernel
    have hkind : c.documentKind = .page := by decide +kernel
    have hattrs : Source.attrsOf ({} : Source.Writer).pad 1 "a" row.widget none =
        [⟨"class".toList, .quoted "a".toList⟩] := by decide +kernel
    have hinner : Source.innerText? row.widget = none := by decide +kernel
    rw [Controller.written, hname, hkind]
    show ({} : Source.Writer).write [⟨"a", none, row.widget, []⟩] "MyPage" .page = rowPage
    rw [Source.write_eq, Source.bodyOf_void _ hinner rfl, hattrs]
    decide +kernel
  exact turn_mutate_writes id rfl rfl (Forest.text_ne_text_nil (by simp)) hwritten (by decide)

/-! ## Runs -/

/-- **No edit is lost to a text that comes back.** From any state that a run leads to, let
commands be carried out and the texts that they make the controller write come back one after
the other, in any order of turns, as long as none comes back after another one has been
written. Then every delivery leaves the controller as it was, and the turns lead to what the
commands alone lead to. One more delivery would leave the controller as it is only if it is
timely, too. -/
theorem turns_keep_edits (digest : String → String) (options : SyncOptions)
    (writer : Source.Writer) (fileName : Option String) (events : List Event) (ts : List Turn) :
    let c := (Controller.start digest options writer fileName).steps digest events
    let x : Exchange := { controller := c }
    x.Timely digest ts →
      (∀ before after, ts = before ++ .deliver :: after →
        (x.turns digest (before ++ [.deliver])).controller =
          (x.turns digest before).controller) ∧
      (x.turns digest ts).controller = c.steps digest (Turn.edits ts) ∧
      ((x.turns digest (ts ++ [.deliver])).controller = (x.turns digest ts).controller ↔
        (x.turns digest ts).underway.head? = (x.turns digest ts).underway.getLast?) := by
  intro c x htimely
  have hx : x.InStep digest :=
    ⟨(Controller.settled_start digest options writer fileName).steps digest events, by simp [x]⟩
  obtain ⟨hend, hedits⟩ := hx.turns digest htimely
  refine ⟨?_, hedits, ?_⟩
  · rintro before after rfl
    obtain ⟨hbefore, hnewest, _⟩ := (timely_append digest).mp htimely
    obtain ⟨hstep, _⟩ := hx.turns digest hbefore
    rw [turns_append]
    exact (hstep.deliver digest (hnewest rfl)).1
  · rw [turns_append]
    exact hend.deliver_eq_iff digest

/-- The row is pointed at before its text comes back, which makes no new text. -/
theorem turns_keep_edits_of_row :
    let before : List Turn := [.mutate [.add row none 0], .mutate [.hover (some "a")]]
    (empty.turns id before).underway = [rowPage] ∧ empty.Timely id (before ++ [.deliver]) ∧
      (empty.turns id (before ++ [.deliver])).controller =
        (empty.turns id before).controller ∧
      (empty.turns id before).controller.store.forest = [row] := by
  intro before
  let pointed := added.controller.edited [.hover (some "a")]
  have hpointed : pointed.Settled id := ⟨rfl, rfl⟩
  have hturns : empty.turns id before = ⟨pointed, [rowPage]⟩ := by
    show (empty.turn id (.mutate [.add row none 0])).turn id (.mutate [.hover (some "a")]) = _
    rw [turn_add]
    show Exchange.mk (pointed.treeChanged id).2 ([rowPage] ++ (pointed.treeChanged id).1.toList) = _
    rw [hpointed.treeChanged]
    rfl
  have htimely : empty.Timely id (before ++ [.deliver]) := by
    refine (timely_append id).mpr ⟨⟨nofun, nofun, trivial⟩, ?_⟩
    rw [hturns]
    exact ⟨fun _ => rfl, trivial⟩
  have hkept := (turns_keep_edits id {} {} none [] _ htimely).1 before [] rfl
  refine ⟨?_, htimely, hkept, ?_⟩
  · rw [hturns]
  · rw [hturns]
    rfl

/-- The row is added and the addition undone before the first text comes back: the row is
there again. -/
theorem overtaken_text_reverts_edit :
    let before : List Turn := [.mutate [.add row none 0], .mutate [.undo]]
    (empty.turns id before).controller.store.forest = [] ∧
      (empty.turns id (before ++ [.deliver])).controller.store.forest.outlines =
        [⟨row.widget, []⟩] := by
  intro before
  let c := added.controller.edited [.undo]
  let undone : Exchange :=
    ⟨{ c with lastPrint := Forest.text [], lastSource := emptyPage }, [rowPage, emptyPage]⟩
  have hundone : added.turn id (.mutate [.undo]) = undone := by
    have hwritten : c.written = emptyPage := by
      have hname : c.documentName = "MyPage" := by decide +kernel
      have hkind : c.documentKind = .page := by decide +kernel
      rw [Controller.written, hname, hkind]
      show ({} : Source.Writer).write [] "MyPage" .page = emptyPage
      rw [Source.write_eq]
      decide +kernel
    have hprint : id (Forest.text []) ≠ Forest.text [row] :=
      (Forest.text_ne_text_nil (by simp)).symm
    exact turn_mutate_writes id rfl rfl hprint hwritten (by decide)
  have hturns : empty.turns id before = undone := by
    show (empty.turn id (.mutate [.add row none 0])).turn id (.mutate [.undo]) = undone
    rw [turn_add, hundone]
  -- The first text is held against the second one.
  let f := undone.controller.readAgain rowPage
  have hread : f.outlines = [⟨row.widget, []⟩] :=
    (undone.controller.outlines_readAgain rowPage).trans readRoots_rowPage
  have hprint : id f.text ≠ Forest.text [] := by
    apply Forest.text_ne_text_nil
    intro hnil
    rw [hnil, Forest.outlines] at hread
    cases hread
  have hoverdue := undone.controller.sourceChanged_of_print_ne id rfl (by decide) hprint
  rw [turns_append, hturns]
  refine ⟨rfl, ?_⟩
  show (undone.controller.sourceChanged id rowPage).2.store.forest.outlines = _
  rw [hoverdue]
  exact hread

end Exchange

end Tandem
