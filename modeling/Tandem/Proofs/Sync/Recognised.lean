import Tandem.Proofs.Source.Declared
import Tandem.Proofs.Source.Exposed
import Tandem.Proofs.Sync.Echo

/-!
# What a written text says about itself

A text that the controller writes carries the name of the document and its kind, and both are
read from it afterwards. A name that was declared can be declared again; the name of a file
and the default name are taken as they are, and a name that is not a word makes a header that
nobody can read. The kind is read back as long as no text of the forest has a page's header.

* **names** — `documentName_eq`: the declared name, or the fallback of the settings;
* **one text** — `treeChanged_eq_some`: it is written with the name and kind before it;
* **runs** — `written_text_is_recognised`, for whatever events led to the text.
-/

namespace Tandem

open Source

/-- The name of a document that declares none: the stem of its file's name, or the default. -/
def SyncOptions.fallbackName (options : SyncOptions) (fileName : Option String) : String :=
  ((fileName.bind Text.fileStem?).filter fun n => !n.isEmpty).getD options.writer.defaultName

namespace Controller

variable (digest : String → String)

theorem documentName_eq (c : Controller) :
    c.documentName = (name? c.lastSource).getD (c.options.fallbackName c.fileName) := by
  rw [documentName]
  cases hname : name? c.lastSource with
  | none => rfl
  | some name =>
      obtain ⟨hne, _⟩ := Bool.and_eq_true_iff.mp (name?_isDocumentName hname)
      rw [Option.some_or, Option.filter_some, if_pos hne]
      rfl

/-- Only a fallback may be a name that no header can declare. -/
theorem isDocumentName_documentName (c : Controller) :
    isDocumentName c.documentName = true ↔
      (name? c.lastSource).isSome = true ∨
        isDocumentName (c.options.fallbackName c.fileName) = true := by
  rw [documentName_eq]
  cases hname : name? c.lastSource with
  | none => simp
  | some name => simpa using name?_isDocumentName hname

theorem documentKind_of_kind? {c : Controller} {kind : Kind} (h : kind? c.lastSource = some kind) :
    c.documentKind = kind := by
  rw [documentKind, isComponent, h]
  cases kind with
  | page => rfl
  | component => rfl

/-- A text that is written for a forest carries the name and the kind that the document had,
and is remembered. -/
theorem treeChanged_eq_some {c : Controller} {text : String}
    (h : (c.treeChanged digest).1 = some text) :
    text = c.written ∧ (c.treeChanged digest).2.lastSource = text := by
  have hlast := treeChanged_lastSource digest c
  rw [h] at hlast
  refine ⟨?_, hlast⟩
  simp only [treeChanged] at h
  repeat' split at h
  all_goals cases h
  rfl

/-- What was put into the text can be read from it: it is readable, and of the kind and the
name that the document had before. -/
structure Recognises (c c' : Controller) : Prop where
  readable : isReadable c'.lastSource = true
  kind : c'.documentKind = c.documentKind
  name : c'.documentName = c.documentName

/-- A text is recognised exactly if its header has the kind and the name. -/
theorem recognises_iff (c c' : Controller) :
    c.Recognises c' ↔ isDocumentName c.documentName = true ∧
      kind? c'.lastSource = some c.documentKind ∧ name? c'.lastSource = some c.documentName := by
  constructor
  · rintro ⟨hreadable, hkind, hname⟩
    obtain ⟨kind, hkind'⟩ := isReadable_iff.mp hreadable
    obtain ⟨h, hheader, _⟩ := Option.map_eq_some_iff.mp hkind'
    have hfound : ∃ name, name? c'.lastSource = some name := by
      rcases name?_of_header? hheader with hname' | ⟨_, name, _, hname'⟩
      · exact ⟨h.name, hname'⟩
      · exact ⟨name, hname'⟩
    obtain ⟨name, hname'⟩ := hfound
    rw [documentKind_of_kind? hkind'] at hkind
    rw [documentName_eq, hname', Option.getD_some] at hname
    rw [← hname, ← hkind]
    exact ⟨name?_isDocumentName hname', hkind', hname'⟩
  · rintro ⟨_, hkind, hname⟩
    refine ⟨isReadable_iff.mpr ⟨_, hkind⟩, documentKind_of_kind? hkind, ?_⟩
    rw [documentName_eq, hname]
    rfl

end Controller

/-- **A written text is recognised if its name is a word.** Let commands make the controller
write a text, after any run, with any settings and any file name; where there are no commands,
the host only asks for the text. It has the live forest, under the name and of the kind that
the document had. If the name is one that a header can declare then the text is readable; and
it is also known by that kind and name afterwards exactly if it is a page, or no exposed text
of the forest has a page's header. A name that was declared before can be declared; a fallback
need not be such a name. -/
theorem written_text_is_recognised (digest : String → String) (options : SyncOptions)
    (markup : WriterOptions) (fileName : Option String) (events : List Event)
    (commands : List Command) (text : String) :
    let start := Controller.start digest options { options := markup } fileName
    let c := start.steps digest events
    let r := c.mutateAll digest commands
    let f := r.2.2.store.forest
    r.2.1 = some text →
      text = ({ options := markup } : Writer).write f c.documentName c.documentKind ∧
      r.2.2.lastSource = text ∧
      (isDocumentName c.documentName = true → isReadable text = true) ∧
      (c.Recognises r.2.2 ↔ isDocumentName c.documentName = true ∧
        (c.documentKind = .page ∨ ∀ cs, Exposed f cs → ¬ DeclaresPage cs)) ∧
      (isDocumentName c.documentName = true ↔
        (name? c.lastSource).isSome = true ∨
          isDocumentName (options.fallbackName fileName) = true) := by
  intro start c r f hwritten
  have hsetUp : c.setUp = ({ options := markup }, options, fileName) :=
    Controller.setUp_steps digest start events
  have hlast : text = (c.edited commands).written ∧ r.2.2.lastSource = text :=
    Controller.treeChanged_eq_some digest hwritten
  obtain ⟨htext, hlast⟩ := hlast
  have hforest : f = (c.edited commands).store.forest :=
    congrArg (·.forest) (Controller.mutateAll_store digest c commands)
  have hwriter : c.writer = { options := markup } := congrArg (·.1) hsetUp
  have heq : text = ({ options := markup } : Writer).write f c.documentName
      c.documentKind := by
    rw [htext, hforest, ← hwriter]
    rfl
  have hname := c.isDocumentName_documentName
  rw [show c.options = options from congrArg (·.2.1) hsetUp,
    show c.fileName = fileName from congrArg (·.2.2) hsetUp] at hname
  refine ⟨heq, hlast, ?_, ?_, hname⟩
  · intro hword
    rw [heq, write_eq]
    exact isReadable_headerLine hword _ _
  · rw [Controller.recognises_iff, hlast, heq, write_eq]
    refine and_congr_right fun hword => ?_
    rw [header_headerLine_iff hword, not_declaresPage_bodyOf]

/-- A row is added to an empty page. -/
def addRow : List Command := [.add ⟨"a", none, { component := "Row" }, []⟩ none 0]

/-- The editor of a file to which a row has been added, before anything is written. -/
def withRow (fileName : String) : Controller :=
  (Controller.start id {} {} (some fileName)).edited addRow

/-- A text is written for the row. -/
theorem treeChanged_withRow (fileName : String) :
    ((withRow fileName).treeChanged id).1 = some (withRow fileName).written := by
  have hforest : (withRow fileName).store.forest = [⟨"a", none, { component := "Row" }, []⟩] := rfl
  apply Controller.treeChanged_of_ne id rfl
  · rw [hforest]
    exact Forest.text_ne_text_nil (List.cons_ne_nil _ _)
  · exact Controller.written_ne_empty rfl

theorem written_text_is_recognised_of_home :
    let c := Controller.start id {} {} (some "pages/home.flux")
    let r := c.mutateAll id addRow
    ∃ text, r.2.1 = some text ∧ isReadable text = true ∧ c.Recognises r.2.2 := by
  intro c r
  have hwritten : r.2.1 = some (withRow "pages/home.flux").written := treeChanged_withRow _
  obtain ⟨_, _, hreadable, hrecognised, hname⟩ :=
    written_text_is_recognised id {} {} (some "pages/home.flux") [] addRow _ hwritten
  have hfallback : isDocumentName (({} : SyncOptions).fallbackName (some "pages/home.flux")) =
      true := by decide +kernel
  have hword := hname.mpr (.inr hfallback)
  exact ⟨_, hwritten, hreadable hword, hrecognised.mpr ⟨hword, .inl rfl⟩⟩

/-- The stem of a file's name need not be a word, and then nobody can read what is written. -/
theorem written_text_of_dashed_file_is_unreadable :
    let c := Controller.start id {} {} (some "my-page.flux")
    let r := c.mutateAll id addRow
    SyncOptions.ofText? "\x7b\x7d" = .ok {} ∧
      ∃ text, r.2.1 = some text ∧ isReadable text = false := by
  intro c r
  refine ⟨?_, _, treeChanged_withRow "my-page.flux", ?_⟩
  · have hdecode : SyncOptions.decode.ofText? "\x7b\x7d".toList = some {} := by decide +kernel
    rw [SyncOptions.ofText?, hdecode]
    rfl
  · have hname : (withRow "my-page.flux").documentName = "my-page" := by decide +kernel
    have hkind : (withRow "my-page.flux").documentKind = .page := by decide +kernel
    have hattrs : attrsOf ({} : Writer).pad 1 "a" { component := "Row" } none =
        [⟨"class".toList, .quoted "a".toList⟩] := by decide +kernel
    have hinner : innerText? { component := "Row" } = none := by decide +kernel
    rw [Controller.written, hname, hkind]
    show isReadable (({} : Writer).write [⟨"a", none, { component := "Row" }, []⟩] "my-page"
      .page) = false
    rw [write_eq, bodyOf_void _ hinner rfl, hattrs]
    decide +kernel

end Tandem
