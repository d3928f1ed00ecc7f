import Tandem.Fingerprint
import Tandem.Proofs.Json.Unambiguous

/-!
# Fingerprints are taken of faithful texts

Two forests have the same text only if they are the same, and the same text without ids only if
they show the same (`Forest.texts_faithful`). A digest may confuse two texts, but no text confuses
two forests.

* **ids are taken out** — `withoutIds_values`: of the value of a forest is left what its outlines
  make, at every depth of the tree. A property keeps its value whatever it is called, and so do
  the fields inside of it.
* **nothing is lost in the records** — `Forest.records_injective`, `Outline.records_injective`;
* **nor in their text** — `Json.text_injective`, so `Forest.text_injective`.
-/

namespace Tandem

/-- What is left of the fields of a node, in order of name, without its id and its link. -/
def Outline.record (widget : Widget) (children : List Json) : Json :=
  .obj [("children", .arr children), ("componentName", .str widget.component),
    ("events", .ofDict .str widget.events), ("props", .ofDict (fun v => v) widget.props),
    ("styles", .ofDict .str widget.styles)]

def Outline.records : List Outline → List Json
  | [] => []
  | ⟨widget, children⟩ :: rest => record widget (records children) :: records rest

/-! ## Ids are taken out -/

theorem withoutIds_fields (id : String) (parent : Option String) (widget : Widget)
    (children : List Json) :
    (Json.object (Node.fields id parent widget children)).withoutIds =
      Outline.record widget (Json.withoutIdsItems children) := by
  have hordered : ofEntries (Node.fields id parent widget children) =
      [("children", .arr children), ("componentName", .str widget.component),
        ("events", .ofDict .str widget.events), ("id", .str id),
        ("parentId", .ofOption .str parent), ("props", .ofDict (fun v => v) widget.props),
        ("styles", .ofDict .str widget.styles)] := by
    simp +decide only [ofEntries, Node.fields, List.foldl_cons, List.foldl_nil, insertEntry,
      if_true, if_false]
  rw [Json.object, hordered, Json.withoutIds]
  simp [Json.withoutIdsFields, Json.withoutIds, Outline.record]

/-- Taking the ids out of the value of a forest leaves what its outlines make. -/
theorem withoutIds_values (f : Forest) :
    Json.withoutIdsItems f.values = Outline.records f.outlines := by
  induction f using Forest.induction with
  | nil => rw [Forest.values, Json.withoutIdsItems, Forest.outlines, Outline.records]
  | cons id parent widget children rest ihc ihr =>
      rw [Forest.values, Json.withoutIdsItems, withoutIds_fields, ihc, ihr, Forest.outlines,
        Outline.records]

/-! ## Records -/

namespace Json

theorem ofDict_injective {α : Type} {f : α → Json} (hf : ∀ a b, f a = f b → a = b) {d e : Dict α}
    (h : ofDict f d = ofDict f e) : d = e := by
  obtain ⟨entries, _⟩ := d
  obtain ⟨entries', _⟩ := e
  have hmapped : entries.map (fun e => (e.1, f e.2)) = entries'.map fun e => (e.1, f e.2) := by
    simpa [ofDict, Dict.map] using h
  have hentry : ∀ a b : String × α, (a.1, f a.2) = (b.1, f b.2) → a = b := by
    intro a b hab
    obtain ⟨hname, hvalue⟩ := Prod.mk.inj hab
    exact Prod.ext hname (hf _ _ hvalue)
  obtain rfl := (List.map_inj_right hentry).mp hmapped
  rfl

theorem ofOption_str_injective {a b : Option String} (h : ofOption .str a = ofOption .str b) :
    a = b := by
  cases a <;> cases b
  · rfl
  · cases h
  · cases h
  · cases h
    rfl

end Json

/-- A widget is known from the parts of its record. -/
theorem Widget.eq_of_records {w w' : Widget} (hcomponent : w.component = w'.component)
    (hprops : Json.ofDict (fun v => v) w.props = Json.ofDict (fun v => v) w'.props)
    (hstyles : Json.ofDict .str w.styles = Json.ofDict .str w'.styles)
    (hevents : Json.ofDict .str w.events = Json.ofDict .str w'.events) : w = w' := by
  have hstr : ∀ a b : String, Json.str a = Json.str b → a = b := by
    intro a b h
    cases h
    rfl
  obtain ⟨component, props, styles, events⟩ := w
  obtain ⟨component', props', styles', events'⟩ := w'
  obtain rfl : component = component' := hcomponent
  obtain rfl : props = props' := Json.ofDict_injective (fun _ _ h => h) hprops
  obtain rfl : styles = styles' := Json.ofDict_injective hstr hstyles
  obtain rfl : events = events' := Json.ofDict_injective hstr hevents
  rfl

theorem Forest.records_injective {f g : Forest} (h : f.records = g.records) : f = g := by
  induction f using Forest.induction generalizing g with
  | nil =>
      cases g with
      | nil => rfl
      | cons n rest =>
          obtain ⟨_, _, _, _⟩ := n
          rw [records, records] at h
          cases h
  | cons id parent widget children rest ihc ihr =>
      cases g with
      | nil =>
          rw [records, records] at h
          cases h
      | cons n rest' =>
          obtain ⟨id', parent', widget', children'⟩ := n
          simp only [records, Node.record, Node.fields, List.cons.injEq, Json.obj.injEq,
            Prod.mk.injEq, Json.str.injEq, Json.arr.injEq, true_and, and_true] at h
          obtain ⟨⟨rfl, hcomponent, hprops, hstyles, hevents, hchildren, hparent⟩, hrest⟩ := h
          obtain rfl := Widget.eq_of_records hcomponent hprops hstyles hevents
          obtain rfl := Json.ofOption_str_injective hparent
          rw [ihc hchildren, ihr hrest]

theorem Outline.records_injective {os os' : List Outline} (h : records os = records os') :
    os = os' := by
  induction os using Outline.induction generalizing os' with
  | nil =>
      cases os' with
      | nil => rfl
      | cons o rest =>
          obtain ⟨_, _⟩ := o
          rw [records, records] at h
          cases h
  | cons widget children rest ihc ihr =>
      cases os' with
      | nil =>
          rw [records, records] at h
          cases h
      | cons o rest' =>
          obtain ⟨widget', children'⟩ := o
          simp only [records, record, List.cons.injEq, Json.obj.injEq, Prod.mk.injEq,
            Json.str.injEq, Json.arr.injEq, true_and, and_true] at h
          obtain ⟨⟨hchildren, hcomponent, hevents, hprops, hstyles⟩, hrest⟩ := h
          obtain rfl := Widget.eq_of_records hcomponent hprops hstyles hevents
          rw [ihc hchildren, ihr hrest]

/-! ## Texts -/

/-- No two forests have one text. -/
theorem Forest.text_injective {f g : Forest} (h : f.text = g.text) : f = g := by
  have hjson : f.json = g.json := Json.text_injective h
  exact records_injective (Json.arr.inj hjson)

/-- **The texts behind the fingerprints are faithful.** Forests have the same text exactly if
they are the same, ids and links included. They have the same text without ids exactly if they
have the same shape and show the same at every node: the component, the properties, whatever
their names, the styles and the events. Numbers are the same if they are of one kind and of one
value, a float with its sign. -/
theorem Forest.texts_faithful (f g : Forest) :
    (f.text = g.text ↔ f = g) ∧ (f.structureText = g.structureText ↔ f.outlines = g.outlines) := by
  have hstructure : ∀ f : Forest,
      f.structureText = (Json.arr (Outline.records f.outlines)).text := by
    intro f
    rw [structureText, Json.withoutIds, withoutIds_values]
  constructor
  · exact ⟨text_injective, congrArg text⟩
  · rw [hstructure, hstructure]
    constructor
    · intro h
      exact Outline.records_injective (Json.arr.inj (Json.text_injective h))
    · intro h
      rw [h]

end Tandem
