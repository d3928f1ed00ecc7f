import Tandem.Proofs.Source.RoundTrip
import Tandem.Proofs.Source.Search

/-!
# The declared name and the name that is read

A document is read from its header, while its name is also looked for alone. Of a page both
searches look for the same header. The name of a component is known from its parenthesis on,
so the search for it may stop earlier, at a name whose header is not complete
(`searchWord_of_weaker`). Then the name that is found is not the one that is read
(`name?_of_read?`): it may be one that a comment in front of the header mentions.
-/

namespace Tandem.Source

open Text

section

variable {α β : Type} {p : List Char → Option α} {q : List Char → Option β} {r : α → β → Prop}

/-- A search for less ends where one for more does, or at an earlier place that is enough for
the one and not for the other. -/
theorem searchWord_of_weaker (hpq : ∀ cs b, q cs = some b → ∃ a, p cs = some a ∧ r a b)
    {afterWord : Bool} {cs : List Char} {b : β} (hq : searchWord q afterWord cs = some b) :
    ∃ a, searchWord p afterWord cs = some a ∧
      (r a b ∨ ∃ before place, cs = before ++ place ∧ endsWord afterWord before = false ∧
        p place = some a ∧ q place = none ∧ ∃ later, later <:+ place ∧ q later = some b) := by
  induction cs generalizing afterWord with
  | nil => cases hq
  | cons c cs ih =>
      -- Where neither search ends here, the place that is found later is one of the whole text.
      have step : searchWord q (isWord c) cs = some b → ∃ a, searchWord p (isWord c) cs = some a ∧
          (r a b ∨ ∃ before place, c :: cs = before ++ place ∧ endsWord afterWord before = false ∧
            p place = some a ∧ q place = none ∧ ∃ later, later <:+ place ∧ q later = some b) := by
        intro hrest
        obtain ⟨a, ha, hr | ⟨before, place, hsplit, hfree, hplace⟩⟩ := ih hrest
        · exact ⟨a, ha, .inl hr⟩
        · exact ⟨a, ha, .inr ⟨c :: before, place, congrArg (c :: ·) hsplit, hfree, hplace⟩⟩
      rw [searchWord] at hq ⊢
      cases afterWord with
      | true => exact step hq
      | false =>
          rw [if_neg Bool.false_ne_true] at hq ⊢
          cases hqhere : q (c :: cs) with
          | some b' =>
              rw [hqhere] at hq
              cases hq
              obtain ⟨a, ha, hr⟩ := hpq _ _ hqhere
              rw [ha]
              exact ⟨a, rfl, .inl hr⟩
          | none =>
              rw [hqhere] at hq
              cases hphere : p (c :: cs) with
              | none => exact step hq
              | some a =>
                  obtain ⟨later, hlater, hqlater⟩ := searchWord_eq_some hq
                  refine ⟨a, rfl, .inr ⟨[], c :: cs, rfl, rfl, hphere, hqhere, later, ?_, hqlater⟩⟩
                  exact hlater.trans (List.suffix_cons c cs)

end

/-- Where a component's header stands, its name and parenthesis do. -/
theorem componentName?_of_component? {cs : List Char} {p : List Char × List Char}
    (h : component? cs = some p) : ∃ q, componentName? cs = some q ∧ q.1 = p.1 := by
  rw [component?] at h
  split at h
  next name rest hname =>
    split at h
    next =>
      split at h
      next =>
        cases h
        exact ⟨_, hname, rfl⟩
      next => cases h
    next => cases h
  next => cases h

/-- The text mentions a component `name` in front of the header of the component `declared`:
its name and parenthesis stand there, but no header does. -/
def MentionsFirst (cs : List Char) (name declared : String) : Prop :=
  ∃ before place, cs = before ++ place ∧ endsWord false before = false ∧
    (∃ rest, componentName? place = some (name.toList, rest)) ∧ component? place = none ∧
      ∃ later rest, later <:+ place ∧ component? later = some (declared.toList, rest)

/-- The name that is found in a text with a header is that of the header, unless the text
mentions a component in front of it. -/
theorem name?_of_header? {source : String} {h : Header} (hheader : header? source.toList = some h) :
    name? source = some h.name ∨ h.kind = .component ∧
      ∃ name, MentionsFirst source.toList name h.name ∧ name? source = some name := by
  rw [header?] at hheader
  rw [name?]
  cases hpage : searchWord page? false source.toList with
  | some p =>
      rw [hpage] at hheader
      cases hheader
      exact .inl rfl
  | none =>
      rw [hpage] at hheader
      obtain ⟨p, hcomponent, rfl⟩ := Option.map_eq_some_iff.mp hheader
      obtain ⟨q, hname, hsame | ⟨before, place, hsplit, hfree, hplace, hnone, later, hlater, hp⟩⟩ :=
        searchWord_of_weaker (fun _ _ => componentName?_of_component?) hcomponent
      · left
        simp only [hname, Option.map_some, hsame]
      · refine .inr ⟨rfl, String.ofList q.1, ⟨before, place, hsplit, hfree, ⟨q.2, ?_⟩, hnone, later,
          p.2, hlater, ?_⟩, ?_⟩
        · rw [String.toList_ofList]
          exact hplace
        · rw [String.toList_ofList]
          exact hp
        · simp only [hname, Option.map_some]

/-- A text with an empty body is a document without contents. -/
theorem read?_blankBody {source : String} {header : Header} {rest : List Char}
    (hheader : header? source.toList = some header) (hrest : header.rest = '\n' :: '\x7d' :: rest) :
    Document.read? source = .ok ⟨header.kind, header.name, []⟩ := by
  have hsafe : SafeForest {} [] := by
    refine ⟨?_, ?_⟩
    · rw [Forest.ids, Forest.preorder_nil]
      exact List.nodup_nil
    · rw [SafeNodes]
      trivial
  obtain ⟨hwhole, hbody⟩ := hsafe.bodyOf
  rw [Forest.outlines] at hbody
  exact read?_of_body hheader hrest hwhole hbody

/-- **Both ways of reading a header agree on the kind**, and on the name unless the text
mentions another component in front of the component's header; then that one is found. -/
theorem name?_of_read? {source : String} {d : Document} (hread : Document.read? source = .ok d) :
    kind? source = some d.kind ∧
      (name? source = some d.name ∨ d.kind = .component ∧
        ∃ name, MentionsFirst source.toList name d.name ∧ name? source = some name) := by
  obtain ⟨rest, hheader⟩ := header?_of_read?_eq_ok hread
  exact ⟨kind?_of_read?_eq_ok hread, name?_of_header? hheader⟩

theorem name?_of_read?_of_card :
    let source := "component Card() \x7b\n\x7d\n"
    let d : Document := ⟨.component, "Card", []⟩
    Document.read? source = .ok d ∧ kind? source = some d.kind ∧
      (name? source = some d.name ∨ d.kind = .component ∧
        ∃ name, MentionsFirst source.toList name d.name ∧ name? source = some name) := by
  intro source d
  have hheader : header? source.toList = some ⟨.component, "Card", ['\n', '\x7d', '\n']⟩ := by
    decide +kernel
  have hread : Document.read? source = .ok d := read?_blankBody hheader rfl
  exact ⟨hread, name?_of_read? hread⟩

/-- A comment mentions a component that is gone, and its name is found. -/
theorem name?_of_comment :
    let source := "// component Old() is gone\ncomponent Card() \x7b\n\x7d\n"
    Document.read? source = .ok ⟨.component, "Card", []⟩ ∧ name? source = some "Old" := by
  intro source
  have hheader : header? source.toList = some ⟨.component, "Card", ['\n', '\x7d', '\n']⟩ := by
    decide +kernel
  exact ⟨read?_blankBody hheader rfl, by decide +kernel⟩

end Tandem.Source
