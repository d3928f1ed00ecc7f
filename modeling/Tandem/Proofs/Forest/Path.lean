import Tandem.Forest.Carry
import Tandem.Proofs.Forest.Identity

/-!
# Ids are carried along paths

A node has a path: the index of the root above it, and behind it an index among the nodes of
each node on the way (`Forest.nodeAt?`). Two forests agree along a path if both have it and
the components are the same at every step (`Forest.Agree`). Carrying ids over follows the paths and
nothing else:

* **one level** — `getElem?_carry`: what becomes of a node depends on the old node at its index
  alone (`carried`);
* **down a path** — `nodeAt?_carry`: the id is the old one where the forests agree along the
  path, and the new one everywhere else;
* **once is enough** — `carry_carry`: carrying again from the same forest changes nothing.

With what is known of the ids and links of a carried forest this makes `carryIds_follows_paths`.
-/

namespace Tandem.Forest

/-- The node at a path, the index of its root and the indexes below that. -/
def nodeAt? : Forest → Nat → List Nat → Option Node
  | f, i, [] => f[i]?
  | f, i, j :: path => f[i]?.bind fun n => nodeAt? n.children j path

/-- Both forests have the path, and the components agree at every step of it. -/
def Agree (previous parsed : Forest) (i : Nat) (path : List Nat) : Prop :=
  ∀ q, q <+: path → ∃ old n, previous.nodeAt? i q = some old ∧ parsed.nodeAt? i q = some n ∧
    old.widget.component = n.widget.component

theorem nodeAt?_cons_eq_some {f : Forest} {i j : Nat} {path : List Nat} {n : Node} :
    f.nodeAt? i (j :: path) = some n ↔
      ∃ m, f[i]? = some m ∧ nodeAt? m.children j path = some n :=
  Option.bind_eq_some_iff

theorem agree_nil {previous parsed : Forest} {i : Nat} :
    Agree previous parsed i [] ↔ ∃ old n, previous[i]? = some old ∧ parsed[i]? = some n ∧
      old.widget.component = n.widget.component := by
  constructor
  · exact fun h => h [] (List.prefix_refl [])
  · intro h q hq
    obtain rfl := List.prefix_nil.mp hq
    exact h

theorem agree_cons {previous parsed : Forest} {i j : Nat} {path : List Nat} :
    Agree previous parsed i (j :: path) ↔ ∃ old n, previous[i]? = some old ∧
      parsed[i]? = some n ∧ old.widget.component = n.widget.component ∧
      Agree old.children n.children j path := by
  constructor
  · intro h
    obtain ⟨old, n, hold, hn, hsame⟩ := h [] (List.nil_prefix)
    refine ⟨old, n, hold, hn, hsame, fun q hq => ?_⟩
    obtain ⟨old', n', hold', hn', hsame'⟩ := h (j :: q) (List.cons_prefix_cons.mpr ⟨rfl, hq⟩)
    obtain ⟨m, hm, hold'⟩ := nodeAt?_cons_eq_some.mp hold'
    obtain ⟨m', hm', hn'⟩ := nodeAt?_cons_eq_some.mp hn'
    obtain rfl : old = m := Option.some.inj (hold.symm.trans hm)
    obtain rfl : n = m' := Option.some.inj (hn.symm.trans hm')
    exact ⟨old', n', hold', hn', hsame'⟩
  · rintro ⟨old, n, hold, hn, hsame, h⟩ q hq
    cases q with
    | nil => exact ⟨old, n, hold, hn, hsame⟩
    | cons k q =>
        obtain ⟨rfl, hbelow⟩ := List.cons_prefix_cons.mp hq
        obtain ⟨old', n', hold', hn', hsame'⟩ := h q hbelow
        exact ⟨old', n', nodeAt?_cons_eq_some.mpr ⟨old, hold, hold'⟩,
          nodeAt?_cons_eq_some.mpr ⟨n, hn, hn'⟩, hsame'⟩

/-- Where the roots agree it is decided below them. -/
theorem agree_cons_iff_of_same {previous parsed : Forest} {i j : Nat} {path : List Nat}
    {old n : Node} (hold : previous[i]? = some old) (hn : parsed[i]? = some n)
    (hsame : old.widget.component = n.widget.component) :
    Agree previous parsed i (j :: path) ↔ Agree old.children n.children j path := by
  rw [agree_cons]
  constructor
  · rintro ⟨old', n', hold', hn', _, hbelow⟩
    obtain rfl : old = old' := Option.some.inj (hold.symm.trans hold')
    obtain rfl : n = n' := Option.some.inj (hn.symm.trans hn')
    exact hbelow
  · exact fun hbelow => ⟨old, n, hold, hn, hsame, hbelow⟩

/-- Where they do not, nothing below them does. -/
theorem not_agree_of_differ {previous parsed : Forest} {i : Nat} {n : Node}
    (hn : parsed[i]? = some n)
    (hdiffer : ∀ old, previous[i]? = some old → old.widget.component ≠ n.widget.component)
    (path : List Nat) : ¬Agree previous parsed i path := by
  intro h
  obtain ⟨old, n', hold, hn', hsame⟩ := h [] List.nil_prefix
  obtain rfl : n = n' := Option.some.inj (hn.symm.trans hn')
  exact hdiffer old hold hsame

/-- Nothing agrees with the empty forest. -/
theorem not_agree_nil (parsed : Forest) (i : Nat) (path : List Nat) :
    ¬Agree [] parsed i path := by
  intro h
  obtain ⟨old, _, hold, _⟩ := h [] List.nil_prefix
  cases hold

/-! ## One level -/

/-- A node with the id of the old one in its place, if that is of the same component. -/
def carried (parent : Option String) (old : Option Node) (n : Node) : Node :=
  match old.filter (·.widget.component = n.widget.component) with
  | some old => ⟨old.id, parent, n.widget, carry (some old.id) old.children n.children⟩
  | none => ⟨n.id, parent, n.widget, carry (some n.id) [] n.children⟩

theorem carry_eq_cons (parent : Option String) (previous : Forest) (n : Node) (rest : Forest) :
    carry parent previous (n :: rest) =
      carried parent previous.head? n :: carry parent previous.tail rest := by
  obtain ⟨i, p, w, cs⟩ := n
  cases previous with
  | nil => rw [carry]; rfl
  | cons old olds =>
      rw [carry, carried]
      by_cases hw : old.widget.component = w.component
      · simp [Option.filter, hw]
      · simp [Option.filter, hw]

theorem getElem?_carry (parent : Option String) (previous parsed : Forest) (i : Nat) :
    (carry parent previous parsed)[i]? = parsed[i]?.map (carried parent previous[i]?) := by
  induction parsed generalizing previous i with
  | nil => rw [carry]; rfl
  | cons n rest ih =>
      rw [carry_eq_cons]
      cases i with
      | zero => cases previous <;> rfl
      | succ i =>
          rw [List.getElem?_cons_succ, List.getElem?_cons_succ, ih]
          cases previous <;> rfl

theorem carried_of_same {old n : Node} (parent : Option String)
    (hsame : old.widget.component = n.widget.component) :
    carried parent (some old) n =
      ⟨old.id, parent, n.widget, carry (some old.id) old.children n.children⟩ := by
  rw [carried, Option.filter_some, if_pos (decide_eq_true hsame)]

theorem carried_of_differ {old? : Option Node} {n : Node} (parent : Option String)
    (hdiffer : ∀ old, old? = some old → old.widget.component ≠ n.widget.component) :
    carried parent old? n = ⟨n.id, parent, n.widget, carry (some n.id) [] n.children⟩ := by
  have hnone : old?.filter (·.widget.component = n.widget.component) = none := by
    rw [Option.filter_eq_none_iff]
    exact fun old hold => by simpa using hdiffer old hold
  rw [carried, hnone]

/-- An old node of the same component stands in the place, or none does. -/
theorem same_or_differ (old? : Option Node) (n : Node) :
    (∃ old, old? = some old ∧ old.widget.component = n.widget.component) ∨
      ∀ old, old? = some old → old.widget.component ≠ n.widget.component := by
  by_cases h : ∃ old, old? = some old ∧ old.widget.component = n.widget.component
  · exact .inl h
  · exact .inr fun old hold hsame => h ⟨old, hold, hsame⟩

/-! ## Down a path -/

/-- The id at a path is the old one where the forests agree along it, else the new one. -/
theorem nodeAt?_carry {parsed : Forest} {i : Nat} {path : List Nat} {n : Node}
    (h : parsed.nodeAt? i path = some n) (parent : Option String) (previous : Forest) :
    ∃ m, (carry parent previous parsed).nodeAt? i path = some m ∧
      (Agree previous parsed i path → ∃ old, previous.nodeAt? i path = some old ∧ m.id = old.id) ∧
      (¬Agree previous parsed i path → m.id = n.id) := by
  induction path generalizing parsed i parent previous with
  | nil =>
      have hi : parsed[i]? = some n := h
      refine ⟨carried parent previous[i]? n, ?_, ?_⟩
      · rw [nodeAt?, getElem?_carry, hi, Option.map_some]
      · rcases same_or_differ previous[i]? n with ⟨old, hold, hsame⟩ | hdiffer
        · have hagree : Agree previous parsed i [] := agree_nil.mpr ⟨old, n, hold, hi, hsame⟩
          rw [hold, carried_of_same parent hsame]
          exact ⟨fun _ => ⟨old, hold, rfl⟩, fun hnot => absurd hagree hnot⟩
        · rw [carried_of_differ parent hdiffer]
          exact ⟨fun hagree => absurd hagree (not_agree_of_differ hi hdiffer []), fun _ => rfl⟩
  | cons j path ih =>
      obtain ⟨top, hi, hbelow⟩ := nodeAt?_cons_eq_some.mp h
      have htop : (carry parent previous parsed)[i]? = some (carried parent previous[i]? top) := by
        rw [getElem?_carry, hi, Option.map_some]
      rcases same_or_differ previous[i]? top with ⟨old, hold, hsame⟩ | hdiffer
      · obtain ⟨m, hm, holds, hnot⟩ := ih hbelow (some old.id) old.children
        rw [hold, carried_of_same parent hsame] at htop
        rw [agree_cons_iff_of_same hold hi hsame]
        refine ⟨m, nodeAt?_cons_eq_some.mpr ⟨_, htop, hm⟩, fun hagree => ?_, hnot⟩
        obtain ⟨older, holder, hid⟩ := holds hagree
        exact ⟨older, nodeAt?_cons_eq_some.mpr ⟨old, hold, holder⟩, hid⟩
      · obtain ⟨m, hm, _, hnot⟩ := ih hbelow (some top.id) []
        rw [carried_of_differ parent hdiffer] at htop
        exact ⟨m, nodeAt?_cons_eq_some.mpr ⟨_, htop, hm⟩,
          fun hagree => absurd hagree (not_agree_of_differ hi hdiffer _),
          fun _ => hnot (not_agree_nil _ _ _)⟩

/-! ## Once is enough -/

theorem carry_carry (parent : Option String) (previous parsed : Forest) :
    carry parent previous (carry parent previous parsed) = carry parent previous parsed := by
  induction parsed using Forest.induction generalizing parent previous with
  | nil => rw [carry, carry]
  | cons id p widget children rest ihc ihr =>
      rw [carry_eq_cons, carry_eq_cons, ihr]
      congr 1
      rcases same_or_differ previous.head? ⟨id, p, widget, children⟩ with ⟨old, hold, hsame⟩ | hne
      · rw [hold, carried_of_same parent hsame, carried_of_same parent (by exact hsame), ihc]
      · rw [carried_of_differ parent hne, carried_of_differ parent (by exact hne), ihc]

/-- **Ids are carried along paths and nowhere else.** A forest with carried ids shows what the
parsed one shows. The node at a path has the old id of that path where the old forest has the
path too and the components agree at every step of it, and its parsed id otherwise; every
node is linked to the node that holds it. Ids that are different and not shared stay different.
Carrying again from the same forest changes nothing, and carrying back onto what shows the
same, with its links right, restores it. -/
theorem carryIds_follows_paths (previous parsed : Forest) :
    let f := carryIds previous parsed
    f.outlines = parsed.outlines ∧
    (∀ i path n, parsed.nodeAt? i path = some n → ∃ m, f.nodeAt? i path = some m ∧
      (Agree previous parsed i path → ∃ old, previous.nodeAt? i path = some old ∧ m.id = old.id) ∧
      (¬Agree previous parsed i path → m.id = n.id)) ∧
    ((∀ n ∈ f, n.parent = none) ∧ ∀ n ∈ f.preorder, ∀ m ∈ n.children, m.parent = some n.id) ∧
    (previous.ids.Nodup → parsed.ids.Nodup → (∀ id ∈ parsed.ids, id ∉ previous.ids) →
      f.ids.Nodup) ∧
    carryIds previous f = f ∧
    (parsed.outlines = previous.outlines → (∀ n ∈ previous, n.parent = none) →
      (∀ n ∈ previous.preorder, ∀ m ∈ n.children, m.parent = some n.id) → f = previous) := by
  intro f
  refine ⟨outlines_carry _ _ _, fun i path n h => nodeAt?_carry h none previous,
    linked_iff.mp (linked_carry none _ _), ?_, carry_carry _ _ _, fun hsame hroots hlinks => ?_⟩
  · exact fun hprevious hparsed hdisjoint => nodup_ids_carry hprevious hparsed hdisjoint none
  · exact carry_eq_self (linked_iff.mpr ⟨hroots, hlinks⟩) hsame

/-- Behind a heading a column is read where a row was: the heading keeps its id. The column does
not, nor does the button in it, though there was a button at its path. -/
theorem carryIds_follows_paths_of_column :
    let heading (id : String) : Node := ⟨id, none, { component := "Heading" }, []⟩
    let button (id parent : String) : Node := ⟨id, some parent, { component := "Button" }, []⟩
    let previous : Forest := [heading "a", ⟨"b", none, { component := "Row" }, [button "c" "b"]⟩]
    let column : Node := ⟨"y", none, { component := "Column" }, [button "z" "y"]⟩
    let parsed : Forest := [heading "x", column]
    let f : Forest := [heading "a", column]
    carryIds previous parsed = f ∧ Agree previous parsed 0 [] ∧ ¬Agree previous parsed 1 [0] ∧
      f.ids.Nodup ∧ carryIds previous f = f := by
  intro heading button previous column parsed f
  have hf : carryIds previous parsed = f := by
    simp [carryIds, carry, previous, parsed, f, heading, column, button]
  have hprevious : previous.ids = ["a", "b", "c"] := by simp [previous, heading, button]
  have hparsed : parsed.ids = ["x", "y", "z"] := by simp [parsed, heading, column, button]
  obtain ⟨_, _, _, hnodup, hagain, _⟩ := carryIds_follows_paths previous parsed
  rw [hf, hprevious, hparsed] at hnodup
  rw [hf] at hagain
  refine ⟨hf, agree_nil.mpr ⟨_, _, rfl, rfl, rfl⟩, fun h => ?_, ?_, hagain⟩
  · obtain ⟨old, n, hold, hn, hsame, _⟩ := agree_cons.mp h
    obtain rfl : _ = old := Option.some.inj hold
    obtain rfl : _ = n := Option.some.inj hn
    exact absurd hsame (by simp [column])
  · exact hnodup (by decide) (by decide) (by decide)

end Tandem.Forest
