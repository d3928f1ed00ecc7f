import Tandem.Forest.Carry
import Tandem.Proofs.Forest.Edits

/-!
# Where ids come from

An id is given out by number (`mint_injective`: never twice), or carried over from
the forest that stood there before. A stamped forest is well-formed and has exactly
the ids of its numbers (`Forest.ids_stampAll`); a carried one has ids of the two
forests it was made of, each at most once (`Forest.wellFormed_carryIds`). Neither
touches what the forest shows.
-/

namespace Tandem

/-! ## Fresh ids -/

theorem ofDigitChars_paddedDigits (k : Nat) : Nat.ofDigitChars 10 (paddedDigits k) 0 = k := by
  simp [paddedDigits, Nat.ofDigitChars_append]

/-- No id is given out twice. -/
theorem mint_injective {k l : Nat} (h : mint k = mint l) : k = l := by
  have hchars := List.append_cancel_left (String.ofList_inj.mp h)
  rw [← ofDigitChars_paddedDigits k, ← ofDigitChars_paddedDigits l, hchars]

/-- The ids that are given out from `mint k` on. -/
def minted (k n : Nat) : List String := (List.range' k n).map mint

theorem mem_minted {k n : Nat} {id : String} :
    id ∈ minted k n ↔ ∃ i, k ≤ i ∧ i < k + n ∧ mint i = id := by
  simp only [minted, List.mem_map, List.mem_range'_1, and_assoc]

theorem nodup_minted (k n : Nat) : (minted k n).Nodup :=
  List.Nodup.map (fun _ _ => mint_injective) List.nodup_range'

theorem minted_succ (k n : Nat) : minted k (n + 1) = mint k :: minted (k + 1) n := by
  simp [minted, List.range'_succ]

theorem minted_add (k m n : Nat) : minted k (m + n) = minted k m ++ minted (k + m) n := by
  rw [minted, minted, minted, ← List.map_append, List.range'_append_1]

namespace Outline

theorem count_cons (o : Outline) (rest : List Outline) :
    count (o :: rest) = count o.children + 1 + count rest := by
  cases o
  rw [count]

theorem stampAll_cons (parent : Option String) (k : Nat) (o : Outline) (rest : List Outline) :
    stampAll parent k (o :: rest) =
      o.stamp parent k :: stampAll parent (k + 1 + count o.children) rest := by
  cases o
  rw [stampAll, stamp]

end Outline

namespace Forest

/-- Stamping takes one id for every widget, in order. -/
theorem ids_stampAll (parent : Option String) (k : Nat) (os : List Outline) :
    ids (Outline.stampAll parent k os) = minted k (Outline.count os) := by
  induction os using Outline.induction generalizing parent k with
  | nil => rw [Outline.stampAll, Outline.count, ids_nil]; rfl
  | cons widget children rest ihc ihr =>
      rw [Outline.stampAll_cons, ids_cons, Outline.count_cons, ihr]
      show mint k :: (ids (Outline.stampAll (some (mint k)) (k + 1) children) ++ _) = _
      have hcount : Outline.count children + 1 + Outline.count rest =
          Outline.count children + Outline.count rest + 1 := by omega
      rw [ihc, hcount, minted_succ, minted_add]

theorem linked_stampAll (parent : Option String) (k : Nat) (os : List Outline) :
    Linked parent (Outline.stampAll parent k os) := by
  induction os using Outline.induction generalizing parent k with
  | nil => rw [Outline.stampAll]; simp
  | cons widget children rest ihc ihr =>
      rw [Outline.stampAll_cons]
      exact linked_cons.mpr ⟨rfl, ihc _ _, ihr _ _⟩

theorem outlines_stampAll (parent : Option String) (k : Nat) (os : List Outline) :
    outlines (Outline.stampAll parent k os) = os := by
  induction os using Outline.induction generalizing parent k with
  | nil => rw [Outline.stampAll, outlines]
  | cons widget children rest ihc ihr =>
      rw [Outline.stampAll, outlines, ihc, ihr]

theorem wellFormed_stampAll (k : Nat) (os : List Outline) :
    (Outline.stampAll none k os).WellFormed :=
  wellFormed_iff.mpr ⟨by rw [ids_stampAll]; exact nodup_minted _ _, linked_stampAll _ _ _⟩

end Forest

theorem Outline.ids_stamp (parent : Option String) (k : Nat) (o : Outline) :
    (o.stamp parent k).id :: Forest.ids (o.stamp parent k).children = minted k o.size := by
  show mint k :: Forest.ids (stampAll (some (mint k)) (k + 1) o.children) = _
  rw [Forest.ids_stampAll, ← minted_succ]
  rfl

theorem Outline.stamp_wellFormed (parent : Option String) (k : Nat) (o : Outline) :
    (o.stamp parent k).WellFormed :=
  ⟨by rw [ids_stamp]; exact nodup_minted _ _, Forest.linked_stampAll _ _ _⟩

/-- A copy takes one fresh id for every node of the original. -/
theorem Node.ids_fresh (k : Nat) (n : Node) :
    (n.fresh k).id :: Forest.ids (n.fresh k).children = minted k n.outline.size :=
  Outline.ids_stamp _ _ _

theorem Node.outline_fresh (k : Nat) (n : Node) : (n.fresh k).outline = n.outline := by
  rw [Node.outline, Node.fresh, Outline.stamp, Forest.outlines_stampAll]
  rfl

namespace Forest

/-- What a duplication finds: the node and the place behind it. -/
theorem duplicate_eq_some {f f' : Forest} {id : String} {k : Nat} {copy : Node}
    (h : f.duplicate id k = some (f', copy)) :
    ∃ n index, f.find? id = some n ∧ copy = n.fresh k ∧
      f' = f.place ((f.parent? id).map (·.id)) (index + 1) copy := by
  simp only [duplicate, Option.bind_eq_bind, Option.bind_eq_some_iff, Option.pure_def,
    Option.some.injEq, Prod.mk.injEq] at h
  obtain ⟨n, hn, index, _, rfl, rfl⟩ := h
  exact ⟨n, index, hn, rfl, rfl⟩

/-- A node that a search finds as a parent is there. -/
theorem mem_ids_of_parent? {f : Forest} {id : String} :
    ∀ i ∈ (f.parent? id).map (·.id), i ∈ f.ids := by
  intro i hi
  obtain ⟨p, hp, rfl⟩ := Option.map_eq_some_iff.mp hi
  exact id_mem_ids (parent?_eq_some hp).1

/-- Fresh ids that the forest does not have keep it well-formed when it grows by a copy. -/
theorem WellFormed.duplicate {f f' : Forest} (hf : f.WellFormed) {id : String} {k : Nat}
    {copy : Node} (h : f.duplicate id k = some (f', copy))
    (hdisjoint : ∀ i ∈ minted k copy.outline.size, i ∉ f.ids) : f'.WellFormed := by
  obtain ⟨n, index, hn, hcopy, rfl⟩ := duplicate_eq_some h
  have hids : copy.id :: ids copy.children = minted k copy.outline.size := by
    rw [hcopy, Node.outline_fresh, Node.ids_fresh]
  exact hf.place (hcopy ▸ Outline.stamp_wellFormed _ _ _) _ mem_ids_of_parent?
    (by rw [hids]; exact hdisjoint)

/-! ## Carried ids -/

/-- The first node keeps its id, and its children have nothing to be carried from, or
both are drawn from the first of the previous siblings; the other nodes draw on the
other siblings. -/
theorem carry_cons (parent : Option String) (previous : Forest) (n : Node) (rest : Forest) :
    ∃ id before, carry parent previous (n :: rest) =
        ⟨id, parent, n.widget, carry (some id) before n.children⟩
          :: carry parent previous.tail rest ∧
      (id = n.id ∧ before = [] ∨ previous.ids = id :: (before.ids ++ ids previous.tail)) := by
  obtain ⟨i, p, w, cs⟩ := n
  cases previous with
  | nil => exact ⟨i, [], by rw [carry]; rfl, .inl ⟨rfl, rfl⟩⟩
  | cons old olds =>
      by_cases hw : old.widget.component = w.component
      · exact ⟨old.id, old.children, by rw [carry, if_pos hw]; rfl, .inr (ids_cons _ _)⟩
      · exact ⟨i, [], by rw [carry, if_neg hw]; rfl, .inl ⟨rfl, rfl⟩⟩

theorem linked_carry (parent : Option String) (previous parsed : Forest) :
    Linked parent (carry parent previous parsed) := by
  induction parsed using Forest.induction generalizing parent previous with
  | nil => rw [carry]; simp
  | cons i p w cs rest ihc ihr =>
      obtain ⟨id, before, heq, _⟩ := carry_cons parent previous ⟨i, p, w, cs⟩ rest
      rw [heq]
      exact linked_cons.mpr ⟨rfl, ihc _ _, ihr _ _⟩

theorem outlines_carry (parent : Option String) (previous parsed : Forest) :
    outlines (carry parent previous parsed) = parsed.outlines := by
  induction parsed using Forest.induction generalizing parent previous with
  | nil => rw [carry]
  | cons i p w cs rest ihc ihr =>
      obtain ⟨id, before, heq, _⟩ := carry_cons parent previous ⟨i, p, w, cs⟩ rest
      rw [heq, outlines, outlines, ihc, ihr]

/-- Ids and links are carried back onto a forest that shows the same. -/
theorem carry_eq_self {parent : Option String} {previous parsed : Forest}
    (hlinked : Linked parent previous) (hsame : parsed.outlines = previous.outlines) :
    carry parent previous parsed = previous := by
  induction previous using Forest.induction generalizing parent parsed with
  | nil =>
      cases parsed with
      | nil => rw [carry]
      | cons n rest =>
          obtain ⟨i, q, w, cs⟩ := n
          rw [outlines, outlines] at hsame
          cases hsame
  | cons id p widget children rest ihc ihr =>
      obtain ⟨hp, hc, hr⟩ := linked_cons.mp hlinked
      cases parsed with
      | nil =>
          rw [outlines, outlines] at hsame
          cases hsame
      | cons n parsedRest =>
          obtain ⟨i, q, w, cs⟩ := n
          simp only [outlines, List.cons.injEq, Outline.mk.injEq] at hsame
          obtain ⟨⟨rfl, hcs⟩, hrs⟩ := hsame
          rw [carry, if_pos rfl, ihc hc hcs, ihr hr hrs]
          exact congrArg (fun parent => ⟨id, parent, w, children⟩ :: rest) hp.symm

/-- An id is used no more often than the two forests have it together: the first node
and those below it draw on ids that the other siblings do not draw on. -/
theorem count_ids_carry_le (a : String) (parent : Option String) (previous parsed : Forest) :
    (carry parent previous parsed).ids.count a ≤
      previous.ids.count a + parsed.ids.count a := by
  induction parsed using Forest.induction generalizing parent previous with
  | nil => rw [carry]; simp
  | cons i p w cs rest ihc ihr =>
      obtain ⟨id, before, heq, hdraw⟩ := carry_cons parent previous ⟨i, p, w, cs⟩ rest
      have hc := ihc (some id) before
      have hr := ihr parent previous.tail
      rw [heq]
      simp only [ids_cons, List.count_cons, List.count_append]
      -- What is left is counting; `hdraw` says which old ids are drawn on.
      rcases hdraw with ⟨rfl, rfl⟩ | hprevious
      · have htail : (ids previous.tail).count a ≤ previous.ids.count a := by
          cases previous with
          | nil => exact Nat.le_refl _
          | cons old olds =>
              simp only [List.tail_cons, ids_cons, List.count_cons, List.count_append]
              omega
        simp only [ids_nil, List.count_nil] at hc
        omega
      · simp only [hprevious, List.count_cons, List.count_append]
        omega

/-- Ids that are different in both forests and not shared are different when they are carried. -/
theorem nodup_ids_carry {previous parsed : Forest} (hprevious : previous.ids.Nodup)
    (hparsed : parsed.ids.Nodup) (hdisjoint : ∀ id ∈ parsed.ids, id ∉ previous.ids)
    (parent : Option String) : (carry parent previous parsed).ids.Nodup := by
  have hboth : (previous.ids ++ parsed.ids).Nodup :=
    List.nodup_append.mpr ⟨hprevious, hparsed, fun a ha b hb heq => hdisjoint b hb (heq ▸ ha)⟩
  -- Not every old id is carried, so the ids are bounded by those of both, not equal to them.
  refine List.nodup_iff_count_le_one.mpr fun a => ?_
  have hcount := List.nodup_iff_count_le_one.mp hboth a
  rw [List.count_append] at hcount
  exact Nat.le_trans (count_ids_carry_le a parent previous parsed) hcount

/-- Ids carried from one well-formed forest into another that shares none with it
make a well-formed forest. -/
theorem wellFormed_carryIds {previous parsed : Forest} (hprevious : previous.WellFormed)
    (hparsed : parsed.WellFormed) (hdisjoint : ∀ id ∈ parsed.ids, id ∉ previous.ids) :
    (carryIds previous parsed).WellFormed :=
  wellFormed_iff.mpr ⟨nodup_ids_carry hprevious.distinct hparsed.distinct hdisjoint none,
    linked_carry none _ _⟩

end Forest

end Tandem
