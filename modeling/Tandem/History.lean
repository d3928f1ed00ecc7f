import Tandem.Node.Basic

/-!
# Undo history

The history keeps whole forests on one timeline with a cursor. The forests before
the cursor are those that can be undone to. The cursor stands behind the last one
until something is undone; from then on it stands at the forest that was restored
last, and the forests behind that one can be redone to. The live forest is put on
the timeline by the first undo, so that redo finds the way back.
-/

namespace Tandem

/-- A timeline of forests with a cursor. -/
structure History where
  /-- How many steps can be undone. -/
  limit : Nat
  /-- The kept forests, oldest first. -/
  entries : List Forest := []
  /-- How many of them can be undone to. -/
  cursor : Nat := 0
  cursor_le : cursor ≤ entries.length := by simp

namespace History

/-- An empty history; at least one step is kept. -/
def new (limit : Nat) : History := { limit := max limit 1 }

/-- An empty history of the usual length. -/
def standard : History := new 50

instance : Inhabited History := ⟨standard⟩

def canUndo (h : History) : Bool := 0 < h.cursor

def canRedo (h : History) : Bool := h.cursor + 1 < h.entries.length

/-- Keep the forest before a change. What was undone is given up, and so is the
oldest forest when there are too many. -/
def push (h : History) (before : Forest) : History :=
  let kept := h.entries.take h.cursor ++ [before]
  -- one forest comes in at a time, so one has to go at most
  let entries := if h.limit < kept.length then kept.tail else kept
  { h with entries, cursor := entries.length, cursor_le := Nat.le_refl _ }

/-- The timeline with the live forest at its end, unless a restored forest is live. -/
def withLive (h : History) (live : Forest) : List Forest :=
  if h.cursor = h.entries.length then h.entries ++ [live] else h.entries

theorem cursor_lt_length_withLive (h : History) (live : Forest) :
    h.cursor < (h.withLive live).length := by
  have hc := h.cursor_le
  rw [withLive]
  split
  · simp only [List.length_append, List.length_singleton]; omega
  · omega

/-- The forest to go back to from the live one. -/
def undo (h : History) (live : Forest) : Option (Forest × History) :=
  have hlt := h.cursor_lt_length_withLive live
  if h.cursor = 0 then none
  else
    some ((h.withLive live)[h.cursor - 1],
      { h with entries := h.withLive live, cursor := h.cursor - 1, cursor_le := by omega })

def redo (h : History) : Option (Forest × History) :=
  if hc : h.cursor + 1 < h.entries.length then
    some (h.entries[h.cursor + 1], { h with cursor := h.cursor + 1, cursor_le := Nat.le_of_lt hc })
  else none

def clear (h : History) : History :=
  { h with entries := [], cursor := 0, cursor_le := Nat.le_refl _ }

end History

end Tandem
