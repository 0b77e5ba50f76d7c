import Mathlib.Data.List.Basic

/-!
# The resend ring

The last rows a handler published, by `fhSeqNo`. After a reconnect the handler
sends again every ring row TP has not logged; what TP lacks and the ring no
longer holds is counted.
-/

namespace TickToSignal.Publisher

variable {α : Type*}

/-- A published row; `data` are its columns. -/
structure Row (α : Type*) where
  fhSeqNo : Int
  data : α
  deriving DecidableEq, Repr

/-- The last `capacity` published rows, oldest first. -/
structure ResendRing (α : Type*) where
  capacity : Nat
  rows : List (Row α) := []
  deriving DecidableEq, Repr

namespace ResendRing

/-- The constructor: a ring holds at least one row. -/
def ofCapacity (capacity : Nat) : ResendRing α := { capacity := if capacity = 0 then 1 else capacity }

def push (ring : ResendRing α) (row : Row α) : ResendRing α :=
  { ring with
    rows := (if ring.capacity ≤ ring.rows.length then ring.rows.tail else ring.rows) ++ [row] }

def newestSeq (ring : ResendRing α) : Int := (ring.rows.getLast?.map (·.fhSeqNo)).getD 0

/-- The rows `forEachAfter` visits. -/
def after (ring : ResendRing α) (afterSeq : Int) : List (Row α) :=
  ring.rows.filter fun r => decide (afterSeq < r.fhSeqNo)

/-- How many rows after `afterSeq` are no longer in the ring. -/
def missingAfter (ring : ResendRing α) (afterSeq : Int) : Int :=
  match ring.rows with
  | [] => 0
  | oldest :: _ =>
      if oldest.fhSeqNo > afterSeq + 1 then oldest.fhSeqNo - (afterSeq + 1) else 0

/-- A push keeps the newest rows: the ring stays the end of all that was published. -/
theorem push_suffix {ring : ResendRing α} {all : List (Row α)} (h : ring.rows <:+ all)
    (row : Row α) : (ring.push row).rows <:+ all ++ [row] := by
  obtain ⟨before, rfl⟩ := h
  simp only [push]
  split_ifs
  · cases hrows : ring.rows with
    | nil => exact ⟨before, by simp⟩
    | cons oldest rest => exact ⟨before ++ [oldest], by simp⟩
  · exact ⟨before, by simp⟩

theorem mem_push {ring : ResendRing α} {row r : Row α} (h : r ∈ (ring.push row).rows) :
    r ∈ ring.rows ∨ r = row := by
  simp only [push, List.mem_append, List.mem_singleton] at h
  rcases h with h | h
  · split_ifs at h
    · exact Or.inl (List.mem_of_mem_tail h)
    · exact Or.inl h
  · exact Or.inr h

theorem push_ne_nil (ring : ResendRing α) (row : Row α) : (ring.push row).rows ≠ [] := by
  simp [push]

end ResendRing

end TickToSignal.Publisher
