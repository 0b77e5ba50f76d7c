import Mathlib.Data.List.Basic
import Mathlib.Data.Int.Notation
import Mathlib.Order.Basic

/-!
# Gaps in the exchange's trade ids

The exchange numbers the trades of a symbol without holes, so a jump in the id
means trades that were not received. `TradeIdTracker` finds the jumps, a
`TradeGap` is the range that is missing and how much of it was backfilled.

## Implementation notes

Ids are integers without a bound: the ends of a gap lie below an id the
exchange has used. `recoveredThroughId` is 0 while nothing was backfilled.
-/

namespace TickToSignal.Trade

inductive GapStatus
  | detected
  | partly
  | recovered
  | unrecoverable
  deriving DecidableEq, Repr

/-- The statuses after which nothing more happens to a gap. -/
def GapStatus.terminal : GapStatus → Bool
  | .recovered | .unrecoverable => true
  | .detected | .partly => false

/-- Ids `firstId` to `lastId` of `sym` are missing. -/
structure TradeGap where
  sym : String
  firstId : Int
  lastId : Int
  recovered : Int := 0
  recoveredThroughId : Int := 0
  deriving DecidableEq, Repr

namespace TradeGap

def missing (g : TradeGap) : Int := g.lastId - g.firstId + 1

def nextNeededId (g : TradeGap) : Int :=
  if 0 < g.recoveredThroughId then g.recoveredThroughId + 1 else g.firstId

/-- A range of ids, with no progress or with one that adds up. -/
structure Valid (g : TradeGap) : Prop where
  firstId_pos : 1 ≤ g.firstId
  first_le_last : g.firstId ≤ g.lastId
  progress : (g.recovered = 0 ∧ g.recoveredThroughId = 0) ∨
    (g.firstId ≤ g.recoveredThroughId ∧ g.recoveredThroughId ≤ g.lastId ∧
      g.recovered = g.recoveredThroughId - g.firstId + 1)

/-- The gap with its next `n` ids backfilled. -/
def advance (g : TradeGap) (n : Nat) : TradeGap :=
  if n = 0 then g
  else
    { g with
      recovered := g.recovered + n, recoveredThroughId := g.nextNeededId + n - 1 }

@[simp] theorem advance_zero (g : TradeGap) : g.advance 0 = g := rfl

@[simp] theorem advance_sym (g : TradeGap) (n : Nat) : (g.advance n).sym = g.sym := by
  simp only [advance]
  split_ifs <;> rfl

@[simp] theorem advance_firstId (g : TradeGap) (n : Nat) :
    (g.advance n).firstId = g.firstId := by
  simp only [advance]
  split_ifs <;> rfl

@[simp] theorem advance_lastId (g : TradeGap) (n : Nat) : (g.advance n).lastId = g.lastId := by
  simp only [advance]
  split_ifs <;> rfl

namespace Valid

variable {g : TradeGap}

theorem firstId_le_next (h : g.Valid) : g.firstId ≤ g.nextNeededId := by
  have hpos := h.firstId_pos
  simp only [nextNeededId]
  obtain ⟨-, hnone⟩ | ⟨hfirst, -, -⟩ := h.progress
  · have hunset : ¬ g.recoveredThroughId > 0 := by omega
    simp [hunset]
  · rw [if_pos (by omega)]
    omega

theorem next_le (h : g.Valid) : g.nextNeededId ≤ g.lastId + 1 := by
  have hpos := h.firstId_pos
  have hrange := h.first_le_last
  simp only [nextNeededId]
  obtain ⟨-, hnone⟩ | ⟨hfirst, hlast, -⟩ := h.progress
  · rw [if_neg (by omega)]
    omega
  · rw [if_pos (by omega)]
    omega

/-- Progress counts the ids from the first to the next one needed. -/
theorem recovered_eq (h : g.Valid) : g.recovered = g.nextNeededId - g.firstId := by
  have hpos := h.firstId_pos
  simp only [nextNeededId]
  obtain ⟨hzero, hnone⟩ | ⟨hfirst, -, hadd⟩ := h.progress
  · rw [if_neg (by omega)]
    omega
  · rw [if_pos (by omega)]
    omega

/-- A gap that needs nothing more was recovered to its end. -/
theorem recoveredThroughId_eq (h : g.Valid) (hdone : g.lastId < g.nextNeededId) :
    g.recoveredThroughId = g.lastId := by
  have hpos := h.firstId_pos
  have hrange := h.first_le_last
  simp only [nextNeededId] at hdone
  obtain ⟨-, hnone⟩ | ⟨hfirst, hlast, -⟩ := h.progress
  · rw [if_neg (by omega)] at hdone
    omega
  · rw [if_pos (by omega)] at hdone
    omega

theorem advance_next (h : g.Valid) (n : Nat) :
    (g.advance n).nextNeededId = g.nextNeededId + n := by
  have hpos := h.firstId_pos
  have hnext := h.firstId_le_next
  simp only [advance]
  split_ifs with hn
  · simp [hn]
  · rw [nextNeededId, if_pos (by simp only; omega)]
    simp only
    omega

theorem advance (h : g.Valid) {n : Nat} (hn : g.nextNeededId + n ≤ g.lastId + 1) :
    (g.advance n).Valid := by
  have hnext := h.firstId_le_next
  have hadd := h.recovered_eq
  by_cases hzero : n = 0
  · rw [hzero, advance_zero]
    exact h
  · refine { firstId_pos := ?_, first_le_last := ?_, progress := Or.inr ?_ }
    · simpa using h.firstId_pos
    · simpa using h.first_le_last
    · simp only [TradeGap.advance, if_neg hzero]
      omega

theorem advance_advance (h : g.Valid) (m n : Nat) :
    (g.advance m).advance n = g.advance (m + n) := by
  by_cases hn : n = 0
  · rw [hn, advance_zero, Nat.add_zero]
  by_cases hm : m = 0
  · rw [hm, advance_zero, Nat.zero_add]
  have hnext := h.advance_next m
  have hadd := h.recovered_eq
  simp only [TradeGap.advance, if_neg hm, if_neg hn, if_neg (show m + n ≠ 0 by omega)] at hnext ⊢
  rw [hnext]
  simp only [mk.injEq, true_and]
  omega

end Valid

end TradeGap

/-! ## Detection -/

inductive IdKind
  | first
  | inOrder
  | gap (firstMissing lastMissing : Int)
  | duplicate
  | outOfOrder
  deriving DecidableEq, Repr

/-- The last id seen per symbol. -/
structure TradeIdTracker where
  last : String → Option Int := fun _ => none

namespace TradeIdTracker

/-- Classify `id` and remember the highest id seen for `sym`. -/
def onId (sym : String) (id : Int) (s : TradeIdTracker) : IdKind × TradeIdTracker :=
  match s.last sym with
  | none => (.first, { last := Function.update s.last sym (some id) })
  | some last =>
      (if id = last + 1 then .inOrder
        else if id = last then .duplicate
        else if id < last then .outOfOrder
        else .gap (last + 1) (id - 1),
        if last < id then { last := Function.update s.last sym (some id) } else s)

def seed (sym : String) (lastId : Int) (s : TradeIdTracker) : TradeIdTracker :=
  { last := Function.update s.last sym (some lastId) }

end TradeIdTracker

end TickToSignal.Trade
