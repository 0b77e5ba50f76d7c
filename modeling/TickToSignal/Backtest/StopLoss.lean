import TickToSignal.Backtest.Position
import Mathlib.Algebra.Field.Rat
import Mathlib.Algebra.Order.Ring.Rat

/-!
# The stop-loss policy

For each open position `checkPolicies` finds out whether the loss has reached
the stop, and what it collects is right. It collects into a variable of the
function it applies to the rows, not into the list it returns, so no stop-loss
intent leaves it.
-/

namespace TickToSignal.Backtest.Pos

open Foundation

variable {S K : Type*} [Field K] [LinearOrder K]

/-- The intent that closes a position. -/
def flattenIntent (sym : S) : Intent S K :=
  { action := .flatten, sym := sym, qty := 0, source := .policy }

/-- The unrealized loss as a fraction of what the position cost. -/
def lossFraction (r : PosRow K) : K :=
  -((r.lastMarkPrice - r.costBasis) * r.qty / (|r.qty| * r.costBasis))

/-- The loss is at or beyond the stop. -/
def AtStop (cfg : Cfg K) (r : PosRow K) : Prop := cfg.stopLossPct ≤ lossFraction r

instance (cfg : Cfg K) (r : PosRow K) : Decidable (AtStop cfg r) :=
  inferInstanceAs (Decidable (cfg.stopLossPct ≤ lossFraction r))

/-- One intent for each open position at its stop. -/
def stopLossIntents (cfg : Cfg K) (book : KeyedTable S (PosRow K)) : List (Intent S K) :=
  ((openRows book).filter fun r => AtStop cfg r.2).map fun r => flattenIntent r.1

theorem mem_openRows {book : KeyedTable S (PosRow K)} {r : S × PosRow K} :
    r ∈ openRows book ↔ r ∈ book.rows ∧ r.2.qty ≠ 0 := by
  simp [openRows]

/-- What the policy finds for an open position with a positive cost. -/
theorem stopLoss_eq [IsStrictOrderedRing K] (cfg : Cfg K) {r : S × PosRow K} (hqty : r.2.qty ≠ 0)
    (hcost : 0 < r.2.costBasis) :
    stopLoss cfg r = if AtStop cfg r.2 then [flattenIntent r.1] else [] := by
  have hnotional : 0 < |r.2.qty| * r.2.costBasis := mul_pos (abs_pos.mpr hqty) hcost
  simp only [stopLoss]
  rw [if_pos hnotional]
  rfl

/-- What it finds for all rows is one intent for each position at its stop. -/
theorem flatMap_stopLoss [IsStrictOrderedRing K] (cfg : Cfg K) {book : KeyedTable S (PosRow K)}
    (hcost : ∀ r ∈ openRows book, 0 < r.2.costBasis) :
    (openRows book).flatMap (stopLoss cfg) = stopLossIntents cfg book := by
  have hrow : ∀ r ∈ openRows book,
      stopLoss cfg r = if AtStop cfg r.2 then [flattenIntent r.1] else [] :=
    fun r hr => stopLoss_eq cfg (mem_openRows.mp hr).2 (hcost r hr)
  rw [List.flatMap_congr hrow, stopLossIntents]
  induction openRows book with
  | nil => rfl
  | cons r rows ih =>
      rw [List.flatMap_cons, ih, List.filter_cons]
      by_cases hstop : AtStop cfg r.2
      · simp [hstop]
      · simp [hstop]

variable [DecidableEq S]

/-- The kill switch fires in this call. -/
def KillSwitchFires (cfg : Cfg K) (s : State S K) : Prop :=
  1 - totalEquity cfg s.book / cfg.initialEquity ≥ cfg.killSwitchPct ∧ s.killSwitchTriggered = false

theorem checkPolicies_of_not_fires {cfg : Cfg K} {s : State S K} (h : ¬ KillSwitchFires cfg s) :
    checkPolicies cfg s = (s, []) :=
  if_neg h

/-- While the kill switch does not fire, the intents are those of the positions at their stop
exactly when there is no such position. -/
theorem stop_loss_complete_iff (cfg : Cfg K) (s : State S K) (h : ¬ KillSwitchFires cfg s) :
    (checkPolicies cfg s).2.Perm (stopLossIntents cfg s.book) ↔
      ∀ r ∈ openRows s.book, ¬ AtStop cfg r.2 := by
  rw [checkPolicies_of_not_fires h, List.nil_perm, stopLossIntents, List.map_eq_nil_iff,
    List.filter_eq_nil_iff]
  simp only [decide_eq_true_eq]

/-- The policies of the source. -/
def sampleCfg : Cfg ℚ := { stopLossPct := 2 / 100, killSwitchPct := 1 / 10, initialEquity := 100000 }

/-- One coin bought at 100 dollars. -/
def longAt (lastMarkPrice : ℚ) : State String ℚ :=
  { book := KeyedTable.empty.upsert "BTCUSDT"
      { noRow with qty := 1, costBasis := 100, lastMarkPrice := lastMarkPrice } }

theorem stop_loss_complete_above :
    ¬ KillSwitchFires sampleCfg (longAt 99) ∧
      ((checkPolicies sampleCfg (longAt 99)).2.Perm (stopLossIntents sampleCfg (longAt 99).book) ↔
        ∀ r ∈ openRows (longAt 99).book, ¬ AtStop sampleCfg r.2) := by
  have hkill : ¬ KillSwitchFires sampleCfg (longAt 99) := by
    rw [KillSwitchFires]
    decide +kernel
  exact ⟨hkill, stop_loss_complete_iff sampleCfg (longAt 99) hkill⟩

/-- At 90 dollars, a loss of ten percent, nothing is flattened. -/
theorem stop_loss_never_fires :
    ¬ KillSwitchFires sampleCfg (longAt 90) ∧ (∀ r ∈ openRows (longAt 90).book, 0 < r.2.costBasis) ∧
      stopLossIntents sampleCfg (longAt 90).book = [flattenIntent "BTCUSDT"] ∧
      ¬ (checkPolicies sampleCfg (longAt 90)).2.Perm (stopLossIntents sampleCfg (longAt 90).book) := by
  have hatStop : stopLossIntents sampleCfg (longAt 90).book = [flattenIntent "BTCUSDT"] := by
    decide +kernel
  have hnone : (checkPolicies sampleCfg (longAt 90)).2 = [] := by decide +kernel
  rw [KillSwitchFires]
  refine ⟨by decide +kernel, by decide +kernel, hatStop, ?_⟩
  rw [hnone, hatStop, List.nil_perm]
  exact List.cons_ne_nil _ _

end TickToSignal.Backtest.Pos
