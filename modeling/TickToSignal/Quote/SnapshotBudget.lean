import TickToSignal.Foundation.Metered
import TickToSignal.Quote.Scheduler
import Mathlib.Algebra.Order.Ring.Rat
import Mathlib.Tactic.Linarith
import Mathlib.Tactic.Positivity
import Mathlib.Tactic.Ring

/-!
# The weight budget over runs of the scheduler

The bucket starts full, refills with the largest time seen so far and never
holds more than the budget. Its level, less what the refills up to now brought,
is a potential that pays for every grant, so between two calls no more is
granted than one full bucket and the refill between their times.

## Implementation notes

The time of `lastRefillMs` before the first `tryAcquire` is -1, so the largest
time is taken over -1 and the times passed to `tryAcquire`.
-/

namespace TickToSignal.Quote

open Foundation

/-- The calls of the scheduler. -/
inductive SchedulerCall (n : Nat)
  | tryAcquire (symIdx : Fin n) (nowMs : Int)
  | onFailure (symIdx : Fin n) (nowMs httpStatus retryAfterSec usedWeight1m : Int)
  | onFetchOk (symIdx : Fin n) (nowMs usedWeight1m : Int)
  | onSynced (symIdx : Fin n)
  deriving DecidableEq, Repr

namespace SchedulerCall

variable {n : Nat}

/-- The time a call is made at, where it is told one. -/
def nowMs : SchedulerCall n → Option Int
  | .tryAcquire _ t | .onFailure _ t _ _ _ | .onFetchOk _ t _ => some t
  | .onSynced _ => none

end SchedulerCall

namespace SnapshotScheduler

variable {n : Nat} {cfg : SnapshotSchedulerConfig} {s : SnapshotScheduler n}

/-- The state after a call. -/
def step (cfg : SnapshotSchedulerConfig) (s : SnapshotScheduler n) :
    SchedulerCall n → SnapshotScheduler n
  | .tryAcquire symIdx nowMs => (s.tryAcquire cfg symIdx nowMs).2
  | .onFailure symIdx nowMs httpStatus retryAfterSec usedWeight1m =>
      s.onFailure cfg symIdx nowMs httpStatus retryAfterSec usedWeight1m
  | .onFetchOk symIdx nowMs usedWeight1m => s.onFetchOk cfg symIdx nowMs usedWeight1m
  | .onSynced symIdx => s.onSynced symIdx

/-- The request weight a call is granted. -/
def granted (cfg : SnapshotSchedulerConfig) (s : SnapshotScheduler n) : SchedulerCall n → ℚ
  | .tryAcquire symIdx nowMs =>
      if (s.tryAcquire cfg symIdx nowMs).1 then cfg.weightPerRequest else 0
  | _ => 0

/-- The larger of a time and the one a call of `tryAcquire` is made at. -/
def later (m : Int) : SchedulerCall n → Int
  | .tryAcquire _ nowMs => max m nowMs
  | _ => m

/-- The largest time passed to `tryAcquire`, and -1 before the first. -/
def maxTime (calls : List (SchedulerCall n)) : Int := calls.foldl later (-1)

/-! ## What one call does to the bucket -/

/-- The bucket of one state is that of another. -/
structure SameBucket (s s' : SnapshotScheduler n) : Prop where
  tokens : s'.tokens = s.tokens
  lastRefillMs : s'.lastRefillMs = s.lastRefillMs

/-- No call but `tryAcquire` touches the bucket. -/
theorem sameBucket_step {c : SchedulerCall n} (hc : ∀ symIdx nowMs, c ≠ .tryAcquire symIdx nowMs) :
    SameBucket s (s.step cfg c) := by
  cases c with
  | tryAcquire symIdx nowMs => exact absurd rfl (hc symIdx nowMs)
  | onFailure symIdx nowMs httpStatus retryAfterSec usedWeight1m =>
      simp only [step, onFailure, checkUsedWeight]
      split_ifs <;> exact ⟨rfl, rfl⟩
  | onFetchOk symIdx nowMs usedWeight1m =>
      simp only [step, onFetchOk, checkUsedWeight]
      split_ifs <;> exact ⟨rfl, rfl⟩
  | onSynced symIdx => exact ⟨rfl, rfl⟩

/-- A grant is taken out of the refilled bucket. -/
theorem tryAcquire_cases (cfg : SnapshotSchedulerConfig) (s : SnapshotScheduler n)
    (symIdx : Fin n) (nowMs : Int) :
    ((s.tryAcquire cfg symIdx nowMs).1 = false ∧
        (s.tryAcquire cfg symIdx nowMs).2 = s.refill cfg nowMs) ∨
      ((s.tryAcquire cfg symIdx nowMs).1 = true ∧
        (cfg.weightPerRequest : ℚ) ≤ (s.refill cfg nowMs).tokens ∧
        (s.tryAcquire cfg symIdx nowMs).2.tokens
          = (s.refill cfg nowMs).tokens - cfg.weightPerRequest ∧
        (s.tryAcquire cfg symIdx nowMs).2.lastRefillMs = (s.refill cfg nowMs).lastRefillMs) := by
  simp only [tryAcquire]
  split_ifs with hpause hback hspent
  · exact Or.inl ⟨rfl, rfl⟩
  · exact Or.inl ⟨rfl, rfl⟩
  · exact Or.inl ⟨rfl, rfl⟩
  · exact Or.inr ⟨rfl, not_lt.mp hspent, rfl, rfl⟩

/-- The bucket holds between nothing and the budget. -/
structure Filled (cfg : SnapshotSchedulerConfig) (s : SnapshotScheduler n) : Prop where
  tokens_nonneg : 0 ≤ s.tokens
  tokens_le : s.tokens ≤ cfg.budget
  lastRefill_ge : -1 ≤ s.lastRefillMs

theorem budget_nonneg (hweight : 0 ≤ cfg.weightPerRequest) : 0 ≤ cfg.budget :=
  le_max_of_le_left (by exact_mod_cast hweight)

theorem Filled.init (hweight : 0 ≤ cfg.weightPerRequest) : Filled cfg (init n cfg) :=
  ⟨budget_nonneg hweight, le_rfl, le_rfl⟩

/-- What a refill adds is no more than the time since the last one brings. -/
theorem Filled.refill (h : Filled cfg s) (hweight : 0 ≤ cfg.weightPerRequest) {nowMs : Int}
    (hnow : 0 ≤ nowMs) :
    Filled cfg (s.refill cfg nowMs) ∧
      (s.refill cfg nowMs).lastRefillMs = max s.lastRefillMs nowMs ∧
      (s.refill cfg nowMs).tokens
        ≤ s.tokens + cfg.budget * (max s.lastRefillMs nowMs - s.lastRefillMs : Int) / 60000 := by
  have hbudget := budget_nonneg hweight
  have hgain : 0 ≤ cfg.budget * (max s.lastRefillMs nowMs - s.lastRefillMs : Int) / 60000 := by
    have hle : (0 : ℚ) ≤ ((max s.lastRefillMs nowMs - s.lastRefillMs : Int) : ℚ) := by
      exact_mod_cast sub_nonneg.mpr (le_max_left _ _)
    positivity
  simp only [SnapshotScheduler.refill]
  split_ifs with hfirst hback
  · have hmax : max s.lastRefillMs nowMs = nowMs := max_eq_right (hfirst.le.trans hnow)
    refine ⟨⟨h.tokens_nonneg, h.tokens_le, ?_⟩, hmax.symm, ?_⟩
    · exact (by omega : -1 ≤ nowMs)
    · exact le_add_of_nonneg_right hgain
  · exact ⟨h, (max_eq_left hback).symm, le_add_of_nonneg_right hgain⟩
  · have hmax : max s.lastRefillMs nowMs = nowMs := max_eq_right (not_le.mp hback).le
    rw [hmax] at hgain ⊢
    push_cast at hgain ⊢
    refine ⟨⟨?_, min_le_left _ _, ?_⟩, rfl, min_le_right _ _⟩
    · exact le_min hbudget (add_nonneg h.tokens_nonneg hgain)
    · exact (by omega : -1 ≤ nowMs)

/-- What is left in the bucket, less what was refilled up to now. -/
def potential (cfg : SnapshotSchedulerConfig) (s : SnapshotScheduler n) : ℚ :=
  s.tokens - cfg.budget * s.lastRefillMs / 60000

/-- What a call does to the bucket, and that the potential pays for it. -/
structure Paid (cfg : SnapshotSchedulerConfig) (c : SchedulerCall n)
    (s s' : SnapshotScheduler n) : Prop where
  filled : Filled cfg s'
  lastRefillMs : s'.lastRefillMs = later s.lastRefillMs c
  granted_le : granted cfg s c + s'.tokens ≤ cfg.budget
  pays : granted cfg s c + potential cfg s' ≤ potential cfg s

/-- A call that leaves the bucket alone is granted nothing. -/
theorem Filled.paid_of_same (h : Filled cfg s) {c : SchedulerCall n} {s' : SnapshotScheduler n}
    (hsame : SameBucket s s') (hcost : granted cfg s c = 0)
    (htime : later s.lastRefillMs c = s.lastRefillMs) : Paid cfg c s s' where
  filled :=
    { tokens_nonneg := hsame.tokens ▸ h.tokens_nonneg
      tokens_le := hsame.tokens ▸ h.tokens_le
      lastRefill_ge := hsame.lastRefillMs ▸ h.lastRefill_ge }
  lastRefillMs := hsame.lastRefillMs.trans htime.symm
  granted_le := by
    rw [hcost, zero_add, hsame.tokens]
    exact h.tokens_le
  pays := by
    rw [hcost, zero_add]
    simp only [potential, hsame.tokens, hsame.lastRefillMs]
    exact le_rfl

theorem Filled.step (h : Filled cfg s) (hweight : 0 ≤ cfg.weightPerRequest)
    {c : SchedulerCall n} (hnow : ∀ t ∈ c.nowMs, 0 ≤ t) : Paid cfg c s (s.step cfg c) := by
  cases c with
  | tryAcquire symIdx nowMs =>
      obtain ⟨hfilled, hlast, hgain⟩ := h.refill hweight (hnow nowMs rfl)
      have hrefill : potential cfg (s.refill cfg nowMs) ≤ potential cfg s := by
        simp only [potential, hlast]
        push_cast at hgain ⊢
        linarith
      obtain ⟨hno, hstate⟩ | ⟨hyes, hroom, htokens, hsame⟩ :=
        tryAcquire_cases cfg s symIdx nowMs
      · have hcost : granted cfg s (.tryAcquire symIdx nowMs) = 0 := by simp [granted, hno]
        simp only [SnapshotScheduler.step, hstate]
        refine ⟨hfilled, hlast, ?_, ?_⟩
        · rw [hcost, zero_add]
          exact hfilled.tokens_le
        · rw [hcost, zero_add]
          exact hrefill
      · have hcost : granted cfg s (.tryAcquire symIdx nowMs) = cfg.weightPerRequest := by
          simp [granted, hyes]
        have hw : (0 : ℚ) ≤ cfg.weightPerRequest := by exact_mod_cast hweight
        have hbound := hfilled.tokens_le
        have hge := hfilled.lastRefill_ge
        simp only [potential] at hrefill
        simp only [SnapshotScheduler.step]
        refine ⟨⟨?_, ?_, ?_⟩, ?_, ?_, ?_⟩
        · rw [htokens]
          linarith
        · rw [htokens]
          linarith
        · rw [hsame]
          exact hge
        · rw [hsame, hlast]
          rfl
        · rw [hcost, htokens]
          linarith
        · rw [hcost]
          simp only [potential]
          rw [htokens, hsame]
          linarith
  | onFailure | onFetchOk | onSynced =>
      exact h.paid_of_same (sameBucket_step fun _ _ hc => by cases hc) rfl rfl

/-! ## Runs -/

/-- After any calls at non-negative times the bucket is in its bounds, and was last refilled at the
largest time so far. -/
theorem filled_exec (hweight : 0 ≤ cfg.weightPerRequest) {calls : List (SchedulerCall n)}
    (hnow : ∀ c ∈ calls, ∀ t ∈ c.nowMs, 0 ≤ t) :
    Filled cfg (exec (step cfg) (init n cfg) calls) ∧
      (exec (step cfg) (init n cfg) calls).lastRefillMs = maxTime calls := by
  induction calls using List.reverseRecOn with
  | nil => exact ⟨Filled.init hweight, rfl⟩
  | append_singleton calls c ih =>
      obtain ⟨hfilled, hlast⟩ := ih fun c hc => hnow c (List.mem_append_left _ hc)
      have hpaid := hfilled.step hweight (hnow c (by simp))
      rw [exec_append, maxTime, List.foldl_append]
      refine ⟨hpaid.filled, hpaid.lastRefillMs.trans ?_⟩
      rw [hlast]
      rfl

/-- The snapshot weight budget: whatever is called in between and however the clock jumps, the
calls from `call` to the end of `mid` are granted no more than the budget and what it earns
between the largest times seen at the two ends; in a minute, two budgets. -/
theorem granted_le_budget (cfg : SnapshotSchedulerConfig) (hweight : 0 ≤ cfg.weightPerRequest)
    (pre mid : List (SchedulerCall n)) (call : SchedulerCall n)
    (hnow : ∀ c ∈ pre ++ call :: mid, ∀ t ∈ c.nowMs, 0 ≤ t) :
    let total := spent (step cfg) (granted cfg) (exec (step cfg) (init n cfg) pre) (call :: mid)
    let elapsed := maxTime (pre ++ call :: mid) - maxTime (pre ++ [call])
    total ≤ cfg.budget + cfg.budget * elapsed / 60000 ∧
      (elapsed ≤ 60000 → total ≤ 2 * cfg.budget) := by
  intro total elapsed
  obtain ⟨hfilled, -⟩ := filled_exec hweight fun c hc => hnow c (List.mem_append_left _ hc)
  have hcall := hfilled.step hweight (hnow call (by simp))
  have hpre : ∀ c ∈ pre ++ [call], ∀ t ∈ c.nowMs, 0 ≤ t := by
    intro c hc
    apply hnow c
    rw [List.append_cons]
    exact List.mem_append_left _ hc
  have hmid : ∀ c ∈ mid, ∀ t ∈ c.nowMs, 0 ≤ t := fun c hc => hnow c (by simp [hc])
  have hrest := spent_add_potential_le (potential cfg) (Filled cfg)
    (fun _ c hc hs => (hs.step hweight (hmid c hc)).filled)
    (fun _ c hc hs => (hs.step hweight (hmid c hc)).pays) hcall.filled
  have hstart := (filled_exec hweight hpre).2
  obtain ⟨hlast, hend⟩ := filled_exec hweight hnow
  rw [exec_append, exec_cons, exec_nil] at hstart
  rw [exec_append, exec_cons] at hlast hend
  have hbound : total ≤ cfg.budget + cfg.budget * elapsed / 60000 := by
    have hfull := hcall.granted_le
    have hnonneg := hlast.tokens_nonneg
    simp only [total, elapsed, spent]
    simp only [potential, hstart, hend] at hrest
    push_cast
    linarith
  refine ⟨hbound, fun hminute => hbound.trans ?_⟩
  have hearned : cfg.budget * elapsed ≤ cfg.budget * 60000 :=
    mul_le_mul_of_nonneg_left (by exact_mod_cast hminute) (budget_nonneg hweight)
  linarith

/-- Two calls of the spot market's scheduler, 69 seconds apart, and a failure in between that
is told an earlier time. -/
theorem granted_le_budget_spot :
    let cfg : SnapshotSchedulerConfig := { jitter := fun _ => 0 }
    let calls : List (SchedulerCall 1) := [.onFailure 0 500 0 0 (-1), .tryAcquire 0 70000]
    let total := spent (step cfg) (granted cfg) (init 1 cfg) (.tryAcquire 0 1000 :: calls)
    let elapsed := maxTime (.tryAcquire 0 1000 :: calls) - maxTime [.tryAcquire (n := 1) 0 1000]
    total ≤ cfg.budget + cfg.budget * elapsed / 60000 ∧
      (elapsed ≤ 60000 → total ≤ 2 * cfg.budget) :=
  granted_le_budget { jitter := fun _ => 0 } (by decide) [] _ _ (by decide)

end SnapshotScheduler

end TickToSignal.Quote
