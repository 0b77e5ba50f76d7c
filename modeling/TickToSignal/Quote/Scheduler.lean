import Mathlib.Data.Rat.Floor
import Mathlib.Logic.Function.Basic

/-!
# When a REST snapshot may be requested

The scheduler says no during a symbol's backoff, when the shared weight budget
is spent, and during a rate-limit pause. It is pure: the caller passes a time
in milliseconds.

## Implementation notes

The `double` quantities are exact rationals. The jitter function is the stream
of its successive values; a failure reads the value at the number of failures
so far. It lies in `[0, 1)`, so the cast to an integer is the floor.
-/

namespace TickToSignal.Quote

structure SnapshotSchedulerConfig where
  weightPerRequest : Int := 50
  weightLimitPerMin : Int := 6000
  budgetFraction : ℚ := 1 / 10
  initialBackoffMs : Int := 1000
  maxBackoffMs : Int := 60000
  jitterFraction : ℚ := 1 / 4
  minPause429Ms : Int := 60000
  minPause418Ms : Int := 300000
  usedWeightPauseFraction : ℚ := 1 / 2
  usedWeightPauseMs : Int := 60000
  jitter : Nat → ℚ

/-- Weight the bucket holds: a share of the limit, at least one request. -/
def SnapshotSchedulerConfig.budget (cfg : SnapshotSchedulerConfig) : ℚ :=
  max cfg.weightPerRequest (cfg.weightLimitPerMin * cfg.budgetFraction)

/-- Backoff state of `n` symbols and the budget they share. -/
structure SnapshotScheduler (n : Nat) where
  failures : Fin n → Nat
  nextAllowedMs : Fin n → Int
  tokens : ℚ
  lastRefillMs : Int := -1
  pauseUntilMs : Int := 0
  requests : Nat := 0
  failuresTotal : Nat := 0
  rateLimitPauses : Nat := 0

namespace SnapshotScheduler

variable {n : Nat}

def init (n : Nat) (cfg : SnapshotSchedulerConfig) : SnapshotScheduler n :=
  { failures := fun _ => 0, nextAllowedMs := fun _ => 0, tokens := cfg.budget }

def refill (cfg : SnapshotSchedulerConfig) (s : SnapshotScheduler n) (nowMs : Int) :
    SnapshotScheduler n :=
  if s.lastRefillMs < 0 then { s with lastRefillMs := nowMs }
  else if nowMs ≤ s.lastRefillMs then s
  else
    { s with
      tokens := min cfg.budget (s.tokens + cfg.budget * (nowMs - s.lastRefillMs) / 60000)
      lastRefillMs := nowMs }

/-- May a snapshot be requested now? Consumes budget on yes. -/
def tryAcquire (cfg : SnapshotSchedulerConfig) (s : SnapshotScheduler n) (symIdx : Fin n)
    (nowMs : Int) : Bool × SnapshotScheduler n :=
  let s := s.refill cfg nowMs
  if nowMs < s.pauseUntilMs then (false, s)
  else if nowMs < s.nextAllowedMs symIdx then (false, s)
  else if s.tokens < cfg.weightPerRequest then (false, s)
  else (true, { s with tokens := s.tokens - cfg.weightPerRequest, requests := s.requests + 1 })

def pauseAll (s : SnapshotScheduler n) (nowMs ms : Int) : SnapshotScheduler n :=
  { s with
    pauseUntilMs := if nowMs + ms > s.pauseUntilMs then nowMs + ms else s.pauseUntilMs
    rateLimitPauses := s.rateLimitPauses + 1 }

def checkUsedWeight (cfg : SnapshotSchedulerConfig) (s : SnapshotScheduler n)
    (nowMs usedWeight1m : Int) : SnapshotScheduler n :=
  if usedWeight1m < 0 then s
  else if cfg.weightLimitPerMin * cfg.usedWeightPauseFraction ≤ usedWeight1m then
    s.pauseAll nowMs cfg.usedWeightPauseMs
  else s

/-- The HTTP fetch worked. -/
def onFetchOk (cfg : SnapshotSchedulerConfig) (s : SnapshotScheduler n) (_symIdx : Fin n)
    (nowMs usedWeight1m : Int) : SnapshotScheduler n :=
  s.checkUsedWeight cfg nowMs usedWeight1m

/-- `delay *= 2` until the cap is reached, at most `k` times. -/
def doubled (maxBackoffMs : Int) : Nat → Int → Int
  | 0, delay => delay
  | k + 1, delay => if delay < maxBackoffMs then doubled maxBackoffMs k (delay * 2) else delay

/-- The wait after the `k`-th consecutive failure. -/
def backoff (cfg : SnapshotSchedulerConfig) (k : Nat) (jitter : ℚ) : Int :=
  let delay := min (doubled cfg.maxBackoffMs (k - 1) cfg.initialBackoffMs) cfg.maxBackoffMs
  delay + ⌊delay * cfg.jitterFraction * jitter⌋

/-- A request failed, or its snapshot did not produce a synced book. -/
def onFailure (cfg : SnapshotSchedulerConfig) (s : SnapshotScheduler n) (symIdx : Fin n)
    (nowMs : Int) (httpStatus retryAfterSec : Int := 0) (usedWeight1m : Int := -1) :
    SnapshotScheduler n :=
  let k := s.failures symIdx + 1
  let s := { s with
    failuresTotal := s.failuresTotal + 1
    failures := Function.update s.failures symIdx k
    nextAllowedMs := Function.update s.nextAllowedMs symIdx
      (nowMs + backoff cfg k (cfg.jitter s.failuresTotal)) }
  let s :=
    if httpStatus = 429 ∨ httpStatus = 418 then
      let floorMs := if httpStatus = 418 then cfg.minPause418Ms else cfg.minPause429Ms
      s.pauseAll nowMs (max floorMs (retryAfterSec * 1000))
    else s
  s.checkUsedWeight cfg nowMs usedWeight1m

/-- The book reached `VALID`: forget the symbol's failures. -/
def onSynced (s : SnapshotScheduler n) (symIdx : Fin n) : SnapshotScheduler n :=
  { s with
    failures := Function.update s.failures symIdx 0
    nextAllowedMs := Function.update s.nextAllowedMs symIdx 0 }

end SnapshotScheduler

end TickToSignal.Quote
