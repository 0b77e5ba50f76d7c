import TickToSignal.Foundation.Checked
import Mathlib.Order.Defs.LinearOrder

/-!
# The time of a row

A row carries the handler's receive time, unless the exchange event time is
ahead of it by more than the threshold: then it carries the event time. A row
without an event time is compared with the last one the handler saw.

## Implementation notes

Times are 64-bit words in nanoseconds or milliseconds. A signed operation that
overflows has no defined result in the source, here it gives `none`. The
counters of corrected rows do not overflow.
-/

namespace TickToSignal.Handler

open Foundation

/-- What happened to the lag state with a row. -/
inductive ClockEdge
  | none
  | lagStarted
  | lagEnded
  deriving DecidableEq, Repr

@[ext]
structure RowStamp where
  timeUtcNs : Int64 := 0
  corrected : Bool := false
  lagMs : Int64 := 0
  edge : ClockEdge := .none
  deriving DecidableEq, Repr

def hasEventTime (eventTimeMs : Int64) : Bool := decide (0 < eventTimeMs)

/-- The rule for one row. -/
def stampRowTime (recvTimeUtcNs eventTimeMs thresholdMs : Int64) : Option RowStamp :=
  let s : RowStamp := { timeUtcNs := recvTimeUtcNs }
  if !hasEventTime eventTimeMs || decide (thresholdMs ≤ 0) then some s
  else do
    let eventNs ← Checked.mul eventTimeMs 1000000
    let aheadNs ← Checked.sub eventNs recvTimeUtcNs
    let lagMs ← Checked.div aheadNs 1000000
    let thresholdNs ← Checked.mul thresholdMs 1000000
    if thresholdNs < aheadNs then
      some { s with lagMs := lagMs, timeUtcNs := eventNs, corrected := true }
    else some { s with lagMs := lagMs }

/-- One per handler: the last event time, the corrected rows, and whether the clock lags. -/
structure RowClock where
  thresholdMs : Int64 := 2000
  lastEventMs : Int64 := 0
  correctedRows : Nat := 0
  lagging : Bool := false
  episodeRows : Nat := 0
  episodeMaxLagMs : Int64 := 0
  lastEpisodeRows : Nat := 0
  lastEpisodeMaxLagMs : Int64 := 0
  deriving DecidableEq, Repr

namespace RowClock

def noteEvent (eventTimeMs : Int64) (c : RowClock) : RowClock :=
  if hasEventTime eventTimeMs then { c with lastEventMs := eventTimeMs } else c

/-- Stamp a row; `ownEventTimeMs` is not positive for a row without one. -/
def stamp (recvTimeUtcNs ownEventTimeMs : Int64) (c : RowClock) : Option (RowStamp × RowClock) :=
  let c := c.noteEvent ownEventTimeMs
  let ref := if hasEventTime ownEventTimeMs then ownEventTimeMs else c.lastEventMs
  match stampRowTime recvTimeUtcNs ref c.thresholdMs with
  | none => none
  | some s =>
      if s.corrected then
        some ({ s with edge := if c.lagging then s.edge else .lagStarted },
          { c with
            correctedRows := c.correctedRows + 1
            episodeRows := c.episodeRows + 1
            episodeMaxLagMs := if c.episodeMaxLagMs < s.lagMs then s.lagMs else c.episodeMaxLagMs
            lagging := true })
      else if c.lagging && hasEventTime ref && decide (s.lagMs ≤ c.thresholdMs / 2) then
        some ({ s with edge := .lagEnded },
          { c with
            lagging := false
            lastEpisodeRows := c.episodeRows
            lastEpisodeMaxLagMs := c.episodeMaxLagMs
            episodeRows := 0
            episodeMaxLagMs := 0 })
      else some (s, c)

end RowClock

/-- The event time is usable and ahead of the receive time by more than the threshold. -/
def Ahead (recvTimeUtcNs eventTimeMs thresholdMs : Int64) : Prop :=
  0 < eventTimeMs.toInt ∧
    thresholdMs.toInt * 1000000 < eventTimeMs.toInt * 1000000 - recvTimeUtcNs.toInt

instance decidableAhead (recvTimeUtcNs eventTimeMs thresholdMs : Int64) :
    Decidable (Ahead recvTimeUtcNs eventTimeMs thresholdMs) :=
  inferInstanceAs (Decidable (_ ∧ _))

/-- The stamped time is that of an event ahead, else the receive time, and the flag says
which. -/
def Exact (recvTimeUtcNs eventTimeMs thresholdMs : Int64) (s : RowStamp) : Prop :=
  if Ahead recvTimeUtcNs eventTimeMs thresholdMs then
    s.timeUtcNs.toInt = eventTimeMs.toInt * 1000000 ∧ s.corrected = true
  else s.timeUtcNs = recvTimeUtcNs ∧ s.corrected = false

/-- The three results that must be words when an event time is compared. -/
structure Computable (recvTimeUtcNs eventTimeMs thresholdMs : Int64) : Prop where
  event : eventTimeMs.toInt * 1000000 < 2 ^ 63
  ahead : -2 ^ 63 ≤ eventTimeMs.toInt * 1000000 - recvTimeUtcNs.toInt ∧
    eventTimeMs.toInt * 1000000 - recvTimeUtcNs.toInt < 2 ^ 63
  threshold : thresholdMs.toInt * 1000000 < 2 ^ 63

theorem hasEventTime_iff {t : Int64} : hasEventTime t = true ↔ 0 < t.toInt := by
  simp [hasEventTime, Int64.lt_iff_toInt_lt]

theorem uncompared_iff {event threshold : Int64} :
    (!hasEventTime event || decide (threshold ≤ 0)) = true ↔
      ¬ (0 < event.toInt ∧ 0 < threshold.toInt) := by
  rw [Bool.or_eq_true, Bool.not_eq_true', Bool.eq_false_iff, ne_eq, hasEventTime_iff,
    decide_eq_true_iff, Int64.le_iff_toInt_le, Int64.toInt_zero, not_and_or]
  omega

/-- Without a usable event time, or with the correction turned off, the row keeps its
receive time. -/
theorem stampRowTime_uncompared {recv event threshold : Int64}
    (h : ¬ (0 < event.toInt ∧ 0 < threshold.toInt)) :
    stampRowTime recv event threshold = some { timeUtcNs := recv } := by
  unfold stampRowTime
  rw [if_pos (uncompared_iff.2 h)]

/-- A compared row gets a stamp exactly when nothing overflows, and that stamp is exact. -/
theorem stampRowTime_compared {recv event threshold : Int64} (he : 0 < event.toInt)
    (ht : 0 < threshold.toInt) {s : RowStamp} :
    stampRowTime recv event threshold = some s ↔
      Computable recv event threshold ∧ Exact recv event threshold s ∧ s.edge = .none ∧
        s.lagMs.toInt = (event.toInt * 1000000 - recv.toInt).tdiv 1000000 := by
  have hon : ¬ (!hasEventTime event || decide (threshold ≤ 0)) = true := fun h =>
    uncompared_iff.1 h ⟨he, ht⟩
  have hscale : (1000000 : Int64).toInt = 1000000 := by decide
  unfold stampRowTime
  simp only [if_neg hon, Option.bind_eq_bind, Option.bind_eq_some_iff, Checked.mul_eq_some_iff,
    Checked.sub_eq_some_iff, Checked.div_eq_some_iff (b := 1000000) (by decide), hscale]
  constructor
  · rintro ⟨eventNs, hevent, aheadNs, hahead, lagMs, hlag, thresholdNs, hthreshold, hs⟩
    rw [hevent] at hahead
    have hcomp : Computable recv event threshold :=
      { event := hevent ▸ eventNs.toInt_lt
        ahead := hahead ▸ ⟨aheadNs.le_toInt, aheadNs.toInt_lt⟩
        threshold := hthreshold ▸ thresholdNs.toInt_lt }
    have hlt : thresholdNs < aheadNs ↔ Ahead recv event threshold := by
      rw [Int64.lt_iff_toInt_lt, hthreshold, hahead]
      exact ⟨fun h => ⟨he, h⟩, fun h => h.2⟩
    refine ⟨hcomp, ?_⟩
    unfold Exact
    split at hs
    next h =>
      obtain rfl := Option.some.inj hs
      rw [if_pos (hlt.1 h)]
      exact ⟨⟨hevent, rfl⟩, rfl, hahead ▸ hlag⟩
    next h =>
      obtain rfl := Option.some.inj hs
      rw [if_neg (mt hlt.2 h)]
      exact ⟨⟨rfl, rfl⟩, rfl, hahead ▸ hlag⟩
  · rintro ⟨hcomp, hexact, hedge, hlag⟩
    obtain ⟨eventNs, hevent⟩ := Checked.exists_word_iff.2 ⟨by omega, hcomp.event⟩
    obtain ⟨aheadNs, hahead⟩ := Checked.exists_word_iff.2 hcomp.ahead
    obtain ⟨thresholdNs, hthreshold⟩ := Checked.exists_word_iff.2 ⟨by omega, hcomp.threshold⟩
    rw [Checked.word_eq_some_iff] at hevent hahead hthreshold
    refine ⟨eventNs, hevent, aheadNs, by rw [hevent, hahead], s.lagMs, by rw [hahead, hlag],
      thresholdNs, hthreshold, ?_⟩
    have hlt : thresholdNs < aheadNs ↔ Ahead recv event threshold := by
      rw [Int64.lt_iff_toInt_lt, hthreshold, hahead]
      exact ⟨fun h => ⟨he, h⟩, fun h => h.2⟩
    unfold Exact at hexact
    split at hexact
    next h =>
      rw [if_pos (hlt.2 h)]
      exact congrArg some (RowStamp.ext (Int64.toInt.inj (hevent.trans hexact.1.symm))
        hexact.2.symm rfl hedge.symm)
    next h =>
      rw [if_neg (mt hlt.1 h)]
      exact congrArg some (RowStamp.ext hexact.1.symm hexact.2.symm rfl hedge.symm)

/-- Where nothing overflows there is a stamp. -/
theorem exists_stamp {recv event threshold : Int64} (he : 0 < event.toInt)
    (ht : 0 < threshold.toInt) (h : Computable recv event threshold) :
    ∃ s, stampRowTime recv event threshold = some s := by
  obtain ⟨eventNs, hevent⟩ := Checked.exists_word_iff.2 ⟨by omega, h.event⟩
  obtain ⟨aheadNs, hahead⟩ := Checked.exists_word_iff.2 h.ahead
  obtain ⟨lagMs, -, hlag⟩ := Checked.exists_div (a := aheadNs) (b := 1000000) (by decide)
  rw [Checked.word_eq_some_iff] at hevent hahead
  rw [hahead] at hlag
  by_cases hA : Ahead recv event threshold
  · refine ⟨{ timeUtcNs := eventNs, corrected := true, lagMs := lagMs },
      (stampRowTime_compared he ht).2 ⟨h, ?_, rfl, hlag⟩⟩
    rw [Exact, if_pos hA]
    exact ⟨hevent, rfl⟩
  · refine ⟨{ timeUtcNs := recv, lagMs := lagMs },
      (stampRowTime_compared he ht).2 ⟨h, ?_, rfl, hlag⟩⟩
    rw [Exact, if_neg hA]
    exact ⟨rfl, rfl⟩

/-- For the receive times of a real clock and the thresholds in use the stamp is computed, and
exact, up to an event time of 9223372036854 ms; past it the first product overflows. -/
theorem stampRowTime_exact_iff (recv event threshold : Int64) (hr : 0 ≤ recv.toInt)
    (ht : 0 < threshold.toInt) (ht' : threshold.toInt ≤ 1000000000) :
    (∃ s, stampRowTime recv event threshold = some s ∧ Exact recv event threshold s) ↔
      event.toInt ≤ 9223372036854 := by
  by_cases he : 0 < event.toInt
  · have hcomp : Computable recv event threshold ↔ event.toInt ≤ 9223372036854 := by
      have := recv.toInt_lt
      constructor
      · intro h
        have := h.event
        omega
      · intro h
        exact { event := by omega, ahead := by omega, threshold := by omega }
    rw [← hcomp]
    constructor
    · rintro ⟨s, hs, -⟩
      exact ((stampRowTime_compared he ht).1 hs).1
    · intro h
      obtain ⟨s, hs⟩ := exists_stamp he ht h
      exact ⟨s, hs, ((stampRowTime_compared he ht).1 hs).2.1⟩
  · have hs : stampRowTime recv event threshold = some { timeUtcNs := recv } :=
      stampRowTime_uncompared fun h => he h.1
    refine iff_of_true ⟨_, hs, ?_⟩ (by omega)
    rw [Exact, if_neg (fun h => he h.1)]
    exact ⟨rfl, rfl⟩

theorem stampRowTime_exact_now :
    0 ≤ (1700000000000000000 : Int64).toInt ∧ 0 < (2000 : Int64).toInt ∧
      (2000 : Int64).toInt ≤ 1000000000 ∧
      ∃ s, stampRowTime 1700000000000000000 1700000003000 2000 = some s ∧
        Exact 1700000000000000000 1700000003000 2000 s :=
  ⟨by decide, by decide, by decide,
    (stampRowTime_exact_iff 1700000000000000000 1700000003000 2000 (by decide) (by decide)
      (by decide)).2 (by decide)⟩

/-- An event time in microseconds overflows. -/
theorem stampRowTime_microseconds :
    ¬ ∀ recv event threshold : Int64, 0 ≤ recv.toInt → 0 < threshold.toInt →
      threshold.toInt ≤ 1000000000 →
        ∃ s, stampRowTime recv event threshold = some s ∧ Exact recv event threshold s := by
  intro h
  obtain ⟨s, hs, -⟩ := h 1700000000000000000 1700000000000000 2000 (by decide) (by decide)
    (by decide)
  have hnone : stampRowTime 1700000000000000000 1700000000000000 2000 = none := by decide +kernel
  rw [hnone] at hs
  cases hs

end TickToSignal.Handler
