import TickToSignal.Handler.RowClock
import Mathlib.Data.List.Basic
import Mathlib.Logic.Function.Basic

/-!
# How far one event time reaches

The clock remembers the last usable event time for the rows that have none, so
one event time can be that of many rows. Two runs that differ in the time of
one event are compared row by row.

## Implementation notes

The events are names, and a run takes their times as an argument. One event can
stand behind several operations: it is noted when it arrives, and every row of
the book it leads to has its time as its own. A run in which a stamp overflows
has no rows.
-/

namespace TickToSignal.Handler

variable {ν : Type*}

/-- What a handler does with its clock. -/
inductive ClockOp (ν : Type*)
  | noteEvent (event : ν)
  /-- a live row or a heartbeat has an event; an invalid or backfilled row has none -/
  | stamp (recvTimeUtcNs : Int64) (own : Option ν)
  deriving DecidableEq

/-- The own event time of a row, 0 when it has none. -/
def ownTime (time : ν → Int64) (own : Option ν) : Int64 :=
  own.elim 0 time

/-- The stamps of the rows, in order. -/
def runClock (time : ν → Int64) : List (ClockOp ν) → RowClock → Option (List RowStamp)
  | [], _ => some []
  | .noteEvent event :: ops, c => runClock time ops (c.noteEvent (time event))
  | .stamp recv own :: ops, c => do
      let (s, c) ← c.stamp recv (ownTime time own)
      let rows ← runClock time ops c
      return s :: rows

/-- How many rows have another time in the second list. -/
def differing (rows rows' : List RowStamp) : Nat :=
  (rows.zip rows').countP fun p => decide (p.1.timeUtcNs ≠ p.2.timeUtcNs)

/-- Both runs have their rows, and at most one row has another time. -/
def AtMostOneDiffers (threshold : Int64) (ops : List (ClockOp ν)) (time time' : ν → Int64) :
    Prop :=
  ∃ rows rows', runClock time ops { thresholdMs := threshold } = some rows ∧
    runClock time' ops { thresholdMs := threshold } = some rows' ∧ differing rows rows' ≤ 1

/-- The later of two event times, where an unusable one does not count. -/
def usable (last t : Int64) : Int64 :=
  if hasEventTime t then t else last

/-- For each row its receive time and the event time it is compared with: its own, or the last
usable one before it. -/
def references (time : ν → Int64) : List (ClockOp ν) → Int64 → List (Int64 × Int64)
  | [], _ => []
  | .noteEvent event :: ops, last => references time ops (usable last (time event))
  | .stamp recv own :: ops, last =>
      (recv, usable last (ownTime time own)) ::
        references time ops (usable last (ownTime time own))

/-- The comparison of a row, when it takes place, does not overflow. -/
def Stampable (threshold : Int64) (p : Int64 × Int64) : Prop :=
  0 < p.2.toInt → 0 < threshold.toInt → Computable p.1 p.2 threshold

/-- A row is compared with another event time, and one of the two is ahead. -/
def Moves (threshold : Int64) (p q : Int64 × Int64) : Prop :=
  p.2 ≠ q.2 ∧ 0 < threshold.toInt ∧ (Ahead p.1 p.2 threshold ∨ Ahead q.1 q.2 threshold)

instance decidableMoves (threshold : Int64) (p q : Int64 × Int64) :
    Decidable (Moves threshold p q) :=
  inferInstanceAs (Decidable (_ ∧ _))

namespace RowClock

@[simp] theorem noteEvent_lastEventMs (t : Int64) (c : RowClock) :
    (c.noteEvent t).lastEventMs = usable c.lastEventMs t := by
  unfold noteEvent usable
  split <;> rfl

@[simp] theorem noteEvent_thresholdMs (t : Int64) (c : RowClock) :
    (c.noteEvent t).thresholdMs = c.thresholdMs := by
  unfold noteEvent
  split <;> rfl

/-- Of the clock only the last event time decides the time of a row. -/
theorem stamp_time (recv own : Int64) (c : RowClock) :
    (c.stamp recv own).map (fun p => (p.1.timeUtcNs, p.2.lastEventMs, p.2.thresholdMs)) =
      (stampRowTime recv (usable c.lastEventMs own) c.thresholdMs).map
        (fun s => (s.timeUtcNs, usable c.lastEventMs own, c.thresholdMs)) := by
  have href : (if hasEventTime own then own else (c.noteEvent own).lastEventMs) =
      usable c.lastEventMs own := by
    rw [noteEvent_lastEventMs]
    unfold usable
    split <;> rfl
  unfold stamp
  dsimp only
  rw [href, noteEvent_thresholdMs]
  cases stampRowTime recv (usable c.lastEventMs own) c.thresholdMs with
  | none => rfl
  | some s =>
      dsimp only
      split
      · simp
      · split
        · simp
        · simp

theorem of_stamp {recv own : Int64} {c c' : RowClock} {s : RowStamp}
    (h : c.stamp recv own = some (s, c')) :
    (∃ s₀, stampRowTime recv (usable c.lastEventMs own) c.thresholdMs = some s₀ ∧
      s₀.timeUtcNs = s.timeUtcNs) ∧
      c'.lastEventMs = usable c.lastEventMs own ∧ c'.thresholdMs = c.thresholdMs := by
  have ht := stamp_time recv own c
  rw [h, Option.map_some, eq_comm, Option.map_eq_some_iff] at ht
  obtain ⟨s₀, hs₀, he⟩ := ht
  simp only [Prod.mk.injEq] at he
  exact ⟨⟨s₀, hs₀, he.1⟩, he.2.1.symm, he.2.2.symm⟩

theorem exists_stamp {recv own : Int64} {c : RowClock} {s₀ : RowStamp}
    (h : stampRowTime recv (usable c.lastEventMs own) c.thresholdMs = some s₀) :
    ∃ s c', c.stamp recv own = some (s, c') := by
  have ht := stamp_time recv own c
  rw [h, Option.map_some, Option.map_eq_some_iff] at ht
  obtain ⟨p, hp, -⟩ := ht
  exact ⟨p.1, p.2, hp⟩

end RowClock

/-- The time of a stamp: that of the event while it is ahead, else the receive time. -/
theorem time_of_stampRowTime {recv ref threshold : Int64} {s : RowStamp}
    (h : stampRowTime recv ref threshold = some s) :
    s.timeUtcNs.toInt =
      if 0 < threshold.toInt ∧ Ahead recv ref threshold then ref.toInt * 1000000
      else recv.toInt := by
  by_cases hc : 0 < ref.toInt ∧ 0 < threshold.toInt
  · obtain ⟨-, hexact, -, -⟩ := (stampRowTime_compared hc.1 hc.2).1 h
    unfold Exact at hexact
    split at hexact
    next ha => rw [if_pos ⟨hc.2, ha⟩, hexact.1]
    next ha => rw [if_neg (fun h => ha h.2), hexact.1]
  · rw [stampRowTime_uncompared hc] at h
    obtain rfl := Option.some.inj h
    rw [if_neg (fun h => hc ⟨h.2.1, h.1⟩)]

/-- One row has different times in two runs exactly when it moves. -/
theorem time_ne_iff_moves {recv ref ref' threshold : Int64} {s s' : RowStamp}
    (h : stampRowTime recv ref threshold = some s)
    (h' : stampRowTime recv ref' threshold = some s') :
    s.timeUtcNs ≠ s'.timeUtcNs ↔ Moves threshold (recv, ref) (recv, ref') := by
  rw [ne_eq, ← Int64.toInt_inj, time_of_stampRowTime h, time_of_stampRowTime h', Moves, ne_eq,
    ← Int64.toInt_inj]
  dsimp only [Ahead]
  split_ifs <;> omega

theorem stampable_iff {recv ref threshold : Int64} :
    (∃ s, stampRowTime recv ref threshold = some s) ↔ Stampable threshold (recv, ref) := by
  constructor
  · rintro ⟨s, hs⟩ he ht
    exact ((stampRowTime_compared he ht).1 hs).1
  · intro h
    by_cases hc : 0 < ref.toInt ∧ 0 < threshold.toInt
    · exact exists_stamp hc.1 hc.2 (h hc.1 hc.2)
    · exact ⟨_, stampRowTime_uncompared hc⟩

/-- A run that starts with a row. -/
theorem runClock_stamp_iff {time : ν → Int64} {recv : Int64} {own : Option ν}
    {ops : List (ClockOp ν)} {c : RowClock} {rows : List RowStamp} :
    runClock time (.stamp recv own :: ops) c = some rows ↔
      ∃ s c' rest, c.stamp recv (ownTime time own) = some (s, c') ∧
        runClock time ops c' = some rest ∧ s :: rest = rows := by
  rw [runClock, Option.bind_eq_bind, Option.bind_eq_some_iff]
  constructor
  · rintro ⟨⟨s, c'⟩, hs, hrest⟩
    obtain ⟨rest, hrest, hrows⟩ := Option.bind_eq_some_iff.mp hrest
    exact ⟨s, c', rest, hs, hrest, Option.some.inj hrows⟩
  · rintro ⟨s, c', rest, hs, hrest, rfl⟩
    exact ⟨(s, c'), hs, Option.bind_eq_some_iff.mpr ⟨rest, hrest, rfl⟩⟩

/-- A run has its rows exactly when no comparison of a row overflows. -/
theorem exists_rows_iff (time : ν → Int64) (ops : List (ClockOp ν)) (c : RowClock) :
    (∃ rows, runClock time ops c = some rows) ↔
      ∀ p ∈ references time ops c.lastEventMs, Stampable c.thresholdMs p := by
  induction ops generalizing c with
  | nil => simp [runClock, references]
  | cons op ops ih =>
      cases op with
      | noteEvent event =>
          simpa only [runClock, references, RowClock.noteEvent_lastEventMs,
            RowClock.noteEvent_thresholdMs] using ih (c.noteEvent (time event))
      | stamp recv own =>
          rw [references, List.forall_mem_cons, ← stampable_iff]
          constructor
          · rintro ⟨rows, h⟩
            obtain ⟨s, c', rest, hs, hrest, -⟩ := runClock_stamp_iff.mp h
            obtain ⟨⟨s₀, hs₀, -⟩, hlast, hthr⟩ := RowClock.of_stamp hs
            refine ⟨⟨s₀, hs₀⟩, ?_⟩
            rw [← hlast, ← hthr]
            exact (ih c').1 ⟨rest, hrest⟩
          · rintro ⟨⟨s₀, hs₀⟩, hall⟩
            obtain ⟨s, c', hs⟩ := RowClock.exists_stamp hs₀
            obtain ⟨-, hlast, hthr⟩ := RowClock.of_stamp hs
            rw [← hlast, ← hthr] at hall
            obtain ⟨rest, hrest⟩ := (ih c').2 hall
            exact ⟨s :: rest, runClock_stamp_iff.mpr ⟨s, c', rest, hs, hrest, rfl⟩⟩

/-- The rows that have another time are those that move. -/
theorem differing_eq {time time' : ν → Int64} {ops : List (ClockOp ν)} {c c' : RowClock}
    {rows rows' : List RowStamp} (h : runClock time ops c = some rows)
    (h' : runClock time' ops c' = some rows') (hc : c'.thresholdMs = c.thresholdMs) :
    differing rows rows' =
      ((references time ops c.lastEventMs).zip (references time' ops c'.lastEventMs)).countP
        fun p => decide (Moves c.thresholdMs p.1 p.2) := by
  induction ops generalizing c c' rows rows' with
  | nil =>
      obtain rfl := Option.some.inj h
      rfl
  | cons op ops ih =>
      cases op with
      | noteEvent event =>
          have := @ih (c.noteEvent (time event)) (c'.noteEvent (time' event)) rows rows' h h'
            (by simpa using hc)
          simpa [references] using this
      | stamp recv own =>
          obtain ⟨s, d, rest, hs, hrest, rfl⟩ := runClock_stamp_iff.mp h
          obtain ⟨s', d', rest', hs', hrest', rfl⟩ := runClock_stamp_iff.mp h'
          obtain ⟨⟨s₀, hs₀, ht⟩, hlast, hthr⟩ := RowClock.of_stamp hs
          obtain ⟨⟨s₀', hs₀', ht'⟩, hlast', hthr'⟩ := RowClock.of_stamp hs'
          have hih := ih hrest hrest' (by rw [hthr, hthr', hc])
          rw [hlast, hlast', hthr] at hih
          have hrow := time_ne_iff_moves hs₀ (hc ▸ hs₀')
          rw [ht, ht'] at hrow
          simp only [references, differing, List.zip_cons_cons, List.countP_cons] at hih ⊢
          rw [hih]
          simp only [hrow]

/-- The stamped times of two runs that differ in the time of one event differ in at most one
row exactly when both runs compute all their stamps and at most one row is compared with
another event time of which one is ahead. -/
theorem one_event_one_row_iff [DecidableEq ν] (threshold : Int64) (ops : List (ClockOp ν))
    (time : ν → Int64) (event : ν) (eventTimeMs : Int64) :
    AtMostOneDiffers threshold ops time (Function.update time event eventTimeMs) ↔
      (∀ p ∈ references time ops 0, Stampable threshold p) ∧
      (∀ p ∈ references (Function.update time event eventTimeMs) ops 0, Stampable threshold p) ∧
      ((references time ops 0).zip
          (references (Function.update time event eventTimeMs) ops 0)).countP
        (fun p => decide (Moves threshold p.1 p.2)) ≤ 1 := by
  have hrun := exists_rows_iff time ops { thresholdMs := threshold }
  have hrun' := exists_rows_iff (Function.update time event eventTimeMs) ops
    { thresholdMs := threshold }
  constructor
  · rintro ⟨rows, rows', h, h', hle⟩
    refine ⟨hrun.1 ⟨rows, h⟩, hrun'.1 ⟨rows', h'⟩, ?_⟩
    rw [differing_eq h h' rfl] at hle
    exact hle
  · rintro ⟨hall, hall', hle⟩
    obtain ⟨rows, h⟩ := hrun.2 hall
    obtain ⟨rows', h'⟩ := hrun'.2 hall'
    refine ⟨rows, rows', h, h', ?_⟩
    rw [differing_eq h h' rfl]
    exact hle

/-- A live trade and a backfilled one: an event time ten seconds ahead moves both rows. -/
theorem bad_event_two_rows :
    ¬ AtMostOneDiffers 2000
      [ClockOp.stamp 1700000000000000000 (some ()), ClockOp.stamp 1700000001000000000 none]
      (fun _ => 1700000000000) (Function.update (fun _ => 1700000000000) () 1700000010000) := by
  rintro ⟨rows, rows', h, h', hle⟩
  rw [differing_eq h h' rfl] at hle
  exact absurd hle (by decide +kernel)

end TickToSignal.Handler
