import TickToSignal.Foundation.Recent
import Mathlib.Algebra.Order.BigOperators.Group.List
import Mathlib.Algebra.Order.Ring.Int
import Mathlib.Data.List.Dedup
import Mathlib.Data.Prod.Lex
import Mathlib.Data.String.Basic

/-!
# Recent incidents

Every problem is recorded as an incident with its time. Health looks at those of
the last `windowSec` seconds. The log is bounded by its number of rows, the
question is about a time, so a number is too small exactly when a row that was
cut off is still in the window.

## Implementation notes

Times are nanoseconds; the clock that `.inc.add` and `.inc.since` read is an
argument. Symbols are of any ordered type, and sums are unbounded.
-/

namespace TickToSignal.Tp

open Foundation

/-- A row of the incident log. -/
structure Incident (Src Kind : Type*) where
  time : Int
  src : Src
  kind : Kind
  n : Int
  deriving DecidableEq, Repr

structure IncCfg where
  windowSec : Int := 3600
  maxRows : Nat := 20000

/-- A row of `.inc.recent[]`, which is keyed by source and kind. -/
structure RecentRow (Src Kind : Type*) where
  src : Src
  kind : Kind
  n : Int
  lastTime : Option Int
  deriving DecidableEq, Repr

variable {Src Kind : Type*}

def Incident.key (r : Incident Src Kind) : Src × Kind := (r.src, r.kind)

namespace Inc

variable (cfg : IncCfg) (now : Int)

/-- `.inc.add`. -/
def add (src : Src) (kind : Kind) (n : Int) (log : List (Incident Src Kind)) :
    List (Incident Src Kind) :=
  if n ≤ 0 then log
  else pushTrim cfg.maxRows (cfg.maxRows / 2) log { time := now, src := src, kind := kind, n := n }

/-- `.inc.since`. -/
def since : Int := now - 1000000000 * cfg.windowSec

/-- The log after a sequence of calls, each at its own time. -/
def record (calls : List (Incident Src Kind)) : List (Incident Src Kind) :=
  calls.foldl (fun log c => add cfg c.time c.src c.kind c.n log) []

section Queries
variable [LinearOrder Src] [LinearOrder Kind]

/-- `.inc.recent`: the sums by source and kind, in the order of the keys. -/
def recent (log : List (Incident Src Kind)) : List (RecentRow Src Kind) :=
  let rows := log.filter fun r => since cfg now < r.time
  let keys := (rows.map Incident.key).dedup.mergeSort fun a b => toLex a ≤ toLex b
  keys.map fun k =>
    let group := rows.filter fun r => r.key = k
    { src := k.1
      kind := k.2
      n := (group.map Incident.n).sum
      lastTime := (group.map Incident.time).max? }

/-- `.inc.count`. -/
def count (kinds : List Kind) (log : List (Incident Src Kind)) : Int :=
  ((log.filter fun r => since cfg now < r.time ∧ r.kind ∈ kinds).map Incident.n).sum

/-- The number that is reported for a source and a kind; without a row it is zero. -/
def reported (src : Src) (kind : Kind) (log : List (Incident Src Kind)) : Int :=
  ((recent cfg now log).find? fun r => r.src = src ∧ r.kind = kind).elim 0 RecentRow.n

end Queries

/-- What `.health[]` of TP says. -/
inductive Health
  | ok
  | degraded
  deriving DecidableEq, Repr

/-- `.health`: degraded by recent incidents of three kinds, by the disk or by the clock. -/
def health (diskLow skewHigh : Bool) (log : List (Incident String String)) : Health :=
  if 0 < count cfg now ["schemaMismatch", "rejectedRegistration", "missed"] log then .degraded
  else if diskLow then .degraded
  else if skewHigh then .degraded
  else .ok

/-! ## The numbers that are due -/

/-- The incident was added within the last `windowSec` seconds. -/
def InWindow (r : Incident Src Kind) : Prop := since cfg now < r.time

instance (r : Incident Src Kind) : Decidable (InWindow cfg now r) :=
  inferInstanceAs (Decidable (since cfg now < r.time))

/-- The sum of the counts in the window, over the incidents that pass a test. -/
def windowSum (p : Incident Src Kind → Bool) (calls : List (Incident Src Kind)) : Int :=
  ((calls.filter fun r => InWindow cfg now r ∧ p r = true).map Incident.n).sum

variable {cfg now}

theorem windowSum_append (p : Incident Src Kind → Bool) (lost log : List (Incident Src Kind)) :
    windowSum cfg now p (lost ++ log) = windowSum cfg now p lost + windowSum cfg now p log := by
  rw [windowSum, List.filter_append, List.map_append, List.sum_append]
  rfl

/-- Counts are positive, so a sum with an incident in it is. -/
theorem windowSum_pos {p : Incident Src Kind → Bool} {log : List (Incident Src Kind)}
    (hpos : ∀ r ∈ log, 0 < r.n) {c : Incident Src Kind} (hc : c ∈ log) (hp : p c = true)
    (hin : InWindow cfg now c) : 0 < windowSum cfg now p log := by
  have hmem : c ∈ log.filter fun r => InWindow cfg now r ∧ p r = true :=
    List.mem_filter.mpr ⟨hc, decide_eq_true ⟨hin, hp⟩⟩
  refine List.sum_pos _ (fun n hn => ?_) (List.ne_nil_of_mem (List.mem_map_of_mem hmem))
  obtain ⟨r, hr, rfl⟩ := List.mem_map.mp hn
  exact hpos r (List.mem_filter.mp hr).1

/-- Counts are positive, so a sum without some incidents is right only if none of them belongs to
it. -/
theorem windowSum_eq_iff (p : Incident Src Kind → Bool) {lost log : List (Incident Src Kind)}
    (hpos : ∀ c ∈ lost, 0 < c.n) :
    windowSum cfg now p log = windowSum cfg now p (lost ++ log) ↔
      ∀ c ∈ lost, p c = true → ¬ InWindow cfg now c := by
  rw [windowSum_append, eq_comm, add_eq_right]
  constructor
  · intro hzero c hc hp hin
    exact absurd hzero (windowSum_pos hpos hc hp hin).ne'
  · intro hnone
    have hempty : (lost.filter fun r => InWindow cfg now r ∧ p r = true) = [] :=
      List.filter_eq_nil_iff.mpr fun c hc hboth =>
        have hboth := of_decide_eq_true hboth
        hnone c hc hboth.2 hboth.1
    rw [windowSum, hempty]
    rfl

section Queries
variable [LinearOrder Src] [LinearOrder Kind]

omit [LinearOrder Src] in
theorem count_eq (kinds : List Kind) (log : List (Incident Src Kind)) :
    count cfg now kinds log = windowSum cfg now (fun r => decide (r.kind ∈ kinds)) log := by
  simp only [count, windowSum, InWindow, decide_eq_true_eq]

/-- The group of a key in the window. -/
theorem filter_key (k : Src × Kind) (log : List (Incident Src Kind)) :
    (log.filter fun r => since cfg now < r.time).filter (fun r => decide (r.key = k)) =
      log.filter fun r => InWindow cfg now r ∧ decide (r.key = k) = true := by
  rw [List.filter_filter]
  refine List.filter_congr fun r _ => ?_
  simp only [InWindow, decide_eq_true_eq, Bool.decide_and, Bool.and_comm]

/-- The row of a key holds the sum of its counts. -/
theorem reported_eq (src : Src) (kind : Kind) (log : List (Incident Src Kind)) :
    reported cfg now src kind log =
      windowSum cfg now (fun r => decide (r.key = (src, kind))) log := by
  rw [reported, recent, windowSum, ← filter_key]
  dsimp only
  rw [List.find?_map]
  cases hfind : (((log.filter fun r => since cfg now < r.time).map Incident.key).dedup.mergeSort
      fun a b => toLex a ≤ toLex b).find? _ with
  | none =>
      have hempty : (log.filter fun r => since cfg now < r.time).filter
          (fun r => decide (r.key = (src, kind))) = [] := by
        refine List.filter_eq_nil_iff.mpr fun r hr hkey => ?_
        have hkey := of_decide_eq_true hkey
        have habsent := List.find?_eq_none.mp hfind r.key
          (List.mem_mergeSort.mpr (List.mem_dedup.mpr (List.mem_map_of_mem hr)))
        rw [hkey] at habsent
        exact habsent (decide_eq_true ⟨rfl, rfl⟩)
      rw [hempty]
      rfl
  | some k =>
      have hfound := List.find?_some hfind
      have hkey : k.1 = src ∧ k.2 = kind := of_decide_eq_true hfound
      have hk : k = (src, kind) := Prod.ext hkey.1 hkey.2
      rw [hk]
      rfl

end Queries

/-- An incident of one of the three kinds degrades health as long as the log holds it and it is in
the window. -/
theorem health_degraded_of_mem {log : List (Incident String String)} (hpos : ∀ r ∈ log, 0 < r.n)
    {c : Incident String String} (hc : c ∈ log) (hin : InWindow cfg now c)
    (hkind : c.kind ∈ ["schemaMismatch", "rejectedRegistration", "missed"])
    (diskLow skewHigh : Bool) : health cfg now diskLow skewHigh log = .degraded := by
  rw [health, count_eq, if_pos (windowSum_pos hpos hc (decide_eq_true hkind) hin)]

/-! ## What the log holds -/

theorem record_eq {calls : List (Incident Src Kind)} (hpos : ∀ c ∈ calls, 0 < c.n) :
    record cfg calls = newest (kept cfg.maxRows (cfg.maxRows / 2) calls.length) calls := by
  rw [← foldl_pushTrim (Nat.div_le_self _ _), record]
  refine List.foldl_ext _ _ _ fun log c hc => ?_
  exact if_neg (not_le.mpr (hpos c hc))

/-- The rows that were cut off, and what is left. -/
theorem exists_lost (cfg : IncCfg) {calls : List (Incident Src Kind)}
    (hpos : ∀ c ∈ calls, 0 < c.n) :
    ∃ lost, calls = lost ++ record cfg calls ∧
      (record cfg calls).length = kept cfg.maxRows (cfg.maxRows / 2) calls.length := by
  rw [record_eq hpos]
  refine ⟨_, (List.take_append_drop _ calls).symm, ?_⟩
  exact length_newest (kept_le (Nat.div_le_self _ _) _)

/-- With at most `maxRows / 2` incidents in the window, none of them was cut off. -/
theorem lost_of_few {calls lost : List (Incident Src Kind)} (hpos : ∀ c ∈ calls, 0 < c.n)
    (hsorted : calls.Pairwise fun a b => a.time ≤ b.time) (heq : calls = lost ++ record cfg calls)
    (hfew : (calls.filter fun c => InWindow cfg now c).length ≤ cfg.maxRows / 2) :
    ∀ c ∈ lost, ¬ InWindow cfg now c := by
  have hclosed : calls.Pairwise fun a b =>
      decide (InWindow cfg now a) = true → decide (InWindow cfg now b) = true := by
    refine hsorted.imp fun {a b} hab ha => ?_
    have ha := of_decide_eq_true ha
    exact decide_eq_true (lt_of_lt_of_le ha hab)
  have hkept : (calls.filter fun c => InWindow cfg now c).length ≤
      kept cfg.maxRows (cfg.maxRows / 2) calls.length :=
    (le_min hfew (List.length_filter_le _ _)).trans (min_le_kept _)
  have hsame := filter_newest hclosed hkept
  rw [← record_eq hpos] at hsame
  have hlength := congrArg (fun l => (l.filter fun c => InWindow cfg now c).length) heq
  simp only [List.filter_append, List.length_append, hsame] at hlength
  intro c hc hin
  have hmem : c ∈ lost.filter fun c => InWindow cfg now c :=
    List.mem_filter.mpr ⟨hc, decide_eq_true hin⟩
  have hone := List.length_pos_of_mem hmem
  omega

section Complete
variable [LinearOrder Src] [LinearOrder Kind]

/-- The log is the newest part of what was added: all of it up to `maxRows` incidents. A number is
the sum of all counts in the window exactly if no incident of its source and kind, or of its kinds,
was cut off that is still in the window. None was while the window holds at most `maxRows / 2`
incidents. -/
theorem recent_complete_iff (cfg : IncCfg) {calls : List (Incident Src Kind)}
    (hpos : ∀ c ∈ calls, 0 < c.n) (hsorted : calls.Pairwise fun a b => a.time ≤ b.time)
    (now : Int) :
    ∃ lost, calls = lost ++ record cfg calls ∧
      (calls.length ≤ cfg.maxRows → lost = []) ∧
      (∀ src kind, reported cfg now src kind (record cfg calls) =
          windowSum cfg now (fun r => decide (r.key = (src, kind))) calls ↔
        ∀ c ∈ lost, c.key = (src, kind) → ¬ InWindow cfg now c) ∧
      (∀ kinds, count cfg now kinds (record cfg calls) =
          windowSum cfg now (fun r => decide (r.kind ∈ kinds)) calls ↔
        ∀ c ∈ lost, c.kind ∈ kinds → ¬ InWindow cfg now c) ∧
      ((calls.filter fun c => InWindow cfg now c).length ≤ cfg.maxRows / 2 →
        ∀ c ∈ lost, ¬ InWindow cfg now c) := by
  obtain ⟨lost, heq, hlength⟩ := exists_lost cfg hpos
  have hlost : ∀ c ∈ lost, 0 < c.n := fun c hc =>
    hpos c (heq ▸ List.mem_append_left _ hc)
  have hiff : ∀ p : Incident Src Kind → Bool,
      windowSum cfg now p (record cfg calls) = windowSum cfg now p calls ↔
        ∀ c ∈ lost, p c = true → ¬ InWindow cfg now c := by
    intro p
    have hall : windowSum cfg now p calls = windowSum cfg now p (lost ++ record cfg calls) :=
      congrArg _ heq
    rw [hall]
    exact windowSum_eq_iff p hlost
  refine ⟨lost, heq, fun hfew => ?_, fun src kind => ?_, fun kinds => ?_,
    lost_of_few hpos hsorted heq⟩
  · have hcalls := congrArg List.length heq
    rw [List.length_append, hlength, kept_of_le hfew] at hcalls
    exact List.length_eq_zero_iff.mp (by omega)
  · rw [reported_eq, hiff]
    simp only [decide_eq_true_eq]
  · rw [count_eq, hiff]
    simp only [decide_eq_true_eq]

end Complete

/-- Rows lost twice, and once more a day later. -/
def twiceAndLater : List (Incident String String) :=
  [{ time := 0, src := "trade_binance", kind := "missed", n := 3 },
    { time := 1, src := "trade_binance", kind := "missed", n := 2 },
    { time := 86400000000000, src := "trade_binance", kind := "missed", n := 1 }]

theorem recent_complete_of_three :
    ∃ lost, twiceAndLater = lost ++ record {} twiceAndLater ∧
      (twiceAndLater.length ≤ ({} : IncCfg).maxRows → lost = []) ∧
      (∀ src kind, reported {} 86400000000000 src kind (record {} twiceAndLater) =
          windowSum {} 86400000000000 (fun r => decide (r.key = (src, kind))) twiceAndLater ↔
        ∀ c ∈ lost, c.key = (src, kind) → ¬ InWindow {} 86400000000000 c) ∧
      (∀ kinds, count {} 86400000000000 kinds (record {} twiceAndLater) =
          windowSum {} 86400000000000 (fun r => decide (r.kind ∈ kinds)) twiceAndLater ↔
        ∀ c ∈ lost, c.kind ∈ kinds → ¬ InWindow {} 86400000000000 c) ∧
      ((twiceAndLater.filter fun c => InWindow {} 86400000000000 c).length ≤
          ({} : IncCfg).maxRows / 2 → ∀ c ∈ lost, ¬ InWindow {} 86400000000000 c) :=
  recent_complete_iff {} (by decide) (by decide) 86400000000000

/-- A row that is out of order. -/
def outOfOrder : Incident String String :=
  { time := 0, src := "quote_binance", kind := "outOfOrder", n := 1 }

/-- A lost row, and then 20000 rows out of order in the same second. -/
def missedThenOutOfOrder : List (Incident String String) :=
  { time := 0, src := "trade_binance", kind := "missed", n := 1 } ::
    List.replicate 20000 outOfOrder

theorem missedThenOutOfOrder_pos : ∀ c ∈ missedThenOutOfOrder, 0 < c.n := by
  intro c hc
  rcases List.mem_cons.mp hc with rfl | hc
  · decide
  · rw [List.eq_of_mem_replicate hc]
    decide

/-- The log is cut back to 10000 rows, and the lost row is not among them. -/
theorem record_missedThenOutOfOrder :
    record {} missedThenOutOfOrder = List.replicate 10000 outOfOrder := by
  have hlength : missedThenOutOfOrder.length = 20000 + 1 := by
    rw [missedThenOutOfOrder, List.length_cons, List.length_replicate]
  have hkept : kept 20000 10000 (20000 + 1) = 10000 := by
    rw [kept, kept_of_le le_rfl, if_pos (Nat.lt_succ_self _)]
  have hrecord : record {} missedThenOutOfOrder =
      newest (kept 20000 10000 missedThenOutOfOrder.length) missedThenOutOfOrder :=
    record_eq missedThenOutOfOrder_pos
  rw [hrecord, hlength, hkept, newest, hlength, missedThenOutOfOrder]
  change ((_ :: List.replicate 20000 outOfOrder).drop (10000 + 1)) = _
  rw [List.drop_succ_cons, List.drop_replicate]

/-- No sum that leaves these rows out has anything else. -/
theorem windowSum_outOfOrder {now : Int} {p : Incident String String → Bool}
    (hp : p outOfOrder = false) (n : Nat) :
    windowSum {} now p (List.replicate n outOfOrder) = 0 := by
  rw [windowSum, List.filter_replicate_of_neg (by simp [hp])]
  rfl

/-- The lost row is not reported, one second after it, and health is back at ok. -/
theorem missed_row_forgotten :
    (∀ c ∈ missedThenOutOfOrder, 0 < c.n) ∧
      missedThenOutOfOrder.Pairwise (fun a b => a.time ≤ b.time) ∧
      reported {} 1000000000 "trade_binance" "missed" (record {} missedThenOutOfOrder) = 0 ∧
      windowSum {} 1000000000 (fun r => decide (r.key = ("trade_binance", "missed")))
        missedThenOutOfOrder = 1 ∧
      health {} 1000000000 false false (record {} missedThenOutOfOrder) = .ok := by
  refine ⟨missedThenOutOfOrder_pos, ?_, ?_, ?_, ?_⟩
  · refine List.pairwise_cons.mpr ⟨fun c hc => ?_, List.pairwise_replicate.mpr (.inr le_rfl)⟩
    rw [List.eq_of_mem_replicate hc]
    decide
  · rw [record_missedThenOutOfOrder, reported_eq]
    exact windowSum_outOfOrder (by decide) 10000
  · rw [missedThenOutOfOrder, ← List.singleton_append, windowSum_append,
      windowSum_outOfOrder (by decide)]
    decide
  · rw [record_missedThenOutOfOrder, health, count_eq, windowSum_outOfOrder (by decide)]
    rfl

end Inc

end TickToSignal.Tp
