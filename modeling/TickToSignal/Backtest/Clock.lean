import TickToSignal.Backtest.Position
import Mathlib.Order.Basic
import Mathlib.Data.List.Sort

/-!
# The virtual clock of the backtest

Before a trade is dispatched the clock is advanced to its time, and the funding
and timer events that fall due on the way are dispatched. All due fundings go
first and all due timers after them, so a funding can come before a timer that
is earlier. The events of a run are in time order exactly when that never
happens.

## Implementation notes

Times are nanoseconds, `none` is the null time: it is below every time, and the
null time plus an interval is null. The loop that collects the timers takes
fuel; `timersBefore` gives it as many rounds as it can need.
-/

namespace TickToSignal.Backtest

variable {S K : Type*}

/-- One historical trade. -/
structure Trade (S K : Type*) where
  sym : S
  price : K
  exchTradeTs : Int
  deriving DecidableEq, Repr

/-- One row of the funding table. -/
structure FundingRow (S K : Type*) where
  sym : S
  fundingTime : Int
  fundingRate : K
  markPrice : K
  deriving DecidableEq, Repr

/-- The preloaded funding events of one run, in time order. -/
structure FundingHistory (S K : Type*) where
  rows : List (FundingRow S K)
  sorted : rows.Pairwise fun a b => a.fundingTime ≤ b.fundingTime

/-- Preload the fundings of one symbol with a time in `[startTs, endTs)`. -/
def loadFunding [DecidableEq S] (f : List (FundingRow S K)) (wantSym : S) (startTs endTs : Int) :
    FundingHistory S K where
  rows :=
    (f.filter fun r => r.sym = wantSym ∧ startTs ≤ r.fundingTime ∧ r.fundingTime < endTs).mergeSort
      fun a b => a.fundingTime ≤ b.fundingTime
  sorted := by
    refine (List.pairwise_mergeSort ?_ ?_ _).imp fun h => of_decide_eq_true h
    · intro a b c hab hbc
      simp only [decide_eq_true_eq] at hab hbc ⊢
      exact hab.trans hbc
    · intro a b
      simpa using le_total a.fundingTime b.fundingTime

/-- A possibly null time is before a time. -/
def isBefore (t : Option Int) (ts : Int) : Bool := t.all (· < ts)

/-- Fundings after `fromTs` up to and including `toTs`. -/
def FundingHistory.between (history : FundingHistory S K) (fromTs : Option Int) (toTs : Int) :
    List (FundingRow S K) :=
  history.rows.filter fun r => isBefore fromTs r.fundingTime && decide (r.fundingTime ≤ toTs)

/-- What the framework dispatches. -/
inductive Event (S K : Type*)
  | funding (r : FundingRow S K)
  | timer (ts : Int)
  | trade (t : Trade S K)
  deriving DecidableEq, Repr

def Event.time : Event S K → Int
  | .funding r => r.fundingTime
  | .timer ts => ts
  | .trade t => t.exchTradeTs

/-- The clock and the next timer. -/
structure ClockState where
  virtualClock : Option Int := none
  nextTimerTs : Option Int := none
  deriving DecidableEq, Repr

/-- The loop that collects the timers before the target; `none` if it does not
end within the fuel. -/
def collectTimers (interval targetTs : Int) :
    Nat → List Int → Option Int → Option (List Int × Option Int)
  | 0, _, _ => none
  -- null stays below the target for ever
  | fuel + 1, timers, none => collectTimers interval targetTs fuel timers none
  | fuel + 1, timers, some next =>
      if next < targetTs then
        collectTimers interval targetTs fuel (timers ++ [next]) (some (next + interval))
      else some (timers, some next)

/-- The timers before the target and the next one after them. -/
def timersBefore (interval targetTs : Int) (next : Option Int) :
    Option (List Int × Option Int) :=
  if interval > 0 then
    collectTimers interval targetTs (next.elim 0 fun n => (targetTs - n).toNat + 1) [] next
  else some ([], next)

/-- What one call dispatches, the values the clock is set to, and the clock after it. -/
structure Dispatched (S K : Type*) where
  events : List (Event S K)
  clockSet : List Int
  clock : ClockState
  deriving DecidableEq, Repr

section
variable (interval : Int) (history : FundingHistory S K)

/-- Dispatch what falls due up to `targetTs` and move the clock there. -/
def advanceClockTo (s : ClockState) (targetTs : Int) : Option (Dispatched S K) :=
  (timersBefore interval targetTs s.nextTimerTs).map fun (timers, next) =>
    let fundings := history.between s.virtualClock targetTs
    -- the two lists are not merged: every funding is dispatched before the first timer
    let due := fundings.map Event.funding ++ timers.map Event.timer
    { events := due
      clockSet := due.map Event.time ++ [targetTs]
      clock := { virtualClock := some targetTs, nextTimerTs := next } }

/-- The clock's part of the entry point for trades. -/
def clockTrade (s : ClockState) (trade : Trade S K) : Option (Dispatched S K) :=
  if isBefore s.virtualClock trade.exchTradeTs then
    (advanceClockTo interval history s trade.exchTradeTs).map fun d =>
      { d with events := d.events ++ [.trade trade] }
  else some { events := [.trade trade], clockSet := [], clock := s }

/-- Feed trades one after the other. -/
def clockReplay (s : ClockState) : List (Trade S K) → Option (Dispatched S K)
  | [] => some { events := [], clockSet := [], clock := s }
  | t :: ts => do
      let first ← clockTrade interval history s t
      let rest ← clockReplay first.clock ts
      return { rest with
        events := first.events ++ rest.events, clockSet := first.clockSet ++ rest.clockSet }

end

section Timers
variable {interval targetTs n : Int}

/-- What the loop leaves behind when it started at `n`: the pending timers in
order, the first of them `n` itself, and the next one at or after the target. -/
structure Collected (targetTs n : Int) (timers : List Int) (next : Int) : Prop where
  sorted : timers.Pairwise (· ≤ ·)
  pending : ∀ t ∈ timers, n ≤ t ∧ t < targetTs
  first : n < targetTs → n ∈ timers
  reached : targetTs ≤ next
  onward : n ≤ next

/-- With a positive interval the loop ends once the fuel covers the way to the target. -/
theorem collectTimers_spec (hinterval : 0 < interval) {fuel : Nat} (acc : List Int)
    (hfuel : (targetTs - n).toNat < fuel) :
    ∃ timers next, collectTimers interval targetTs fuel acc (some n) =
      some (acc ++ timers, some next) ∧ Collected targetTs n timers next := by
  induction fuel generalizing n acc with
  | zero => simp at hfuel
  | succ fuel ih =>
      simp only [collectTimers]
      split_ifs with hn
      · obtain ⟨timers, next, heq, hrest⟩ :=
          ih (acc ++ [n]) (show (targetTs - (n + interval)).toNat < fuel by omega)
        refine ⟨n :: timers, next, by simpa using heq, ?_⟩
        constructor
        · refine List.pairwise_cons.mpr ⟨fun t ht => ?_, hrest.sorted⟩
          have hafter := (hrest.pending t ht).1
          omega
        · intro t ht
          rcases List.mem_cons.mp ht with rfl | ht
          · exact ⟨le_rfl, hn⟩
          · have hafter := hrest.pending t ht
            omega
        · exact fun _ => List.mem_cons_self
        · exact hrest.reached
        · have honward := hrest.onward
          omega
      · refine ⟨[], n, by simp, ?_⟩
        exact ⟨List.Pairwise.nil, by simp, fun h => absurd h hn, by omega, le_rfl⟩

/-- From a null next timer the loop never ends. -/
theorem collectTimers_null (fuel : Nat) (timers : List Int) :
    collectTimers interval targetTs fuel timers none = none := by
  induction fuel with
  | zero => rfl
  | succ fuel ih => exact ih

theorem timersBefore_spec (targetTs : Int) (hinterval : 0 < interval) :
    ∃ timers next, timersBefore interval targetTs (some n) = some (timers, some next) ∧
      Collected targetTs n timers next := by
  obtain ⟨timers, next, heq, hcollected⟩ := collectTimers_spec hinterval []
    (Nat.lt_succ_self (targetTs - n).toNat)
  refine ⟨timers, next, ?_, hcollected⟩
  simpa [timersBefore, hinterval] using heq

end Timers

section Order
variable {interval : Int} {history : FundingHistory S K} {s : ClockState} {trade : Trade S K}

/-- The clock has not passed this time. -/
def ClockState.UpTo (s : ClockState) (ts : Int) : Prop := ∀ c ∈ s.virtualClock, c ≤ ts

/-- No funding that falls due with this trade is later than a timer that does. -/
def Merged (history : FundingHistory S K) (s : ClockState) (trade : Trade S K) : Prop :=
  isBefore s.virtualClock trade.exchTradeTs = true →
    ∀ n ∈ s.nextTimerTs, n < trade.exchTradeTs →
      ∀ r ∈ history.between s.virtualClock trade.exchTradeTs, r.fundingTime ≤ n

theorem mem_between {r : FundingRow S K} {fromTs : Option Int} {toTs : Int}
    (h : r ∈ history.between fromTs toTs) :
    (∀ c ∈ fromTs, c < r.fundingTime) ∧ r.fundingTime ≤ toTs := by
  simp only [FundingHistory.between, List.mem_filter, Bool.and_eq_true, decide_eq_true_eq] at h
  refine ⟨?_, h.2.2⟩
  simpa [isBefore, Option.all_eq_true] using h.2.1

/-- The due events are in order exactly when no funding is later than the first timer. -/
theorem due_sorted_iff {fromTs : Option Int} {n next targetTs : Int} {timers : List Int}
    (h : Collected targetTs n timers next) :
    ((history.between fromTs targetTs).map FundingRow.fundingTime ++ timers).Pairwise (· ≤ ·) ↔
      (n < targetTs → ∀ r ∈ history.between fromTs targetTs, r.fundingTime ≤ n) := by
  have hfundings : ((history.between fromTs targetTs).map FundingRow.fundingTime).Pairwise
      (· ≤ ·) := List.pairwise_map.mpr (history.sorted.filter _)
  rw [List.pairwise_append]
  constructor
  · rintro ⟨-, -, hcross⟩ hn r hr
    exact hcross _ (List.mem_map_of_mem hr) n (h.first hn)
  · intro hearly
    refine ⟨hfundings, h.sorted, ?_⟩
    rintro f hf t ht
    obtain ⟨r, hr, rfl⟩ := List.mem_map.mp hf
    obtain ⟨hnt, htarget⟩ := h.pending t ht
    exact (hearly (hnt.trans_lt htarget) r hr).trans hnt

/-- What one trade dispatches lies between the old clock and the trade's time. -/
structure Dispatched.Within (d : Dispatched S K) (s : ClockState) (ts : Int) : Prop where
  clock : d.clock.virtualClock = some ts
  next : ∃ n, d.clock.nextTimerTs = some n ∧ ts ≤ n
  events : ∀ t ∈ d.events.map Event.time, s.UpTo t ∧ t ≤ ts
  clockSet : ∀ t ∈ d.clockSet, s.UpTo t ∧ t ≤ ts

/-- Everything dispatched, and every value of the clock, in time order. -/
def Dispatched.InOrder (d : Dispatched S K) : Prop :=
  (d.events.map Event.time).Pairwise (· ≤ ·) ∧ d.clockSet.Pairwise (· ≤ ·)

/-- Advancing the clock: what falls due, in order exactly when it could have been merged. -/
theorem advanceClockTo_spec (history : FundingHistory S K) (hinterval : 0 < interval)
    {n targetTs : Int}
    (hnext : s.nextTimerTs = some n) (hupTo : s.UpTo n)
    (hadvance : isBefore s.virtualClock targetTs = true) :
    ∃ d : Dispatched S K, advanceClockTo interval history s targetTs = some d ∧
      d.Within s targetTs ∧ d.clockSet = d.events.map Event.time ++ [targetTs] ∧
      ((d.events.map Event.time).Pairwise (· ≤ ·) ↔
        (n < targetTs → ∀ r ∈ history.between s.virtualClock targetTs, r.fundingTime ≤ n)) := by
  obtain ⟨timers, next, heq, hcollected⟩ := timersBefore_spec targetTs hinterval
  have hbefore : ∀ c ∈ s.virtualClock, c < targetTs := by
    simpa [isBefore, Option.all_eq_true] using hadvance
  have htimes : (((history.between s.virtualClock targetTs).map Event.funding ++
      timers.map Event.timer : List (Event S K)).map Event.time) =
        (history.between s.virtualClock targetTs).map FundingRow.fundingTime ++ timers := by
    simp [Function.comp_def, Event.time]
  have hwithin : ∀ t ∈ (history.between s.virtualClock targetTs).map FundingRow.fundingTime ++
      timers, s.UpTo t ∧ t ≤ targetTs := by
    intro t ht
    rcases List.mem_append.mp ht with ht | ht
    · obtain ⟨r, hr, rfl⟩ := List.mem_map.mp ht
      obtain ⟨hafter, hle⟩ := mem_between hr
      exact ⟨fun c hc => (hafter c hc).le, hle⟩
    · obtain ⟨hnt, hlt⟩ := hcollected.pending t ht
      exact ⟨fun c hc => (hupTo c hc).trans hnt, hlt.le⟩
  have hset : ∀ t ∈ ((history.between s.virtualClock targetTs).map FundingRow.fundingTime ++
      timers) ++ [targetTs], s.UpTo t ∧ t ≤ targetTs := by
    intro t ht
    rcases List.mem_append.mp ht with ht | ht
    · exact hwithin t ht
    · obtain rfl := List.mem_singleton.mp ht
      exact ⟨fun c hc => (hbefore c hc).le, le_rfl⟩
  refine ⟨_, by rw [advanceClockTo, hnext, heq]; rfl, ?_, rfl, ?_⟩
  · constructor
    · rfl
    · exact ⟨next, rfl, hcollected.reached⟩
    · rw [htimes]
      exact hwithin
    · rw [← htimes] at hset
      exact hset
  · rw [htimes]
    exact due_sorted_iff hcollected

/-- One trade: between the old clock and its own time, in order exactly when it
could have been merged. -/
theorem clockTrade_spec (history : FundingHistory S K) (hinterval : 0 < interval) {n : Int}
    (hnext : s.nextTimerTs = some n) (hupTo : s.UpTo n) (hts : s.UpTo trade.exchTradeTs) :
    ∃ d : Dispatched S K, clockTrade interval history s trade = some d ∧
      d.Within s trade.exchTradeTs ∧ (d.InOrder ↔ Merged history s trade) := by
  by_cases hadvance : isBefore s.virtualClock trade.exchTradeTs = true
  · obtain ⟨d, heq, hwithin, hset, hiff⟩ :=
      advanceClockTo_spec history hinterval hnext hupTo hadvance
    have hlast : ∀ t ∈ d.events.map Event.time, t ≤ trade.exchTradeTs :=
      fun t ht => (hwithin.events t ht).2
    have hsnoc : (d.events.map Event.time ++ [trade.exchTradeTs]).Pairwise (· ≤ ·) ↔
        (d.events.map Event.time).Pairwise (· ≤ ·) := by
      simpa [List.pairwise_append] using fun _ => hlast
    refine ⟨{ d with events := d.events ++ [.trade trade] },
      by simp [clockTrade, hadvance, heq], ?_, ?_⟩
    · refine ⟨hwithin.clock, hwithin.next, ?_, hwithin.clockSet⟩
      intro t ht
      simp only [List.map_append, List.map_cons, List.map_nil, List.mem_append,
        List.mem_singleton] at ht
      rcases ht with ht | rfl
      · exact hwithin.events t ht
      · exact ⟨hts, le_rfl⟩
    · have htimes : (d.events ++ [Event.trade trade]).map Event.time =
          d.events.map Event.time ++ [trade.exchTradeTs] := by simp [Event.time]
      simp only [Dispatched.InOrder, htimes, hset, hsnoc, and_self, hiff, Merged, hadvance, hnext,
        Option.mem_some_iff, forall_const, forall_eq']
  · -- the clock is at the trade's time already
    obtain ⟨c, hc, hle⟩ : ∃ c, s.virtualClock = some c ∧ trade.exchTradeTs ≤ c := by
      cases hc : s.virtualClock with
      | none => simp [isBefore, hc] at hadvance
      | some c => exact ⟨c, rfl, by simpa [isBefore, hc] using hadvance⟩
    have hsame : c = trade.exchTradeTs := le_antisymm (hts c hc) hle
    refine ⟨_, by rw [clockTrade, if_neg hadvance], ?_, ?_⟩
    · refine ⟨by simp [hc, hsame], ⟨n, hnext, hsame ▸ hupTo c hc⟩, ?_, by simp⟩
      simpa [Event.time] using hts
    · simp [Dispatched.InOrder, Merged, hadvance]

/-- Every trade of a run meets the condition in the state it finds. -/
def MergedRun (interval : Int) (history : FundingHistory S K) : ClockState → List (Trade S K) → Prop
  | _, [] => True
  | s, t :: ts =>
      Merged history s t ∧ ∀ d ∈ clockTrade interval history s t, MergedRun interval history d.clock ts

theorem clockReplay_spec (history : FundingHistory S K) (hinterval : 0 < interval)
    {trades : List (Trade S K)} {n : Int}
    (hsorted : (trades.map Trade.exchTradeTs).Pairwise (· ≤ ·)) (hnext : s.nextTimerTs = some n)
    (hupTo : s.UpTo n) (hts : ∀ t ∈ trades, s.UpTo t.exchTradeTs) :
    ∃ d : Dispatched S K, clockReplay interval history s trades = some d ∧
      (∀ t ∈ d.events.map Event.time, s.UpTo t) ∧ (∀ t ∈ d.clockSet, s.UpTo t) ∧
      (d.InOrder ↔ MergedRun interval history s trades) := by
  induction trades generalizing s n with
  | nil => exact ⟨_, rfl, by simp, by simp, by simp [Dispatched.InOrder, MergedRun]⟩
  | cons t ts ih =>
      obtain ⟨hfirst, hrest⟩ := List.pairwise_cons.mp hsorted
      obtain ⟨d, heq, hwithin, hiff⟩ :=
        clockTrade_spec history hinterval hnext hupTo (hts t List.mem_cons_self)
      have hclock : ∀ x, d.clock.UpTo x ↔ t.exchTradeTs ≤ x := by
        simp [ClockState.UpTo, hwithin.clock]
      obtain ⟨n', hnext', hle⟩ := hwithin.next
      obtain ⟨d', heq', hevents', hset', hiff'⟩ := ih hrest hnext' ((hclock n').mpr hle)
        fun u hu => (hclock _).mpr (hfirst _ (List.mem_map_of_mem hu))
      have hjoin : ∀ {xs ys : List Int}, (∀ x ∈ xs, s.UpTo x ∧ x ≤ t.exchTradeTs) →
          (∀ y ∈ ys, d.clock.UpTo y) →
          ((xs ++ ys).Pairwise (· ≤ ·) ↔ xs.Pairwise (· ≤ ·) ∧ ys.Pairwise (· ≤ ·)) ∧
            ∀ z ∈ xs ++ ys, s.UpTo z := by
        intro xs ys hxs hys
        have hcross : ∀ x ∈ xs, ∀ y ∈ ys, x ≤ y :=
          fun x hx y hy => (hxs x hx).2.trans ((hclock y).mp (hys y hy))
        refine ⟨?_, fun z hz => ?_⟩
        · rw [List.pairwise_append]
          exact and_congr_right' (and_iff_left hcross)
        · rcases List.mem_append.mp hz with hz | hz
          · exact (hxs z hz).1
          · exact fun c hc => (hts t List.mem_cons_self c hc).trans ((hclock z).mp (hys z hz))
      obtain ⟨hevents, heventsUpTo⟩ := hjoin hwithin.events hevents'
      obtain ⟨hset, hsetUpTo⟩ := hjoin hwithin.clockSet hset'
      refine ⟨{ d' with events := d.events ++ d'.events, clockSet := d.clockSet ++ d'.clockSet },
        by simp [clockReplay, heq, heq'], ?_, hsetUpTo, ?_⟩
      · simpa using heventsUpTo
      · have hrun : MergedRun interval history s (t :: ts) ↔
            Merged history s t ∧ MergedRun interval history d.clock ts := by
          simp [MergedRun, heq]
        rw [hrun, ← hiff, ← hiff']
        simp only [Dispatched.InOrder, List.map_append, hevents, hset]
        exact and_and_and_comm

end Order

/-- Trades in time order, any preloaded fundings, a positive timer interval and any
first timer: every step ends, and all events and all values of the virtual clock are
in time order exactly when no funding falls due with an earlier timer. -/
theorem events_in_order_iff {interval : Int} (hinterval : 0 < interval)
    (history : FundingHistory S K) (firstTimer : Int) {trades : List (Trade S K)}
    (hsorted : (trades.map Trade.exchTradeTs).Pairwise (· ≤ ·)) :
    ∃ run, clockReplay interval history { nextTimerTs := some firstTimer } trades = some run ∧
      ((run.events.map Event.time).Pairwise (· ≤ ·) ∧ run.clockSet.Pairwise (· ≤ ·) ↔
        MergedRun interval history { nextTimerTs := some firstTimer } trades) := by
  obtain ⟨run, heq, -, -, hiff⟩ := clockReplay_spec history
    (s := { nextTimerTs := some firstTimer }) (n := firstTimer) hinterval hsorted rfl
    (by simp [ClockState.UpTo]) (by simp [ClockState.UpTo])
  exact ⟨run, heq, hiff⟩

/-- One funding and a timer every ten, from five on. -/
def fundingAtEight : FundingHistory String Int :=
  { rows := [{ sym := "BTCUSDT", fundingTime := 8, fundingRate := 1, markPrice := 100 }]
    sorted := List.pairwise_singleton _ _ }

def tradesAt (times : List Int) : List (Trade String Int) :=
  times.map fun ts => { sym := "BTCUSDT", price := 100, exchTradeTs := ts }

/-- Trades at 0, 7 and 20: the timer at 5 is due with the trade at 7, the funding later. -/
theorem events_in_order_of_sample :
    ∃ run, clockReplay 10 fundingAtEight { nextTimerTs := some 5 } (tradesAt [0, 7, 20]) =
        some run ∧
      ((run.events.map Event.time).Pairwise (· ≤ ·) ∧ run.clockSet.Pairwise (· ≤ ·) ↔
        MergedRun 10 fundingAtEight { nextTimerTs := some 5 } (tradesAt [0, 7, 20])) :=
  events_in_order_iff (by decide) fundingAtEight 5 (by decide)

/-- Trades at 0 and 20: the funding at 8 is dispatched before the timer at 5, and the
clock goes back from 8 to 5. -/
theorem funding_before_earlier_timer :
    (clockReplay 10 fundingAtEight { nextTimerTs := some 5 } (tradesAt [0, 20])).map
        (fun run => (run.events.map Event.time, run.clockSet)) =
      some ([0, 8, 5, 15, 20], [0, 8, 5, 15, 20]) := by
  decide

end TickToSignal.Backtest
