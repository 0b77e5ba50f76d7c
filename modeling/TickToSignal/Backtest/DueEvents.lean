import TickToSignal.Backtest.Framework
import TickToSignal.Foundation.Ranked
import Mathlib.Algebra.Field.Rat
import Mathlib.Algebra.Order.Ring.Rat

/-!
# Timers and fundings that fall due

The loop that collects the timers ends if there is a next timer. The framework
starts without one, and nothing ever sets it: with a timer interval the first
advance of the clock does not come back.

Without timers, the windows between one value of the clock and the next tile the
time, so each funding is dispatched once, between the trades before it and the
trades at or after it.
-/

namespace TickToSignal.Backtest

open Foundation

variable {S K St : Type*}

/-! ## The handlers and the clock -/

namespace Fw

section Handlers
variable [DecidableEq S] [Field K] [LinearOrder K] {cfg : FwCfg S K} {strat : Strategy S K St}
  {clock : ClockState}

/-- The state with another clock. -/
def withClock (clock : ClockState) (s : FwState S K St) : FwState S K St :=
  { s with clock := clock }

omit [DecidableEq S] [Field K] [LinearOrder K] in
@[simp] theorem withClock_withClock (clock' : ClockState) (s : FwState S K St) :
    withClock clock (withClock clock' s) = withClock clock s := rfl

theorem routeIntent_withClock (intent : Intent S K) (s : FwState S K St) :
    routeIntent cfg strat intent (withClock clock s) =
      withClock clock (routeIntent cfg strat intent s) := by
  unfold routeIntent execute withClock
  dsimp only
  split_ifs
  · cases Exec.fill cfg.exec s.lastPrice s.pos.book _ with
    | none => rfl
    | some fill => rfl
  · rfl

theorem routeIntents_ignores (intents : List (Intent S K)) :
    (routeIntents cfg strat intents).Ignores (withClock clock) := by
  apply Trail.Ignores.seq
  · exact Trail.ignores_update fun _ => rfl
  · exact Trail.ignores_each (fun intent => Trail.ignores_update (routeIntent_withClock intent))
      intents

theorem callback_ignores (cb : St → St × List (Intent S K)) :
    (callback cfg strat cb).Ignores (withClock clock) :=
  Trail.ignores_read (fun _ => rfl) fun _ =>
    Trail.Ignores.seq (Trail.ignores_update fun _ => rfl) (routeIntents_ignores _)

theorem policies_ignores : (policies cfg strat).Ignores (withClock clock) :=
  Trail.ignores_read (fun _ => rfl) fun _ =>
    Trail.Ignores.seq (Trail.ignores_update fun _ => rfl) (routeIntents_ignores _)

/-- No event handler looks at the clock. -/
theorem dispatch_ignores (e : Event S K) : (dispatch cfg strat e).Ignores (withClock clock) := by
  cases e with
  | funding r => exact Trail.ignores_update fun _ => rfl
  | timer ts =>
      apply Trail.Ignores.seq
      · cases strat.onTimer with
        | none => exact Trail.ignores_skip
        | some cb =>
            rw [Option.elim_some]
            exact callback_ignores _
      · exact policies_ignores
  | trade t =>
      apply Trail.Ignores.seq
      · exact Trail.ignores_update fun _ => rfl
      · exact (callback_ignores _).seq
          (policies_ignores.seq (Trail.ignores_update fun _ => rfl))

/-- So none of them moves it. -/
theorem dispatch_clock (e : Event S K) (s : FwState S K St) :
    ((dispatch cfg strat e).final s).clock = s.clock := by
  have hsame : (dispatch cfg strat e).final (withClock s.clock s) =
      withClock s.clock ((dispatch cfg strat e).final s) := dispatch_ignores e s
  calc ((dispatch cfg strat e).final s).clock
      = ((dispatch cfg strat e).final (withClock s.clock s)).clock := rfl
    _ = s.clock := by rw [hsame]; rfl

end Handlers

end Fw

/-! ## The timer loop -/

/-- The loop ends, with the next timer at or after the target. -/
def TimersEnd (interval targetTs : Int) (next : Option Int) : Prop :=
  ∃ fuel timers next', collectTimers interval targetTs fuel [] next = some (timers, some next') ∧
    targetTs ≤ next'

theorem timersEnd_iff {interval targetTs : Int} (hinterval : 0 < interval) {next : Option Int} :
    TimersEnd interval targetTs next ↔ next.isSome := by
  cases next with
  | none =>
      refine iff_of_false ?_ Bool.false_ne_true
      rintro ⟨fuel, timers, next', hends, -⟩
      rw [collectTimers_null] at hends
      cases hends
  | some n =>
      refine iff_of_true ?_ rfl
      obtain ⟨timers, next', hends, hcollected⟩ := collectTimers_spec hinterval []
        (Nat.lt_succ_self (targetTs - n).toNat)
      exact ⟨_, timers, next', hends, hcollected.reached⟩

namespace Fw

section Reachable
variable [DecidableEq S] [Field K] [LinearOrder K]

/-- A state after calls of `onTrade` that came back, from the state the framework starts in. A
trade without a time passes the clock by. -/
inductive Reachable (cfg : FwCfg S K) (strat : Strategy S K St) (history : FundingHistory S K)
    (init : St) : FwState S K St → Prop
  | start : Reachable cfg strat history init { strategyState := init }
  | onTrade {s} (trade : Trade S K) : Reachable cfg strat history init s →
      (clockTrade cfg.timerIntervalNs history s.clock trade).isSome →
      Reachable cfg strat history init ((onTrade cfg strat history trade).final s)
  | untimed {s} (trade : Trade S K) : Reachable cfg strat history init s →
      Reachable cfg strat history init ((dispatchTrade cfg strat trade).final s)

variable {cfg : FwCfg S K} {strat : Strategy S K St} {history : FundingHistory S K} {init : St}
  {s : FwState S K St}

omit [DecidableEq S] [Field K] [LinearOrder K] in
/-- Without a next timer the clock cannot be advanced from its null start. -/
theorem clockTrade_null {interval : Int} (hinterval : 0 < interval) (history : FundingHistory S K)
    (trade : Trade S K) : clockTrade interval history {} trade = none := by
  simp [clockTrade, isBefore, advanceClockTo, timersBefore, hinterval, collectTimers]

theorem Reachable.clock_eq (h : Reachable cfg strat history init s)
    (hinterval : 0 < cfg.timerIntervalNs) : s.clock = {} := by
  induction h with
  | start => rfl
  | onTrade trade _ hback ih =>
      rw [ih, clockTrade_null hinterval] at hback
      exact absurd hback Bool.false_ne_true
  | untimed trade _ ih => exact (dispatch_clock (.trade trade) _).trans ih

/-- With a timer interval, in the state the framework starts in and in every state that it
reaches, the loop does not end for any target. -/
theorem timers_never_end (cfg : FwCfg S K) (strat : Strategy S K St) (history : FundingHistory S K)
    (init : St) (hinterval : 0 < cfg.timerIntervalNs) (h : Reachable cfg strat history init s)
    (targetTs : Int) : ¬ TimersEnd cfg.timerIntervalNs targetTs s.clock.nextTimerTs := by
  rw [timersEnd_iff hinterval, h.clock_eq hinterval]
  exact Bool.false_ne_true

end Reachable

/-- A timer every second, for a strategy that does nothing. -/
def everySecond : FwCfg String ℚ where
  pos := { stopLossPct := 2 / 100, killSwitchPct := 1 / 10, initialEquity := 100000 }
  caps := { maxPosBySymbol := fun _ => none, nonneg := fun _ _ h => by cases h }
  exec := { halfSpreadBps := 1, takerFeeBps := 4, makerFeeBps := 2, bnbDiscountPct := 10 }
  timerIntervalNs := 1000000000

def idle : Strategy String ℚ Unit := { onTrade := fun st _ => (st, []) }

theorem timers_never_end_at_start :
    0 < everySecond.timerIntervalNs ∧
      ¬ TimersEnd everySecond.timerIntervalNs 7 ({} : ClockState).nextTimerTs :=
  ⟨by decide, timers_never_end everySecond idle (loadFunding [] "BTCUSDT" 0 100) () (by decide)
    .start 7⟩

/-- Right after the load, with a target of one second past midnight. -/
theorem timer_loop_hangs :
    ¬ TimersEnd 1000000000 1000000000 ({} : ClockState).nextTimerTs := by
  rw [timersEnd_iff (by decide)]
  decide

end Fw

/-! ## Fundings without timers -/

def fundingsOf (events : List (Event S K)) : List (FundingRow S K) :=
  events.filterMap fun e =>
    match e with
    | .funding r => some r
    | .timer _ | .trade _ => none

def tradesOf (events : List (Event S K)) : List (Trade S K) :=
  events.filterMap fun e =>
    match e with
    | .trade t => some t
    | .funding _ | .timer _ => none

/-- The first may come before the second: a funding before a trade at or after its time, a trade
before a funding that is later. -/
def MayPrecede : Event S K → Event S K → Prop
  | .funding r, .trade t => r.fundingTime ≤ t.exchTradeTs
  | .trade t, .funding r => t.exchTradeTs < r.fundingTime
  | _, _ => True

section Fundings
variable {interval : Int} {history : FundingHistory S K} {s : ClockState}

/-- The windows from one value of the clock to the next tile the time. -/
theorem between_append {fromTs : Option Int} {ts toTs : Int} (hfrom : ∀ c ∈ fromTs, c ≤ ts)
    (hto : ts ≤ toTs) :
    history.between fromTs ts ++ history.between (some ts) toTs = history.between fromTs toTs := by
  rw [FundingHistory.between, FundingHistory.between, ← filter_or_eq_append]
  · refine List.filter_congr fun r _ => ?_
    have hlow : isBefore fromTs r.fundingTime = false → r.fundingTime ≤ ts := by
      intro hlow
      cases fromTs with
      | none => simp [isBefore] at hlow
      | some c => exact (by simpa [isBefore] using hlow : r.fundingTime ≤ c).trans (hfrom c rfl)
    by_cases hts : r.fundingTime ≤ ts
    · have hlater : isBefore (some ts) r.fundingTime = false := decide_eq_false (not_lt.mpr hts)
      simp [hlater, hts, hts.trans hto]
    · have hbefore : isBefore fromTs r.fundingTime = true :=
        Bool.not_eq_false _ ▸ fun h => hts (hlow h)
      have hlater : isBefore (some ts) r.fundingTime = true := decide_eq_true (not_le.mp hts)
      simp [hbefore, hlater, hts]
  · refine history.sorted.imp fun {a b} hab => ?_
    simp only [isBefore, Option.all_some, Bool.and_eq_true, decide_eq_true_eq]
    omega
  · intro r _
    simp only [isBefore, Option.all_some, Bool.and_eq_true, decide_eq_true_eq]
    omega

/-- Nothing is between a time and itself. -/
theorem between_self (ts : Int) : history.between (some ts) ts = [] := by
  refine List.filter_eq_nil_iff.mpr fun r _ => ?_
  simp only [isBefore, Option.all_some, Bool.and_eq_true, decide_eq_true_eq]
  omega

theorem fundingsOf_append (es es' : List (Event S K)) :
    fundingsOf (es ++ es') = fundingsOf es ++ fundingsOf es' := List.filterMap_append

theorem tradesOf_append (es es' : List (Event S K)) :
    tradesOf (es ++ es') = tradesOf es ++ tradesOf es' := List.filterMap_append

theorem fundingsOf_map (rs : List (FundingRow S K)) : fundingsOf (rs.map Event.funding) = rs := by
  rw [fundingsOf, List.filterMap_map]
  exact List.filterMap_some

theorem tradesOf_map (rs : List (FundingRow S K)) : tradesOf (rs.map Event.funding) = [] := by
  induction rs with
  | nil => rfl
  | cons r rs ih => exact ih

theorem mem_fundingsOf {events : List (Event S K)} {r : FundingRow S K}
    (h : .funding r ∈ events) : r ∈ fundingsOf events :=
  List.mem_filterMap.mpr ⟨.funding r, h, rfl⟩

theorem mem_tradesOf {events : List (Event S K)} {t : Trade S K} (h : .trade t ∈ events) :
    t ∈ tradesOf events :=
  List.mem_filterMap.mpr ⟨.trade t, h, rfl⟩

/-- What one trade dispatches without timers: the fundings of its window, and then the trade. -/
theorem clockTrade_off (hoff : interval ≤ 0) (history : FundingHistory S K) (trade : Trade S K)
    (hts : s.UpTo trade.exchTradeTs) :
    ∃ d : Dispatched S K, clockTrade interval history s trade = some d ∧
      d.events = (history.between s.virtualClock trade.exchTradeTs).map Event.funding ++
        [.trade trade] ∧
      d.clock.virtualClock = some trade.exchTradeTs := by
  by_cases hadvance : isBefore s.virtualClock trade.exchTradeTs = true
  · have htimers : timersBefore interval trade.exchTradeTs s.nextTimerTs =
        some ([], s.nextTimerTs) := if_neg (not_lt.mpr hoff)
    rw [clockTrade, if_pos hadvance, advanceClockTo, htimers]
    refine ⟨_, rfl, ?_, rfl⟩
    simp
  · -- the clock is at the trade's time already
    obtain ⟨c, hc, hle⟩ : ∃ c, s.virtualClock = some c ∧ trade.exchTradeTs ≤ c := by
      cases hc : s.virtualClock with
      | none => simp [isBefore, hc] at hadvance
      | some c => exact ⟨c, rfl, by simpa [isBefore, hc] using hadvance⟩
    have hsame : c = trade.exchTradeTs := le_antisymm (hts c hc) hle
    refine ⟨_, by rw [clockTrade, if_neg hadvance], ?_, ?_⟩
    · rw [hc, hsame, between_self]
      rfl
    · rw [← hsame]
      exact hc

/-- The fundings after the clock up to and including the last trade. -/
def dueWithTrades (history : FundingHistory S K) (clock : Option Int) (trades : List (Trade S K)) :
    List (FundingRow S K) :=
  trades.getLast?.elim [] fun last => history.between clock last.exchTradeTs

/-- The window of the first trade, and then what is due with the rest. -/
theorem dueWithTrades_cons (t : Trade S K) {trades : List (Trade S K)} (hts : s.UpTo t.exchTradeTs)
    (hfirst : ∀ u ∈ trades, t.exchTradeTs ≤ u.exchTradeTs) :
    dueWithTrades history s.virtualClock (t :: trades) =
      history.between s.virtualClock t.exchTradeTs ++
        dueWithTrades history (some t.exchTradeTs) trades := by
  rcases List.eq_nil_or_concat trades with rfl | ⟨init, last, rfl⟩
  · simp [dueWithTrades]
  · have hlast : t.exchTradeTs ≤ last.exchTradeTs := hfirst last (by simp)
    have hdue : dueWithTrades history s.virtualClock (t :: (init ++ [last])) =
        history.between s.virtualClock last.exchTradeTs := by
      rw [← List.cons_append, dueWithTrades, List.getLast?_concat, Option.elim_some]
    rw [List.concat_eq_append, hdue, dueWithTrades, List.getLast?_concat, Option.elim_some,
      between_append hts hlast]

/-- A run of these trades: all of them, and between them each funding that is due, once and in its
place. -/
structure Funded (due : List (FundingRow S K)) (trades : List (Trade S K))
    (events : List (Event S K)) : Prop where
  replayed : tradesOf events = trades
  fundings : fundingsOf events = due
  placed : events.Pairwise MayPrecede

/-- One more trade in front of a run, with the fundings of its window. -/
theorem Funded.cons {clock : Option Int} {t : Trade S K} {due : List (FundingRow S K)}
    {trades : List (Trade S K)} {events : List (Event S K)} (h : Funded due trades events)
    (hlater : ∀ r ∈ due, t.exchTradeTs < r.fundingTime)
    (hfirst : ∀ u ∈ trades, t.exchTradeTs ≤ u.exchTradeTs) :
    Funded (history.between clock t.exchTradeTs ++ due) (t :: trades)
      ((history.between clock t.exchTradeTs).map Event.funding ++ [.trade t] ++ events) where
  replayed := by
    rw [tradesOf_append, tradesOf_append, tradesOf_map, h.replayed]
    rfl
  fundings := by
    rw [fundingsOf_append, fundingsOf_append, fundingsOf_map, h.fundings]
    exact congrArg (· ++ due) (List.append_nil _)
  placed := by
    have hafter : ∀ e ∈ events, MayPrecede (.trade t) e := by
      intro e he
      cases e with
      | funding r => exact hlater r (h.fundings ▸ mem_fundingsOf he)
      | timer ts => trivial
      | trade u => trivial
    have hwindow : ∀ r ∈ history.between clock t.exchTradeTs, ∀ e ∈ events,
        MayPrecede (.funding r) e := by
      intro r hr e he
      cases e with
      | funding r' => trivial
      | timer ts => trivial
      | trade u => exact (mem_between hr).2.trans (hfirst u (h.replayed ▸ mem_tradesOf he))
    rw [List.append_assoc, List.singleton_append, List.pairwise_append]
    refine ⟨List.pairwise_map.mpr (List.pairwise_of_forall fun _ _ => trivial),
      List.pairwise_cons.mpr ⟨hafter, h.placed⟩, ?_⟩
    rintro e he e' he'
    obtain ⟨r, hr, rfl⟩ := List.mem_map.mp he
    rcases List.mem_cons.mp he' with rfl | he'
    · exact (mem_between hr).2
    · exact hwindow r hr e' he'

theorem clockReplay_off (hoff : interval ≤ 0) (history : FundingHistory S K)
    {trades : List (Trade S K)} (hsorted : (trades.map Trade.exchTradeTs).Pairwise (· ≤ ·))
    (hts : ∀ t ∈ trades, s.UpTo t.exchTradeTs) :
    ∃ run : Dispatched S K, clockReplay interval history s trades = some run ∧
      Funded (dueWithTrades history s.virtualClock trades) trades run.events := by
  induction trades generalizing s with
  | nil => exact ⟨_, rfl, rfl, rfl, List.Pairwise.nil⟩
  | cons t trades ih =>
      obtain ⟨hhead, htail⟩ := List.pairwise_cons.mp hsorted
      have hfirst : ∀ u ∈ trades, t.exchTradeTs ≤ u.exchTradeTs :=
        fun u hu => hhead _ (List.mem_map_of_mem hu)
      have ht : s.UpTo t.exchTradeTs := hts t List.mem_cons_self
      obtain ⟨d, heq, hevents, hclock⟩ := clockTrade_off hoff history t ht
      obtain ⟨run, hrun, hfunded⟩ := ih (s := d.clock) htail fun u hu c hc => by
        obtain rfl := Option.mem_some_iff.mp (hclock ▸ hc)
        exact hfirst u hu
      rw [hclock] at hfunded
      refine ⟨{ run with
        events := d.events ++ run.events, clockSet := d.clockSet ++ run.clockSet },
        by simp [clockReplay, heq, hrun], ?_⟩
      rw [dueWithTrades_cons t ht hfirst]
      show Funded _ _ (d.events ++ run.events)
      rw [hevents]
      refine hfunded.cons (fun r hr => ?_) hfirst
      obtain ⟨last, -, hlast⟩ : ∃ last, last ∈ trades.getLast? ∧
          r ∈ history.between (some t.exchTradeTs) last.exchTradeTs := by
        cases hlast : trades.getLast? with
        | none => simp [dueWithTrades, hlast] at hr
        | some last => exact ⟨last, rfl, by simpa [dueWithTrades, hlast] using hr⟩
      exact (mem_between hlast).1 _ rfl

end Fundings

namespace Fw

section Replay
variable [DecidableEq S] [Field K] [LinearOrder K] {cfg : FwCfg S K} {strat : Strategy S K St}

/-- A replay does to the state what the events of the clock's run do to it, in their order. -/
theorem replay_final (history : FundingHistory S K) {trades : List (Trade S K)}
    {s : FwState S K St} {run : Dispatched S K}
    (h : clockReplay cfg.timerIntervalNs history s.clock trades = some run) :
    (replay cfg strat history trades).final s =
      withClock run.clock ((Trail.each (dispatch cfg strat) run.events).final s) := by
  induction trades generalizing s run with
  | nil =>
      obtain rfl := Option.some.inj h
      rfl
  | cons t trades ih =>
      obtain ⟨d, hd, hrest⟩ := Option.bind_eq_some_iff.mp h
      obtain ⟨rest, hreplay, hrun⟩ := Option.bind_eq_some_iff.mp hrest
      obtain rfl := Option.some.inj hrun
      have hfirst : (onTrade cfg strat history t).final s =
          withClock d.clock ((Trail.each (dispatch cfg strat) d.events).final s) := by
        rw [onTrade, Trail.final_read, hd, Option.elim_some, Trail.final_seq]
        exact Trail.ignores_each dispatch_ignores d.events s
      rw [replay, Trail.final_each_cons, hfirst]
      refine (ih hreplay).trans ?_
      rw [Trail.ignores_each dispatch_ignores rest.events, withClock_withClock,
        Trail.final_each_append]

end Replay

/-- Trades in time order, any preloaded fundings and no timers: every step ends, the trades are
dispatched as they came, and each funding at or before the last of them is dispatched exactly
once, before every trade at or after its time and after every earlier trade. -/
theorem fundings_dispatched_once [DecidableEq S] [Field K] [LinearOrder K] (cfg : FwCfg S K)
    (strat : Strategy S K St) (history : FundingHistory S K) (init : St)
    (hoff : cfg.timerIntervalNs ≤ 0) {trades : List (Trade S K)}
    (hsorted : (trades.map Trade.exchTradeTs).Pairwise (· ≤ ·)) :
    ∃ run, clockReplay cfg.timerIntervalNs history {} trades = some run ∧
      (replay cfg strat history trades).final { strategyState := init } =
        withClock run.clock
          ((Trail.each (dispatch cfg strat) run.events).final { strategyState := init }) ∧
      tradesOf run.events = trades ∧
      fundingsOf run.events = (history.rows.filter fun r =>
        trades.getLast?.any fun last => r.fundingTime ≤ last.exchTradeTs) ∧
      run.events.Pairwise MayPrecede := by
  obtain ⟨run, heq, hfunded⟩ := clockReplay_off (s := {}) hoff history hsorted
    fun _ _ _ hc => by cases hc
  refine ⟨run, heq, replay_final history heq, hfunded.replayed, hfunded.fundings.trans ?_,
    hfunded.placed⟩
  cases hlast : trades.getLast? with
  | none => simp [dueWithTrades, hlast]
  | some last => simp [dueWithTrades, hlast, FundingHistory.between, isBefore]

/-- A funding at eight, and trades before it, at its time twice, and after it. -/
def eightHourly : FundingHistory String ℚ :=
  loadFunding [{ sym := "BTCUSDT", fundingTime := 8, fundingRate := 1 / 10000, markPrice := 100 }]
    "BTCUSDT" 0 100

def aroundEight : List (Trade String ℚ) :=
  [7, 8, 8, 20].map fun ts => { sym := "BTCUSDT", price := 100, exchTradeTs := ts }

theorem funding_once_around_eight :
    ∃ run, clockReplay 0 eightHourly {} aroundEight = some run ∧
      (replay { everySecond with timerIntervalNs := 0 } idle eightHourly aroundEight).final
          { strategyState := () } =
        withClock run.clock ((Trail.each (dispatch { everySecond with timerIntervalNs := 0 } idle)
          run.events).final { strategyState := () }) ∧
      tradesOf run.events = aroundEight ∧
      fundingsOf run.events = (eightHourly.rows.filter fun r =>
        aroundEight.getLast?.any fun last => r.fundingTime ≤ last.exchTradeTs) ∧
      run.events.Pairwise MayPrecede :=
  fundings_dispatched_once { everySecond with timerIntervalNs := 0 } idle eightHourly () (by decide)
    (by decide)

end Fw

end TickToSignal.Backtest
