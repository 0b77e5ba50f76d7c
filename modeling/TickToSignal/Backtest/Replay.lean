import TickToSignal.Backtest.DueEvents
import TickToSignal.Utils.FundingLoader
import TickToSignal.Utils.LoadRange

/-!
# Replaying days of history

A replay reads the partitions of its days one after the other, sorts each by
time, and feeds the rows of one symbol to the framework. Together with the
loaders this is what a backtest rests on: it is fed the trades of the archives
and the fundings of the exchange, each once and in its place, whatever failed
while they were loaded.

## Implementation notes

A day without a directory has no rows. The columns the framework does not read
are left out of a trade. A partition that is being saved cannot be replayed, so
the replay is spoken of for days that were saved.
-/

namespace TickToSignal.Backtest

open Foundation
open Utils.TradeLoader (TradeRow Loader Date Files Source Partition dates)

namespace Replay

variable {K St : Type*}

def dayNs : ℤ := 86400000000000

/-- The columns of a row that the framework reads. -/
def asTrade (r : TradeRow K) : Trade String K := ⟨r.sym, r.price, r.exchTradeTs⟩

/-- The table of a day, in time order; no rows if there is no such directory. -/
def loadDay (table : Date → Option (List (TradeRow K))) (date : Date) : List (TradeRow K) :=
  (table date).elim [] (sortBy TradeRow.exchTradeTs)

/-- The rows of the symbol. -/
def dayRows (table : Date → Option (List (TradeRow K))) (wantSym : String) (dt : Date) :
    List (TradeRow K) :=
  (loadDay table dt).filter fun r => r.sym = wantSym

section Run
variable [Field K] [LinearOrder K] (cfg : FwCfg String K) (strat : Strategy String K St)

/-- The events dispatched so far, and what they do. -/
def perDay (history : FundingHistory String K) (table : Date → Option (List (TradeRow K)))
    (wantSym : String) (acc : ℕ) (dt : Date) : ℕ × Trail (FwState String K St) :=
  let t := dayRows table wantSym dt
  (acc + t.length, Trail.each (fun r => Fw.onTrade cfg strat history (asTrade r)) t)

/-- The fold over the days. -/
def replayDays (history : FundingHistory String K) (table : Date → Option (List (TradeRow K)))
    (wantSym : String) : ℕ → List Date → ℕ × Trail (FwState String K St)
  | acc, [] => (acc, Trail.skip)
  | acc, dt :: dts =>
      let day := perDay cfg strat history table wantSym acc dt
      let rest := replayDays history table wantSym day.1 dts
      (rest.1, day.2.seq rest.2)

/-- The events of the run, and what they do. -/
def run (table : Date → Option (List (TradeRow K))) (fundings : List (FundingRow String K))
    (wantSym : String) (startDate endDate : ℤ) : ℕ × Trail (FwState String K St) :=
  replayDays cfg strat
    (loadFunding fundings wantSym (startDate * dayNs) ((endDate + 1) * dayNs))
    table wantSym 0 (dates startDate endDate)

/-- The trades of some days. -/
def tradesOfDays (table : Date → Option (List (TradeRow K))) (wantSym : String)
    (dts : List Date) : List (Trade String K) :=
  dts.flatMap fun dt => (dayRows table wantSym dt).map asTrade

/-- Day by day or all at once. -/
theorem replayDays_eq (history : FundingHistory String K)
    (table : Date → Option (List (TradeRow K))) (wantSym : String) (acc : ℕ) (dts : List Date) :
    replayDays cfg strat history table wantSym acc dts =
      (acc + (tradesOfDays table wantSym dts).length,
        Fw.replay cfg strat history (tradesOfDays table wantSym dts)) := by
  induction dts generalizing acc with
  | nil => rfl
  | cons dt dts ih =>
      have htrades : tradesOfDays table wantSym (dt :: dts) =
          (dayRows table wantSym dt).map asTrade ++ tradesOfDays table wantSym dts :=
        List.flatMap_cons
      have hreplay : Fw.replay cfg strat history (tradesOfDays table wantSym (dt :: dts)) =
          (Trail.each (fun r => Fw.onTrade cfg strat history (asTrade r))
            (dayRows table wantSym dt)).seq
              (Fw.replay cfg strat history (tradesOfDays table wantSym dts)) := by
        rw [htrades, Fw.replay, Trail.each_append, Trail.each_map]
        rfl
      simp only [replayDays, perDay, ih]
      rw [hreplay, htrades, List.length_append, List.length_map, ← Nat.add_assoc]

end Run

/-! ## What is replayed of the partitions -/

section Partitions
variable {src : Source K} {ldr : Loader} {dt : Date} {wantSym : String}

/-- The rows of an archive have the symbol it was asked for by. -/
theorem sym_of_mem_rows {sym : String} (hplain : '-' ∉ sym.toList) {r : TradeRow K}
    (hr : r ∈ src.rows ldr sym dt) : r.sym = sym := by
  have hname : Utils.TradeLoader.symOf (ldr.file sym dt) = sym := by
    have hall : sym.toList.takeWhile (· ≠ '-') = sym.toList := by
      apply List.takeWhile_eq_self_iff.mpr
      intro ch hch
      exact decide_eq_true fun heq => hplain (heq ▸ hch)
    change String.ofList (sym.toList.takeWhile (· ≠ '-')) = sym
    rw [hall, String.ofList_toList]
  cases harchive : src.archive ldr sym dt with
  | none =>
      rw [Source.rows, harchive] at hr
      cases hr
  | some archive =>
      rw [Source.rows, harchive] at hr
      obtain ⟨line, -, rfl⟩ := List.mem_map.mp hr
      cases ldr <;> exact hname

/-- One symbol's part of the rows of several. -/
theorem filter_flatMap_rows {syms : List String} (hnodup : syms.Nodup)
    (hplain : ∀ sym ∈ syms, '-' ∉ sym.toList) (hmem : wantSym ∈ syms) :
    (syms.flatMap fun sym => src.rows ldr sym dt).filter (fun r => r.sym = wantSym) =
      src.rows ldr wantSym dt := by
  induction syms with
  | nil => cases hmem
  | cons sym syms ih =>
      obtain ⟨hnew, hnodup⟩ := List.nodup_cons.mp hnodup
      have hsym : ∀ r ∈ src.rows ldr sym dt, r.sym = sym :=
        fun r hr => sym_of_mem_rows (hplain sym List.mem_cons_self) hr
      have hrest := fun s hs => hplain s (List.mem_cons_of_mem sym hs)
      rw [List.flatMap_cons, List.filter_append]
      rcases List.mem_cons.mp hmem with rfl | hmem
      · have hothers : (syms.flatMap fun sym => src.rows ldr sym dt).filter
            (fun r => r.sym = wantSym) = [] := by
          apply List.filter_eq_nil_iff.mpr
          intro r hr
          obtain ⟨s, hs, hr⟩ := List.mem_flatMap.mp hr
          rw [sym_of_mem_rows (hrest s hs) hr, decide_eq_true_eq]
          exact ne_of_mem_of_not_mem hs hnew
        rw [hothers, List.append_nil]
        exact List.filter_eq_self.mpr fun r hr => decide_eq_true (hsym r hr)
      · have hnone : (src.rows ldr sym dt).filter (fun r => r.sym = wantSym) = [] := by
          apply List.filter_eq_nil_iff.mpr
          intro r hr
          rw [hsym r hr, decide_eq_true_eq]
          exact (ne_of_mem_of_not_mem hmem hnew).symm
        rw [hnone, List.nil_append]
        exact ih hnodup hrest hmem

/-- The partition is sorted by symbol and time, the replay sorts it by time: the rows of one symbol
are those of its archive, sorted by time. -/
theorem replayed_of_partition {syms : List String} (hnodup : syms.Nodup)
    (hplain : ∀ sym ∈ syms, '-' ∉ sym.toList) (hmem : wantSym ∈ syms) :
    (sortBy TradeRow.exchTradeTs (src.partition ldr syms dt)).filter (fun r => r.sym = wantSym) =
      sortBy TradeRow.exchTradeTs (src.rows ldr wantSym dt) := by
  apply eq_of_filter_eq ((sortBy_pairwise _ _).filter _) (sortBy_pairwise _ _)
  intro ts
  have hkey : ∀ r : TradeRow K, (decide (r.exchTradeTs = ts) && decide (r.sym = wantSym)) =
      (decide (r.sym = wantSym) && decide (r.key = toLex (wantSym, ts))) := by
    intro r
    by_cases hsym : r.sym = wantSym <;> simp [TradeRow.key, hsym]
  calc ((sortBy TradeRow.exchTradeTs (src.partition ldr syms dt)).filter
          fun r => decide (r.sym = wantSym)).filter (fun r => decide (r.exchTradeTs = ts))
      = ((sortBy TradeRow.exchTradeTs (src.partition ldr syms dt)).filter
          fun r => decide (r.exchTradeTs = ts)).filter fun r => decide (r.sym = wantSym) := by
        rw [List.filter_filter, List.filter_filter]
        exact List.filter_congr fun r _ => Bool.and_comm _ _
    _ = ((src.partition ldr syms dt).filter fun r => decide (r.key = toLex (wantSym, ts))).filter
          fun r => decide (r.sym = wantSym) := by
        rw [filter_sortBy, List.filter_filter, List.filter_filter]
        exact List.filter_congr fun r _ => (Bool.and_comm _ _).trans (hkey r)
    _ = ((syms.flatMap fun sym => src.rows ldr sym dt).filter
          fun r => decide (r.sym = wantSym)).filter fun r => decide (r.exchTradeTs = ts) := by
        rw [Source.partition, filter_sortBy, List.filter_filter, List.filter_filter]
        exact List.filter_congr fun r _ => (hkey r).symm
    _ = (sortBy TradeRow.exchTradeTs (src.rows ldr wantSym dt)).filter
          fun r => decide (r.exchTradeTs = ts) := by
        rw [filter_flatMap_rows hnodup hplain hmem, filter_sortBy]

end Partitions

/-! ## What is replayed of the fundings -/

section Fundings
open Utils.FundingLoader

variable {parse : String → K} {H : History} {t : List (Funding K)} {c : String → ℤ}

def asFunding (r : Funding K) : FundingRow String K :=
  ⟨r.sym, r.fundingTime, r.fundingRate, r.markPrice⟩

/-- The events of the exchange in a window of time. -/
def eventsBetween (H : History) (sym : String) (startTs endTs : ℤ) : List Record :=
  (H.events sym).filter fun e =>
    startTs ≤ msToTs e.fundingTime ∧ msToTs e.fundingTime < endTs

/-- A table without holes that reaches past the window has all events of the window. -/
theorem rows_loadFunding (ht : CaughtUp H parse t c) {sym : String} {startTs endTs : ℤ}
    (hepoch : epochDefault ≤ startTs) (hreaches : ∃ r ∈ t, r.sym = sym ∧ endTs ≤ r.fundingTime) :
    (loadFunding (t.map asFunding) sym startTs endTs).rows =
      (eventsBetween H sym startTs endTs).map fun e => asFunding (shape parse e) := by
  obtain ⟨r, hr, hrsym, hlate⟩ := hreaches
  have hstored : r ∈ t.filter fun r => r.sym = sym :=
    List.mem_filter.mpr ⟨hr, decide_eq_true hrsym⟩
  rw [ht.rows_eq sym] at hstored
  obtain ⟨last, hlast, rfl⟩ := List.mem_map.mp hstored
  have hupTo : last.fundingTime ≤ c sym := of_decide_eq_true (List.mem_filter.mp hlast).2
  have hlate : endTs ≤ msToTs last.fundingTime := hlate
  have hall : ∀ e ∈ H.events sym,
      (decide (startTs ≤ msToTs e.fundingTime ∧ msToTs e.fundingTime < endTs) &&
        decide (e.fundingTime ≤ c sym) && decide (tsToMs epochDefault ≤ e.fundingTime)) =
      decide (startTs ≤ msToTs e.fundingTime ∧ msToTs e.fundingTime < endTs) := by
    intro e _
    rw [Bool.eq_iff_iff]
    simp only [Bool.and_eq_true, decide_eq_true_eq]
    refine ⟨fun h => h.1.1, fun h => ⟨⟨h, ?_⟩, ?_⟩⟩
    · simp only [msToTs] at h hlate
      omega
    · simp only [msToTs, epochDefault, tsToMs] at h hepoch ⊢
      omega
  have hrows : ((t.map asFunding).filter fun r =>
      r.sym = sym ∧ startTs ≤ r.fundingTime ∧ r.fundingTime < endTs) =
        (eventsBetween H sym startTs endTs).map fun e => asFunding (shape parse e) := by
    calc (t.map asFunding).filter (fun r => decide
            (r.sym = sym ∧ startTs ≤ r.fundingTime ∧ r.fundingTime < endTs))
        = ((t.filter fun r => r.sym = sym).filter fun r => decide
            (startTs ≤ r.fundingTime ∧ r.fundingTime < endTs)).map asFunding := by
          rw [List.filter_map, List.filter_filter]
          congr 1
          apply List.filter_congr
          intro r _
          rw [Bool.eq_iff_iff]
          simp only [Function.comp_apply, asFunding, decide_eq_true_eq, Bool.and_eq_true]
          exact decide_eq_true_iff.trans and_comm
      _ = (((H.sinceEpoch sym).filter fun e => e.fundingTime ≤ c sym).filter fun e => decide
            (startTs ≤ msToTs e.fundingTime ∧ msToTs e.fundingTime < endTs)).map
              fun e => asFunding (shape parse e) := by
          rw [ht.rows_eq sym, shapeRecords, List.filter_map, List.map_map]
          rfl
      _ = (eventsBetween H sym startTs endTs).map fun e => asFunding (shape parse e) := by
          rw [History.sinceEpoch, List.filter_filter, List.filter_filter, eventsBetween]
          congr 1
          exact List.filter_congr hall
  have hsorted : ((eventsBetween H sym startTs endTs).map fun e =>
      asFunding (shape parse e)).Pairwise fun a b => a.fundingTime ≤ b.fundingTime := by
    apply List.pairwise_map.mpr
    apply ((H.ascending sym).filter _).imp
    intro e e' hlt
    simp only [asFunding, shape, msToTs]
    omega
  calc (loadFunding (t.map asFunding) sym startTs endTs).rows
      = ((eventsBetween H sym startTs endTs).map fun e => asFunding (shape parse e)).mergeSort
          fun a b => decide (a.fundingTime ≤ b.fundingTime) := by
        rw [← hrows]
        rfl
    _ = (eventsBetween H sym startTs endTs).map fun e => asFunding (shape parse e) :=
        List.mergeSort_of_pairwise (hsorted.imp fun h => decide_eq_true h)

end Fundings

/-! ## A backtest over days that were loaded -/

/-- The table of a loader, where it was saved. -/
def table (f : Files K) (ldr : Loader) (dt : Date) : Option (List (TradeRow K)) :=
  match f.hdb (ldr, dt) with
  | some (.saved rows) => some rows
  | _ => none

/-- The trades of a symbol's archives, each day in time order. -/
def archivedTrades (src : Source K) (ldr : Loader) (wantSym : String) (dts : List Date) :
    List (Trade String K) :=
  dts.flatMap fun dt => (sortBy TradeRow.exchTradeTs (src.rows ldr wantSym dt)).map asTrade

section Loaded
variable {src : Source K} {ldr : Loader} {f : Files K} {wantSym : String} {startDate endDate : ℤ}

theorem tradesOfDays_eq {dts : List Date} (hloads : Utils.TradeLoader.Loads src f)
    (hsaved : ∀ dt ∈ dts, ∃ rows, f.hdb (ldr, dt) = some (.saved rows) ∧
      ∃ r ∈ rows, r.sym = wantSym) :
    tradesOfDays (table f ldr) wantSym dts = archivedTrades src ldr wantSym dts := by
  apply List.flatMap_congr
  intro dt hdt
  obtain ⟨rows, hrows, r, hr, hsym⟩ := hsaved dt hdt
  obtain ⟨syms, -, hnodup, hall, rfl⟩ := hloads ldr dt rows hrows
  have hmem : wantSym ∈ syms := by
    obtain ⟨sym, hsyms, hr⟩ := List.mem_flatMap.mp (mem_sortBy.mp hr)
    rw [← hsym, sym_of_mem_rows (hall sym hsyms).1 hr]
    exact hsyms
  have htable : table f ldr dt = some (src.partition ldr syms dt) := by rw [table, hrows]
  rw [dayRows, loadDay, htable]
  exact congrArg _ (replayed_of_partition hnodup (fun sym hsym => (hall sym hsym).1) hmem)

/-- The archive of a day has the trades of that day. -/
def InDays (src : Source K) (ldr : Loader) (wantSym : String) : Prop :=
  ∀ dt, ∀ r ∈ src.rows ldr wantSym dt,
    dt * dayNs ≤ r.exchTradeTs ∧ r.exchTradeTs < (dt + 1) * dayNs

theorem archivedTrades_sorted (hdays : InDays src ldr wantSym) (startDate endDate : ℤ) :
    ((archivedTrades src ldr wantSym (dates startDate endDate)).map Trade.exchTradeTs).Pairwise
      (· ≤ ·) := by
  rw [archivedTrades, List.pairwise_map, List.pairwise_flatMap]
  constructor
  · intro dt _
    exact List.pairwise_map.mpr (sortBy_pairwise _ _)
  · apply (Utils.TradeLoader.dates_ascending startDate endDate).imp
    intro dt dt' hlt u hu u' hu'
    obtain ⟨r, hr, rfl⟩ := List.mem_map.mp hu
    obtain ⟨r', hr', rfl⟩ := List.mem_map.mp hu'
    have hend := (hdays dt r (mem_sortBy.mp hr)).2
    have hstart := (hdays dt' r' (mem_sortBy.mp hr')).1
    have hnext : (dt + 1) * dayNs ≤ dt' * dayNs :=
      mul_le_mul_of_nonneg_right (Int.add_one_le_of_lt hlt) (by decide)
    exact (hend.le.trans hnext).trans hstart

end Loaded

/-- Days that were saved by any calls of the loaders, and a funding table of any fetches that
reaches past them: whatever failed or was stopped, the backtest is fed the trades of the archives
and the fundings of the exchange up to the last trade, each once, a funding before every trade at
or after its time and after every earlier one. -/
theorem backtest_replays_history [Field K] [LinearOrder K] (cfg : FwCfg String K)
    (strat : Strategy String K St) (init : St) (hoff : cfg.timerIntervalNs ≤ 0)
    (src : Source K) (ldr : Loader) (wantSym : String) {startDate endDate : ℤ} {f : Files K}
    (hreached : Relation.ReflTransGen (Utils.TradeLoader.Step src) Files.empty f)
    (hsaved : ∀ dt ∈ dates startDate endDate, ∃ rows, f.hdb (ldr, dt) = some (.saved rows) ∧
      ∃ r ∈ rows, r.sym = wantSym)
    (hdays : InDays src ldr wantSym) (H : Utils.FundingLoader.History) (parse : String → K)
    {fs : List Utils.FundingLoader.Fetch}
    (hfs : ∀ fetch ∈ fs, H.Serves fetch.fetchPage ∧ fetch.call.Incremental)
    (hepoch : Utils.FundingLoader.epochDefault ≤ startDate * dayNs)
    (hreaches : ∃ r ∈ exec (Utils.FundingLoader.step parse) [] fs,
      r.sym = wantSym ∧ (endDate + 1) * dayNs ≤ r.fundingTime) :
    let backtest := run cfg strat (table f ldr)
      ((exec (Utils.FundingLoader.step parse) [] fs).map asFunding) wantSym startDate endDate
    ∃ events clock,
      tradesOf events = archivedTrades src ldr wantSym (dates startDate endDate) ∧
      fundingsOf events =
        ((eventsBetween H wantSym (startDate * dayNs) ((endDate + 1) * dayNs)).map
          fun e => asFunding (Utils.FundingLoader.shape parse e)).filter (fun r =>
            (tradesOf events).getLast?.any fun last => r.fundingTime ≤ last.exchTradeTs) ∧
      events.Pairwise MayPrecede ∧ backtest.1 = (tradesOf events).length ∧
      backtest.2.final { strategyState := init } =
        Fw.withClock clock
          ((Trail.each (Fw.dispatch cfg strat) events).final { strategyState := init }) := by
  intro backtest
  obtain ⟨c, ht⟩ := Utils.FundingLoader.caughtUp_exec parse hfs
  have hloads := Utils.TradeLoader.loads_of_reached hreached (Utils.TradeLoader.loads_empty src)
  have htrades := tradesOfDays_eq hloads hsaved
  have hfundings := rows_loadFunding ht hepoch hreaches
  have hrun := replayDays_eq cfg strat (loadFunding
    ((exec (Utils.FundingLoader.step parse) [] fs).map asFunding) wantSym (startDate * dayNs)
    ((endDate + 1) * dayNs)) (table f ldr) wantSym 0 (dates startDate endDate)
  rw [htrades, Nat.zero_add] at hrun
  obtain ⟨d, heq, hfunded⟩ := clockReplay_off (s := {}) hoff (loadFunding
    ((exec (Utils.FundingLoader.step parse) [] fs).map asFunding) wantSym (startDate * dayNs)
    ((endDate + 1) * dayNs)) (archivedTrades_sorted hdays startDate endDate)
    fun _ _ _ hc => by cases hc
  refine ⟨d.events, d.clock, hfunded.replayed, ?_, hfunded.placed, ?_, ?_⟩
  · rw [hfunded.replayed, hfunded.fundings, ← hfundings]
    cases hlast : (archivedTrades src ldr wantSym (dates startDate endDate)).getLast? with
    | none => simp [dueWithTrades, hlast]
    | some last => simp [dueWithTrades, hlast, FundingHistory.between, isBefore]
  · rw [hfunded.replayed]
    exact congrArg Prod.fst hrun
  · rw [show backtest.2 = _ from congrArg Prod.snd hrun]
    exact Fw.replay_final _ heq

/-- The number of a string of digits. -/
def digits (s : String) : ℕ := s.toList.foldl (fun n ch => 10 * n + (ch.toNat - '0'.toNat)) 0

/-- Two trades on the last day of 2019, at 15:00 and at 17:00. -/
def lastOf2019 : Source ℚ where
  archive ldr sym dt :=
    if ldr = .trade ∧ sym = "BTCUSDT" ∧ dt = 18261 then
      some [["1", "7200", "1", "7200", "1577804400000000", "True", "True"],
        ["2", "7210", "1", "7210", "1577811600000000", "False", "True"]]
    else none
  casts := { long := fun s => digits s, float := fun s => digits s }

/-- A funding at 16:00 and one at midnight. -/
def overNewYear : Utils.FundingLoader.History where
  events s := if s = "BTCUSDT" then
    [⟨"BTCUSDT", 1577808000000, "1", "7205"⟩, ⟨"BTCUSDT", 1577836800000, "2", "7220"⟩] else []
  ascending s := by
    split_ifs
    · simp [Ascending]
    · exact List.Pairwise.nil
  symbols s e he := by
    split_ifs at he with hs
    · simp only [List.mem_cons, List.not_mem_nil, or_false] at he
      obtain rfl | rfl := he <;> exact hs.symm
    · cases he

open Utils.TradeLoader in
/-- The files after the day was loaded. -/
def loaded2019 : Files ℚ :=
  ((perform lastOf2019 (oneSymbol .trade (.range 18261 18261 true))).final
    { toFiles := Files.empty }).toFiles

theorem saved_loaded2019 : ∀ dt ∈ dates 18261 18261,
    ∃ rows, loaded2019.hdb (.trade, dt) = some (.saved rows) ∧ ∃ r ∈ rows, r.sym = "BTCUSDT" := by
  intro dt hdt
  obtain rfl : dt = 18261 := by
    have hdt := Utils.TradeLoader.mem_dates.mp hdt
    omega
  have hsmooth : (Utils.TradeLoader.oneSymbol .trade (.range 18261 18261 true)).Smooth :=
    ⟨List.cons_ne_nil _ _, List.nodup_singleton _, fun _ _ => rfl⟩
  have hdone : Utils.TradeLoader.RangeDone lastOf2019 _ Files.empty (dates 18261 18261)
      ((Utils.TradeLoader.perform lastOf2019
        (Utils.TradeLoader.oneSymbol .trade (.range 18261 18261 true))).final
          { toFiles := Files.empty }) :=
    Utils.TradeLoader.rangeDone_range hsmooth (le_refl 18261)
  have hloaded := hdone.hdb .trade 18261
  rw [hdone.loaded, if_pos ⟨rfl, List.mem_filter.mpr ⟨hdt, rfl⟩⟩] at hloaded
  refine ⟨_, hloaded, ?_⟩
  have hrow : (Loader.row lastOf2019.casts "BTCUSDT"
      ["1", "7200", "1", "7200", "1577804400000000", "True", "True"] .trade) ∈
        lastOf2019.rows .trade "BTCUSDT" 18261 := List.mem_cons_self
  exact ⟨_, mem_sortBy.mpr (List.mem_flatMap.mpr ⟨"BTCUSDT", List.mem_cons_self, hrow⟩), rfl⟩

theorem inDays_lastOf2019 : InDays lastOf2019 .trade "BTCUSDT" := by
  intro dt r hr
  by_cases hdt : dt = 18261
  · subst hdt
    change r ∈ [_, _] at hr
    simp only [List.mem_cons, List.not_mem_nil, or_false] at hr
    obtain rfl | rfl := hr <;> decide
  · have hnone : lastOf2019.archive .trade "BTCUSDT" dt = none := if_neg fun h => hdt h.2.2
    rw [Source.rows, hnone] at hr
    cases hr

theorem overNewYear_reaches : ∃ r ∈ exec (Utils.FundingLoader.step fun s => (digits s : ℚ)) []
      [⟨.allHistory "BTCUSDT", 1577900000000000000, overNewYear.fetchPage⟩],
    r.sym = "BTCUSDT" ∧ (18261 + 1) * dayNs ≤ r.fundingTime := by
  have hempty : Utils.FundingLoader.Sound overNewYear (fun s => (digits s : ℚ)) [] :=
    ⟨List.Pairwise.nil, fun r hr => by cases hr⟩
  obtain ⟨-, hrows⟩ := hempty.fetchWindow overNewYear.answers.serves "BTCUSDT"
    Utils.FundingLoader.epochDefault 1577900000000000000
  refine ⟨_, (hrows _).mpr (.inr ⟨⟨"BTCUSDT", 1577836800000, "2", "7220"⟩, ?_, rfl⟩), rfl, ?_⟩
  · rw [Utils.FundingLoader.paginateAll,
      Utils.FundingLoader.paginate_eq_take overNewYear.answers]
    decide
  · decide

theorem backtest_replays_history_new_year :
    let backtest := run { Fw.everySecond with timerIntervalNs := 0 } Fw.idle
      (table loaded2019 .trade)
      ((exec (Utils.FundingLoader.step fun s => (digits s : ℚ)) []
        [⟨.allHistory "BTCUSDT", 1577900000000000000, overNewYear.fetchPage⟩]).map asFunding)
      "BTCUSDT" 18261 18261
    ∃ events clock,
      tradesOf events = archivedTrades lastOf2019 .trade "BTCUSDT" (dates 18261 18261) ∧
      fundingsOf events =
        ((eventsBetween overNewYear "BTCUSDT" (18261 * dayNs) ((18261 + 1) * dayNs)).map
          fun e => asFunding (Utils.FundingLoader.shape (fun s => (digits s : ℚ)) e)).filter
            (fun r => (tradesOf events).getLast?.any fun last =>
              r.fundingTime ≤ last.exchTradeTs) ∧
      events.Pairwise MayPrecede ∧ backtest.1 = (tradesOf events).length ∧
      backtest.2.final { strategyState := () } =
        Fw.withClock clock ((Trail.each (Fw.dispatch { Fw.everySecond with timerIntervalNs := 0 }
          Fw.idle) events).final { strategyState := () }) :=
  backtest_replays_history { Fw.everySecond with timerIntervalNs := 0 } Fw.idle () (by decide)
    lastOf2019 .trade "BTCUSDT"
    (Utils.TradeLoader.reaches_final lastOf2019
      (Utils.TradeLoader.oneSymbol_trusted lastOf2019 .trade
        (.range 18261 18261 true) (fun _ => Utils.TradeLoader.Request.noConfusion) _))
    saved_loaded2019 inDays_lastOf2019 overNewYear (fun s => (digits s : ℚ)) (by
      intro fetch hfetch
      obtain rfl := List.mem_singleton.mp hfetch
      exact ⟨overNewYear.answers.serves, trivial⟩) (by decide) overNewYear_reaches

end Replay

end TickToSignal.Backtest
