import TickToSignal.Backtest.Clock
import TickToSignal.Foundation.Trail

/-!
# The backtest framework

Every intent, of the strategy or of a policy, goes through the pretrade check,
the paper execution and the position update. Trades and timers call the
strategy and then the auto-exit policies; fundings charge open positions.

## Implementation notes

The strategy is a record of its callbacks over a state of its own type; an
optional callback that is missing is `none`. Calls that update the framework
are trails, so that every state between two updates can be spoken of. An
advance whose timer loop does not end dispatches nothing further.
-/

namespace TickToSignal.Backtest

open Foundation

variable {S K St : Type*}

inductive Reason
  | ok
  | killSwitchActive
  | unknownSymbol
  | atCap
  | resizedToCap
  deriving DecidableEq, Repr

/-- What the pretrade check says of an intent. -/
structure Decision (S K : Type*) where
  approved : Bool
  reason : Reason
  intent : Intent S K
  deriving DecidableEq, Repr

/-- Largest absolute position per symbol; a symbol without one is unknown. -/
structure PositionCaps (S K : Type*) [Zero K] [LE K] where
  maxPosBySymbol : S → Option K
  nonneg : ∀ s c, maxPosBySymbol s = some c → 0 ≤ c

/-- Spread and fees of the paper execution, in basis points. -/
structure ExecCfg (K : Type*) where
  halfSpreadBps : K
  takerFeeBps : K
  makerFeeBps : K
  bnbDiscountPct : K

section Gate
variable [DecidableEq S] [Field K] [LinearOrder K]

/-- Check an intent against the position cap and the kill switch. -/
def Pretrade.check (caps : PositionCaps S K) (killSwitchTriggered : Bool) (intent : Intent S K)
    (positionSnapshot : List (S × K)) : Decision S K :=
  if killSwitchTriggered ∧ intent.action ≠ .flatten then
    { approved := false, reason := .killSwitchActive, intent := intent }
  else if intent.action = .flatten then { approved := true, reason := .ok, intent := intent }
  else
    match caps.maxPosBySymbol intent.sym with
    | none => { approved := false, reason := .unknownSymbol, intent := intent }
    | some cap =>
        let curQty := (positionSnapshot.lookup intent.sym).getD 0
        let proposedQty :=
          match intent.action with
          | .buy => curQty + intent.qty
          | .sell => curQty - intent.qty
          | .flatten => 0
        if |proposedQty| > cap then
          -- reduce the quantity so that the position lands at the cap
          let allowedQty :=
            match intent.action with
            | .buy => cap - curQty
            | .sell => cap + curQty
            | .flatten => 0
          if allowedQty ≤ 0 then { approved := false, reason := .atCap, intent := intent }
          else
            { approved := true, reason := .resizedToCap, intent := { intent with qty := allowedQty } }
        else { approved := true, reason := .ok, intent := intent }

def Exec.applyFee (cfg : ExecCfg K) (grossNotional : K) (isMaker : Bool) : K :=
  let rawBps := if isMaker then cfg.makerFeeBps else cfg.takerFeeBps
  let effBps := rawBps * ((100 - cfg.bnbDiscountPct) / 100)
  grossNotional * (effBps / 10000)

/-- Buy or sell, and how much; a flatten closes the open position. -/
def Exec.resolve (intent : Intent S K) (openQty : K) : Option (Action × K) :=
  match intent.action with
  | .flatten =>
      if openQty = 0 then none
      else if openQty > 0 then some (.sell, |openQty|)
      else some (.buy, |openQty|)
  | action => some (action, intent.qty)

/-- Fill an intent at the synthetic bid or ask; `none` without a price, or with
nothing to flatten. -/
def Exec.fill (cfg : ExecCfg K) (lastPrice : KeyedTable S K) (book : KeyedTable S (PosRow K))
    (intent : Intent S K) : Option (Fill S K) :=
  match lastPrice.lookup intent.sym with
  | none => none
  | some lastPx =>
      let halfSpread := lastPx * (cfg.halfSpreadBps / 10000)
      let synBid := lastPx - halfSpread
      let synAsk := lastPx + halfSpread
      match Exec.resolve intent (Pos.qty book intent.sym) with
      | none => none
      | some (action, reqQty) =>
          let fillPx := if action = .buy then synAsk else synBid
          let signedQty := if action = .buy then reqQty else -reqQty
          some
            { sym := intent.sym
              fillPrice := fillPx
              qty := signedQty
              feeUsdt := Exec.applyFee cfg (reqQty * fillPx) false
              source := intent.source }

end Gate

/-- The callbacks of a strategy. -/
structure Strategy (S K St : Type*) where
  onTrade : St → Trade S K → St × List (Intent S K)
  onFill : Option (St → Fill S K → St) := none
  onTimer : Option (St → Int → St × List (Intent S K)) := none
  onFunding : Option (St → FundingRow S K → St) := none

structure FwCfg (S K : Type*) [Zero K] [LE K] where
  pos : Pos.Cfg K
  caps : PositionCaps S K
  exec : ExecCfg K
  timerIntervalNs : Int

/-- The state of a backtest. -/
structure FwState (S K St : Type*) where
  pos : Pos.State S K := {}
  lastPrice : KeyedTable S K := KeyedTable.empty
  strategyState : St
  clock : ClockState := {}
  eventsProcessed : Nat := 0
  intentsGenerated : Nat := 0
  intentsApproved : Nat := 0
  intentsRejected : Nat := 0
  fillsExecuted : Nat := 0

namespace Fw

variable [DecidableEq S] [Field K] [LinearOrder K] (cfg : FwCfg S K) (strat : Strategy S K St)
  (history : FundingHistory S K)

/-- An approved intent is filled, if it can be, and the position updated. -/
def execute (intent : Intent S K) (s : FwState S K St) : FwState S K St :=
  let s := { s with intentsApproved := s.intentsApproved + 1 }
  match Exec.fill cfg.exec s.lastPrice s.pos.book intent with
  | none => s
  | some fill =>
      { s with
        fillsExecuted := s.fillsExecuted + 1
        pos := { s.pos with book := Pos.applyFill s.pos.book fill }
        strategyState := strat.onFill.elim s.strategyState fun cb => cb s.strategyState fill }

/-- One intent through the pipeline. -/
def routeIntent (intent : Intent S K) (s : FwState S K St) : FwState S K St :=
  let pos := Pos.snapshot s.pos.book
  let decision := Pretrade.check cfg.caps s.pos.killSwitchTriggered intent pos
  if decision.approved then execute cfg strat decision.intent s
  else { s with intentsRejected := s.intentsRejected + 1 }

def routeIntents (intents : List (Intent S K)) : Trail (FwState S K St) :=
  (Trail.update fun s => { s with intentsGenerated := s.intentsGenerated + intents.length }).seq
    (Trail.each (fun intent => Trail.update (routeIntent cfg strat intent)) intents)

/-- Call the strategy and route what it returns. -/
def callback (cb : St → St × List (Intent S K)) : Trail (FwState S K St) :=
  Trail.read fun s =>
    let result := cb s.strategyState
    (Trail.update fun s => { s with strategyState := result.1 }).seq
      (routeIntents cfg strat result.2)

/-- Run the auto-exit policies and route what they return. -/
def policies : Trail (FwState S K St) :=
  Trail.read fun s =>
    let result := Pos.checkPolicies cfg.pos s.pos
    (Trail.update fun s => { s with pos := result.1 }).seq (routeIntents cfg strat result.2)

def dispatchFunding (r : FundingRow S K) : Trail (FwState S K St) :=
  Trail.update fun s =>
    { s with
      pos := { s.pos with book := Pos.applyFunding s.pos.book r.sym r.fundingRate r.markPrice }
      strategyState := strat.onFunding.elim s.strategyState fun cb => cb s.strategyState r }

def dispatchTimer (ts : Int) : Trail (FwState S K St) :=
  (strat.onTimer.elim Trail.skip fun cb => callback cfg strat fun st => cb st ts).seq
    (policies cfg strat)

/-- The last price, and mark-to-market. -/
def recordTrade (trade : Trade S K) (s : FwState S K St) : FwState S K St :=
  { s with
    lastPrice := s.lastPrice.upsert trade.sym trade.price
    pos := { s.pos with book := Pos.updateMarkPrice s.pos.book trade.sym trade.price } }

def dispatchTrade (trade : Trade S K) : Trail (FwState S K St) :=
  (Trail.update (recordTrade trade)).seq
    ((callback cfg strat fun st => strat.onTrade st trade).seq
      ((policies cfg strat).seq
        (Trail.update fun s => { s with eventsProcessed := s.eventsProcessed + 1 })))

def dispatch : Event S K → Trail (FwState S K St)
  | .funding r => dispatchFunding strat r
  | .timer ts => dispatchTimer cfg strat ts
  | .trade t => dispatchTrade cfg strat t

/-- The entry point for trades: what falls due with the trade, then the trade. -/
def onTrade (trade : Trade S K) : Trail (FwState S K St) :=
  Trail.read fun s =>
    (clockTrade cfg.timerIntervalNs history s.clock trade).elim Trail.skip fun d =>
      (Trail.update fun s => { s with clock := d.clock }).seq
        (Trail.each (dispatch cfg strat) d.events)

/-- Feed historical trades one after the other. -/
def replay (trades : List (Trade S K)) : Trail (FwState S K St) :=
  Trail.each (onTrade cfg strat history) trades

end Fw

end TickToSignal.Backtest
