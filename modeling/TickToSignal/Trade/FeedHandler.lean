import TickToSignal.Publisher.World
import TickToSignal.Tp.TradeState
import TickToSignal.Trade.Backfill
import Mathlib.Data.List.Dedup

/-!
# The trade handler of one table and TP

A handler process finds the gaps in the trade ids, queues a `trade_gap` event
for each change of a gap, publishes the rows it receives and those it backfills,
and starts from what TP says was logged. Rows go through the publisher, events
are calls that TP acknowledges; either can meet a dead connection, and the
process can end between any two of its actions.

## Implementation notes

The main thread takes a message or drives the backfill only when the actions of
the one before are done: `todo` holds what is left of them. A publish that finds
the connection dead returns when the publisher is connected again. The rows in
TP's log are those of the link, `gapLog` holds the events in it. TP does not
restart here, and its row columns other than symbol, id and event time are left
out.
-/

namespace TickToSignal.Trade

open Publisher Tp

variable {φ δ : Type*}

/-- What TP reads of a trade row; a backfilled one has no event time. -/
structure TradeRow where
  sym : String
  id : Int
  exchEventTimeMs : Option Int
  deriving DecidableEq, Repr

/-- The row as TP takes it in. -/
def TradeRow.dataRow (table : Table) (fhSeqNo : Int) (r : TradeRow) : DataRow :=
  { table := table, fhSeqNo := fhSeqNo, sym := r.sym, tradeId := r.id
    exchEventTimeMs := r.exchEventTimeMs }

structure HandlerConfig where
  table : Table
  publisher : PublisherConfig
  backfill : TradeBackfillConfig

/-- `buildGapRow`. -/
def buildGapRow (nowNs : Int) (g : TradeGap) (srcTable : Table) (status : GapStatus)
    (reason : String) : GapEvent :=
  { key := { srcTable := srcTable, sym := g.sym, firstMissingId := g.firstId }
    row :=
      { lastMissingId := g.lastId, status := status, recovered := g.recovered
        recoveredThroughId := g.recoveredThroughId, reason := reason, time := nowNs } }

/-- An action that the main thread has still to do. -/
inductive Act
  | publish (row : TradeRow)
  /-- `recordGap`: queue the event, then flush -/
  | record (e : GapEvent)
  /-- `gapEvents_.flush` -/
  | flush
  deriving DecidableEq, Repr

structure TradeFeedHandler (φ δ : Type*) where
  /-- past the start-up of `run` -/
  ready : Bool := false
  idTracker : TradeIdTracker := {}
  seededSyms : String → Bool := fun _ => false
  backfill : TradeBackfill φ δ
  gapEvents : List GapEvent := []
  todo : List Act := []

namespace TradeFeedHandler

/-- Check an id; a gap is recorded and queued for the backfill. -/
def validateTradeId (cfg : HandlerConfig) (nowNs : Int) (sym : String) (tradeId : Int)
    (h : TradeFeedHandler φ δ) : TradeFeedHandler φ δ :=
  let (kind, tracker) := h.idTracker.onId sym tradeId
  let h := { h with idTracker := tracker }
  let h :=
    match kind with
    | .gap firstMissing lastMissing =>
        let gap : TradeGap := { sym := sym, firstId := firstMissing, lastId := lastMissing }
        let reason := if h.seededSyms sym then "handlerRestart" else ""
        { h with
          todo := h.todo ++ [Act.record (buildGapRow nowNs gap cfg.table .detected reason)]
          backfill := h.backfill.addGap gap }
    | _ => h
  { h with seededSyms := Function.update h.seededSyms sym false }

/-- A live trade: check the id, publish the row, send events that are still queued. -/
def processMessage (cfg : HandlerConfig) (nowNs : Int) (sym : String) (tradeId eventTimeMs : Int)
    (h : TradeFeedHandler φ δ) : TradeFeedHandler φ δ :=
  let h := h.validateTradeId cfg nowNs sym tradeId
  { h with
    todo := h.todo ++
      [Act.publish { sym := sym, id := tradeId, exchEventTimeMs := some eventTimeMs },
        Act.flush] }

/-- What the callbacks given to `pump` do with one output. -/
def callback (cfg : HandlerConfig) (nowNs : Int) : Out δ → List Act
  | .row _ sym t _ => [.publish { sym := sym, id := t.id, exchEventTimeMs := none }]
  | .event _ g status reason => [.record (buildGapRow nowNs g cfg.table status reason)]
  | .applied _ _ => []

def pumpBackfill (cfg : HandlerConfig) (fetch : Fetcher φ δ) (nowMs nowNs : Int)
    (h : TradeFeedHandler φ δ) : TradeFeedHandler φ δ :=
  let backfill := h.backfill.pump cfg.backfill fetch nowMs
  let handed := backfill.out.drop h.backfill.out.length
  { h with backfill := backfill, todo := h.todo ++ handed.flatMap (callback cfg nowNs) }

/-- Start from what TP has logged: the last id per symbol, and the gaps still open. -/
def resume (lastIds : String → Option Int) (openGaps : List TradeGap) (h : TradeFeedHandler φ δ) :
    TradeFeedHandler φ δ :=
  { h with
    idTracker := { last := lastIds }
    seededSyms := fun sym => (lastIds sym).isSome
    backfill := openGaps.foldl (fun b gap => b.addGap gap) h.backfill }

/-- The end of the start-up: the backfill thread runs. -/
def begin (cfg : HandlerConfig) (h : TradeFeedHandler φ δ) : TradeFeedHandler φ δ :=
  { h with ready := true, backfill := h.backfill.start cfg.backfill }

end TradeFeedHandler

/-- A gap as TP remembers it. -/
def toGap (key : GapKey) (g : GapRow) : TradeGap :=
  { sym := key.sym, firstId := key.firstMissingId, lastId := g.lastMissingId
    recovered := g.recovered, recoveredThroughId := g.recoveredThroughId }

/-- How a call of `.tp.event` ends. -/
inductive EventOutcome
  | acked
  /-- logged, and the connection dies before the reply -/
  | replyLost
  /-- the connection is dead, or dies before TP takes the event -/
  | connectionLost
  deriving DecidableEq, Repr

/-- The handler, its connection, and TP: `mem` is what TP knows of the table's ids and gaps,
`lastLive` the last id the exchange sent of each symbol. -/
structure TradeWorld (φ δ : Type*) where
  link : World TradeRow := { tp := some {} }
  mem : Memory := {}
  gapLog : List GapEvent := []
  handler : Option (TradeFeedHandler φ δ) := none
  lastLive : String → Option Int := fun _ => none

inductive TradeStep (φ : Type*)
  | start (sessionId : Int) (fetcher : φ)
  | register (replyLost : Bool)
  | resendRow (accepted : Bool)
  | connLost
  | tpProcess
  /-- the call of `.tp.tradeState` at the start-up -/
  | tradeState (received : Bool)
  | message (sym : String) (tradeId : Nat) (eventTimeMs nowNs : Int)
  | pump (nowMs nowNs : Int)
  /-- the flush of `publishHealth` -/
  | health
  | workerPop
  | workerPush
  /-- the next action, unless it is a call of `.tp.event` -/
  | act (accepted : Bool)
  | sendEvent (outcome : EventOutcome)
  | crash

namespace TradeWorld

/-- The publisher is not inside `connect`. -/
def free : Conn TradeRow → Bool
  | .connected | .lost => true
  | .connecting | .resending _ _ => false

/-- The running handler with its publisher, when its main thread can act. -/
def acting (w : TradeWorld φ δ) : Option (TradeFeedHandler φ δ × TpPublisher TradeRow) :=
  match w.handler, w.link.handler with
  | some h, some pub => if h.ready ∧ free pub.conn then some (h, pub) else none
  | _, _ => none

/-- The same, with nothing left to do of the last message or pump. -/
def idle (w : TradeWorld φ δ) : Option (TradeFeedHandler φ δ) :=
  match w.acting with
  | some (h, _) => if h.todo = [] then some h else none
  | none => none

/-- The open gaps of the table, in the order of TP's table. -/
def openGaps (cfg : HandlerConfig) (w : TradeWorld φ δ) : List TradeGap :=
  let keys := (w.gapLog.map (·.key)).reverse.dedup.reverse
  keys.filterMap fun key =>
    match w.mem.gaps key with
    | some g => if key.srcTable = cfg.table ∧ g.isOpen then some (toGap key g) else none
    | none => none

def start (cfg : HandlerConfig) (w : TradeWorld φ δ) (sessionId : Int) (fetcher : φ) :
    TradeWorld φ δ :=
  if w.handler.isNone ∧ w.link.handler.isNone ∧ w.link.started < sessionId then
    { w with
      link := w.link.handlerStart cfg.publisher sessionId cfg.publisher.tp.fhWidth
      handler := some { backfill := .init cfg.backfill fetcher } }
  else w

/-- A call finds the connection dead. -/
def loseCall (w : TradeWorld φ δ) : TradeWorld φ δ :=
  { w with link := w.link.connLost.eventFailed }

/-- `.tp.tradeState`, and the rest of the start-up. -/
def tradeState (cfg : HandlerConfig) (w : TradeWorld φ δ) (received : Bool) : TradeWorld φ δ :=
  match w.handler, w.link.handler with
  | some h, some pub =>
      if h.ready = false ∧ pub.conn = .connected then
        if received ∧ w.link.linkUp then
          let h := h.resume (w.mem.lastId cfg.table) (w.openGaps cfg)
          { w with handler := some (h.begin cfg) }
        else { w.loseCall with handler := some (h.begin cfg) }
      else w
  | _, _ => w

/-- The next trade of a symbol; its id is above the one before. -/
def message (cfg : HandlerConfig) (w : TradeWorld φ δ) (sym : String) (tradeId : Nat)
    (eventTimeMs nowNs : Int) : TradeWorld φ δ :=
  match w.idle with
  | none => w
  | some h =>
      if ∀ l ∈ w.lastLive sym, l < (tradeId : Int) then
        { w with
          handler := some (h.processMessage cfg nowNs sym tradeId eventTimeMs)
          lastLive := Function.update w.lastLive sym (some tradeId) }
      else w

def pump (cfg : HandlerConfig) (fetch : Fetcher φ δ) (w : TradeWorld φ δ) (nowMs nowNs : Int) :
    TradeWorld φ δ :=
  match w.idle with
  | none => w
  | some h => { w with handler := some (h.pumpBackfill cfg fetch nowMs nowNs) }

def health (w : TradeWorld φ δ) : TradeWorld φ δ :=
  match w.idle with
  | none => w
  | some h => { w with handler := some { h with todo := [.flush] } }

/-- A step of the backfill's worker thread. -/
def worker (f : TradeBackfill φ δ → TradeBackfill φ δ) (w : TradeWorld φ δ) : TradeWorld φ δ :=
  { w with handler := w.handler.map fun h => { h with backfill := f h.backfill } }

def act (w : TradeWorld φ δ) (accepted : Bool) : TradeWorld φ δ :=
  match w.acting with
  | none => w
  | some (h, _) =>
      match h.todo with
      | [] => w
      | .publish row :: rest =>
          { w with
            link := w.link.publish row accepted, handler := some { h with todo := rest } }
      | .record e :: rest =>
          { w with
            handler := some { h with gapEvents := h.gapEvents ++ [e], todo := .flush :: rest } }
      | .flush :: rest =>
          -- the loop of `flush` ends when nothing is queued
          if h.gapEvents = [] then { w with handler := some { h with todo := rest } } else w

/-- TP logs an event: `.tp.event`. -/
def tpEvent (w : TradeWorld φ δ) (e : GapEvent) : TradeWorld φ δ :=
  { w with link := w.link.sessionSave, mem := w.mem.noteGap e, gapLog := w.gapLog ++ [e] }

/-- One turn of the loop of `flush`. TP takes the call after the rows sent before it. -/
def sendEvent (w : TradeWorld φ δ) (outcome : EventOutcome) : TradeWorld φ δ :=
  match w.acting with
  | none => w
  | some (h, pub) =>
      match h.todo, h.gapEvents with
      | .flush :: rest, e :: events =>
          let stopped := some { h with todo := rest }
          if pub.conn = .connected then
            match outcome with
            | .connectionLost => { w.loseCall with handler := stopped }
            | .acked =>
                if w.link.linkUp ∧ w.link.wire = [] then
                  { w.tpEvent e with handler := some { h with gapEvents := events } }
                else w
            | .replyLost =>
                if w.link.linkUp ∧ w.link.wire = [] then
                  { (w.tpEvent e).loseCall with handler := stopped }
                else w
          else { w with handler := stopped }
      | _, _ => w

/-- TP takes the next row in flight. -/
def tpProcess (cfg : HandlerConfig) (w : TradeWorld φ δ) : TradeWorld φ δ :=
  match w.link.handler, w.link.tp, w.link.wire with
  | some _, some _, row :: _ =>
      { w with
        link := w.link.tpProcess
        mem := w.mem.noteTradeId (row.data.dataRow cfg.table row.fhSeqNo) }
  | _, _, _ => w

/-- The process ends; what it held is gone. -/
def crash (w : TradeWorld φ δ) : TradeWorld φ δ :=
  { w with link := w.link.handlerExit, handler := none }

def step (cfg : HandlerConfig) (fetch : Fetcher φ δ) (w : TradeWorld φ δ) :
    TradeStep φ → TradeWorld φ δ
  | .start sessionId fetcher => w.start cfg sessionId fetcher
  | .register replyLost => { w with link := w.link.register cfg.publisher replyLost }
  | .resendRow accepted => { w with link := w.link.resendRow accepted }
  | .connLost => { w with link := w.link.connLost }
  | .tpProcess => w.tpProcess cfg
  | .tradeState received => w.tradeState cfg received
  | .message sym tradeId eventTimeMs nowNs => w.message cfg sym tradeId eventTimeMs nowNs
  | .pump nowMs nowNs => w.pump cfg fetch nowMs nowNs
  | .health => w.health
  | .workerPop => w.worker .workerPop
  | .workerPush => w.worker (.workerPush fetch)
  | .act accepted => w.act accepted
  | .sendEvent outcome => w.sendEvent outcome
  | .crash => w.crash

end TradeWorld

/-- A configuration for runs on fixed inputs. -/
def demoConfig : HandlerConfig :=
  { table := .tradeBinance
    publisher := { tp := { tbl := "trade_binance", fhWidth := 12 }, ringSize := 8 }
    backfill := { sched := { jitter := fun _ => 0 } } }

/-- An endpoint that serves every id. -/
def demoFetch : Fetcher Unit Unit := fun _ fromId limit u =>
  ({ ok := true
     trades := (List.range limit.toNat).map fun i : Nat => { id := fromId + i, data := () } }, u)

end TickToSignal.Trade
