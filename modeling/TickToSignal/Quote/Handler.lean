import TickToSignal.OrderBook.Manager
import TickToSignal.Quote.Scheduler

/-!
# The quote feed handler

One process with a book per symbol, a snapshot worker behind two bounded
queues, and the scheduler that paces its requests. The events are what drives
the source's loop: a (re)connect, the draining of snapshot results, a depth
message, the heartbeat check, and one step of the worker thread.

## Implementation notes

Each event reads the steady clock once. Building the row, its `time` stamp and
the health and statistics output are left out: `published` holds the quotes in
the order they were handed to the publisher.
-/

namespace TickToSignal.Quote

open OrderBook

variable {n : Nat} {K : Type*}

/-- A request without a result after this long is given up. -/
def snapshotTimeoutMs : Int := 30000

/-- Capacity of the worker's request queue and of its result queue. -/
def queueCapacity : Nat := 10

/-- `BoundedQueue::push`: the oldest item is dropped when the queue is full. -/
def push {α : Type*} (q : List α) (item : α) : List α :=
  (if queueCapacity ≤ q.length then q.tail else q) ++ [item]

/-- What a REST snapshot fetch returned. -/
structure SnapshotData (K : Type*) where
  lastUpdateId : Int := 0
  bids : List (PriceLevel K) := []
  asks : List (PriceLevel K) := []
  success : Bool := false
  httpStatus : Int := 0
  retryAfterSec : Int := 0
  usedWeight1m : Int := -1

structure SnapshotRequest (n : Nat) where
  symIdx : Fin n
  requestId : Nat

structure SnapshotResult (n : Nat) (K : Type*) where
  symIdx : Fin n
  requestId : Nat
  data : SnapshotData K

structure HandlerConfig (n : Nat) where
  book : BookConfig
  schedCfg : SnapshotSchedulerConfig
  symbolsUpper : Fin n → String

structure QuoteFeedHandler (n : Nat) (K : Type*) where
  books : Fin n → SymbolBook K
  latestRequestId : Fin n → Nat
  snapshotRequestedAtMs : Fin n → Int
  snapshotScheduler : SnapshotScheduler n
  requests : List (SnapshotRequest n) := []
  results : List (SnapshotResult n K) := []
  nextRequestId : Nat := 0
  fhSeqNo : Int := 0
  ctrSequenceGaps : Nat := 0
  ctrResyncs : Nat := 0
  ctrSnapshotFailures : Nat := 0
  published : List (Fin n × BookQuote K) := []

namespace QuoteFeedHandler

variable [LinearOrder K] [Zero K]

def init (cfg : HandlerConfig n) (nowMs : Int) : QuoteFeedHandler n K :=
  { books := fun i => SymbolBook.init (cfg.symbolsUpper i) nowMs
    latestRequestId := fun _ => 0
    snapshotRequestedAtMs := fun _ => 0
    snapshotScheduler := SnapshotScheduler.init n cfg.schedCfg }

/-- Replace one symbol's book. -/
def setBook (h : QuoteFeedHandler n K) (symIdx : Fin n) (s : SymbolBook K) :
    QuoteFeedHandler n K :=
  { h with books := Function.update h.books symIdx s }

/-- The rows published for one symbol, oldest first. -/
def rows (h : QuoteFeedHandler n K) (symIdx : Fin n) : List (BookQuote K) :=
  (h.published.filter fun p => p.1 = symIdx).map (·.2)

/-- Hand a quote to the publisher and remember it. -/
def publishQuote (h : QuoteFeedHandler n K) (symIdx : Fin n) (quote : BookQuote K) (nowMs : Int) :
    QuoteFeedHandler n K :=
  { h with
    fhSeqNo := h.fhSeqNo + 1
    published := h.published ++ [(symIdx, quote)]
    books := Function.update h.books symIdx ((h.books symIdx).recordPublish nowMs quote) }

def maybePublish (cfg : HandlerConfig n) (h : QuoteFeedHandler n K) (symIdx : Fin n)
    (fhRecvTimeUtcNs nowMs : Int) : QuoteFeedHandler n K :=
  let quote := (h.books symIdx).getQuote cfg.book fhRecvTimeUtcNs (h.fhSeqNo + 1)
  if (h.books symIdx).shouldPublish nowMs quote then h.publishQuote symIdx quote nowMs else h

/-- The quote of a symbol whose book cannot be trusted. -/
def invalidQuote (cfg : HandlerConfig n) (h : QuoteFeedHandler n K) (symIdx : Fin n)
    (fhRecvTimeUtcNs : Int) : BookQuote K :=
  { sym := cfg.symbolsUpper symIdx
    bids := List.replicate cfg.book.depth ⟨0, 0⟩
    asks := List.replicate cfg.book.depth ⟨0, 0⟩
    isValid := false
    fhRecvTimeUtcNs := fhRecvTimeUtcNs
    fhSeqNo := h.fhSeqNo + 1 }

def publishInvalid (cfg : HandlerConfig n) (h : QuoteFeedHandler n K) (symIdx : Fin n)
    (fhRecvTimeUtcNs nowMs : Int) : QuoteFeedHandler n K :=
  h.publishQuote symIdx (h.invalidQuote cfg symIdx fhRecvTimeUtcNs) nowMs

def requestSnapshot (h : QuoteFeedHandler n K) (symIdx : Fin n) (nowMs : Int) :
    QuoteFeedHandler n K :=
  let id := h.nextRequestId + 1
  { h with
    books := Function.update h.books symIdx ((h.books symIdx).setSnapshotRequested true)
    snapshotRequestedAtMs := Function.update h.snapshotRequestedAtMs symIdx nowMs
    nextRequestId := id
    requests := push h.requests ⟨symIdx, id⟩
    latestRequestId := Function.update h.latestRequestId symIdx id }

/-- Ask the scheduler; on yes start the request and send it. -/
def acquireAndRequest (cfg : HandlerConfig n) (h : QuoteFeedHandler n K) (symIdx : Fin n)
    (nowMs : Int) (start : SymbolBook K → SymbolBook K) : QuoteFeedHandler n K :=
  let (granted, sched) := h.snapshotScheduler.tryAcquire cfg.schedCfg symIdx nowMs
  let h := { h with snapshotScheduler := sched }
  if granted then (h.setBook symIdx (start (h.books symIdx))).requestSnapshot symIdx nowMs else h

/-- The book failed on an event: one invalid row, then rebuild from a snapshot. -/
def resync (cfg : HandlerConfig n) (h : QuoteFeedHandler n K) (symIdx : Fin n)
    (state : BookState) (fhRecvTimeUtcNs nowMs : Int) : QuoteFeedHandler n K :=
  let h :=
    if state = .VALID then { h with ctrSequenceGaps := h.ctrSequenceGaps + 1 }
    else { h with
      snapshotScheduler := h.snapshotScheduler.onFailure cfg.schedCfg symIdx nowMs }
  let h := { h with ctrResyncs := h.ctrResyncs + 1 }
  let h := h.publishInvalid cfg symIdx fhRecvTimeUtcNs nowMs
  h.setBook symIdx (h.books symIdx).reset

/-- The book took an event: publish once it is valid, and refresh a book whose
known depth is running low. -/
def serve (cfg : HandlerConfig n) (h : QuoteFeedHandler n K) (symIdx : Fin n)
    (state : BookState) (fhRecvTimeUtcNs nowMs : Int) : QuoteFeedHandler n K :=
  if !(h.books symIdx).isValid then h
  else
    let h :=
      if state = .SYNCING then { h with snapshotScheduler := h.snapshotScheduler.onSynced symIdx }
      else h
    let h := h.maybePublish cfg symIdx fhRecvTimeUtcNs nowMs
    if (h.books symIdx).wantsRefresh cfg.book then
      h.acquireAndRequest cfg symIdx nowMs SymbolBook.beginRefresh
    else h

/-- A depth event, by the state the book is in. -/
def handleDelta (cfg : HandlerConfig n) (h : QuoteFeedHandler n K) (symIdx : Fin n)
    (delta : BufferedDelta K) (fhRecvTimeUtcNs nowMs : Int) : QuoteFeedHandler n K :=
  match (h.books symIdx).state with
  | .INIT =>
      let h := h.setBook symIdx ((h.books symIdx).bufferDelta delta).2
      if (h.books symIdx).needsSnapshot then h.acquireAndRequest cfg symIdx nowMs id else h
  | .INVALID => h.setBook symIdx (h.books symIdx).reset
  | state =>
      let applied := (h.books symIdx).applyDelta cfg.book delta
      let h := h.setBook symIdx applied.2
      if applied.1 then h.serve cfg symIdx state fhRecvTimeUtcNs nowMs
      else h.resync cfg symIdx state fhRecvTimeUtcNs nowMs

/-- Give up a request whose result never came back. -/
def expireRequest (cfg : HandlerConfig n) (nowMs : Int) (h : QuoteFeedHandler n K)
    (symIdx : Fin n) : QuoteFeedHandler n K :=
  if h.snapshotRequestedAtMs symIdx ≠ 0 ∧
      nowMs - h.snapshotRequestedAtMs symIdx > snapshotTimeoutMs then
    { h with
      latestRequestId := Function.update h.latestRequestId symIdx (h.latestRequestId symIdx + 1)
      snapshotRequestedAtMs := Function.update h.snapshotRequestedAtMs symIdx 0
      books := Function.update h.books symIdx
        ((h.books symIdx).cancelRefresh.setSnapshotRequested false)
      snapshotScheduler := h.snapshotScheduler.onFailure cfg.schedCfg symIdx nowMs
      ctrSnapshotFailures := h.ctrSnapshotFailures + 1 }
  else h

/-- What the scheduler and the counters make of a snapshot's outcome. -/
def noteOutcome (cfg : HandlerConfig n) (nowMs : Int) (h : QuoteFeedHandler n K)
    (symIdx : Fin n) : SnapshotOutcome → QuoteFeedHandler n K
  | .SYNCED | .REFRESHED | .REFRESH_AWAITING_BRIDGE =>
      { h with snapshotScheduler := h.snapshotScheduler.onSynced symIdx }
  | .SYNC_FAILED =>
      { h with
        ctrResyncs := h.ctrResyncs + 1
        snapshotScheduler := h.snapshotScheduler.onFailure cfg.schedCfg symIdx nowMs }
  | .REFRESH_FAILED =>
      { h with snapshotScheduler := h.snapshotScheduler.onFailure cfg.schedCfg symIdx nowMs }
  | .AWAITING_BRIDGE | .IGNORED => h

/-- One result of the worker; a stale one is discarded. -/
def applyResult (cfg : HandlerConfig n) (nowMs : Int) (h : QuoteFeedHandler n K)
    (r : SnapshotResult n K) : QuoteFeedHandler n K :=
  if r.requestId < h.latestRequestId r.symIdx then h
  else
    let h := { h with
      snapshotRequestedAtMs := Function.update h.snapshotRequestedAtMs r.symIdx 0 }
    if !r.data.success then
      { h with
        ctrSnapshotFailures := h.ctrSnapshotFailures + 1
        snapshotScheduler := h.snapshotScheduler.onFailure cfg.schedCfg r.symIdx nowMs
          r.data.httpStatus r.data.retryAfterSec r.data.usedWeight1m
        books := Function.update h.books r.symIdx
          ((h.books r.symIdx).cancelRefresh.setSnapshotRequested false) }
    else
      let h := { h with
        snapshotScheduler :=
          h.snapshotScheduler.onFetchOk cfg.schedCfg r.symIdx nowMs r.data.usedWeight1m }
      let (outcome, s) := (h.books r.symIdx).onSnapshot cfg.book r.data.lastUpdateId
        r.data.bids r.data.asks
      (h.setBook r.symIdx s).noteOutcome cfg nowMs r.symIdx outcome

/-- Drain the worker's results and apply them. -/
def applySnapshotResults (cfg : HandlerConfig n) (h : QuoteFeedHandler n K) (nowMs : Int) :
    QuoteFeedHandler n K :=
  let h := (List.finRange n).foldl (expireRequest cfg nowMs) h
  h.results.foldl (applyResult cfg nowMs) { h with results := [] }

/-- Heartbeats are for valid quotes only. -/
def heartbeat (cfg : HandlerConfig n) (fhRecvTimeUtcNs nowMs : Int) (h : QuoteFeedHandler n K)
    (symIdx : Fin n) : QuoteFeedHandler n K :=
  let quote := (h.books symIdx).getQuote cfg.book fhRecvTimeUtcNs (h.fhSeqNo + 1)
  if !quote.isValid then h else h.publishQuote symIdx quote nowMs

def checkPublishTimeouts (cfg : HandlerConfig n) (h : QuoteFeedHandler n K)
    (fhRecvTimeUtcNs nowMs : Int) : QuoteFeedHandler n K :=
  let needsPublish :=
    (List.finRange n).filter fun i => (h.books i).timeoutPublishNeeded nowMs
  needsPublish.foldl (heartbeat cfg fhRecvTimeUtcNs nowMs) h

/-- Mark the hole a lost connection leaves in one symbol's quotes. -/
def markHole (cfg : HandlerConfig n) (nowNs nowMs : Int) (h : QuoteFeedHandler n K)
    (symIdx : Fin n) : QuoteFeedHandler n K :=
  if (h.books symIdx).lastPublishedValid then h.publishInvalid cfg symIdx nowNs nowMs else h

/-- The start of `runWebSocketLoop`: mark the hole, reset every book, and make
the snapshots still in flight stale. -/
def onConnect (cfg : HandlerConfig n) (h : QuoteFeedHandler n K) (tpConnected : Bool)
    (nowNs nowMs : Int) : QuoteFeedHandler n K :=
  let h := if tpConnected then (List.finRange n).foldl (markHole cfg nowNs nowMs) h else h
  { h with
    books := fun i => (h.books i).reset
    latestRequestId := fun i =>
      if h.snapshotRequestedAtMs i ≠ 0 then h.latestRequestId i + 1 else h.latestRequestId i
    snapshotRequestedAtMs := fun _ => 0 }

/-- The worker thread takes one request, fetches, and queues the result. -/
def workerStep (h : QuoteFeedHandler n K) (data : SnapshotData K) : QuoteFeedHandler n K :=
  match h.requests with
  | [] => h
  | req :: rest =>
      { h with
        requests := rest
        results := push h.results ⟨req.symIdx, req.requestId, data⟩ }

end QuoteFeedHandler

/-- What drives the handler. -/
inductive Event (n : Nat) (K : Type*)
  | connect (tpConnected : Bool) (nowNs nowMs : Int)
  | applyResults (nowMs : Int)
  | message (symIdx : Fin n) (delta : BufferedDelta K) (fhRecvTimeUtcNs nowMs : Int)
  | checkTimeouts (fhRecvTimeUtcNs nowMs : Int)
  | worker (data : SnapshotData K)

/-- One event of the handler's loop or of its worker thread. -/
def QuoteFeedHandler.step [LinearOrder K] [Zero K] (cfg : HandlerConfig n)
    (h : QuoteFeedHandler n K) : Event n K → QuoteFeedHandler n K
  | .connect tpConnected nowNs nowMs => h.onConnect cfg tpConnected nowNs nowMs
  | .applyResults nowMs => h.applySnapshotResults cfg nowMs
  | .message symIdx delta fhRecvTimeUtcNs nowMs =>
      h.handleDelta cfg symIdx delta fhRecvTimeUtcNs nowMs
  | .checkTimeouts fhRecvTimeUtcNs nowMs => h.checkPublishTimeouts cfg fhRecvTimeUtcNs nowMs
  | .worker data => h.workerStep data

end TickToSignal.Quote
