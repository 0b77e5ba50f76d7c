import TickToSignal.Quote.Handler
import TickToSignal.Foundation.Machine

/-!
# The life of a snapshot request

A symbol has at most one request it waits for. `History` records, next to the
handler, which request is a symbol's newest, which were given up, and which
were sent before the last connect; `Live` is what is left.

## Implementation notes

`QuoteFeedHandler.step` takes a request and completes it at once. Here the
worker thread is split into `take` and `finish`, so that a request can be in the
thread's hands, outside both queues, for any number of other events.
-/

namespace TickToSignal.OrderBook.SymbolBook

variable {K : Type*}

/-- The symbol waits for a snapshot, an initial one or a refresh. -/
def awaiting (s : SymbolBook K) : Bool := s.snapshotRequested || s.refreshPending

section
variable [LinearOrder K] [Zero K] (cfg : BookConfig) (s : SymbolBook K) (d : BufferedDelta K)

omit [LinearOrder K] [Zero K] in
@[simp] theorem bufferDelta_awaiting : (s.bufferDelta d).2.awaiting = s.awaiting := by
  simp only [bufferDelta]
  split_ifs <;> rfl

@[simp] theorem feedShadow_awaiting : (s.feedShadow cfg d).awaiting = s.awaiting := by
  simp only [feedShadow]
  split <;> rfl

@[simp] theorem passOn_awaiting : (s.passOn cfg d).awaiting = s.awaiting := by
  simp only [passOn]
  split_ifs <;> simp

@[simp] theorem applyDelta_awaiting : (s.applyDelta cfg d).2.awaiting = s.awaiting := by
  obtain ⟨-, -, h⟩ | ⟨-, seq, ⟨-, h⟩ | ⟨-, h⟩ | ⟨-, h⟩⟩ := s.applyDelta_cases cfg d
  · rw [h]
  · rw [h]
    rfl
  · rw [h]
    exact passOn_awaiting cfg _ d
  · rw [h]
    exact passOn_awaiting cfg _ d

@[simp] theorem replay_awaiting (ds : List (BufferedDelta K)) :
    (s.replay cfg ds).2.awaiting = s.awaiting := by
  induction ds generalizing s with
  | nil => rfl
  | cons d ds ih =>
      have hd := s.applyDelta_awaiting cfg d
      simp only [replay]
      split
      · rename_i s' heq
        simpa [heq] using hd
      · rename_i s' heq
        rw [ih, ← hd, heq]

omit [LinearOrder K] in
@[simp] theorem reset_awaiting : s.reset.awaiting = false := rfl

omit [LinearOrder K] [Zero K] in
/-- A request given up or failed leaves the symbol waiting for nothing. -/
@[simp] theorem cancelRefresh_awaiting :
    (s.cancelRefresh.setSnapshotRequested false).awaiting = false := by
  simp only [cancelRefresh]
  split_ifs with h
  · rfl
  · simpa [awaiting, setSnapshotRequested] using h

/-- A snapshot result ends the wait, whatever becomes of it. -/
@[simp] theorem onSnapshot_awaiting (id : Int) (bids asks : List (PriceLevel K)) :
    (s.onSnapshot cfg id bids asks).2.awaiting = false := by
  simp only [onSnapshot]
  split_ifs with hrefresh hinit hfail hvalid
  · simp only [finishRefresh]
    split
    · rfl
    · split_ifs <;> rfl
  · rfl
  all_goals
    exact (replay_awaiting cfg _ s.deltaBuffer).trans rfl

end

end TickToSignal.OrderBook.SymbolBook

namespace TickToSignal.Quote

open OrderBook Foundation

variable {n : Nat} {K : Type*}

/-- What has become of the requests so far. -/
structure History (n : Nat) where
  newest : Fin n → Nat := fun _ => 0
  timedOut : List (Fin n × Nat) := []
  sentBeforeConnect : Nat := 0

/-- Not superseded by a newer request for the symbol, not given up, and sent
since the last connect. -/
structure History.Live (g : History n) (symIdx : Fin n) (requestId : Nat) : Prop where
  newest : requestId = g.newest symIdx
  kept : (symIdx, requestId) ∉ g.timedOut
  current : g.sentBeforeConnect < requestId

/-- The request of this symbol is past its time. -/
def QuoteFeedHandler.Overdue (h : QuoteFeedHandler n K) (nowMs : Int) (symIdx : Fin n) : Prop :=
  h.snapshotRequestedAtMs symIdx ≠ 0 ∧
    nowMs - h.snapshotRequestedAtMs symIdx > snapshotTimeoutMs

instance (h : QuoteFeedHandler n K) (nowMs : Int) (symIdx : Fin n) :
    Decidable (h.Overdue nowMs symIdx) :=
  inferInstanceAs (Decidable (_ ∧ _))

namespace History

/-- A timeout check gives up the newest request of every overdue symbol. -/
def expire (g : History n) (h : QuoteFeedHandler n K) (nowMs : Int) : History n :=
  { g with
    timedOut :=
      g.timedOut ++
        ((List.finRange n).filter fun i => h.Overdue nowMs i).map fun i => (i, g.newest i) }

/-- A request sent for the symbol is its newest. -/
def send (g : History n) (symIdx : Fin n) (requestId : Nat) : History n :=
  { g with newest := Function.update g.newest symIdx requestId }

/-- What one event of the handler means for the requests. -/
def note (g : History n) (h h' : QuoteFeedHandler n K) : Event n K → History n
  | .connect _ _ _ => { g with sentBeforeConnect := h.nextRequestId }
  | .applyResults nowMs => g.expire h nowMs
  | .message symIdx _ _ _ =>
      if h'.nextRequestId = h.nextRequestId then g else g.send symIdx h'.nextRequestId
  | .checkTimeouts _ _ | .worker _ => g

end History

/-- The handler, the request in the worker thread's hands, and the record. -/
structure Protocol (n : Nat) (K : Type*) where
  handler : QuoteFeedHandler n K
  fetching : Option (SnapshotRequest n) := none
  history : History n := {}

/-- The requests whose result may still arrive. -/
def Protocol.outstanding (w : Protocol n K) : List (Fin n × Nat) :=
  w.handler.requests.map (fun r => (r.symIdx, r.requestId)) ++
    w.fetching.toList.map (fun r => (r.symIdx, r.requestId)) ++
    w.handler.results.map fun r => (r.symIdx, r.requestId)

inductive ProtocolEvent (n : Nat) (K : Type*)
  | loop (e : Event n K)
  | take
  | finish (data : SnapshotData K)

/-- The steady clock does not read zero when a depth message is handled: zero
is the source's mark for no request. -/
def ProtocolEvent.ClockSet : ProtocolEvent n K → Prop
  | .loop (.message _ _ _ nowMs) => nowMs ≠ 0
  | _ => True

namespace Protocol

variable [LinearOrder K] [Zero K]

def init (cfg : HandlerConfig n) (nowMs : Int) : Protocol n K :=
  { handler := QuoteFeedHandler.init cfg nowMs }

/-- `requests_.pop_blocking()`, when the thread is idle and the queue is not empty. -/
def take (w : Protocol n K) : Protocol n K :=
  match w.fetching, w.handler.requests with
  | none, req :: rest =>
      { w with fetching := some req, handler := { w.handler with requests := rest } }
  | _, _ => w

/-- The fetch returned: the result goes to the result queue. -/
def finish (w : Protocol n K) (data : SnapshotData K) : Protocol n K :=
  match w.fetching with
  | some req =>
      { w with
        fetching := none
        handler := { w.handler with
          results := push w.handler.results ⟨req.symIdx, req.requestId, data⟩ } }
  | none => w

/-- One event. A `worker` event is a take and a finish at once, so it needs an
idle thread. -/
def step (cfg : HandlerConfig n) (w : Protocol n K) : ProtocolEvent n K → Protocol n K
  | .loop (.worker data) => if w.fetching.isNone then w.take.finish data else w
  | .loop e =>
      let h' := w.handler.step cfg e
      { w with handler := h', history := w.history.note w.handler h' e }
  | .take => w.take
  | .finish data => w.finish data

end Protocol

namespace QuoteFeedHandler

variable [LinearOrder K] [Zero K]

/-- A result that is not discarded as stale and carries a snapshot. -/
def accepts (h : QuoteFeedHandler n K) (r : SnapshotResult n K) : Bool :=
  decide (h.latestRequestId r.symIdx ≤ r.requestId) && r.data.success

/-- The results that draining `rs` passes to `onSnapshot`. -/
def passed (cfg : HandlerConfig n) (nowMs : Int) :
    QuoteFeedHandler n K → List (SnapshotResult n K) → List (SnapshotResult n K)
  | _, [] => []
  | h, r :: rs =>
      if h.accepts r then r :: passed cfg nowMs (h.applyResult cfg nowMs r) rs
      else passed cfg nowMs (h.applyResult cfg nowMs r) rs

/-- The results that one drain passes to `onSnapshot`. -/
def passedToOnSnapshot (cfg : HandlerConfig n) (h : QuoteFeedHandler n K) (nowMs : Int) :
    List (SnapshotResult n K) :=
  passed cfg nowMs { (List.finRange n).foldl (expireRequest cfg nowMs) h with results := [] }
    ((List.finRange n).foldl (expireRequest cfg nowMs) h).results

/-- A result changes its symbol's book through `onSnapshot` when it is accepted,
by ending a failed wait when it is not stale, and not at all otherwise. -/
theorem applyResult_books (cfg : HandlerConfig n) (nowMs : Int) (h : QuoteFeedHandler n K)
    (r : SnapshotResult n K) :
    (h.applyResult cfg nowMs r).books =
      if h.accepts r then
        Function.update h.books r.symIdx
          ((h.books r.symIdx).onSnapshot cfg.book r.data.lastUpdateId r.data.bids r.data.asks).2
      else if h.latestRequestId r.symIdx ≤ r.requestId then
        Function.update h.books r.symIdx
          ((h.books r.symIdx).cancelRefresh.setSnapshotRequested false)
      else h.books := by
  by_cases hstale : r.requestId < h.latestRequestId r.symIdx
  · simp [applyResult, accepts, hstale, not_le.mpr hstale]
  · cases hok : r.data.success
    · simp [applyResult, accepts, hstale, hok, not_lt.mp hstale]
    · simp only [applyResult, accepts, hstale, hok, not_lt.mp hstale, if_false, Bool.not_true,
        Bool.false_eq_true, decide_true, Bool.and_self, if_true]
      obtain ⟨outcome, s⟩ :=
        (h.books r.symIdx).onSnapshot cfg.book r.data.lastUpdateId r.data.bids r.data.asks
      cases outcome <;> rfl

section
variable (cfg : HandlerConfig n) (nowMs : Int) (h : QuoteFeedHandler n K)

/-- A result changes neither the ids nor the queues, and only its own symbol's request time. -/
theorem applyResult_requests (r : SnapshotResult n K) :
    let h' := h.applyResult cfg nowMs r
    h'.latestRequestId = h.latestRequestId ∧ h'.nextRequestId = h.nextRequestId ∧
      h'.requests = h.requests ∧ h'.results = h.results ∧
      h'.snapshotRequestedAtMs =
        if r.requestId < h.latestRequestId r.symIdx then h.snapshotRequestedAtMs
        else Function.update h.snapshotRequestedAtMs r.symIdx 0 := by
  simp only [applyResult]
  split_ifs
  · exact ⟨rfl, rfl, rfl, rfl, rfl⟩
  · exact ⟨rfl, rfl, rfl, rfl, rfl⟩
  · obtain ⟨outcome, s⟩ :=
      (h.books r.symIdx).onSnapshot cfg.book r.data.lastUpdateId r.data.bids r.data.asks
    cases outcome <;> exact ⟨rfl, rfl, rfl, rfl, rfl⟩

end

end QuoteFeedHandler

end TickToSignal.Quote
