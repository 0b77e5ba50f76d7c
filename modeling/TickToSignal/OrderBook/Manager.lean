import TickToSignal.OrderBook.Side

/-!
# The order book manager, one symbol

The source keeps one vector per field, indexed by symbol; `SymbolBook` is one
index of all of them, the counters included. Every member function that takes
a symbol index is a function on `SymbolBook` under the same name. The book is
driven from outside by depth events, REST snapshots and refresh requests; it
reads no clock except in the two publisher functions, which take the time.

## Implementation notes

Update ids and times are unbounded integers. `std::map`-like symbol lookup is
left out: it only selects the index. The bodies of the two branches of
`applyDelta` are definitions of their own (`applyEvent`, `feedShadow`), so that
what each one changes can be said once.
-/

namespace TickToSignal.OrderBook

variable {K : Type*}

/-- Which exchange sequencing rule applies. -/
inductive DepthSync
  | Spot
  | Futures
  deriving DecidableEq, Repr

/-- At most this many deltas wait for a snapshot; then the oldest is dropped. -/
def maxDeltaBufferSize : Nat := 1000

/-- A quote is published at least this often, changed or not. -/
def publishTimeoutMs : Int := 50

/-- Sizing of the local book. -/
structure BookConfig where
  depth : Nat := 5
  snapshotLimit : Nat := 1000
  refreshLowWater : Nat := 500
  maxLevels : Nat := 4000
  sync : DepthSync := .Spot
  depth_pos : 1 ≤ depth := by decide
  snapshotLimit_pos : 1 ≤ snapshotLimit := by decide
  maxLevels_pos : 1 ≤ maxLevels := by decide

/-- One published level over snapshots of five. -/
def BookConfig.oneLevel : BookConfig := { depth := 1, snapshotLimit := 5 }

/-- The low-water mark in effect: capped at half of what one snapshot restores. -/
def BookConfig.lowWater (cfg : BookConfig) : Nat :=
  min cfg.refreshLowWater (cfg.snapshotLimit / 2)

/-- What `onSnapshot` did with a snapshot. -/
inductive SnapshotOutcome
  | SYNCED
  | AWAITING_BRIDGE
  | SYNC_FAILED
  | REFRESHED
  | REFRESH_AWAITING_BRIDGE
  | REFRESH_FAILED
  | IGNORED
  deriving DecidableEq, Repr

/-- States of a symbol's book. -/
inductive BookState
  | INIT
  | SYNCING
  | VALID
  | INVALID
  deriving DecidableEq, Repr

/-- Top-of-book quote; index 0 is the best level and a slot without a level is 0/0. -/
structure BookQuote (K : Type*) where
  sym : String
  bids : List (PriceLevel K)
  asks : List (PriceLevel K)
  isValid : Bool := false
  exchEventTimeMs : Int := 0
  exchTransactTimeMs : Int := 0
  fhRecvTimeUtcNs : Int := 0
  fhSeqNo : Int := 0
  exchFirstUpdateId : Int := 0
  exchUpdateId : Int := 0
  exchPrevUpdateId : Int := 0
  deriving DecidableEq, Repr

/-- One depth event: `U`, `u`, `E`, the level updates, and `pu`, `T` on futures. -/
structure BufferedDelta (K : Type*) where
  firstUpdateId : Int
  finalUpdateId : Int
  eventTimeMs : Int := 0
  bids : List (PriceLevel K)
  asks : List (PriceLevel K)
  prevFinalUpdateId : Int := -1
  transactTimeMs : Int := 0
  deriving DecidableEq, Repr

/-- Update-id bookkeeping of one book, live or shadow. -/
structure Seq where
  needBridge : Bool := false
  snapshotId : Int := 0
  lastId : Int := 0
  deriving DecidableEq, Repr

inductive Verdict
  | SKIP
  | APPLY
  | FAIL
  deriving DecidableEq, Repr

/-- Is this event the next one for a book in this sequencing state? An event
that bridges the snapshot clears `needBridge`. -/
def checkSequence (sync : DepthSync) (s : Seq) (d : BufferedDelta K) : Verdict × Seq :=
  let U := d.firstUpdateId
  let u := d.finalUpdateId
  match sync with
  | .Futures =>
      if s.needBridge then
        if d.prevFinalUpdateId = s.snapshotId then (.APPLY, { s with needBridge := false })
        else if u < s.snapshotId then (.SKIP, s)
        else if U > s.snapshotId then (.FAIL, s)
        else (.APPLY, { s with needBridge := false })
      else if d.prevFinalUpdateId = s.lastId then (.APPLY, s)
      else (.FAIL, s)
  | .Spot =>
      if s.needBridge then
        if u < s.snapshotId + 1 then (.SKIP, s)
        else if U > s.snapshotId + 1 then (.FAIL, s)
        else (.APPLY, { s with needBridge := false })
      else if u < s.lastId then (.SKIP, s)
      else if U > s.lastId + 1 then (.FAIL, s)
      else (.APPLY, s)

/-- Both sides of one book. -/
structure Book (K : Type*) where
  bid : Side K
  ask : Side K
  deriving DecidableEq, Repr

/-- A refresh snapshot waiting for its bridging event. -/
structure Shadow (K : Type*) where
  book : Book K
  seq : Seq := {}
  pending : Bool := false
  deriving DecidableEq, Repr

section
variable [LinearOrder K] [Zero K]

def Book.empty : Book K := { bid := Side.empty, ask := Side.empty }

def Shadow.none : Shadow K := { book := Book.empty }

/-- Apply the level updates of one event to both sides. -/
def applyLevels (cfg : BookConfig) (b : Book K) (bidUpdates askUpdates : List (PriceLevel K)) :
    Book K :=
  { bid := bidUpdates.foldl (Side.update true cfg.maxLevels) b.bid
    ask := askUpdates.foldl (Side.update false cfg.maxLevels) b.ask }

/-- Both sides of a snapshot. -/
def Book.load (cfg : BookConfig) (bids asks : List (PriceLevel K)) : Book K :=
  { bid := Side.load true cfg.snapshotLimit cfg.maxLevels bids
    ask := Side.load false cfg.snapshotLimit cfg.maxLevels asks }

end

/-- Everything the manager holds for one symbol. -/
structure SymbolBook (K : Type*) where
  sym : String
  book : Book K
  seq : Seq := {}
  state : BookState := .INIT
  exchEventTimeMs : Int := 0
  exchTransactTimeMs : Int := 0
  deltaBuffer : List (BufferedDelta K) := []
  snapshotRequested : Bool := false
  refreshPending : Bool := false
  wasExhausted : Bool := false
  shadow : Shadow K
  rangeFirstU : Int := 0
  rangePrevU : Int := 0
  rangeClosed : Bool := true
  bufferOverflows : Nat := 0
  depthRefreshes : Nat := 0
  refreshFailures : Nat := 0
  depthExhaustedEvents : Nat := 0
  lastPublished : Option (BookQuote K) := .none
  lastPublishTimeMs : Int := 0
  deriving DecidableEq, Repr

namespace SymbolBook

variable [LinearOrder K] [Zero K]

/-- A symbol right after construction. -/
def init (sym : String) (nowMs : Int) : SymbolBook K :=
  { sym := sym, book := Book.empty, shadow := Shadow.none, lastPublishTimeMs := nowMs }

/-- Sequence-valid: every delta since the snapshot has been applied. -/
def isValid (s : SymbolBook K) : Bool := s.state = .VALID

def needsSnapshot (s : SymbolBook K) : Bool := s.state = .INIT && !s.snapshotRequested

def setSnapshotRequested (s : SymbolBook K) (val : Bool) : SymbolBook K :=
  { s with snapshotRequested := val }

/-- A side knows fewer levels than are published while the exchange may have more. -/
def depthExhausted (cfg : BookConfig) (s : SymbolBook K) : Bool :=
  s.book.bid.below cfg.depth || s.book.ask.below cfg.depth

/-- A valid book whose known depth is running low and no refresh is in flight. -/
def wantsRefresh (cfg : BookConfig) (s : SymbolBook K) : Bool :=
  decide (s.state = .VALID) && !s.refreshPending && !s.shadow.pending &&
    (s.book.bid.below cfg.lowWater || s.book.ask.below cfg.lowWater)

/-- The caller is about to request a refresh snapshot: start buffering. -/
def beginRefresh (s : SymbolBook K) : SymbolBook K :=
  { s with refreshPending := true, snapshotRequested := true, deltaBuffer := [] }

/-- The refresh request failed: stop buffering, the live book carries on. -/
def cancelRefresh (s : SymbolBook K) : SymbolBook K :=
  if s.refreshPending then
    { s with
      refreshPending := false, snapshotRequested := false, deltaBuffer := [],
      refreshFailures := s.refreshFailures + 1 }
  else s

/-- Buffer a delta; false if the buffer overflowed and the oldest was dropped. -/
def bufferDelta (s : SymbolBook K) (d : BufferedDelta K) : Bool × SymbolBook K :=
  let buf := s.deltaBuffer ++ [d]
  if buf.length > maxDeltaBufferSize then
    (false, { s with deltaBuffer := buf.tail, bufferOverflows := s.bufferOverflows + 1 })
  else (true, { s with deltaBuffer := buf })

/-- Load a REST snapshot into the live book. -/
def applySnapshot (cfg : BookConfig) (s : SymbolBook K) (lastUpdateId : Int)
    (bids asks : List (PriceLevel K)) : SymbolBook K :=
  { s with
    book := Book.load cfg bids asks
    seq := { needBridge := true, snapshotId := lastUpdateId, lastId := lastUpdateId }
    state := .SYNCING
    wasExhausted := false }

/-- The event is the next one of the live book. -/
def applyEvent (cfg : BookConfig) (s : SymbolBook K) (d : BufferedDelta K) : SymbolBook K :=
  let s := { s with
    book := applyLevels cfg s.book d.bids d.asks
    seq := { s.seq with lastId := d.finalUpdateId }
    -- the id range of the next published quote opens with the first event after a publish
    rangeFirstU := if s.rangeClosed then d.firstUpdateId else s.rangeFirstU
    rangePrevU := if s.rangeClosed then d.prevFinalUpdateId else s.rangePrevU
    rangeClosed := false
    exchEventTimeMs := d.eventTimeMs
    exchTransactTimeMs := d.transactTimeMs
    state := .VALID }
  let exhausted := s.depthExhausted cfg
  { s with
    depthExhaustedEvents :=
      if exhausted && !s.wasExhausted then s.depthExhaustedEvents + 1 else s.depthExhaustedEvents
    wasExhausted := exhausted }

/-- A held refresh snapshot sees the event too: it is dropped over a hole and
swapped in by the event that bridges it. -/
def feedShadow (cfg : BookConfig) (s : SymbolBook K) (d : BufferedDelta K) : SymbolBook K :=
  match checkSequence cfg.sync s.shadow.seq d with
  | (.FAIL, _) => { s with shadow := Shadow.none, refreshFailures := s.refreshFailures + 1 }
  | (.SKIP, seq) => { s with shadow := { s.shadow with seq := seq } }
  | (.APPLY, seq) =>
      let s := { s with
        book := applyLevels cfg s.shadow.book d.bids d.asks
        seq := { seq with lastId := d.finalUpdateId }
        shadow := Shadow.none }
      { s with wasExhausted := s.depthExhausted cfg, depthRefreshes := s.depthRefreshes + 1 }

/-- The event also goes to a refresh in flight and to a held shadow. -/
def passOn (cfg : BookConfig) (s : SymbolBook K) (d : BufferedDelta K) : SymbolBook K :=
  let s := if s.refreshPending then (s.bufferDelta d).2 else s
  if s.shadow.pending then s.feedShadow cfg d else s

/-- Apply one event. False on a sequence gap: the book is then invalid. -/
def applyDelta (cfg : BookConfig) (s : SymbolBook K) (d : BufferedDelta K) :
    Bool × SymbolBook K :=
  match s.state with
  | .INIT | .INVALID => (false, s)
  | .SYNCING | .VALID =>
      match checkSequence cfg.sync s.seq d with
      | (.FAIL, seq) => (false, { s with seq := seq, state := .INVALID })
      | (v, seq) =>
          let s := { s with seq := seq }
          let s := if v = .APPLY then s.applyEvent cfg d else s
          (true, s.passOn cfg d)

/-- Replay deltas through `applyDelta` up to the first failure; true if one failed. -/
def replay (cfg : BookConfig) : SymbolBook K → List (BufferedDelta K) → Bool × SymbolBook K
  | s, [] => (false, s)
  | s, d :: ds =>
      match s.applyDelta cfg d with
      | (false, s) => (true, s)
      | (true, s) => replay cfg s ds

/-- Run buffered deltas over a shadow book; `none` if there is a hole. -/
def replayShadow (cfg : BookConfig) :
    Book K → Seq → List (BufferedDelta K) → Option (Book K × Seq)
  | b, seq, [] => some (b, seq)
  | b, seq, d :: ds =>
      match checkSequence cfg.sync seq d with
      | (.FAIL, _) => none
      | (.SKIP, seq) => replayShadow cfg b seq ds
      | (.APPLY, seq) =>
          replayShadow cfg (applyLevels cfg b d.bids d.asks)
            { seq with lastId := d.finalUpdateId } ds

/-- Put a refreshed book in place of the live one. -/
def swapIn (cfg : BookConfig) (s : SymbolBook K) (b : Book K) (seq : Seq) : SymbolBook K :=
  let s := { s with book := b, seq := seq }
  { s with wasExhausted := s.depthExhausted cfg, depthRefreshes := s.depthRefreshes + 1 }

/-- A refresh snapshot arrived: build a shadow from it and swap it in, hold it
until the stream reaches it, or drop it over a hole. -/
def finishRefresh (cfg : BookConfig) (s : SymbolBook K) (lastUpdateId : Int)
    (bids asks : List (PriceLevel K)) : SnapshotOutcome × SymbolBook K :=
  let sseq : Seq := { needBridge := true, snapshotId := lastUpdateId, lastId := lastUpdateId }
  let built := replayShadow cfg (Book.load cfg bids asks) sseq s.deltaBuffer
  let s := { s with refreshPending := false, deltaBuffer := [] }
  match built with
  | .none => (.REFRESH_FAILED, { s with refreshFailures := s.refreshFailures + 1 })
  | .some (b, sseq) =>
      if sseq.needBridge && decide (lastUpdateId = s.seq.lastId) then
        -- the snapshot is the very state the live book is at: stay on the live chain
        (.REFRESHED, s.swapIn cfg b s.seq)
      else if sseq.needBridge then
        (.REFRESH_AWAITING_BRIDGE, { s with shadow := { book := b, seq := sseq, pending := true } })
      else (.REFRESHED, s.swapIn cfg b sseq)

/-- A snapshot result arrived: initial sync or background refresh. -/
def onSnapshot (cfg : BookConfig) (s : SymbolBook K) (lastUpdateId : Int)
    (bids asks : List (PriceLevel K)) : SnapshotOutcome × SymbolBook K :=
  let s := { s with snapshotRequested := false }
  if s.state = .VALID ∧ s.refreshPending then s.finishRefresh cfg lastUpdateId bids asks
  else
    let s := { s with refreshPending := false }
    if s.state ≠ .INIT then (.IGNORED, s)
    else
      let buf := s.deltaBuffer
      let (failed, s) := (s.applySnapshot cfg lastUpdateId bids asks).replay cfg buf
      let s := { s with deltaBuffer := [] }
      if failed then (.SYNC_FAILED, s)
      else if s.state = .VALID then (.SYNCED, s)
      else (.AWAITING_BRIDGE, s)

/-- Back to the state a snapshot is needed in. Publisher state and counters stay. -/
def reset (s : SymbolBook K) : SymbolBook K :=
  { s with
    book := Book.empty, state := .INIT, seq := {}, exchEventTimeMs := 0, exchTransactTimeMs := 0
    deltaBuffer := [], snapshotRequested := false, refreshPending := false, wasExhausted := false
    shadow := Shadow.none, rangeFirstU := 0, rangePrevU := 0, rangeClosed := true }

/-- The first `n` slots of a side, best first; the best level is at the back. -/
def slotsOf (levels : List (PriceLevel K)) (n : Nat) : List (PriceLevel K) :=
  levels.reverse.take n ++ List.replicate (n - levels.length) ⟨0, 0⟩

/-- Extract the top levels for publication. -/
def getQuote (cfg : BookConfig) (s : SymbolBook K) (fhRecvTimeUtcNs fhSeqNo : Int) :
    BookQuote K :=
  let valid := decide (s.state = .VALID) && !s.depthExhausted cfg
  let blank := List.replicate cfg.depth (⟨0, 0⟩ : PriceLevel K)
  let q : BookQuote K :=
    { sym := s.sym
      bids := blank
      asks := blank
      isValid := valid
      exchEventTimeMs := s.exchEventTimeMs
      exchTransactTimeMs := s.exchTransactTimeMs
      fhRecvTimeUtcNs := fhRecvTimeUtcNs
      fhSeqNo := fhSeqNo
      exchFirstUpdateId := if valid then s.rangeFirstU else 0
      exchUpdateId := if valid then s.seq.lastId else 0
      exchPrevUpdateId := if valid && decide (cfg.sync = .Futures) then s.rangePrevU else 0 }
  if s.state ≠ .VALID ∧ s.state ≠ .SYNCING then q
  else if s.state = .VALID ∧ valid = false then q
  else { q with
    bids := slotsOf s.book.bid.levels cfg.depth, asks := slotsOf s.book.ask.levels cfg.depth }

/-- Should the quote be published: first, validity change, price change, heartbeat. -/
def shouldPublish (s : SymbolBook K) (nowMs : Int) (current : BookQuote K) : Bool :=
  match s.lastPublished with
  | .none => true
  | .some last =>
      if current.isValid ≠ last.isValid then true
      else if !current.isValid then false
      else if current.bids ≠ last.bids ∨ current.asks ≠ last.asks then true
      else decide (nowMs - s.lastPublishTimeMs ≥ publishTimeoutMs)

/-- Remember what was published; the next applied event opens a new id range. -/
def recordPublish (s : SymbolBook K) (nowMs : Int) (quote : BookQuote K) : SymbolBook K :=
  { s with lastPublished := .some quote, lastPublishTimeMs := nowMs, rangeClosed := true }

/-- Was the last quote published for this symbol a valid one? -/
def lastPublishedValid (s : SymbolBook K) : Bool :=
  match s.lastPublished with
  | .none => false
  | .some q => q.isValid

/-- Is a heartbeat due for this symbol? -/
def timeoutPublishNeeded (s : SymbolBook K) (nowMs : Int) : Bool :=
  decide (s.state = .VALID) && s.lastPublished.isSome &&
    decide (nowMs - s.lastPublishTimeMs ≥ publishTimeoutMs)

section Frame
variable (cfg : BookConfig) (s : SymbolBook K) (d : BufferedDelta K)

omit [LinearOrder K] [Zero K] in
@[simp] theorem bufferDelta_lastPublished : (s.bufferDelta d).2.lastPublished = s.lastPublished := by
  simp only [bufferDelta]
  split_ifs <;> rfl

@[simp] theorem applyEvent_lastPublished : (s.applyEvent cfg d).lastPublished = s.lastPublished :=
  rfl

@[simp] theorem feedShadow_lastPublished : (s.feedShadow cfg d).lastPublished = s.lastPublished := by
  simp only [feedShadow]
  split <;> rfl

@[simp] theorem passOn_lastPublished : (s.passOn cfg d).lastPublished = s.lastPublished := by
  simp only [passOn]
  split_ifs <;> simp

/-- What `applyDelta` can do: refuse without a book, fail over a hole, pass a
stale event on, or apply the next event and pass it on. -/
theorem applyDelta_cases :
    (s.state ≠ .SYNCING ∧ s.state ≠ .VALID ∧ s.applyDelta cfg d = (false, s)) ∨
      (s.state = .SYNCING ∨ s.state = .VALID) ∧ ∃ seq,
        (checkSequence cfg.sync s.seq d = (.FAIL, seq) ∧
          s.applyDelta cfg d = (false, { s with seq := seq, state := .INVALID })) ∨
        (checkSequence cfg.sync s.seq d = (.SKIP, seq) ∧
          s.applyDelta cfg d = (true, passOn cfg { s with seq := seq } d)) ∨
        (checkSequence cfg.sync s.seq d = (.APPLY, seq) ∧
          s.applyDelta cfg d = (true, passOn cfg (applyEvent cfg { s with seq := seq } d) d)) := by
  rcases hv : checkSequence cfg.sync s.seq d with ⟨v, seq⟩
  cases hs : s.state with
  | INIT => exact Or.inl ⟨by simp, by simp, by simp [applyDelta, hs]⟩
  | INVALID => exact Or.inl ⟨by simp, by simp, by simp [applyDelta, hs]⟩
  | SYNCING =>
      refine Or.inr ⟨Or.inl rfl, seq, ?_⟩
      cases v <;> simp [applyDelta, hs, hv]
  | VALID =>
      refine Or.inr ⟨Or.inr rfl, seq, ?_⟩
      cases v <;> simp [applyDelta, hs, hv]

@[simp] theorem applyDelta_lastPublished :
    (s.applyDelta cfg d).2.lastPublished = s.lastPublished := by
  obtain ⟨-, -, h⟩ | ⟨-, seq, ⟨-, h⟩ | ⟨-, h⟩ | ⟨-, h⟩⟩ := s.applyDelta_cases cfg d <;>
    simp [h]

@[simp] theorem replay_lastPublished (ds : List (BufferedDelta K)) :
    (s.replay cfg ds).2.lastPublished = s.lastPublished := by
  induction ds generalizing s with
  | nil => rfl
  | cons d ds ih =>
      have hd := s.applyDelta_lastPublished cfg d
      simp only [replay]
      split
      · rename_i s' heq
        simpa [heq] using hd
      · rename_i s' heq
        rw [ih, ← hd, heq]

@[simp] theorem finishRefresh_lastPublished (id : Int) (bids asks : List (PriceLevel K)) :
    (s.finishRefresh cfg id bids asks).2.lastPublished = s.lastPublished := by
  simp only [finishRefresh]
  split
  · rfl
  · split_ifs <;> rfl

@[simp] theorem onSnapshot_lastPublished (id : Int) (bids asks : List (PriceLevel K)) :
    (s.onSnapshot cfg id bids asks).2.lastPublished = s.lastPublished := by
  simp only [onSnapshot]
  split_ifs <;> simp [applySnapshot]

omit [LinearOrder K] [Zero K] in
@[simp] theorem cancelRefresh_lastPublished : s.cancelRefresh.lastPublished = s.lastPublished := by
  simp only [cancelRefresh]
  split_ifs <;> rfl

end Frame

end SymbolBook

end TickToSignal.OrderBook
