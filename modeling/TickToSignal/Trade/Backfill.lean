import TickToSignal.Quote.Scheduler
import TickToSignal.Trade.Gap

/-!
# The backfill of trade gaps

Gaps wait in a queue; the first one is fetched page by page over REST. A page
is untrusted: only the run of ids that starts at the next one needed is
published. Progress is reported after every page, and the last report of a gap
is terminal.

## Implementation notes

The fetcher is any function with a state. `out` is what the callbacks of
`pump` received, in order; the callbacks do not come back into the backfill.
Jobs, requests and pages carry the number of their gap in the order of
`addGap` (`added`), and `out` also says which page was applied to which job;
the code has neither, and nothing depends on them. While a page is in flight
the worker can only add its result, so a `pump` is one step. `error`, the log
lines and the counters are left out.
-/

namespace TickToSignal.Trade

open Quote

variable {φ δ : Type*}

/-- `BoundedQueue`: the oldest item is dropped when it is full. -/
structure BoundedQueue (α : Type*) where
  capacity : Nat
  items : List α := []
  isShutdown : Bool := false

namespace BoundedQueue

variable {α : Type*}

def push (item : α) (q : BoundedQueue α) : BoundedQueue α :=
  if q.isShutdown then q
  else if q.capacity ≤ q.items.length then { q with items := q.items.tail ++ [item] }
  else { q with items := q.items ++ [item] }

def tryPop (q : BoundedQueue α) : Option α × BoundedQueue α :=
  match q.items with
  | [] => (none, q)
  | item :: rest => (some item, { q with items := rest })

def shutdown (q : BoundedQueue α) : BoundedQueue α := { q with isShutdown := true }

end BoundedQueue

/-- A trade of a REST reply; `data` is everything but its id. -/
structure BackfillTrade (δ : Type*) where
  id : Int
  data : δ
  deriving DecidableEq, Repr

structure BackfillPage (δ : Type*) where
  ok : Bool := false
  tooOld : Bool := false
  httpStatus : Int := 0
  retryAfterSec : Int := 0
  usedWeight1m : Int := -1
  recvTimeUtcNs : Int := 0
  trades : List (BackfillTrade δ) := []
  deriving DecidableEq, Repr

structure TradeBackfillConfig where
  enabled : Bool := true
  maxGapIds : Int := 500000
  pageLimit : Int := 1000
  maxFailures : Int := 10
  inlineFetch : Bool := false
  sched : SnapshotSchedulerConfig

/-- A page fetcher: `fetch(sym, fromId, limit)` on a state of its own. -/
abbrev Fetcher (φ δ : Type*) := String → Int → Int → φ → BackfillPage δ × φ

structure Job where
  no : Nat
  gap : TradeGap
  failures : Int := 0
  deriving DecidableEq, Repr

structure Request where
  job : Nat
  sym : String
  fromId : Int
  limit : Int
  deriving DecidableEq, Repr

/-- A page with the request it answers. -/
structure Reply (δ : Type*) where
  request : Request
  page : BackfillPage δ

inductive Out (δ : Type*)
  /-- `publishRow` -/
  | row (job : Nat) (sym : String) (t : BackfillTrade δ) (recvTimeUtcNs : Int)
  /-- `recordEvent` -/
  | event (job : Nat) (gap : TradeGap) (status : GapStatus) (reason : String)
  | applied (job : Nat) (request : Request)
  deriving DecidableEq, Repr

/-- The job an output is for. -/
def Out.job : Out δ → Nat
  | .row job _ _ _ => job
  | .event job _ _ _ => job
  | .applied job _ => job

structure TradeBackfill (φ δ : Type*) where
  fetcher : φ
  queue : List Job := []
  inFlight : Bool := false
  inlinePage : Option (Reply δ) := none
  requests : BoundedQueue Request := { capacity := 4 }
  results : BoundedQueue (Reply δ) := { capacity := 4 }
  sched : SnapshotScheduler 1
  running : Bool := false
  /-- what the worker thread is fetching -/
  fetching : Option Request := none
  added : List TradeGap := []
  out : List (Out δ) := []

/-- The scheduler's only slot. -/
def slot : Fin 1 := Fin.last 0

/-- The trades of a page that are published: from `expected` on without a hole, up to `lastId`. -/
def served (lastId : Int) : Int → List (BackfillTrade δ) → List (BackfillTrade δ)
  | _, [] => []
  | expected, t :: ts =>
      if t.id < expected then served lastId expected ts
      else if t.id ≠ expected ∨ lastId < t.id then []
      else t :: served lastId (expected + 1) ts

namespace TradeBackfill

def init (cfg : TradeBackfillConfig) (fetcher : φ) : TradeBackfill φ δ :=
  { fetcher := fetcher, sched := SnapshotScheduler.init 1 cfg.sched }

def addGap (gap : TradeGap) (s : TradeBackfill φ δ) : TradeBackfill φ δ :=
  { s with
    queue := s.queue ++ [{ no := s.added.length, gap := gap }], added := s.added ++ [gap] }

def emit (out : List (Out δ)) (s : TradeBackfill φ δ) : TradeBackfill φ δ :=
  { s with out := s.out ++ out }

def finish (status : GapStatus) (reason : String) (s : TradeBackfill φ δ) : TradeBackfill φ δ :=
  match s.queue with
  | [] => s
  | job :: rest =>
      { s with queue := rest, out := s.out ++ [.event job.no job.gap status reason] }

/-- Back off, and count the failure of the job at the head. -/
def countFailure (cfg : TradeBackfillConfig) (page : BackfillPage δ) (nowMs : Int)
    (s : TradeBackfill φ δ) : TradeBackfill φ δ :=
  { s with
    sched :=
      s.sched.onFailure cfg.sched slot nowMs page.httpStatus page.retryAfterSec page.usedWeight1m
    queue := s.queue.modifyHead fun job => { job with failures := job.failures + 1 } }

def fail (cfg : TradeBackfillConfig) (page : BackfillPage δ) (nowMs : Int) (giveUpReason : String)
    (s : TradeBackfill φ δ) : TradeBackfill φ δ :=
  let s := s.countFailure cfg page nowMs
  match s.queue with
  | [] => s
  | job :: _ =>
      if cfg.maxFailures ≤ job.failures then s.finish .unrecoverable giveUpReason else s

/-- Publish `ts`, the ids a gap needs next, and count them. -/
def publishRows (job : Job) (rest : List Job) (page : BackfillPage δ) (ts : List (BackfillTrade δ))
    (s : TradeBackfill φ δ) : TradeBackfill φ δ :=
  let g := job.gap
  let g :=
    { g with
      recovered := g.recovered + ts.length
      recoveredThroughId := g.nextNeededId + ts.length - 1 }
  { s with
    queue := { job with gap := g, failures := 0 } :: rest
    sched := s.sched.onSynced slot
    out := s.out ++ ts.map fun t => Out.row job.no g.sym t page.recvTimeUtcNs }

/-- Report the progress of the gap at the head. -/
def report (s : TradeBackfill φ δ) : TradeBackfill φ δ :=
  match s.queue with
  | [] => s
  | job :: _ =>
      if job.gap.lastId ≤ job.gap.recoveredThroughId then s.finish .recovered ""
      else s.emit [.event job.no job.gap .partly ""]

def onPage (cfg : TradeBackfillConfig) (page : BackfillPage δ) (nowMs : Int)
    (s : TradeBackfill φ δ) : TradeBackfill φ δ :=
  match s.queue with
  | [] => s
  | job :: rest =>
      if !page.ok then
        if page.tooOld then
          { s with sched := s.sched.onFetchOk cfg.sched slot nowMs page.usedWeight1m }.finish
            .unrecoverable "tooOld"
        else s.fail cfg page nowMs "restFailed"
      else
        let s := { s with sched := s.sched.onFetchOk cfg.sched slot nowMs page.usedWeight1m }
        let expected := job.gap.nextNeededId
        match page.trades with
        | [] => s.fail cfg page nowMs "notServed"
        | t :: _ =>
            if expected < t.id then s.finish .unrecoverable "notServed"
            else
              let ts := served job.gap.lastId expected page.trades
              if ts.isEmpty then s.fail cfg page nowMs "notServed"
              else (s.publishRows job rest page ts).report

/-- The finished page, if there is one. -/
def poll (cfg : TradeBackfillConfig) (s : TradeBackfill φ δ) :
    Option (Reply δ) × TradeBackfill φ δ :=
  if cfg.inlineFetch then (s.inlinePage, { s with inlinePage := none })
  else
    let popped := s.results.tryPop
    (popped.1, { s with inlinePage := none, results := popped.2 })

def applyReply (cfg : TradeBackfillConfig) (reply : Reply δ) (nowMs : Int)
    (s : TradeBackfill φ δ) : TradeBackfill φ δ :=
  let s := { s with inFlight := false }
  match s.queue with
  | [] => s
  | job :: _ => (s.emit [.applied job.no reply.request]).onPage cfg reply.page nowMs

/-- Take a finished page: step 1 of `pump`. -/
def takePage (cfg : TradeBackfillConfig) (nowMs : Int) (s : TradeBackfill φ δ) :
    Bool × TradeBackfill φ δ :=
  if s.inFlight then
    match s.poll cfg with
    | (none, s) => (false, s)
    | (some reply, s) => (true, s.applyReply cfg reply nowMs)
  else (false, s)

/-- Whether a gap needs no request, and how it then ends. -/
def settled (cfg : TradeBackfillConfig) (gap : TradeGap) : Option (GapStatus × String) :=
  if !cfg.enabled then some (.unrecoverable, "backfillDisabled")
  else if cfg.maxGapIds < gap.missing then some (.unrecoverable, "tooLarge")
  else if gap.lastId < gap.nextNeededId then some (.recovered, "")
  else none

/-- The loop of step 2 of `pump`, for a queue of at most `k` jobs. -/
def settleHeads (cfg : TradeBackfillConfig) : Nat → TradeBackfill φ δ → Bool × TradeBackfill φ δ
  | 0, s => (false, s)
  | k + 1, s =>
      match s.queue with
      | [] => (false, s)
      | job :: _ =>
          match settled cfg job.gap with
          | none => (false, s)
          | some (status, reason) => (true, (settleHeads cfg k (s.finish status reason)).2)

def settle (cfg : TradeBackfillConfig) (s : TradeBackfill φ δ) : Bool × TradeBackfill φ δ :=
  if s.inFlight then (false, s) else settleHeads cfg s.queue.length s

/-- The request for the next page of a job. -/
def nextRequest (cfg : TradeBackfillConfig) (job : Job) : Request :=
  { job := job.no, sym := job.gap.sym, fromId := job.gap.nextNeededId
    limit := min cfg.pageLimit (job.gap.lastId - job.gap.nextNeededId + 1) }

/-- The next request, if the rate limits allow: step 3 of `pump`. -/
def request (cfg : TradeBackfillConfig) (fetch : Fetcher φ δ) (nowMs : Int)
    (s : TradeBackfill φ δ) : Bool × TradeBackfill φ δ :=
  match s.inFlight, s.queue with
  | false, job :: _ =>
      let (granted, sched) := s.sched.tryAcquire cfg.sched slot nowMs
      let s := { s with sched := sched }
      if granted then
        let r := nextRequest cfg job
        let s := { s with inFlight := true }
        if cfg.inlineFetch then
          let (page, fetcher) := fetch r.sym r.fromId r.limit s.fetcher
          (true, { s with fetcher := fetcher, inlinePage := some { request := r, page := page } })
        else (true, { s with requests := s.requests.push r })
      else (false, s)
  | _, _ => (false, s)

/-- One round of `pump`, and whether there is another. -/
def pumpOnce (cfg : TradeBackfillConfig) (fetch : Fetcher φ δ) (nowMs : Int)
    (s : TradeBackfill φ δ) : Bool × TradeBackfill φ δ :=
  let (took, s) := s.takePage cfg nowMs
  let (closed, s) := s.settle cfg
  let (asked, s) := s.request cfg fetch nowMs
  (if asked then cfg.inlineFetch else took || closed, s)

def pumpLoop (cfg : TradeBackfillConfig) (fetch : Fetcher φ δ) (nowMs : Int) :
    Nat → TradeBackfill φ δ → TradeBackfill φ δ
  | 0, s => s
  | guard + 1, s =>
      let (progressed, s) := s.pumpOnce cfg fetch nowMs
      if progressed then pumpLoop cfg fetch nowMs guard s else s

def pump (cfg : TradeBackfillConfig) (fetch : Fetcher φ δ) (nowMs : Int) (s : TradeBackfill φ δ) :
    TradeBackfill φ δ :=
  pumpLoop cfg fetch nowMs 100000 s

def start (cfg : TradeBackfillConfig) (s : TradeBackfill φ δ) : TradeBackfill φ δ :=
  if cfg.inlineFetch || s.running then s else { s with running := true }

def stop (s : TradeBackfill φ δ) : TradeBackfill φ δ :=
  if s.running then
    { s with running := false, requests := s.requests.shutdown, results := s.results.shutdown }
  else s

/-- `runLoop` of the worker thread takes a request. -/
def workerPop (s : TradeBackfill φ δ) : TradeBackfill φ δ :=
  match s.running, s.fetching with
  | true, none =>
      let popped := s.requests.tryPop
      { s with fetching := popped.1, requests := popped.2 }
  | _, _ => s

/-- `runLoop` fetches the page and hands it over. -/
def workerPush (fetch : Fetcher φ δ) (s : TradeBackfill φ δ) : TradeBackfill φ δ :=
  match s.fetching with
  | none => s
  | some r =>
      let (page, fetcher) := fetch r.sym r.fromId r.limit s.fetcher
      { s with
        fetcher := fetcher, fetching := none
        results := s.results.push { request := r, page := page } }

end TradeBackfill

inductive BackfillStep
  | addGap (gap : TradeGap)
  | pump (nowMs : Int)
  | start
  | stop
  | workerPop
  | workerPush

def TradeBackfill.step (cfg : TradeBackfillConfig) (fetch : Fetcher φ δ) (s : TradeBackfill φ δ) :
    BackfillStep → TradeBackfill φ δ
  | .addGap gap => s.addGap gap
  | .pump nowMs => s.pump cfg fetch nowMs
  | .start => s.start cfg
  | .stop => s.stop
  | .workerPop => s.workerPop
  | .workerPush => s.workerPush fetch

end TickToSignal.Trade
