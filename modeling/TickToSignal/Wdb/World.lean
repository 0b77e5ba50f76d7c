import TickToSignal.Wdb.Ingest
import TickToSignal.Foundation.Machine

/-!
# WDB, TP and the connection between them

TP numbers a row, logs it and then publishes it to the current connection. WDB
subscribes to its tables one by one, asks for the cutoff, reads the logs up to
it, merges what it read, drains what arrived meanwhile, and goes live.

## Implementation notes

`wire` is the stream of the connection WDB holds; TP's messages on a handle
WDB gave up are not part of it. A row of the stream may be processed at any
moment at which WDB holds the handle, also ahead of or behind a reply. A roll
has several triggers (clock, end of day, start-up, by hand) and may start at
any step. What the reading of the logs delivers is an argument of the step;
`StagesExactly` says when it is what the logs hold. The reservation file keeps
`reserved` across restarts of TP. When `running` is false only the disk of
`wdb` means anything.
-/

namespace TickToSignal.Wdb

open Foundation

variable {δ : Type*}

structure WdbConfig where
  maxRows : Nat
  seqReserve : Nat

/-- Whether TP publishes a table to the connection. -/
def Conn.subscribes : Conn → WdbTable → Bool
  | .disconnected, _ => false
  | .subscribing subscribed, t => subscribed.contains t
  | _, _ => true

namespace WdbProcess

/-- The start of `.wdb.connect` once `hopen` succeeded. -/
def beginConnect (s : WdbProcess δ) : WdbProcess δ :=
  { s with replayMode := true, conn := .subscribing [] }

/-- The error branch of `.wdb.connect`; the live buffer is kept. -/
def failConnect (s : WdbProcess δ) : WdbProcess δ :=
  { s with replayMode := false, conn := .disconnected }

/-- `.wdb.runReplay` up to `.wdb.readLogs`: a cutoff below a checkpoint halts. -/
def beginReplay (cutoff : Nat) (s : WdbProcess δ) : WdbProcess δ :=
  if ∀ t ∈ tables, s.lastTpSeqNo t ≤ cutoff then
    { s with
      replayCutoff := cutoff, stageFloor := s.floor, stageCutoff := cutoff, conn := .replaying }
  else
    { s with
      halted := true, replayMode := false, replayCutoff := 0
      replayLiveBuffer := fun _ => [], conn := .connected }

/-- The error branch of `.wdb.runReplay`. -/
def failReplay (s : WdbProcess δ) : WdbProcess δ :=
  { s with
    replayMode := false, replayCutoff := 0, replayLiveBuffer := fun _ => [], conn := .disconnected }

/-- The rest of `.wdb.runReplay`: merge, drain, go live. -/
def completeReplay (maxRows : Nat) (io : WdbTable → Nat → FlushIO)
    (stage : WdbTable → List (Row δ)) (s : WdbProcess δ) : WdbProcess δ :=
  let s := (s.mergeStaged maxRows io stage).drainAll maxRows io
  { s with replayMode := false, replayCutoff := 0, conn := .connected }

end WdbProcess

structure World (δ : Type*) where
  running : Bool := false
  wdb : WdbProcess δ
  tpUp : Bool := false
  tpSeqNo : Nat := 0
  reserved : Nat := 0
  log : List (WdbTable × Row δ) := []
  linkUp : Bool := false
  wire : List (WdbTable × Row δ) := []

inductive Step (δ : Type*)
  | tpStart
  | tpCrash
  /-- `upd` or `.tp.event` of TP -/
  | tpLog (t : WdbTable) (date : Date) (data : δ)
  | start (saves : Bool)
  | crash
  | connect
  | subscribe (replied : Bool)
  | replayInfo (replied : Bool)
  /-- `none` is a replay that failed while reading the logs -/
  | readLogs (stage : Option (WdbTable → List (Row δ))) (io : WdbTable → Nat → FlushIO)
  | deliver (io : FlushIO)
  | connLost
  /-- `.z.pc` -/
  | closed
  | flush (io : WdbTable → FlushIO)
  | shutdown (io : WdbTable → FlushIO)
  | roll (today : Date) (io : WdbTable → FlushIO) (moves : Date → Bool)

namespace World

/-- A machine on which nothing was ever stored or logged. -/
def fresh : World δ :=
  { wdb := { disk := {}, lastTpSeqNo := fun _ => 0, checkpointDate := none } }

/-- `.tp.seq.load` with a reservation file. -/
def tpStart (cfg : WdbConfig) (w : World δ) : World δ :=
  if w.tpUp then w
  else { w with tpUp := true, tpSeqNo := w.reserved, reserved := w.reserved + cfg.seqReserve }

def connLost (w : World δ) : World δ := { w with linkUp := false, wire := [] }

def tpCrash (w : World δ) : World δ := { w.connLost with tpUp := false }

/-- Number, log, publish. -/
def tpLog (cfg : WdbConfig) (t : WdbTable) (date : Date) (data : δ) (w : World δ) : World δ :=
  if w.tpUp then
    let n := w.tpSeqNo + 1
    let row : Row δ := { tpSeqNo := n, date := date, data := data }
    { w with
      tpSeqNo := n
      reserved := if w.reserved < n then n + cfg.seqReserve else w.reserved
      log := w.log ++ [(t, row)]
      wire := if w.linkUp && w.wdb.conn.subscribes t then w.wire ++ [(t, row)] else w.wire }
  else w

def start (saves : Bool) (w : World δ) : World δ :=
  if w.running then w
  else { w with running := true, wdb := .start saves w.wdb.disk, linkUp := false, wire := [] }

def crash (w : World δ) : World δ :=
  { w.connLost with running := false, wdb := { w.wdb with conn := .disconnected } }

def connect (w : World δ) : World δ :=
  match w.wdb.conn with
  | .disconnected =>
      if w.running && w.tpUp then
        { w with wdb := w.wdb.beginConnect, linkUp := true, wire := [] }
      else w
  | _ => w

/-- The next of the subscriptions; the exception handler closes the handle. -/
def subscribe (replied : Bool) (w : World δ) : World δ :=
  match w.wdb.conn with
  | .subscribing subscribed =>
      match tables[subscribed.length]? with
      | some t =>
          if w.linkUp && replied then
            { w with wdb := { w.wdb with conn := .subscribing (subscribed ++ [t]) } }
          else { w.connLost with wdb := w.wdb.failConnect }
      | none => w
  | _ => w

def replayInfo (replied : Bool) (w : World δ) : World δ :=
  match w.wdb.conn with
  | .subscribing subscribed =>
      if subscribed = tables then
        if w.linkUp && replied then { w with wdb := w.wdb.beginReplay w.tpSeqNo }
        else { w.connLost with wdb := w.wdb.failConnect }
      else w
  | _ => w

def readLogs (cfg : WdbConfig) (stage : Option (WdbTable → List (Row δ)))
    (io : WdbTable → Nat → FlushIO) (w : World δ) : World δ :=
  match w.wdb.conn, stage with
  | .replaying, some stage => { w with wdb := w.wdb.completeReplay cfg.maxRows io stage }
  | .replaying, none => { w.connLost with wdb := w.wdb.failReplay }
  | _, _ => w

def deliver (cfg : WdbConfig) (io : FlushIO) (w : World δ) : World δ :=
  match w.wire with
  | [] => w
  | (t, row) :: rest => { w with wdb := w.wdb.upd cfg.maxRows io t row, wire := rest }

def closed (w : World δ) : World δ :=
  match w.wdb.conn with
  | .connected =>
      if w.linkUp then w else { w with wdb := { w.wdb with conn := .disconnected } }
  | _ => w

/-- An operation of a running WDB on its own. -/
def own (op : WdbProcess δ → WdbProcess δ) (w : World δ) : World δ :=
  if w.running then { w with wdb := op w.wdb } else w

/-- One step. -/
def step (cfg : WdbConfig) (w : World δ) : Step δ → World δ
  | .tpStart => w.tpStart cfg
  | .tpCrash => w.tpCrash
  | .tpLog t date data => w.tpLog cfg t date data
  | .start saves => w.start saves
  | .crash => w.crash
  | .connect => w.connect
  | .subscribe replied => w.subscribe replied
  | .replayInfo replied => w.replayInfo replied
  | .readLogs stage io => w.readLogs cfg stage io
  | .deliver io => w.deliver cfg io
  | .connLost => w.connLost
  | .closed => w.closed
  | .flush io => w.own fun s => (s.flushAll io).2
  | .shutdown io => w.own fun s => s.shutdown io
  | .roll today io moves => w.own fun s => s.roll today io moves

end World

/-- The rows of one table in a stream of all tables. -/
def rowsOf (t : WdbTable) (l : List (WdbTable × Row δ)) : List (Row δ) :=
  (l.filter fun e => decide (e.1 = t)).map (·.2)

/-- The rows numbered above `n`. -/
def above (n : Nat) (rows : List (Row δ)) : List (Row δ) :=
  rows.filter fun r => decide (n < r.tpSeqNo)

/-- A replay that reads the logs to its end stages exactly the logged rows between
each table's floor and the cutoff. -/
def StagesExactly (w : World δ) : Step δ → Prop
  | .readLogs (some stage) _ => ∀ t, stage t =
      (rowsOf t w.log).filter fun r =>
        decide (w.wdb.stageFloor t < r.tpSeqNo ∧ r.tpSeqNo ≤ w.wdb.stageCutoff)
  | _ => True

end TickToSignal.Wdb
