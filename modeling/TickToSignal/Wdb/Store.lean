import TickToSignal.Foundation.Watermark
import Mathlib.Data.List.Sort
import Mathlib.Data.List.Dedup
import Mathlib.Logic.Function.Basic

/-!
# WDB: buffers, temporary directories, checkpoint

WDB buffers every row it receives per table, writes the rows to `tmp.<date>`
by the date of their own `time`, and moves the directories of past dates into
the HDB. A row is known by its table and its `tpSeqNo`; per table the floor
is the highest `tpSeqNo` that is checkpointed or buffered.

## Implementation notes

A directory is the list of the rows appended to it, so a date has a directory
as soon as one row was written there. `received` records the rows the daily
counters count; no operation reads it. Log lines and the other counters are
left out. What the file system and the clock do is an argument of the
operation.
-/

namespace TickToSignal.Wdb

open Foundation

/-- A kdb+ date. -/
abbrev Date := Int

/-- `.wdb.tables`. -/
inductive WdbTable
  | tradeBinance
  | tradeBinanceFut
  | quoteBinance
  | quoteBinanceFut
  | tradeGap
  deriving DecidableEq, Repr

def tables : List WdbTable :=
  [.tradeBinance, .tradeBinanceFut, .quoteBinance, .quoteBinanceFut, .tradeGap]

@[simp] theorem mem_tables (t : WdbTable) : t ∈ tables := by cases t <;> decide

/-- A row as TP stamped it; `date` is the date of its `time` column. -/
structure Row (δ : Type*) where
  tpSeqNo : Nat
  date : Date
  data : δ
  deriving DecidableEq, Repr

/-- A row on disk, with the directory it was written to. -/
structure Stored (δ : Type*) where
  dir : Date
  table : WdbTable
  row : Row δ
  deriving DecidableEq, Repr

variable {δ : Type*}

/-- What identifies a stored row. -/
def Stored.key (e : Stored δ) : WdbTable × Nat := (e.table, e.row.tpSeqNo)

/-- The checkpoint file. -/
structure Checkpoint where
  seq : WdbTable → Nat
  date : Option Date

structure Disk (δ : Type*) where
  checkpoint : Option Checkpoint := none
  tmp : List (Stored δ) := []
  hdb : List (Stored δ) := []

namespace Disk

/-- `.wdb.loadCheckpoint`: no file means every table at 0. -/
def loadCheckpoint (disk : Disk δ) : Checkpoint :=
  disk.checkpoint.getD { seq := fun _ => 0, date := none }

/-- Everything that is stored, in `tmp.*` and in the HDB. -/
def stored (disk : Disk δ) : List (Stored δ) := disk.tmp ++ disk.hdb

/-- `.wdb.diskMaxSeq`: only `tmp.*` is scanned. -/
def diskMaxSeq (disk : Disk δ) (t : WdbTable) : Nat :=
  watermark (·.row.tpSeqNo) 0 (disk.tmp.filter fun e => decide (e.table = t))

theorem le_diskMaxSeq {disk : Disk δ} {e : Stored δ} (he : e ∈ disk.tmp) :
    e.row.tpSeqNo ≤ disk.diskMaxSeq e.table :=
  num_le_watermark (fun e : Stored δ => e.row.tpSeqNo)
    (List.mem_filter.mpr ⟨he, by simp⟩)

/-- `key` of an HDB partition finds something. -/
def hasPartition (disk : Disk δ) (d : Date) : Bool := disk.hdb.any fun e => decide (e.dir = d)

/-- `.wdb.pendingTmpDates`: the `tmp.<date>` before today, oldest first. -/
def pendingTmpDates (disk : Disk δ) (today : Date) : List Date :=
  (((disk.tmp.map (·.dir)).dedup.filter fun d => decide (d < today)).insertionSort (· ≤ ·))

end Disk

/-- Where the connection to TP is. -/
inductive Conn
  /-- no handle -/
  | disconnected
  /-- inside `.wdb.connect`: the tables subscribed so far -/
  | subscribing (subscribed : List WdbTable)
  /-- inside `.wdb.runReplay`, between TP's reply and the end of the staging -/
  | replaying
  | connected
  deriving DecidableEq, Repr

/-- A WDB process and its disk. -/
structure WdbProcess (δ : Type*) where
  disk : Disk δ
  lastTpSeqNo : WdbTable → Nat
  checkpointDate : Option Date
  bufMaxSeq : WdbTable → Nat := fun _ => 0
  buffer : WdbTable → List (Row δ) := fun _ => []
  halted : Bool := false
  replayMode : Bool := false
  replayCutoff : Nat := 0
  replayLiveBuffer : WdbTable → List (Row δ) := fun _ => []
  stageFloor : WdbTable → Nat := fun _ => 0
  stageCutoff : Nat := 0
  conn : Conn := .disconnected
  received : WdbTable → List (Row δ) := fun _ => []

namespace WdbProcess

/-- `.wdb.floor`. -/
def floor (s : WdbProcess δ) (t : WdbTable) : Nat := max (s.lastTpSeqNo t) (s.bufMaxSeq t)

/-- The rows of a table that are stored or buffered. -/
def held (s : WdbProcess δ) (t : WdbTable) : List (Row δ) :=
  ((s.disk.stored.filter fun e => decide (e.table = t)).map (·.row)) ++ s.buffer t

/-- What is buffered, stored and checkpointed is the same. -/
structure SameStore (s s' : WdbProcess δ) : Prop where
  disk : s'.disk = s.disk
  buffer : s'.buffer = s.buffer
  lastTpSeqNo : s'.lastTpSeqNo = s.lastTpSeqNo
  bufMaxSeq : s'.bufMaxSeq = s.bufMaxSeq

/-- `.wdb.saveCheckpoint`; the argument says whether the write and the rename succeed. -/
def saveCheckpoint (ok : Bool) (d : Option Date) (s : WdbProcess δ) : Bool × WdbProcess δ :=
  if ok then
    (true,
      { s with
        disk := { s.disk with checkpoint := some { seq := s.lastTpSeqNo, date := d } }
        checkpointDate := d })
  else (false, s)

/-- `.wdb.reconcileCheckpointWithDisk`: the floor of every table that is behind its rows in
`tmp.*` is raised; the save keeps the checkpoint's date. -/
def reconcileCheckpointWithDisk (saves : Bool) (s : WdbProcess δ) : WdbProcess δ :=
  if ∀ t ∈ tables, s.disk.diskMaxSeq t ≤ s.lastTpSeqNo t then s
  else
    (saveCheckpoint saves s.checkpointDate
      { s with
        lastTpSeqNo := fun t =>
          if s.lastTpSeqNo t < s.disk.diskMaxSeq t then s.disk.diskMaxSeq t
          else s.lastTpSeqNo t }).2

/-- The start-up of a process on a disk, up to its first connection attempt. -/
def start (saves : Bool) (disk : Disk δ) : WdbProcess δ :=
  reconcileCheckpointWithDisk saves
    { disk := disk, lastTpSeqNo := disk.loadCheckpoint.seq
      checkpointDate := disk.loadCheckpoint.date }

/-- `.wdb.acceptRow`: a row at or below the floor is a duplicate. -/
def acceptRow (t : WdbTable) (row : Row δ) (s : WdbProcess δ) : Bool × WdbProcess δ :=
  if row.tpSeqNo ≤ s.floor t then (false, s)
  else
    (true,
      { s with bufMaxSeq := Function.update s.bufMaxSeq t (max (s.bufMaxSeq t) row.tpSeqNo) })

end WdbProcess

end TickToSignal.Wdb
