import Mathlib.Data.List.Sort
import TickToSignal.Wdb.Store

/-!
# The log manager

`.log.assess` compares one day's log with the HDB: it replays the log into
per-table lists of numbers and dates, reads the numbers stored in three
partitions, and decides by counts what may be deleted. `.log.retention` deletes
what the assessment of every log in the directory marks.

## Implementation notes

A log is its whole chunks, each a call of `upd` with one row, and whether bytes
follow that are no chunk; `-11!` then signals `badtail`, after the chunks. Of a
row the manager reads its width, its first and its last column. File names are
told apart by what the source's pattern and date parser make of them. Sizes and
printed lines are left out. How the language prints a date is a parameter.
-/

namespace TickToSignal.Utils

open Wdb

/-- A logged row: its table, number of columns, `time` in nanoseconds and `tpSeqNo`. -/
structure LoggedRow where
  table : String
  width : Nat
  time : Int
  tpSeqNo : Int
  deriving DecidableEq, Repr

/-- A `` `date$ `` cast of a timestamp. -/
def LoggedRow.date (r : LoggedRow) : Date := r.time / 86400000000000

structure LogFile where
  chunks : List LoggedRow
  torn : Bool := false
  deriving DecidableEq, Repr

/-- A name in the log directory; the date of a log or an index is in its name. -/
inductive FileName
  | log (d : Date)
  | idx (d : Date)
  | other (name : String)
  deriving DecidableEq, Repr

/-- The log directory: what is in it, and the content of each day's log. -/
structure LogDir where
  names : List FileName
  content : Date → LogFile

/-- The `tpSeqNo` column of a table in a directory of the HDB or under `tmp`. -/
inductive ColumnFile
  | absent
  | unreadable
  | stored (seqs : List Int)
  deriving DecidableEq, Repr

def ColumnFile.read : ColumnFile → List Int
  | .stored seqs => seqs
  | .absent | .unreadable => []

structure LogConfig where
  retentionDays : Int := 7
  protectedDates : List Date := []
  /-- levels a side, which the width of a quote row depends on -/
  depth : Nat := 5

/-- `.log.width`: the columns of the schema and TP's two stamps. -/
def LogConfig.width (cfg : LogConfig) : WdbTable → Nat
  | .tradeBinance => 12 + 2
  | .tradeBinanceFut => 15 + 2
  | .quoteBinance => 10 + 4 * cfg.depth + 2
  | .quoteBinanceFut => 12 + 4 * cfg.depth + 2
  | .tradeGap => 10 + 2

/-- What the manager finds on disk, and the clock. -/
structure LogEnv where
  dir : LogDir
  hdb : Date → Option (WdbTable → ColumnFile)
  tmp : Date → WdbTable → ColumnFile
  today : Date
  showDate : Date → String

/-- A table's name in `.log.cfg.tables`. -/
def tableName : WdbTable → String
  | .tradeBinance => "trade_binance"
  | .tradeBinanceFut => "trade_binance_fut"
  | .quoteBinance => "quote_binance"
  | .quoteBinanceFut => "quote_binance_fut"
  | .tradeGap => "trade_gap"

/-- `t in .log.cfg.tables`. -/
def tableOf (name : String) : Option WdbTable :=
  tables.find? fun t => tableName t = name

/-! ## Listing and scanning -/

def FileName.logDate : FileName → Option Date
  | .log d => some d
  | .idx _ | .other _ => none

/-- `.log.list`, its dates. -/
def LogDir.list (dir : LogDir) : List Date :=
  (dir.names.filterMap FileName.logDate).insertionSort (· ≤ ·)

/-- `.log.acc`, and what `.log.scan` returns. -/
structure Scan where
  seqs : WdbTable → List Int := fun _ => []
  dates : WdbTable → List Date := fun _ => []
  unknownShape : Nat := 0

def Scan.rows (sc : Scan) (t : WdbTable) : Nat := (sc.seqs t).length

/-- The table of a row whose table and width are known. -/
def LogConfig.known (cfg : LogConfig) (r : LoggedRow) : Option WdbTable :=
  (tableOf r.table).filter fun t => r.width = cfg.width t

/-- The `upd` that `.log.scan` replays a log with. -/
def Scan.upd (cfg : LogConfig) (sc : Scan) (r : LoggedRow) : Scan :=
  match cfg.known r with
  | some t =>
      { sc with
        seqs := Function.update sc.seqs t (sc.seqs t ++ [r.tpSeqNo])
        dates := Function.update sc.dates t (sc.dates t ++ [r.date]) }
  | none => { sc with unknownShape := sc.unknownShape + 1 }

/-- `.log.scan`. -/
def scan (cfg : LogConfig) (f : LogFile) : Except String Scan :=
  let sc := f.chunks.foldl (Scan.upd cfg) {}
  if f.torn then .error ("log scan failed: " ++ "badtail") else .ok sc

/-- `.log.diskSeqs`: the numbers in the partitions of the day and its neighbours. -/
def diskSeqs (env : LogEnv) (d : Date) (t : WdbTable) : List Int :=
  ([d - 1, d, d + 1].map fun dd =>
    match env.hdb dd with
    | some partition => (partition t).read
    | none => []).flatten

def partitionExists (env : LogEnv) (d : Date) : Bool := (env.hdb d).isSome

/-- `.log.tmpSeqs`. -/
def tmpSeqs (env : LogEnv) (d : Date) (t : WdbTable) : List Int := (env.tmp d t).read

/-! ## Assessment -/

inductive LogStatus
  | delete
  | keep
  deriving DecidableEq, Repr

structure Assessment where
  date : Date
  logRows : Option Nat
  complete : Bool
  status : LogStatus
  reason : String
  detail : String
  dayComplete : Bool
  nextDay : Nat
  nextNote : String
  deriving DecidableEq, Repr

/-- `where`: the positions that hold. -/
def positions (bs : List Bool) : List Nat := (List.range bs.length).filter fun i => bs.getD i false

/-- The positions of a table's rows that are not on disk. -/
def missingIdx (env : LogEnv) (d : Date) (sc : Scan) (t : WdbTable) : List Nat :=
  positions ((sc.seqs t).map fun seq => decide (seq ∉ diskSeqs env d t))

/-- Those among them that are dated after the log's day. -/
def nextIdx (env : LogEnv) (d : Date) (sc : Scan) (t : WdbTable) : List Nat :=
  (missingIdx env d sc t).filter fun i => decide (d < (sc.dates t).getD i 0)

/-- How many of these are on disk in `tmp.<d+1>` already. -/
def nextOnDisk (env : LogEnv) (d : Date) (sc : Scan) (t : WdbTable) : Nat :=
  (nextIdx env d sc t).countP fun i => decide ((sc.seqs t).getD i 0 ∈ tmpSeqs env (d + 1) t)

/-- The sum of one number for each table. -/
def total (f : WdbTable → Int) : Int := tables.foldr (fun t n => f t + n) 0

section
variable (cfg : LogConfig) (env : LogEnv) (d : Date) (sc : Scan)

def missing (t : WdbTable) : Int := (missingIdx env d sc t).length

def nextDay (t : WdbTable) : Int := (nextIdx env d sc t).length

def complete : Bool :=
  partitionExists env d && decide (total (missing env d sc) = 0) && decide (sc.unknownShape = 0)

def dayComplete : Bool :=
  partitionExists env d &&
    decide (total (fun t => missing env d sc t - nextDay env d sc t) = 0) &&
    decide (sc.unknownShape = 0)

/-- The counts of every table. -/
def detail : String :=
  ", ".intercalate (tables.map fun t =>
    tableName t ++ ":" ++ toString (sc.rows t) ++ " rows, " ++
      toString (missing env d sc t - nextDay env d sc t) ++ " missing" ++
      if nextDay env d sc t > 0 then
        " (+" ++ toString (nextDay env d sc t) ++ " for the next day)"
      else "") ++
    if sc.unknownShape > 0 then
      "; " ++ toString sc.unknownShape ++ " rows of unknown table/shape"
    else ""

def nextNote : String :=
  if 0 < total (nextDay env d sc) then
    toString (total (nextDay env d sc)) ++
      " row(s) in this log were received just after midnight and belong to " ++
      env.showDate (d + 1) ++ " (" ++ toString (total fun t => nextOnDisk env d sc t) ++
      " already on disk in tmp." ++ env.showDate (d + 1) ++ ", the rest in WDB's buffer)"
  else ""

/-- The first reason that forbids deletion wins. -/
def reason : String :=
  if d = env.today then "today's log"
  else if d ∈ cfg.protectedDates then "protected (T2S_LOG_PROTECTED)"
  else if partitionExists env d = false then "HDB partition " ++ env.showDate d ++ " missing"
  else if sc.unknownShape > 0 then "rows of unknown shape in log"
  else if 0 < total (missing env d sc) then
    toString (total (missing env d sc)) ++ " logged rows not found in HDB partitions " ++
      env.showDate (d - 1) ++ ".." ++ env.showDate (d + 1)
  else if env.today - d ≤ cfg.retentionDays then
    "complete in HDB but only " ++ toString (env.today - d) ++ " day(s) old (retention " ++
      toString cfg.retentionDays ++ ")"
  else "complete in HDB, " ++ toString (env.today - d) ++ " days old"

end

/-- `.log.assess`. -/
def assess (cfg : LogConfig) (env : LogEnv) (d : Date) : Assessment :=
  match scan cfg (env.dir.content d) with
  | .error e =>
      { date := d, logRows := none, complete := false, status := .keep
        reason := "log unreadable: " ++ e, detail := "", dayComplete := false, nextDay := 0
        nextNote := "" }
  | .ok sc =>
      { date := d
        logRows := some (tables.foldr (fun t n => sc.rows t + n) 0)
        complete := complete env d sc
        status :=
          if d ≠ env.today ∧ d ∉ cfg.protectedDates ∧ complete env d sc = true ∧
            cfg.retentionDays < env.today - d then .delete
          else .keep
        reason := reason cfg env d sc
        detail := detail env d sc
        dayComplete := dayComplete env d sc
        nextDay := (total (nextDay env d sc)).toNat
        nextNote := nextNote env d sc }

/-! ## Retention -/

/-- `hdel`, which may fail; the error is printed and the file stays. -/
def LogDir.hdel (succeeds : FileName → Bool) (dir : LogDir) (name : FileName) : LogDir :=
  if succeeds name then { dir with names := dir.names.filter fun n => decide (n ≠ name) } else dir

/-- A day's log, and its index if there is one. -/
def LogDir.deleteDay (succeeds : FileName → Bool) (dir : LogDir) (d : Date) : LogDir :=
  let dir := dir.hdel succeeds (.log d)
  if .idx d ∈ dir.names then dir.hdel succeeds (.idx d) else dir

/-- `.log.summary`. -/
def summary (cfg : LogConfig) (env : LogEnv) : List Assessment := env.dir.list.map (assess cfg env)

/-- `.log.retention`: the assessments, and the directory afterwards. -/
def retention (cfg : LogConfig) (env : LogEnv) (succeeds : FileName → Bool) (apply : Bool) :
    List Assessment × LogDir :=
  let t := summary cfg env
  let del := t.filter fun a => decide (a.status = .delete)
  if apply = false then (t, env.dir)
  else (t, (del.map (·.date)).foldl (LogDir.deleteDay succeeds) env.dir)

end TickToSignal.Utils
