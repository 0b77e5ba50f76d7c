import TickToSignal.Foundation.Machine
import TickToSignal.Publisher.TpSession
import TickToSignal.Trade.Gap

/-!
# What TP remembers of its logs

TP keeps three things that a restart must not lose: the last `fhSeqNo` per
table, the highest trade id per symbol, and the latest event per trade gap with
what has been backfilled of it. All three follow the rows it logs. The session
file carries a copy of them; a start loads the file and scans the log of its
date, and of no other.

## Implementation notes

Logs hold rows of the four tables and gap events; a row of an unknown table or
of a wrong width is ignored by the scan and left out. Dates are day numbers.
`saved` arguments say whether a write of the session file came through.
`savedRows` counts the rows that had been logged when it last did; nothing reads
it but the statements about runs.
-/

namespace TickToSignal.Tp

open Foundation Publisher Trade

inductive Table
  | tradeBinance
  | tradeBinanceFut
  | quoteBinance
  | quoteBinanceFut
  deriving DecidableEq, Repr

/-- `.tp.tradeIdCol`, its keys. -/
def Table.isTrade : Table → Bool
  | tradeBinance | tradeBinanceFut => true
  | quoteBinance | quoteBinanceFut => false

/-- A row of a handler, as far as TP reads it. A backfilled trade has no
`exchEventTimeMs`. -/
structure DataRow where
  table : Table
  fhSeqNo : Int
  sym : String := ""
  tradeId : Int := 0
  exchEventTimeMs : Option Int := some 0
  deriving DecidableEq, Repr

structure GapKey where
  srcTable : Table
  sym : String
  firstMissingId : Int
  deriving DecidableEq, Repr

/-- A row of `.tp.gaps`, its key apart. -/
structure GapRow where
  lastMissingId : Int
  status : GapStatus
  recovered : Int
  recoveredThroughId : Int
  reason : String := ""
  time : Int := 0
  deriving DecidableEq, Repr

/-- A `trade_gap` event. -/
structure GapEvent where
  key : GapKey
  row : GapRow
  deriving DecidableEq, Repr

/-- What a log holds. -/
inductive Logged
  | data (r : DataRow)
  | gap (e : GapEvent)
  deriving DecidableEq, Repr

/-- `.tp.openGapStatuses`. -/
def GapRow.isOpen (g : GapRow) : Bool := !g.status.terminal

/-- TP's memory. -/
structure Memory where
  tables : Table → TpTable := fun _ => {}
  lastId : Table → String → Option Int := fun _ _ => none
  gaps : GapKey → Option GapRow := fun _ => none

/-- The session file. -/
structure Session where
  tables : Table → SessionFile
  lastId : Table → String → Option Int
  gaps : GapKey → Option GapRow

/-- The larger of a number and one that may be null. -/
def orMax (id : Int) : Option Int → Int
  | none => id
  | some l => max id l

/-- The update of one gap by a backfilled id. -/
def GapRow.backfilled (key : GapKey) (id : Int) (g : GapRow) : GapRow :=
  if key.firstMissingId ≤ id ∧ id ≤ g.lastMissingId then
    { g with
      recoveredThroughId := max id g.recoveredThroughId
      recovered := 1 + max id g.recoveredThroughId - key.firstMissingId }
  else g

namespace Memory

/-- `.tp.noteBackfill`. -/
def noteBackfill (m : Memory) (tbl : Table) (s : String) (id : Int) : Memory :=
  { m with
    gaps := fun key =>
      if key.srcTable = tbl ∧ key.sym = s then (m.gaps key).map (GapRow.backfilled key id)
      else m.gaps key }

/-- `.tp.noteTradeId`. -/
def noteTradeId (m : Memory) (r : DataRow) : Memory :=
  let m := { m with
    lastId := Function.update m.lastId r.table
      (Function.update (m.lastId r.table) r.sym (some (orMax r.tradeId (m.lastId r.table r.sym)))) }
  if r.exchEventTimeMs.isNone then m.noteBackfill r.table r.sym r.tradeId else m

/-- `.tp.noteGap`. -/
def noteGap (m : Memory) (e : GapEvent) : Memory :=
  { m with gaps := Function.update m.gaps e.key (some e.row) }

/-- `.tp.session.save`, what is written. -/
def session (m : Memory) : Session :=
  { tables := fun t => (m.tables t).sessionSave, lastId := m.lastId, gaps := m.gaps }

/-- `.tp.session.load` into a fresh process. -/
def load : Option Session → Memory
  | none => {}
  | some s =>
      { tables := fun t => TpTable.sessionLoad (some (s.tables t)), lastId := s.lastId
        gaps := s.gaps }

/-- `.tp.scanUpd`: the last `fhSeqNo` per table goes to the second component. -/
def scanUpd (st : Memory × (Table → Option Int)) : Logged → Memory × (Table → Option Int)
  | .gap e => (st.1.noteGap e, st.2)
  | .data r =>
      (if r.table.isTrade then st.1.noteTradeId r else st.1,
        Function.update st.2 r.table (some r.fhSeqNo))

/-- `.tp.scanLog`. -/
def scanLog (m : Memory) (log : List Logged) : Memory × (Table → Option Int) :=
  log.foldl scanUpd (m, fun _ => none)

/-- `.tp.recoverFhSeq`: scan the log, and let its last rows win over the file. -/
def recoverFhSeq (m : Memory) (log : List Logged) : Memory :=
  let r := m.scanLog log
  { r.1 with tables := fun t => (r.1.tables t).recoverFhSeq (r.2 t) }

/-- `upd` of a row that matches its schema, up to logging it. -/
def upd (m : Memory) (r : DataRow) : Memory :=
  let m := { m with tables := Function.update m.tables r.table ((m.tables r.table).checkSeq r.fhSeqNo) }
  if r.table.isTrade then m.noteTradeId r else m

/-- What `.tp.endOfDay` does to the gaps: closed ones belong to the day that ended. -/
def keepOpen (gaps : GapKey → Option GapRow) (key : GapKey) : Option GapRow :=
  (gaps key).filter GapRow.isOpen

end Memory

/-- TP and its disk: the logs of earlier dates, the log of `date`, the session file. -/
structure World where
  date : Nat
  older : List Logged := []
  log : List Logged := []
  file : Option Session := none
  savedRows : Nat := 0
  tp : Option Memory := none

inductive Step
  | register (tbl : Table) (sessionId nextSeq : Int) (width : Nat) (saved : Bool)
  | row (r : DataRow)
  | event (e : GapEvent) (saved : Bool)
  | endOfDay (today : Nat) (saved : Bool)
  | exit (saved : Bool)
  | crash
  | start (today : Nat)

namespace World

/-- Every row of every log, in order. -/
def rows (w : World) : List Logged := w.older ++ w.log

/-- `.tp.session.save`. -/
def save (w : World) (m : Memory) (saved : Bool) : World :=
  if saved then { w with file := some m.session, savedRows := w.rows.length } else w

/-- The log of `today` becomes the one that is written. -/
def openLog (w : World) (today : Nat) : World :=
  if w.date = today then w
  else { w with date := today, older := w.older ++ w.log, log := [] }

/-- One step; the date does not go back. -/
def step (cfg : Table → TpConfig) (w : World) : Step → World
  | .register tbl sessionId nextSeq width saved =>
      match w.tp with
      | none => w
      | some m =>
          match (m.tables tbl).registerSession (cfg tbl) sessionId nextSeq width with
          | (.error _, t) =>
              { w with tp := some { m with tables := Function.update m.tables tbl t } }
          | (.ok _, t) =>
              let m := { m with tables := Function.update m.tables tbl t }
              let w := { w with tp := some m }
              w.save m saved
  | .row r =>
      match w.tp with
      | none => w
      | some m => { w with tp := some (m.upd r), log := w.log ++ [Logged.data r] }
  | .event e saved =>
      match w.tp with
      | none => w
      | some m =>
          let m := m.noteGap e
          let w := { w with tp := some m, log := w.log ++ [Logged.gap e] }
          w.save m saved
  | .endOfDay today saved =>
      match w.tp with
      | none => w
      | some m =>
          if w.date < today then
            { (w.openLog today).save m saved with tp := some { m with gaps := Memory.keepOpen m.gaps } }
          else w
  | .exit saved =>
      match w.tp with
      | none => w
      | some m => { w.save m saved with tp := none }
  | .crash => { w with tp := none }
  | .start today =>
      if w.tp.isSome ∨ today < w.date then w
      else
        let w := w.openLog today
        { w with tp := some ((Memory.load w.file).recoverFhSeq w.log) }

end World

end TickToSignal.Tp
