import Mathlib.Data.Int.Notation
import Mathlib.Data.List.Basic

/-!
# Sessions and sequence numbers of one table, at TP

TP holds the current session and the last accepted `fhSeqNo` of a table in
memory, and both in the session file. A null of the source is `none`.
-/

namespace TickToSignal.Publisher

/-- What TP holds in memory for one table. -/
structure TpTable where
  sessionId : Option Int := none
  last : Option Int := none
  gaps : Nat := 0
  missed : Int := 0
  restarts : Nat := 0
  reconnects : Nat := 0
  outOfOrder : Nat := 0
  rejectedRegistrations : Nat := 0
  deriving DecidableEq, Repr

/-- The table's entries in the session file. -/
structure SessionFile where
  id : Option Int
  lastSeq : Option Int
  deriving DecidableEq, Repr

/-- A table of TP and the width of its rows as handlers send them. -/
structure TpConfig where
  tbl : String
  fhWidth : Nat

namespace TpTable

/-- `.tp.session.save`: what the file then holds for the table. -/
def sessionSave (tp : TpTable) : SessionFile := { id := tp.sessionId, lastSeq := tp.last }

/-- `.tp.session.load` into a fresh process. -/
def sessionLoad : Option SessionFile → TpTable
  | none => {}
  | some f => { sessionId := f.id, last := f.lastSeq }

/-- `.tp.recoverFhSeq`: the last row of today's log wins over the file. -/
def recoverFhSeq (tp : TpTable) (fhLast : Option Int) : TpTable :=
  { tp with last := fhLast <|> tp.last }

inductive RegistrationKind
  | new
  | reconnect
  | restart
  deriving DecidableEq, Repr

def registrationKind (prevId : Option Int) (sessionId : Int) : RegistrationKind :=
  match prevId with
  | none => .new
  | some id => if sessionId = id then .reconnect else .restart

/-- The reply to a registration, and whether the last accepted number starts over. -/
def registrationReply (kind : RegistrationKind) (lastSeq : Option Int) (nextSeq : Int) : Int :=
  match kind, lastSeq with
  | .new, some l => if nextSeq - 1 < l then -1 else l
  | .reconnect, some l => l
  | _, _ => -1

/-- `.tp.registerSession`: the reply is the last `fhSeqNo` logged for the session,
-1 when TP holds nothing for it. -/
def registerSession (cfg : TpConfig) (tp : TpTable) (sessionId nextSeq : Int) (width : Nat) :
    Except String Int × TpTable :=
  if width ≠ cfg.fhWidth then
    (.error ("schema width mismatch for " ++ cfg.tbl ++ ": handler sends " ++ toString width ++
        " columns, schema expects " ++ toString cfg.fhWidth),
      { tp with rejectedRegistrations := tp.rejectedRegistrations + 1 })
  else
    let kind := registrationKind tp.sessionId sessionId
    let reply := registrationReply kind tp.last nextSeq
    let tp := { tp with sessionId := some sessionId }
    match kind, tp.last with
    | .new, none => (.ok reply, { tp with last := some (nextSeq - 1) })
    | .new, some l =>
        if nextSeq - 1 < l then
          (.ok reply, { tp with restarts := tp.restarts + 1, last := some (nextSeq - 1) })
        else (.ok reply, tp)
    | .restart, _ =>
        (.ok reply, { tp with restarts := tp.restarts + 1, last := some (nextSeq - 1) })
    | .reconnect, none =>
        (.ok reply, { tp with reconnects := tp.reconnects + 1, last := some (nextSeq - 1) })
    | .reconnect, some _ => (.ok reply, { tp with reconnects := tp.reconnects + 1 })

/-- `.tp.checkSeq`: never drops a row, returns after counting. -/
def checkSeq (tp : TpTable) (seq : Int) : TpTable :=
  match tp.last with
  | none => { tp with last := some seq }
  | some lastSeq =>
      if seq = lastSeq + 1 then { tp with last := some seq }
      else if seq > lastSeq + 1 then
        { tp with gaps := tp.gaps + 1, missed := tp.missed + (seq - lastSeq - 1), last := some seq }
      else { tp with outOfOrder := tp.outOfOrder + 1 }

section
variable {tp : TpTable}

@[simp] theorem checkSeq_sessionId (tp : TpTable) (seq : Int) :
    (tp.checkSeq seq).sessionId = tp.sessionId := by
  simp only [checkSeq]
  split
  · rfl
  · split_ifs <;> rfl

/-- A row above the last one moves it there and counts what was jumped over. -/
theorem checkSeq_above {seq last : Int} (hlast : tp.last = some last) (h : last < seq) :
    (tp.checkSeq seq).last = some seq ∧
      (tp.checkSeq seq).missed = tp.missed + (seq - last - 1) := by
  simp only [checkSeq, hlast]
  split_ifs
  · exact ⟨rfl, by simp only; omega⟩
  · exact ⟨rfl, rfl⟩
  · omega

/-- A session TP does not know starts over from the number before its next row. -/
theorem registerSession_unknown (cfg : TpConfig) (nextSeq : Int) {sessionId : Int}
    (hid : tp.sessionId ≠ some sessionId) (hnew : tp.sessionId = none → tp.last = none) :
    ∃ tp', registerSession cfg tp sessionId nextSeq cfg.fhWidth = (.ok (-1), tp') ∧
      tp'.sessionId = some sessionId ∧ tp'.last = some (nextSeq - 1) := by
  cases hs : tp.sessionId with
  | none => simp [registerSession, registrationKind, registrationReply, hs, hnew hs]
  | some id =>
      have hne : sessionId ≠ id := by
        rintro rfl
        exact hid hs
      cases hl : tp.last <;>
        simp [registerSession, registrationKind, registrationReply, hs, hl, hne]

/-- The session TP knows is told the last number TP has for it. -/
theorem registerSession_known (cfg : TpConfig) (nextSeq : Int) {sessionId last : Int}
    (hid : tp.sessionId = some sessionId) (hlast : tp.last = some last) :
    ∃ tp', registerSession cfg tp sessionId nextSeq cfg.fhWidth = (.ok last, tp') ∧
      tp'.sessionId = some sessionId ∧ tp'.last = some last := by
  simp [registerSession, registrationKind, registrationReply, hid, hlast]

end

end TpTable

end TickToSignal.Publisher
