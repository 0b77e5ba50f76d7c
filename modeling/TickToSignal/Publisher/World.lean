import TickToSignal.Publisher.Ring
import TickToSignal.Publisher.TpSession
import TickToSignal.Foundation.Machine

/-!
# One handler table between its handlers and TP

The world is the running handler process, the connection with the rows in
flight on it, TP's memory, and what TP has on disk: the day's log of the table
and the session file. A step is one thing that can happen to any of them.

## Implementation notes

A row in the log carries the session that published it; TP itself does not see
it. `published`, `gone` and `ended` are records of the run that no step reads.
A connection that died is noticed by the handler only when a send fails, and a
send into it may succeed first: `accepted` says which. Session ids are process
start times, so a new process has a larger one.
-/

namespace TickToSignal.Publisher

variable {α : Type*}

/-- Where a handler's publisher is between two of its calls. -/
inductive Conn (α : Type*)
  /-- inside `connect`, without a registration -/
  | connecting
  /-- inside `connect`, registered; the rows still to send, and how many were sent -/
  | resending (rest : List (Row α)) (sent : Nat)
  /-- a handle the publisher believes in -/
  | connected
  /-- an event call found the connection dead; the next publish reconnects -/
  | lost
  deriving DecidableEq, Repr

/-- Rows of a resend that are not sent yet. -/
def Conn.unsent : Conn α → List (Row α)
  | .resending rest _ => rest
  | _ => []

/-- A handler process, as far as its publisher goes. -/
structure TpPublisher (α : Type*) where
  sessionId : Int
  width : Nat
  ring : ResendRing α
  fhSeqNo : Int := 0
  conn : Conn α := .connecting
  reconnects : Nat := 0
  rowsResent : Nat := 0
  rowsUnresendable : Int := 0
  lastReply : Int := -1
  deriving DecidableEq, Repr

/-- The start of `resend`: how many rows are gone, and what is to be sent. -/
def TpPublisher.resend (h : TpPublisher α) (lastLogged : Int) : Int × TpPublisher α :=
  let h := { h with lastReply := lastLogged }
  if lastLogged < 0 ∨ h.ring.rows = [] ∨ h.ring.newestSeq ≤ lastLogged then
    (0, { h with conn := .connected })
  else
    let gone := h.ring.missingAfter lastLogged
    (gone,
      { h with
        rowsUnresendable := h.rowsUnresendable + gone
        conn := .resending (h.ring.after lastLogged) 0 })

/-- A session and a `fhSeqNo` name a row. -/
def key (e : Int × Row α) : Int × Int := (e.1, e.2.fhSeqNo)

/-- The last `fhSeqNo` of a session that is in the log, 0 if none is. -/
def lastLogged (log : List (Int × Row α)) (session : Int) : Int :=
  ((log.filter fun e => e.1 = session).getLast?.map (·.2.fhSeqNo)).getD 0

structure PublisherConfig where
  tp : TpConfig
  ringSize : Nat

structure World (α : Type*) where
  handler : Option (TpPublisher α) := none
  started : Int := 0
  linkUp : Bool := false
  wire : List (Row α) := []
  tp : Option TpTable := none
  log : List (Int × Row α) := []
  file : Option SessionFile := none
  published : List (Int × Row α) := []
  gone : List (Int × Int) := []
  ended : List (Int × Int) := []

inductive Step (α : Type*)
  | tpStart
  | tpCrash
  | sessionSave
  | handlerStart (sessionId : Int) (width : Nat)
  | handlerExit
  | register (replyLost : Bool)
  | resendRow (accepted : Bool)
  | publish (data : α) (accepted : Bool)
  | eventFailed
  | connLost
  | tpProcess

namespace World

/-- The session the file names. -/
def fileId (w : World α) : Option Int := w.file.bind (·.id)

/-- TP starts: load the session file, then let the day's log win. -/
def tpStart (w : World α) : World α :=
  match w.tp with
  | some _ => w
  | none =>
      { w with
        tp := some ((TpTable.sessionLoad w.file).recoverFhSeq
          (w.log.getLast?.map (·.2.fhSeqNo))) }

/-- TP's memory and everything in flight to it are gone. -/
def tpCrash (w : World α) : World α := { w with tp := none, linkUp := false, wire := [] }

/-- `.tp.session.save`, which registrations of other tables, gap events and exits run too. -/
def sessionSave (w : World α) : World α :=
  match w.tp with
  | none => w
  | some tp => { w with file := some tp.sessionSave }

def handlerStart (cfg : PublisherConfig) (w : World α) (sessionId : Int) (width : Nat) :
    World α :=
  if w.handler.isNone ∧ w.started < sessionId then
    { w with
      handler := some
        { sessionId := sessionId, width := width, ring := ResendRing.ofCapacity cfg.ringSize }
      started := sessionId, linkUp := false, wire := [] }
  else w

/-- The process ends; what TP had not logged and a resend had not missed is over. -/
def handlerExit (w : World α) : World α :=
  match w.handler with
  | none => w
  | some h =>
      let undelivered := w.published.filter fun e =>
        e.1 = h.sessionId ∧ key e ∉ w.log.map key ∧ key e ∉ w.gone
      { w with
        handler := none, linkUp := false, wire := [], ended := w.ended ++ undelivered.map key }

/-- The published rows that a resend found gone from the ring. -/
def goneRows (w : World α) : List α :=
  (w.published.filter fun e => decide (key e ∈ w.gone)).map (·.2.data)

/-- `connect`: register, and start the resend if the reply arrives. -/
def register (cfg : PublisherConfig) (w : World α) (replyLost : Bool) : World α :=
  match w.handler, w.tp with
  | some h, some tp =>
      match h.conn with
      | .connecting =>
          match tp.registerSession cfg.tp h.sessionId (h.fhSeqNo + 1) h.width with
          | (.error _, tp) =>
              -- a rejected handler exits
              let w := { w with tp := some tp }
              if replyLost then w else w.handlerExit
          | (.ok reply, tp) =>
              let w := { w with tp := some tp, file := some tp.sessionSave }
              if replyLost then w
              else
                let (gone, h') := h.resend reply
                { w with
                  handler := some h', linkUp := true, wire := []
                  gone := w.gone ++
                    (List.range gone.toNat).map fun (k : Nat) => (h.sessionId, reply + 1 + k) }
      | _ => w
  | _, _ => w

/-- One row of a resend. -/
def resendRow (w : World α) (accepted : Bool) : World α :=
  match w.handler with
  | none => w
  | some h =>
      match h.conn with
      | .resending (row :: rest) sent =>
          if w.linkUp ∨ accepted then
            { w with
              wire := if w.linkUp then w.wire ++ [row] else w.wire
              handler := some
                (if rest = [] then
                  { h with conn := .connected, rowsResent := h.rowsResent + (sent + 1) }
                else { h with conn := .resending rest (sent + 1) }) }
          else { w with handler := some { h with conn := .connecting } }
      | _ => w

/-- The next row of the session: into the ring, then onto the connection. -/
def publish (w : World α) (data : α) (accepted : Bool) : World α :=
  match w.handler with
  | none => w
  | some h =>
      let row : Row α := { fhSeqNo := h.fhSeqNo + 1, data := data }
      let h' := { h with fhSeqNo := row.fhSeqNo, ring := h.ring.push row }
      let published := w.published ++ [(h.sessionId, row)]
      match h.conn with
      | .connected =>
          if w.linkUp then
            { w with handler := some h', wire := w.wire ++ [row], published := published }
          else if accepted then { w with handler := some h', published := published }
          else
            { w with
              handler := some { h' with conn := .connecting, reconnects := h.reconnects + 1 }
              published := published }
      | .lost => { w with handler := some { h' with conn := .connecting }, published := published }
      | _ => w

/-- A synchronous call finds the connection dead. -/
def eventFailed (w : World α) : World α :=
  match w.handler with
  | none => w
  | some h =>
      match h.conn with
      | .connected =>
          if w.linkUp then w
          else
            { w with handler := some { h with conn := .lost, reconnects := h.reconnects + 1 } }
      | _ => w

def connLost (w : World α) : World α := { w with linkUp := false, wire := [] }

/-- `upd`: check the number, then append to the log. -/
def tpProcess (w : World α) : World α :=
  match w.handler, w.tp, w.wire with
  | some h, some tp, row :: rest =>
      { w with
        tp := some (tp.checkSeq row.fhSeqNo), log := w.log ++ [(h.sessionId, row)], wire := rest }
  | _, _, _ => w

/-- One step. -/
def step (cfg : PublisherConfig) (w : World α) : Step α → World α
  | .tpStart => w.tpStart
  | .tpCrash => w.tpCrash
  | .sessionSave => w.sessionSave
  | .handlerStart sessionId width => w.handlerStart cfg sessionId width
  | .handlerExit => w.handlerExit
  | .register replyLost => w.register cfg replyLost
  | .resendRow accepted => w.resendRow accepted
  | .publish data accepted => w.publish data accepted
  | .eventFailed => w.eventFailed
  | .connLost => w.connLost
  | .tpProcess => w.tpProcess

end World

end TickToSignal.Publisher
