import TickToSignal.Tp.SeqNo
import TickToSignal.Tp.TradeState

/-!
# TP's update handler

`upd` counts a row's `fhSeqNo`, notes its trade id and what it backfills, takes
a number for it, and logs it. Taking the number and logging can throw, and what
was counted and noted before stays. `.tp.event` has the other order: what it
notes, it notes once the event is in the log.

## Implementation notes

A null of the source is `none`. An error in the log write leaves no row in the
log. The clock-skew samples, the incident list, the printed lines and the write
of the session file after an event are left out; none of them can throw.
-/

namespace TickToSignal.Tp

open Publisher

structure UpdConfig where
  seqReserve : Nat
  logEnabled : Bool := true
  fhWidth : Table → Nat
  eventWidth : Nat

/-- What `upd` is called with; a width is the number of columns that came. -/
inductive Message
  | health
  | event (e : GapEvent) (width : Nat)
  | unknown (tbl : String)
  | data (r : DataRow) (width : Nat)
  deriving DecidableEq, Repr

/-- How the file system answers during one call. -/
structure UpdIO where
  reservation : Outcome := .done
  logWrites : Bool := true
  deriving DecidableEq, Repr

/-- TP with the reservation file and the log it writes. -/
structure TpProcess where
  memory : Memory := {}
  disk : SeqDisk
  seq : SeqMemory := {}
  log : List (Message × Int) := []
  published : List Message := []
  handleTable : Int → Option Table := fun _ => none
  firstTp : Table → Option Int := fun _ => none
  events : Nat := 0
  unknownTableRows : Nat := 0
  schemaMismatch : Table → Nat := fun _ => 0
  unregisteredRows : Table → Nat := fun _ => 0

/-- What a call returns, changed. -/
def Ending.map {α β : Type*} (f : α → β) : Ending α → Ending β
  | .returned a => .returned (f a)
  | .thrown => .thrown
  | .died => .died

namespace TpProcess

/-- `.tp.log`. -/
def logRow (cfg : UpdConfig) (io : UpdIO) (m : Message) (n : Int) (p : TpProcess) :
    TpProcess × Ending Unit :=
  if cfg.logEnabled = false ∨ m = .health then (p, .returned ())
  else if io.logWrites then ({ p with log := p.log ++ [(m, n)] }, .returned ())
  else (p, .thrown)

def publish (m : Message) (p : TpProcess) : TpProcess :=
  { p with published := p.published ++ [m] }

/-- The steps every row goes through that is not rejected: a number, the log, the
subscribers. `note` is what happens between the number and the log. -/
def accept (cfg : UpdConfig) (io : UpdIO) (m : Message) (note : Int → TpProcess → TpProcess)
    (p : TpProcess) : TpProcess × Ending Int :=
  match nextSeqNo cfg.seqReserve p.disk p.seq io.reservation with
  | (disk, seq, .returned n) =>
      match (note n { p with disk := disk, seq := seq }).logRow cfg io m n with
      | (p, .returned ()) => (p.publish m, .returned n)
      | (p, .thrown) => (p, .thrown)
      | (p, .died) => (p, .died)
  | (disk, seq, .thrown) => ({ p with disk := disk, seq := seq }, .thrown)
  | (disk, seq, .died) => ({ p with disk := disk, seq := seq }, .died)

/-- `.tp.event`: the reply is the event's `tpSeqNo`. -/
def event (cfg : UpdConfig) (io : UpdIO) (e : GapEvent) (width : Nat) (p : TpProcess) :
    TpProcess × Ending Int :=
  if width ≠ cfg.eventWidth then (p, .thrown)
  else
    match p.accept cfg io (.event e width) fun _ p => p with
    | (p, .returned n) =>
        ({ p with events := p.events + 1, memory := p.memory.noteGap e }, .returned n)
    | (p, .thrown) => (p, .thrown)
    | (p, .died) => (p, .died)

/-- `.tp.seq.firstTp` is set by the first number a table's rows get. -/
def noteFirst (tbl : Table) (n : Int) (p : TpProcess) : TpProcess :=
  if p.firstTp tbl = none then { p with firstTp := Function.update p.firstTp tbl (some n) } else p

/-- `upd`, called over the handle `h`; the number a row got is its reply here. -/
def upd (cfg : UpdConfig) (io : UpdIO) (h : Int) (p : TpProcess) :
    Message → TpProcess × Ending (Option Int)
  | .health => (p.publish .health, .returned none)
  | .event e width =>
      let out := p.event cfg io e width
      (out.1, out.2.map some)
  | .unknown tbl =>
      let p := { p with unknownTableRows := p.unknownTableRows + 1 }
      let out := p.accept cfg io (.unknown tbl) fun _ p => p
      (out.1, out.2.map some)
  | .data r width =>
      if width ≠ cfg.fhWidth r.table then
        ({ p with
            schemaMismatch := Function.update p.schemaMismatch r.table
              (p.schemaMismatch r.table + 1) }, .returned none)
      else
        let p :=
          if p.handleTable h = some r.table then p
          else
            { p with
              unregisteredRows := Function.update p.unregisteredRows r.table
                (p.unregisteredRows r.table + 1) }
        -- the row is counted and noted here, before it has a number
        let out := { p with memory := p.memory.upd r }.accept cfg io (.data r width)
          (noteFirst r.table)
        (out.1, out.2.map some)

end TpProcess

/-! ## What is left when a call throws -/

@[simp] theorem Ending.map_eq_thrown {α β : Type*} {f : α → β} {e : Ending α} :
    e.map f = .thrown ↔ e = .thrown := by
  cases e <;> simp [Ending.map]

namespace TpProcess

variable {cfg : UpdConfig} {io : UpdIO} {p : TpProcess}

theorem logRow_memory (m : Message) (n : Int) : (p.logRow cfg io m n).1.memory = p.memory := by
  simp only [logRow]
  split_ifs <;> rfl

/-- Numbering and logging a row leave alone what TP remembers of the rows before. -/
theorem accept_memory {m : Message} {note : Int → TpProcess → TpProcess}
    (hnote : ∀ n q, (note n q).memory = q.memory) :
    (p.accept cfg io m note).1.memory = p.memory := by
  simp only [accept]
  split
  · rename_i disk seq n _
    have hnoted := hnote n { p with disk := disk, seq := seq }
    have hlog : ((note n { p with disk := disk, seq := seq }).logRow cfg io m n).1.memory
        = p.memory := (logRow_memory m n).trans hnoted
    split <;> simp_all [publish]
  · rfl
  · rfl

theorem noteFirst_memory (tbl : Table) (n : Int) : (p.noteFirst tbl n).memory = p.memory := by
  simp only [noteFirst]
  split_ifs <;> rfl

/-- An event that could not be logged is not noted. -/
theorem event_memory {e : GapEvent} {width : Nat} (h : (p.event cfg io e width).2 = .thrown) :
    (p.event cfg io e width).1.memory = p.memory := by
  have hkept : (p.accept cfg io (.event e width) fun _ p => p).1.memory = p.memory :=
    accept_memory fun _ _ => rfl
  simp only [event] at h ⊢
  split_ifs at h ⊢ with hwidth
  · rfl
  · split at h <;> simp_all

/-- A row of a handler that could not be logged has been counted and noted. -/
theorem upd_memory {h : Int} {m : Message} (hthrown : (p.upd cfg io h m).2 = .thrown) :
    (p.upd cfg io h m).1.memory =
      match m with
      | .data r _ => p.memory.upd r
      | _ => p.memory := by
  cases m with
  | health => rfl
  | event e width =>
      simp only [upd, Ending.map_eq_thrown] at hthrown ⊢
      exact event_memory hthrown
  | unknown tbl => exact accept_memory fun _ _ => rfl
  | data r width =>
      simp only [upd] at hthrown ⊢
      split_ifs at hthrown ⊢
      · exact accept_memory fun n q => noteFirst_memory r.table n
      · exact accept_memory fun n q => noteFirst_memory r.table n

end TpProcess

end TickToSignal.Tp
