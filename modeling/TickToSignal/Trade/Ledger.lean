import TickToSignal.Publisher.Held
import TickToSignal.Trade.BackfillWork
import TickToSignal.Trade.FeedHandler

/-!
# The ledger of trades and gaps

Which rows and gap events are in TP's log, which the running handler still
holds, and what it knows. The ledger leaves out the connection, the numbers of
the rows and the way pages are fetched: rows go from `due` over `held` into the
log, events from `events` into the log of gaps, and the end of the process
drops what is not there yet.

## Implementation notes

`Moves` lists all that can happen to a ledger, and `Linked.step` shows that a
step of the world is one of them. `Allowed` is what a class of runs leaves
open; runs without a condition allow everything.
-/

namespace TickToSignal.Trade

open Publisher Tp

variable {φ δ : Type*}

/-- The rows of a list of actions. -/
def dueRows (todo : List Act) : List TradeRow :=
  todo.filterMap fun
    | .publish row => some row
    | _ => none

/-- The events of a list of actions. -/
def dueEvents (todo : List Act) : List GapEvent :=
  todo.filterMap fun
    | .record e => some e
    | _ => none

section Due
variable (todo todo' : List Act) (row : TradeRow) (e : GapEvent)

@[simp] theorem dueRows_nil : dueRows [] = [] := rfl
@[simp] theorem dueRows_publish : dueRows (.publish row :: todo) = row :: dueRows todo := rfl
@[simp] theorem dueRows_record : dueRows (.record e :: todo) = dueRows todo := rfl
@[simp] theorem dueRows_flush : dueRows (.flush :: todo) = dueRows todo := rfl

@[simp] theorem dueRows_append : dueRows (todo ++ todo') = dueRows todo ++ dueRows todo' :=
  List.filterMap_append

@[simp] theorem dueEvents_nil : dueEvents [] = [] := rfl
@[simp] theorem dueEvents_publish : dueEvents (.publish row :: todo) = dueEvents todo := rfl
@[simp] theorem dueEvents_record : dueEvents (.record e :: todo) = e :: dueEvents todo := rfl
@[simp] theorem dueEvents_flush : dueEvents (.flush :: todo) = dueEvents todo := rfl

@[simp] theorem dueEvents_append :
    dueEvents (todo ++ todo') = dueEvents todo ++ dueEvents todo' :=
  List.filterMap_append

end Due

structure Ledger where
  logged : List TradeRow
  gapLog : List GapEvent
  /-- what TP holds of the table -/
  lastId : String → Option Int
  gaps : GapKey → Option GapRow
  /-- the last id the exchange sent -/
  live : String → Option Int
  /-- published by the running handler -/
  held : List TradeRow
  /-- to be published by it -/
  due : List TradeRow
  /-- found by it, not acknowledged -/
  events : List GapEvent
  queue : List TradeGap
  seen : String → Option Int
  ready : Bool

namespace Ledger

/-- The gaps a start is told of. -/
def openGaps (table : Table) (v : Ledger) : List TradeGap :=
  let keys := (v.gapLog.map (·.key)).reverse.dedup.reverse
  keys.filterMap fun key =>
    match v.gaps key with
    | some g => if key.srcTable = table ∧ g.isOpen then some (toGap key g) else none
    | none => none

/-- The progress a logged row means for TP's gaps. -/
def noted (table : Table) (r : TradeRow) (gaps : GapKey → Option GapRow) (key : GapKey) :
    Option GapRow :=
  if r.exchEventTimeMs.isNone ∧ key.srcTable = table ∧ key.sym = r.sym then
    (gaps key).map (GapRow.backfilled key r.id)
  else gaps key

end Ledger

/-- What a class of runs allows: rows gone from the ring, a start with or without the trade
state, the end of the process. -/
structure Allowed where
  gone : Prop
  resume : Prop
  unseeded : Prop
  crash : Prop

/-- What can happen to a ledger. -/
inductive Ledger.Moves (δ : Type*) (cfg : HandlerConfig) (may : Allowed) :
    Ledger → Ledger → Prop
  | quiet (v : Ledger) : Moves δ cfg may v v
  | unseeded (v : Ledger) (hmay : may.unseeded) (hready : v.ready = false) :
      Moves δ cfg may v { v with ready := true }
  | resume (v : Ledger) (hmay : may.resume) (hready : v.ready = false) :
      Moves δ cfg may v
        { v with ready := true, seen := v.lastId, queue := v.queue ++ v.openGaps cfg.table }
  /-- a trade without a gap before it -/
  | live (v : Ledger) (sym : String) (id : Nat) (time : Int) (hready : v.ready = true)
      (hdue : v.due = []) (hlive : ∀ l ∈ v.live sym, l < (id : Int))
      (hnext : ∀ l ∈ v.seen sym, (id : Int) ≤ l + 1) :
      Moves δ cfg may v
        { v with
          due := [{ sym := sym, id := id, exchEventTimeMs := some time }]
          live := Function.update v.live sym (some id)
          seen := Function.update v.seen sym (some (orMax id (v.seen sym))) }
  /-- a trade that reveals a gap -/
  | jump (v : Ledger) (sym : String) (id : Nat) (time nowNs last : Int) (reason : String)
      (hready : v.ready = true) (hdue : v.due = [])
      (hlive : ∀ l ∈ v.live sym, l < (id : Int)) (hseen : v.seen sym = some last)
      (hgap : last + 1 < (id : Int)) :
      Moves δ cfg may v
        { v with
          due := [{ sym := sym, id := id, exchEventTimeMs := some time }]
          live := Function.update v.live sym (some id)
          seen := Function.update v.seen sym (some id)
          events := v.events ++ [buildGapRow nowNs
            { sym := sym, firstId := last + 1, lastId := id - 1 } cfg.table .detected reason]
          queue := v.queue ++ [{ sym := sym, firstId := last + 1, lastId := id - 1 }] }
  | work (v : Ledger) (new : List (Out δ)) (queue : List TradeGap) (nowNs : Int)
      (hready : v.ready = true) (hdue : v.due = []) (hworked : Worked v.queue new queue) :
      Moves δ cfg may v
        { v with
          due := dueRows (new.flatMap (TradeFeedHandler.callback cfg nowNs))
          events := v.events ++ dueEvents (new.flatMap (TradeFeedHandler.callback cfg nowNs))
          queue := queue }
  | publish (v : Ledger) (r : TradeRow) (due : List TradeRow) (hdue : v.due = r :: due) :
      Moves δ cfg may v { v with held := v.held ++ [r], due := due }
  | deliver (v : Ledger) (skipped : List TradeRow) (r : TradeRow) (left : List TradeRow)
      (hheld : v.held = skipped ++ r :: left) (hskip : skipped = [] ∨ may.gone) :
      Moves δ cfg may v
        { v with
          logged := v.logged ++ [r], held := left
          lastId := Function.update v.lastId r.sym (some (orMax r.id (v.lastId r.sym)))
          gaps := Ledger.noted cfg.table r v.gaps }
  /-- TP logs the first event; the handler drops it when it is acknowledged -/
  | event (v : Ledger) (e : GapEvent) (rest events : List GapEvent)
      (hevents : v.events = e :: rest) (hleft : events = rest ∨ events = e :: rest)
      (hheld : v.held = [] ∨ may.gone) :
      Moves δ cfg may v
        { v with
          gapLog := v.gapLog ++ [e], gaps := Function.update v.gaps e.key (some e.row)
          events := events }
  | crash (v : Ledger) (hmay : may.crash) :
      Moves δ cfg may v
        { v with
          held := [], due := [], events := [], queue := [], seen := fun _ => none, ready := false }

namespace TradeWorld

def ledger (cfg : HandlerConfig) (w : TradeWorld φ δ) : Ledger :=
  { logged := w.link.rows
    gapLog := w.gapLog
    lastId := w.mem.lastId cfg.table
    gaps := w.mem.gaps
    live := w.lastLive
    held := w.link.held
    due := w.handler.elim [] fun h => dueRows h.todo
    events := w.handler.elim [] fun h => h.gapEvents ++ dueEvents h.todo
    queue := w.handler.elim [] fun h => h.backfill.gaps
    seen := w.handler.elim (fun _ => none) fun h => h.idTracker.last
    ready := w.handler.elim false fun h => h.ready }

end TradeWorld

theorem noteTradeId_lastId (m : Memory) (table : Table) (fhSeqNo : Int) (r : TradeRow) :
    (m.noteTradeId (r.dataRow table fhSeqNo)).lastId table =
      Function.update (m.lastId table) r.sym (some (orMax r.id (m.lastId table r.sym))) := by
  by_cases htime : r.exchEventTimeMs.isNone <;>
    simp [Memory.noteTradeId, TradeRow.dataRow, Memory.noteBackfill, htime]

theorem noteTradeId_gaps (m : Memory) (table : Table) (fhSeqNo : Int) (r : TradeRow) :
    (m.noteTradeId (r.dataRow table fhSeqNo)).gaps = Ledger.noted table r m.gaps := by
  ext1 key
  simp only [Memory.noteTradeId, TradeRow.dataRow, Ledger.noted]
  split_ifs <;> simp_all [Memory.noteBackfill]

namespace TradeFeedHandler

variable (cfg : HandlerConfig) (nowNs : Int) (h : TradeFeedHandler φ δ) {sym : String} {id : Int}

/-- An id without a gap before it. -/
theorem validateTradeId_next (hnext : ∀ l ∈ h.idTracker.last sym, id ≤ l + 1) :
    h.validateTradeId cfg nowNs sym id = { h with
      idTracker := { last :=
        Function.update h.idTracker.last sym (some (orMax id (h.idTracker.last sym))) }
      seededSyms := Function.update h.seededSyms sym false } := by
  cases hlast : h.idTracker.last sym with
  | none => simp only [validateTradeId, TradeIdTracker.onId, hlast, orMax]
  | some last =>
      have hle := hnext last hlast
      by_cases habove : last < id
      · have heq : id = last + 1 := by omega
        have hmax : max id last = id := by omega
        simp only [validateTradeId, TradeIdTracker.onId, hlast, if_pos heq, if_pos habove, orMax,
          hmax]
      · have hnot : ¬ id = last + 1 := by omega
        have hmax : max id last = last := by omega
        have hsame : Function.update h.idTracker.last sym (some last) = h.idTracker.last := by
          rw [← hlast, Function.update_eq_self]
        by_cases hdup : id = last
        · simp only [validateTradeId, TradeIdTracker.onId, hlast, if_neg hnot, if_pos hdup,
            if_neg habove, orMax, hmax, hsame]
        · have hback : id < last := by omega
          simp only [validateTradeId, TradeIdTracker.onId, hlast, if_neg hnot, if_neg hdup,
            if_pos hback, if_neg habove, orMax, hmax, hsame]

/-- An id with a gap before it. -/
theorem validateTradeId_gap {last : Int} (hlast : h.idTracker.last sym = some last)
    (hgap : last + 1 < id) :
    h.validateTradeId cfg nowNs sym id = { h with
      idTracker := { last := Function.update h.idTracker.last sym (some id) }
      todo := h.todo ++ [.record (buildGapRow nowNs
        { sym := sym, firstId := last + 1, lastId := id - 1 } cfg.table .detected
        (if h.seededSyms sym then "handlerRestart" else ""))]
      backfill := h.backfill.addGap { sym := sym, firstId := last + 1, lastId := id - 1 }
      seededSyms := Function.update h.seededSyms sym false } := by
  have hnext : ¬ id = last + 1 := by omega
  have hsame : ¬ id = last := by omega
  have hback : ¬ id < last := by omega
  have habove : last < id := by omega
  simp only [validateTradeId, TradeIdTracker.onId, hlast, if_neg hnext, if_neg hsame, if_neg hback,
    if_pos habove]

end TradeFeedHandler

/-- The handler and its publisher run together, and TP is up. -/
structure Linked (cfg : HandlerConfig) (w : TradeWorld φ δ) : Prop where
  link : Consistent w.link
  tp : w.link.tp.isSome
  alive : w.handler.isSome = w.link.handler.isSome
  width : ∀ pub ∈ w.link.handler, pub.width = cfg.publisher.tp.fhWidth

namespace Linked

variable {cfg : HandlerConfig} {w : TradeWorld φ δ} {may : Allowed}

theorem init (cfg : HandlerConfig) : Linked cfg ({} : TradeWorld φ δ) := by
  refine { link := ?_, tp := rfl, alive := rfl, width := nofun }
  refine { consistent_init with tpId := ?_, noSession := ?_, running := nofun }
  · rintro _ ⟨⟩
    rfl
  · refine fun _ => ⟨rfl, nofun, ?_⟩
    rintro _ ⟨⟩
    rfl

/-- The same session runs on, or none does. -/
theorem keep (hl : Linked cfg w) {w' : TradeWorld φ δ} (hc : Consistent w'.link)
    (hsession : w'.link.handler.map (fun h => (h.sessionId, h.width)) =
      w.link.handler.map fun h => (h.sessionId, h.width))
    (htp : w'.link.tp.isSome = w.link.tp.isSome)
    (hsome : w'.handler.isSome = w.handler.isSome) : Linked cfg w' := by
  refine { link := hc, tp := htp ▸ hl.tp, alive := ?_, width := ?_ }
  · have hlink := congrArg Option.isSome hsession
    simp only [Option.isSome_map] at hlink
    rw [hsome, hl.alive, hlink]
  · intro pub hpub
    rw [hpub, Option.map_some, eq_comm, Option.map_eq_some_iff] at hsession
    obtain ⟨old, hold, heq⟩ := hsession
    have hwidth := hl.width old hold
    rw [Prod.mk.injEq] at heq
    exact heq.2 ▸ hwidth

/-- The link moves no row. -/
theorem same (hl : Linked cfg w) {w' : TradeWorld φ δ} (hc : Consistent w'.link)
    (hsame : SameRows w.link w'.link) (hsome : w'.handler.isSome = w.handler.isSome) :
    Linked cfg w' :=
  hl.keep hc hsame.session hsame.tp hsome

/-- Only the handler's own state changes. -/
theorem handler (hl : Linked cfg w) {h h' : TradeFeedHandler φ δ} (hw : w.handler = some h)
    {w' : TradeWorld φ δ} (hlink : w'.link = w.link) (hw' : w'.handler = some h') :
    Linked cfg w' :=
  hl.same (hlink ▸ hl.link) (hlink ▸ .refl w.link) (by rw [hw, hw']; rfl)

end Linked

/-- What a step keeps and does. -/
def Moved (cfg : HandlerConfig) (may : Allowed) (w w' : TradeWorld φ δ) : Prop :=
  Linked cfg w' ∧ Ledger.Moves δ cfg may (w.ledger cfg) (w'.ledger cfg)

namespace Linked

variable {cfg : HandlerConfig} {w : TradeWorld φ δ} {may : Allowed}

theorem quiet {w' : TradeWorld φ δ} (hl : Linked cfg w') (hsame : w'.ledger cfg = w.ledger cfg) :
    Moved cfg may w w' :=
  ⟨hl, hsame ▸ .quiet _⟩

/-- A step of the link that moves no row. -/
theorem relink (hl : Linked cfg w) {link : Publisher.World TradeRow} (hc : Consistent link)
    (hsame : SameRows w.link link) : Moved cfg may w { w with link := link } := by
  refine quiet (hl.same hc hsame rfl) ?_
  simp only [TradeWorld.ledger, hsame.rows, hsame.held]

theorem acting_spec {h : TradeFeedHandler φ δ} {pub : TpPublisher TradeRow}
    (hacting : w.acting = some (h, pub)) :
    w.handler = some h ∧ w.link.handler = some pub ∧ h.ready = true ∧
      (pub.conn = .connected ∨ pub.conn = .lost) := by
  simp only [TradeWorld.acting] at hacting
  split at hacting
  · next h' pub' hh hpub =>
      split_ifs at hacting with hready
      obtain ⟨rfl, rfl⟩ := Prod.mk.inj (Option.some.inj hacting)
      refine ⟨hh, hpub, hready.1, ?_⟩
      have hfree := hready.2
      cases hconn : pub'.conn <;> simp_all [TradeWorld.free]
  · cases hacting

theorem idle_spec {h : TradeFeedHandler φ δ} (hidle : w.idle = some h) :
    w.handler = some h ∧ h.ready = true ∧ h.todo = [] := by
  simp only [TradeWorld.idle] at hidle
  split at hidle
  · next h' pub hacting =>
      split_ifs at hidle with htodo
      obtain rfl := Option.some.inj hidle
      obtain ⟨hh, -, hready, -⟩ := acting_spec hacting
      exact ⟨hh, hready, htodo⟩
  · cases hidle

theorem start (hl : Linked cfg w) (sessionId : Int) (fetcher : φ) :
    Moved cfg may w (w.start cfg sessionId fetcher) := by
  simp only [TradeWorld.start]
  split_ifs with hnone
  · obtain ⟨hh, hpub, hnew⟩ := hnone
    rw [Option.isNone_iff_eq_none] at hh hpub
    have hheld : (w.link.handlerStart cfg.publisher sessionId cfg.publisher.tp.fhWidth).held = [] :=
      handlerStart_held hl.link hpub hnew
    have hold : w.link.held = [] := by simp only [Publisher.World.held, hpub]
    refine quiet ?_ ?_
    · refine { link := hl.link.handlerStart .., tp := ?_, alive := ?_, width := ?_ }
      all_goals
        simp only [Publisher.World.handlerStart, hpub, Option.isNone_none, true_and, if_pos hnew]
      · exact hl.tp
      · rfl
      · rintro pub ⟨⟩
        rfl
    · have hrows : (w.link.handlerStart cfg.publisher sessionId cfg.publisher.tp.fhWidth).rows
          = w.link.rows := by
        simp only [Publisher.World.rows, Publisher.World.handlerStart, hpub, Option.isNone_none,
          true_and, if_pos hnew]
      simp only [TradeWorld.ledger, hrows, hheld, hold, hh]
      rfl
  · exact quiet hl rfl

theorem workerPop_queue (s : TradeBackfill φ δ) : s.workerPop.queue = s.queue := by
  simp only [TradeBackfill.workerPop]
  split <;> rfl

theorem workerPush_queue (fetch : Fetcher φ δ) (s : TradeBackfill φ δ) :
    (s.workerPush fetch).queue = s.queue := by
  simp only [TradeBackfill.workerPush]
  split <;> rfl

theorem worker (hl : Linked cfg w) {f : TradeBackfill φ δ → TradeBackfill φ δ}
    (hf : ∀ s, (f s).queue = s.queue) : Moved cfg may w (w.worker f) := by
  cases hh : w.handler with
  | none =>
      refine quiet (hl.same hl.link (.refl w.link) ?_) ?_
      all_goals simp only [TradeWorld.worker, TradeWorld.ledger, hh, Option.map_none]
  | some h =>
      have hh' : (w.worker f).handler = some { h with backfill := f h.backfill } := by
        simp only [TradeWorld.worker, hh, Option.map_some]
      refine quiet (hl.handler hh rfl hh') ?_
      simp only [TradeWorld.worker, TradeWorld.ledger, hh, Option.map_some, Option.elim_some,
        TradeBackfill.gaps, hf]

theorem tpProcess (hl : Linked cfg w) (hgone : w.link.gone = [] ∨ may.gone) :
    Moved cfg may w (w.tpProcess cfg) := by
  simp only [TradeWorld.tpProcess]
  split
  · next pub tp row rest hpub htp hwire =>
    obtain ⟨skipped, left, hheld, hheld', hrows, hskip⟩ :=
      tpProcess_held hl.link hpub hl.tp hwire
    refine ⟨?_, ?_⟩
    · refine { link := hl.link.tpProcess, tp := ?_, alive := ?_, width := ?_ }
      all_goals simp only [Publisher.World.tpProcess, hpub, htp, hwire]
      · rfl
      · exact hl.alive.trans (by rw [hpub])
      · exact hpub ▸ hl.width
    · have hnone : w.link.gone = [] → skipped = [] := fun hnone =>
        List.eq_nil_iff_forall_not_mem.mpr fun r hr =>
          List.not_mem_nil (Publisher.World.goneRows_eq_nil hnone ▸ hskip r hr)
      have hmove : Ledger.Moves δ cfg may (w.ledger cfg) _ :=
        .deliver _ skipped row.data left hheld (hgone.imp_left hnone)
      convert hmove using 1
      simp only [TradeWorld.ledger, hheld', hrows, noteTradeId_lastId, noteTradeId_gaps]
  · exact quiet hl rfl

/-- A call that finds the connection dead. -/
theorem loseCall_same (hl : Linked cfg w) :
    Consistent w.loseCall.link ∧ SameRows w.link w.loseCall.link := by
  have hlost := (connLost_unmoved w.link).toSameRows
  have hfailed := (eventFailed_unmoved w.link.connLost).toSameRows
  exact ⟨hl.link.connLost.eventFailed, hlost.trans hfailed⟩

theorem tradeState (hl : Linked cfg w) (received : Bool)
    (hmay : ∀ h ∈ w.handler, h.ready = false →
      if received = true ∧ w.link.linkUp = true then may.resume else may.unseeded) :
    Moved cfg may w (w.tradeState cfg received) := by
  simp only [TradeWorld.tradeState]
  split
  · next h pub hh hpub =>
    have hmay := hmay h hh
    have hstarting : h.ready = false → (w.ledger cfg).ready = false := fun hready => by
      simp only [TradeWorld.ledger, hh, Option.elim_some, hready]
    split_ifs with hready hreceived
    · have hmay := hmay hready.1
      have hready' := hstarting hready.1
      rw [if_pos hreceived] at hmay
      refine ⟨hl.handler hh rfl rfl, ?_⟩
      have hmove : Ledger.Moves δ cfg may (w.ledger cfg) _ := .resume _ hmay hready'
      convert hmove using 1
      simp only [TradeWorld.ledger, hh, Option.elim_some, TradeFeedHandler.begin,
        TradeFeedHandler.resume, TradeBackfill.gaps_start, TradeBackfill.gaps_addGaps]
      rfl
    · have hmay := hmay hready.1
      have hready' := hstarting hready.1
      rw [if_neg hreceived] at hmay
      obtain ⟨hc, hsame⟩ := hl.loseCall_same
      refine ⟨hl.same hc hsame (by rw [hh]; rfl), ?_⟩
      have hmove : Ledger.Moves δ cfg may (w.ledger cfg) _ := .unseeded _ hmay hready'
      convert hmove using 1
      simp only [TradeWorld.ledger, hh, Option.elim_some, TradeFeedHandler.begin,
        TradeBackfill.gaps_start, hsame.rows, hsame.held]
      rfl
    · exact quiet hl rfl
  · exact quiet hl rfl

theorem health (hl : Linked cfg w) : Moved cfg may w w.health := by
  simp only [TradeWorld.health]
  split
  · exact quiet hl rfl
  · next h hidle =>
      obtain ⟨hh, -, htodo⟩ := idle_spec hidle
      refine quiet (hl.handler hh rfl rfl) ?_
      simp only [TradeWorld.ledger, hh, Option.elim_some, htodo, dueRows_flush, dueEvents_flush,
        dueRows_nil, dueEvents_nil]

theorem pump (hl : Linked cfg w) (fetch : Fetcher φ δ) (nowMs nowNs : Int) :
    Moved cfg may w (w.pump cfg fetch nowMs nowNs) := by
  simp only [TradeWorld.pump]
  split
  · exact quiet hl rfl
  · next h hidle =>
      obtain ⟨hh, hready, htodo⟩ := idle_spec hidle
      obtain ⟨new, hout, hworked⟩ := h.backfill.pump_works cfg.backfill fetch nowMs
      refine ⟨hl.handler hh rfl rfl, ?_⟩
      have hdue : (w.ledger cfg).due = [] := by
        simp only [TradeWorld.ledger, hh, Option.elim_some, htodo, dueRows_nil]
      have hready' : (w.ledger cfg).ready = true := by
        simp only [TradeWorld.ledger, hh, Option.elim_some, hready]
      have hqueue : (w.ledger cfg).queue = h.backfill.gaps := by
        simp only [TradeWorld.ledger, hh, Option.elim_some]
      have hmove : Ledger.Moves δ cfg may (w.ledger cfg) _ :=
        .work _ new _ nowNs hready' hdue (hqueue ▸ hworked)
      convert hmove using 1
      simp only [TradeWorld.ledger, hh, Option.elim_some, TradeFeedHandler.pumpBackfill, hout,
        List.drop_left, htodo, List.nil_append, dueEvents_nil, List.append_nil]

theorem message (hl : Linked cfg w) (sym : String) (tradeId : Nat) (eventTimeMs nowNs : Int) :
    Moved cfg may w (w.message cfg sym tradeId eventTimeMs nowNs) := by
  simp only [TradeWorld.message]
  split
  · exact quiet hl rfl
  · next h hidle =>
      obtain ⟨hh, hready, htodo⟩ := idle_spec hidle
      split_ifs with hlive
      · refine ⟨hl.handler hh rfl rfl, ?_⟩
        have hready' : (w.ledger cfg).ready = true := by
          simp only [TradeWorld.ledger, hh, Option.elim_some, hready]
        have hdue : (w.ledger cfg).due = [] := by
          simp only [TradeWorld.ledger, hh, Option.elim_some, htodo, dueRows_nil]
        have hseen : (w.ledger cfg).seen = h.idTracker.last := by
          simp only [TradeWorld.ledger, hh, Option.elim_some]
        by_cases hnext : ∀ l ∈ h.idTracker.last sym, (tradeId : Int) ≤ l + 1
        · have hmove : Ledger.Moves δ cfg may (w.ledger cfg) _ :=
            .live _ sym tradeId eventTimeMs hready' hdue hlive (hseen ▸ hnext)
          convert hmove using 1
          simp only [TradeWorld.ledger, hh, Option.elim_some, TradeFeedHandler.processMessage,
            TradeFeedHandler.validateTradeId_next cfg nowNs h hnext, htodo, List.nil_append,
            dueRows_publish, dueRows_flush, dueRows_nil, dueEvents_publish, dueEvents_flush,
            dueEvents_nil]
        · simp only [not_forall, not_le] at hnext
          obtain ⟨last, hlast, hgap⟩ := hnext
          have hmove : Ledger.Moves δ cfg may (w.ledger cfg) _ :=
            .jump _ sym tradeId eventTimeMs nowNs last
              (if h.seededSyms sym then "handlerRestart" else "") hready' hdue hlive
              (hseen ▸ hlast) hgap
          convert hmove using 1
          simp only [TradeWorld.ledger, hh, Option.elim_some, TradeFeedHandler.processMessage,
            TradeFeedHandler.validateTradeId_gap cfg nowNs h hlast hgap, htodo, List.nil_append,
            List.cons_append, dueRows_record, dueRows_publish, dueRows_flush, dueRows_nil,
            dueEvents_record, dueEvents_publish, dueEvents_flush, dueEvents_nil,
            TradeBackfill.gaps_addGap, List.append_nil]
      · exact quiet hl rfl

theorem act (hl : Linked cfg w) (accepted : Bool) : Moved cfg may w (w.act accepted) := by
  simp only [TradeWorld.act]
  split
  · exact quiet hl rfl
  next h pub hacting =>
  obtain ⟨hh, hpub, -, hfree⟩ := acting_spec hacting
  split
  · exact quiet hl rfl
  · next row rest htodo =>
      have hheld := publish_held hl.link hpub hfree row accepted
      obtain ⟨hlog, hsession, htp⟩ := publish_keeps w.link row accepted
      refine ⟨?_, ?_⟩
      · exact hl.keep (hl.link.publish row accepted) hsession (congrArg Option.isSome htp)
          (by rw [hh]; rfl)
      · have hdue : (w.ledger cfg).due = row :: dueRows rest := by
          simp only [TradeWorld.ledger, hh, Option.elim_some, htodo, dueRows_publish]
        have hmove : Ledger.Moves δ cfg may (w.ledger cfg) _ := .publish _ row _ hdue
        convert hmove using 1
        simp only [TradeWorld.ledger, hh, Option.elim_some, htodo, dueEvents_publish, hheld,
          Publisher.World.rows, hlog]
  · next e rest htodo =>
      refine quiet (hl.handler hh rfl rfl) ?_
      simp only [TradeWorld.ledger, hh, Option.elim_some, htodo, dueRows_flush, dueRows_record,
        dueEvents_flush, dueEvents_record, List.append_assoc, List.singleton_append]
  · next rest htodo =>
      split_ifs
      · refine quiet (hl.handler hh rfl rfl) ?_
        simp only [TradeWorld.ledger, hh, Option.elim_some, htodo, dueRows_flush, dueEvents_flush]
      · exact quiet hl rfl

theorem tpEvent (hl : Linked cfg w) (e : GapEvent) : Linked cfg (w.tpEvent e) :=
  hl.same hl.link.sessionSave (sessionSave_unmoved w.link).toSameRows rfl

/-- One turn of `flush` does nothing, or stops, or TP takes the oldest event. -/
theorem sendEvent_cases (w : TradeWorld φ δ) (outcome : EventOutcome) :
    w.sendEvent outcome = w ∨
      ∃ h pub rest e events, w.acting = some (h, pub) ∧ h.todo = .flush :: rest ∧
        h.gapEvents = e :: events ∧
        ((w.sendEvent outcome = { w with handler := some { h with todo := rest } } ∨
            w.sendEvent outcome = { w.loseCall with handler := some { h with todo := rest } }) ∨
          (pub.conn = .connected ∧ w.link.linkUp = true ∧ w.link.wire = []) ∧
            (w.sendEvent outcome =
                { w.tpEvent e with handler := some { h with gapEvents := events } } ∨
              w.sendEvent outcome =
                { (w.tpEvent e).loseCall with handler := some { h with todo := rest } })) := by
  simp only [TradeWorld.sendEvent]
  split
  · exact .inl rfl
  next h pub hacting =>
  split
  · next rest e events htodo hevents =>
      by_cases hconn : pub.conn = .connected
      · rw [if_pos hconn]
        cases outcome with
        | connectionLost =>
            exact .inr ⟨h, pub, rest, e, events, hacting, htodo, hevents, .inl (.inr rfl)⟩
        | acked =>
            simp only
            split_ifs with hclean
            · exact .inr ⟨h, pub, rest, e, events, hacting, htodo, hevents,
                .inr ⟨⟨hconn, hclean⟩, .inl rfl⟩⟩
            · exact .inl rfl
        | replyLost =>
            simp only
            split_ifs with hclean
            · exact .inr ⟨h, pub, rest, e, events, hacting, htodo, hevents,
                .inr ⟨⟨hconn, hclean⟩, .inr rfl⟩⟩
            · exact .inl rfl
      · rw [if_neg hconn]
        exact .inr ⟨h, pub, rest, e, events, hacting, htodo, hevents, .inl (.inl rfl)⟩
  · exact .inl rfl

theorem sendEvent (hl : Linked cfg w) (outcome : EventOutcome)
    (hgone : w.link.gone = [] ∨ may.gone) : Moved cfg may w (w.sendEvent outcome) := by
  obtain heq | ⟨h, pub, rest, e, events, hacting, htodo, hevents, hdone⟩ :=
    sendEvent_cases w outcome
  · rw [heq]
    exact quiet hl rfl
  obtain ⟨hh, hpub, -, -⟩ := acting_spec hacting
  obtain (heq | heq) | ⟨⟨hconn, hup, hwire⟩, hdone⟩ := hdone
  · rw [heq]
    refine quiet (hl.handler hh rfl rfl) ?_
    simp only [TradeWorld.ledger, hh, Option.elim_some, htodo, dueRows_flush, dueEvents_flush]
  · rw [heq]
    obtain ⟨hlost, hsame⟩ := hl.loseCall_same
    refine quiet (hl.same hlost hsame (by rw [hh]; rfl)) ?_
    simp only [TradeWorld.ledger, hh, Option.elim_some, hsame.rows, hsame.held, htodo,
      dueRows_flush, dueEvents_flush]
    rfl
  · have hbefore : (w.ledger cfg).events = e :: (events ++ dueEvents rest) := by
      simp only [TradeWorld.ledger, hh, Option.elim_some, hevents, htodo, dueEvents_flush,
        List.cons_append]
    have hheld := hgone.imp_left (held_eq_nil hl.link hpub hconn hup hwire)
    have hlogged := hl.tpEvent e
    have hsaved := (sessionSave_unmoved w.link).toSameRows
    obtain heq | heq := hdone
    · rw [heq]
      refine ⟨hlogged.handler hh rfl rfl, ?_⟩
      have hmove : Ledger.Moves δ cfg may (w.ledger cfg) _ :=
        .event _ e _ _ hbefore (.inl rfl) hheld
      convert hmove using 1
      simp only [TradeWorld.ledger, TradeWorld.tpEvent, hh, Option.elim_some, hsaved.rows,
        hsaved.held, htodo, dueRows_flush, dueEvents_flush]
      rfl
    · rw [heq]
      obtain ⟨hlost, hdead⟩ := hlogged.loseCall_same
      have hsame := hsaved.trans hdead
      refine ⟨hlogged.same hlost hdead (by rw [TradeWorld.tpEvent, hh]; rfl), ?_⟩
      have hmove : Ledger.Moves δ cfg may (w.ledger cfg) _ :=
        .event _ e _ _ hbefore (.inr rfl) hheld
      convert hmove using 1
      simp only [TradeWorld.ledger, hh, Option.elim_some, hsame.rows, hsame.held, htodo,
        hevents, dueRows_flush, dueEvents_flush]
      rfl

theorem crash (hl : Linked cfg w) (hmay : may.crash) : Moved cfg may w w.crash := by
  have hheld := handlerExit_held w.link
  have hlog := handlerExit_log w.link
  refine ⟨?_, ?_⟩
  · have htp := hl.tp
    cases hpub : w.link.handler <;>
      refine { link := hl.link.handlerExit, tp := ?_, alive := ?_, width := ?_ } <;>
      simp [TradeWorld.crash, Publisher.World.handlerExit, hpub, htp]
  · have hmove : Ledger.Moves δ cfg may (w.ledger cfg) _ := .crash _ hmay
    convert hmove using 1
    simp only [TradeWorld.ledger, TradeWorld.crash, Option.elim_none, hheld,
      Publisher.World.rows, hlog]

/-- A step of the world is a move of its ledger. -/
theorem step (hl : Linked cfg w) (fetch : Fetcher φ δ) (s : TradeStep φ)
    (hgone : w.link.gone = [] ∨ may.gone)
    (hstart : ∀ received, s = .tradeState received →
      if received = true ∧ w.link.linkUp = true then may.resume else may.unseeded)
    (hcrash : s = .crash → may.crash) : Moved cfg may w (w.step cfg fetch s) := by
  cases s with
  | start sessionId fetcher => exact hl.start sessionId fetcher
  | register replyLost =>
      exact hl.relink (hl.link.register cfg.publisher replyLost)
        (register_same hl.link hl.width replyLost)
  | resendRow accepted => exact hl.relink (hl.link.resendRow accepted) (resendRow_unmoved ..).toSameRows
  | connLost => exact hl.relink hl.link.connLost (connLost_unmoved _).toSameRows
  | tpProcess => exact hl.tpProcess hgone
  | tradeState received => exact hl.tradeState received fun _ _ _ => hstart received rfl
  | message sym tradeId eventTimeMs nowNs => exact hl.message sym tradeId eventTimeMs nowNs
  | pump nowMs nowNs => exact hl.pump fetch nowMs nowNs
  | health => exact hl.health
  | workerPop => exact hl.worker workerPop_queue
  | workerPush => exact hl.worker (workerPush_queue fetch)
  | act accepted => exact hl.act accepted
  | sendEvent outcome => exact hl.sendEvent outcome hgone
  | crash => exact hl.crash (hcrash rfl)

end Linked

end TickToSignal.Trade
