import TickToSignal.Publisher.Delivery

/-!
# A publisher as a queue

Seen from the rows alone, connections and resends do nothing: a row is held from
its publication until it is in the log, and rows enter the log in the order they
were published. A row that a resend finds gone is skipped.
-/

namespace TickToSignal.Publisher

variable {α : Type*} {w w' : World α} {h : TpPublisher α}

/-- The rows in the log. -/
def World.rows (w : World α) : List α := w.log.map (·.2.data)

/-- The rows of the running session after the last one in the log. -/
def TpPublisher.heldBack (h : TpPublisher α) (w : World α) : List (Row α) :=
  (w.rowsOf h.sessionId).filter fun r => decide (lastLogged w.log h.sessionId < r.fhSeqNo)

/-- What the running handler has published and TP has not logged. -/
def World.held (w : World α) : List α :=
  match w.handler with
  | none => []
  | some h => (h.heldBack w).map (·.data)

theorem World.goneRows_eq_nil (hgone : w.gone = []) : w.goneRows = [] := by
  simp [goneRows, hgone]

theorem World.mem_goneRows {id : Int} {r : Row α} (hr : r ∈ w.rowsOf id)
    (hgone : (id, r.fhSeqNo) ∈ w.gone) : r.data ∈ w.goneRows := by
  obtain ⟨e, he, rfl⟩ := List.mem_map.mp hr
  obtain ⟨hpub, hid⟩ := List.mem_filter.mp he
  obtain rfl := of_decide_eq_true hid
  exact List.mem_map.mpr ⟨e, List.mem_filter.mpr ⟨hpub, decide_eq_true hgone⟩, rfl⟩

/-- The records of the two worlds agree, and so do their running sessions. -/
structure SameRows (w w' : World α) : Prop where
  log : w'.log = w.log
  published : w'.published = w.published
  session : w'.handler.map (fun h => (h.sessionId, h.width)) =
    w.handler.map fun h => (h.sessionId, h.width)
  tp : w'.tp.isSome = w.tp.isSome
  started : w'.started = w.started

namespace SameRows

theorem refl (w : World α) : SameRows w w := ⟨rfl, rfl, rfl, rfl, rfl⟩

theorem trans {w'' : World α} (h : SameRows w w') (h' : SameRows w' w'') : SameRows w w'' :=
  { log := h'.log.trans h.log, published := h'.published.trans h.published
    session := h'.session.trans h.session, tp := h'.tp.trans h.tp
    started := h'.started.trans h.started }

theorem rows (h : SameRows w w') : w'.rows = w.rows := by
  simp only [World.rows, h.log]

theorem held (h : SameRows w w') : w'.held = w.held := by
  have hsession := h.session
  cases hw : w.handler <;> cases hw' : w'.handler <;> simp only [hw, hw'] at hsession
  · simp only [World.held, hw, hw']
  · simp at hsession
  · simp at hsession
  · simp only [Option.map_some, Option.some.injEq, Prod.mk.injEq] at hsession
    simp only [World.held, hw, hw', TpPublisher.heldBack, World.rowsOf, h.log, h.published,
      hsession.1]

end SameRows

/-- A step that moves no row: it may change the connection and the file. -/
structure Unmoved (w w' : World α) : Prop extends SameRows w w' where
  gone : w'.gone = w.gone
  counts : w'.handler.map (fun h => (h.sessionId, h.width, h.rowsUnresendable)) =
    w.handler.map fun h => (h.sessionId, h.width, h.rowsUnresendable)
  table : w'.tp = w.tp

theorem Unmoved.refl (w : World α) : Unmoved w w := ⟨.refl w, rfl, rfl, rfl⟩

theorem connLost_unmoved (w : World α) : Unmoved w w.connLost :=
  ⟨⟨rfl, rfl, rfl, rfl, rfl⟩, rfl, rfl, rfl⟩

theorem sessionSave_unmoved (w : World α) : Unmoved w w.sessionSave := by
  simp only [World.sessionSave]
  split
  · exact .refl w
  · exact ⟨⟨rfl, rfl, rfl, rfl, rfl⟩, rfl, rfl, rfl⟩

theorem eventFailed_unmoved (w : World α) : Unmoved w w.eventFailed := by
  cases hw : w.handler with
  | none =>
      simp only [World.eventFailed, hw]
      exact .refl w
  | some h =>
      cases hconn : h.conn <;> simp only [World.eventFailed, hw, hconn]
      case connected =>
        split_ifs
        · exact .refl w
        · exact ⟨⟨rfl, rfl, by simp [hw], rfl, rfl⟩, rfl, by simp [hw], rfl⟩
      all_goals exact .refl w

theorem resendRow_unmoved (w : World α) (accepted : Bool) :
    Unmoved w (w.resendRow accepted) := by
  cases hw : w.handler with
  | none =>
      simp only [World.resendRow, hw]
      exact .refl w
  | some h =>
      simp only [World.resendRow, hw]
      split
      · next row rest sent hconn =>
          split_ifs <;> exact ⟨⟨rfl, rfl, by simp [hw], rfl, rfl⟩, rfl, by simp [hw], rfl⟩
      · exact .refl w

theorem resend_session (h : TpPublisher α) (reply : Int) :
    (h.resend reply).2.sessionId = h.sessionId ∧ (h.resend reply).2.width = h.width := by
  simp only [TpPublisher.resend]
  split_ifs <;> exact ⟨rfl, rfl⟩

/-- A handler with the right width is not rejected. -/
theorem register_same {cfg : PublisherConfig} (hc : Consistent w)
    (hwidth : ∀ h ∈ w.handler, h.width = cfg.tp.fhWidth) (replyLost : Bool) :
    SameRows w (w.register cfg replyLost) := by
  cases hw : w.handler with
  | none =>
      simp only [World.register, hw]
      exact .refl w
  | some h =>
  cases htp : w.tp with
  | none =>
      simp only [World.register, hw, htp]
      exact .refl w
  | some tp =>
  cases hconn : h.conn <;> simp only [World.register, hw, htp, hconn]
  case connecting =>
    obtain ⟨reply, tp', heq, -, -, -⟩ := hc.registerSession cfg hw htp (hwidth h hw)
    obtain ⟨hid, hw'⟩ := resend_session h reply
    simp only [heq]
    split_ifs
    · exact ⟨rfl, rfl, by simp [hw], by simp [htp], rfl⟩
    · exact ⟨rfl, rfl, by simp [hw, hid, hw'], by simp [htp], rfl⟩
  all_goals exact .refl w

/-! ## The steps that move rows -/

theorem handlerStart_held {cfg : PublisherConfig} (hc : Consistent w) {id : Int} {width : Nat}
    (hnone : w.handler = none) (hnew : w.started < id) :
    (w.handlerStart cfg id width).held = [] := by
  have hstarted := hc.handlerStart cfg id width
  simp only [World.handlerStart, hnone, Option.isNone_none, true_and, if_pos hnew] at hstarted ⊢
  have hcount := (hstarted.running _ rfl).count
  have hrows := List.length_eq_zero_iff.mp (Int.ofNat_eq_zero.mp hcount)
  simp only [World.held, TpPublisher.heldBack, List.map_eq_nil_iff]
  simp only at hrows
  rw [hrows, List.filter_nil]

theorem handlerExit_held (w : World α) : w.handlerExit.held = [] := by
  cases hw : w.handler <;> simp only [World.handlerExit, World.held, hw]

theorem handlerExit_log (w : World α) : w.handlerExit.log = w.log := by
  cases hw : w.handler <;> simp only [World.handlerExit, hw]

theorem publish_keeps (w : World α) (data : α) (accepted : Bool) :
    (w.publish data accepted).log = w.log ∧
      (w.publish data accepted).handler.map (fun h => (h.sessionId, h.width)) =
        w.handler.map (fun h => (h.sessionId, h.width)) ∧
      (w.publish data accepted).tp = w.tp := by
  cases hw : w.handler with
  | none => simp only [World.publish, hw, true_and]
  | some h =>
      cases hconn : h.conn <;> simp only [World.publish, hw, hconn]
      case connected => split_ifs <;> exact ⟨rfl, rfl, rfl⟩
      all_goals simp only [Option.map_some, and_self]

/-- A publish appends to what is held. -/
theorem publish_held (hc : Consistent w) (hh : w.handler = some h)
    (hfree : h.conn = .connected ∨ h.conn = .lost) (data : α) (accepted : Bool) :
    (w.publish data accepted).held = w.held ++ [data] := by
  have hhigh := (hc.lastLogged_bounds (hc.running h hh)).2
  set row : Row α := { fhSeqNo := h.fhSeqNo + 1, data := data }
  have hnew : ∀ w' : World α, w'.log = w.log →
      w'.published = w.published ++ [(h.sessionId, row)] →
      (∃ h', w'.handler = some h' ∧ h'.sessionId = h.sessionId) → w'.held = w.held ++ [data] := by
    rintro w' hlog hpub ⟨h', hh', hid⟩
    have hrows : w'.rowsOf h.sessionId = w.rowsOf h.sessionId ++ [row] := by
      simp [World.rowsOf, hpub, List.filter_append]
    have hlast : lastLogged w.log h.sessionId < row.fhSeqNo := by
      simp only [row]
      omega
    simp [World.held, hh, hh', TpPublisher.heldBack, hid, hlog, hrows, List.filter_append, hlast,
      row]
  obtain hconn | hconn := hfree
  · simp only [World.publish, hh, hconn]
    split_ifs <;> exact hnew _ rfl rfl ⟨_, rfl, rfl⟩
  · simp only [World.publish, hh, hconn]
    exact hnew _ rfl rfl ⟨_, rfl, rfl⟩

/-- TP takes the next row, after some that are gone. -/
theorem tpProcess_held (hc : Consistent w) (hh : w.handler = some h) (htp : w.tp.isSome)
    {row : Row α} {rest : List (Row α)} (hwire : w.wire = row :: rest) :
    ∃ skipped left, w.held = skipped ++ row.data :: left ∧ w.tpProcess.held = left ∧
      w.tpProcess.rows = w.rows ++ [row.data] ∧ ∀ r ∈ skipped, r ∈ w.goneRows := by
  obtain ⟨tp, htp⟩ := Option.isSome_iff_exists.mp htp
  have hr := hc.running h hh
  have hlow := (hc.lastLogged_bounds hr).1
  have hlink : w.linkUp = true := by
    by_contra hdown
    simp [hc.down (by simpa using hdown)] at hwire
  obtain ⟨-, -, -, mark, hflow⟩ := hr.linked hlink
  obtain ⟨hrow, hseq, -⟩ := hflow.head_eq hr hlow hwire
  have habove := hflow.above
  obtain ⟨before, after, hsplit⟩ := List.append_of_mem hrow
  have hsorted := hr.numbered.pairwise
  rw [hsplit, List.pairwise_append, List.pairwise_cons] at hsorted
  obtain ⟨-, ⟨hafter, -⟩, hbefore⟩ := hsorted
  have hall : ∀ n, n ≤ row.fhSeqNo → after.filter (fun r => decide (n < r.fhSeqNo)) = after := by
    intro n hn
    rw [List.filter_eq_self]
    intro r hmem
    have hlt := hafter r hmem
    rw [decide_eq_true_eq]
    omega
  refine ⟨(before.filter fun r => decide (lastLogged w.log h.sessionId < r.fhSeqNo)).map (·.data),
    after.map (·.data), ?_, ?_, ?_, ?_⟩
  · have hlast : lastLogged w.log h.sessionId < row.fhSeqNo := by omega
    simp [World.held, hh, TpPublisher.heldBack, hsplit, List.filter_append, hlast,
      hall _ (Int.le_of_lt hlast)]
  · have hnone : before.filter (fun r => decide (row.fhSeqNo < r.fhSeqNo)) = [] := by
      rw [List.filter_eq_nil_iff]
      intro r hmem
      have hlt := hbefore r hmem row List.mem_cons_self
      rw [decide_eq_true_eq]
      omega
    have hrows : w.tpProcess.rowsOf h.sessionId = before ++ row :: after := by
      rw [← hsplit]
      simp only [World.tpProcess, hh, htp, hwire, World.rowsOf]
    have hheld : w.tpProcess.held = (h.heldBack w.tpProcess).map (·.data) := by
      simp only [World.held, World.tpProcess, hh, htp, hwire]
    have hlast : lastLogged w.tpProcess.log h.sessionId = row.fhSeqNo := by
      simp [World.tpProcess, hh, htp, hwire, lastLogged_append]
    rw [hheld, TpPublisher.heldBack, hrows, hlast, List.filter_append, hnone, List.filter_cons,
      if_neg (by simp), hall _ (Int.le_refl _), List.nil_append]
  · simp [World.rows, World.tpProcess, hh, htp, hwire]
  · intro data hdata
    obtain ⟨r, hmem, rfl⟩ := List.mem_map.mp hdata
    obtain ⟨hmem, hlogged⟩ := List.mem_filter.mp hmem
    have hlt := hbefore r hmem row List.mem_cons_self
    have hgone := hflow.gone r.fhSeqNo (of_decide_eq_true hlogged) (by omega)
    exact World.mem_goneRows (hsplit ▸ List.mem_append_left _ hmem) hgone

/-- With nothing in flight on a live connection, all that is held is gone from the ring. -/
theorem held_gone (hc : Consistent w) (hh : w.handler = some h) (hconn : h.conn = .connected)
    (hlink : w.linkUp = true) (hwire : w.wire = []) : ∀ r ∈ w.held, r ∈ w.goneRows := by
  have hr := hc.running h hh
  obtain ⟨-, -, -, mark, hflow⟩ := hr.linked hlink
  have hnone := hflow.flow
  simp only [hwire, hconn, Conn.unsent, List.append_nil] at hnone
  intro data hdata
  simp only [World.held, hh, TpPublisher.heldBack] at hdata
  obtain ⟨r, hmem, rfl⟩ := List.mem_map.mp hdata
  obtain ⟨hmem, hlogged⟩ := List.mem_filter.mp hmem
  have hmark : ¬ mark < r.fhSeqNo := by
    intro hlt
    have hin : r ∈ (w.rowsOf h.sessionId).filter fun r => decide (mark < r.fhSeqNo) :=
      List.mem_filter.mpr ⟨hmem, decide_eq_true hlt⟩
    rw [← hnone] at hin
    cases hin
  have hgone := hflow.gone r.fhSeqNo (of_decide_eq_true hlogged) (by omega)
  exact World.mem_goneRows hmem hgone

theorem held_eq_nil (hc : Consistent w) (hh : w.handler = some h) (hconn : h.conn = .connected)
    (hlink : w.linkUp = true) (hwire : w.wire = []) (hgone : w.gone = []) : w.held = [] := by
  have hall := held_gone hc hh hconn hlink hwire
  rw [World.goneRows_eq_nil hgone] at hall
  exact List.eq_nil_iff_forall_not_mem.mpr fun r hr => List.not_mem_nil (hall r hr)

end TickToSignal.Publisher
