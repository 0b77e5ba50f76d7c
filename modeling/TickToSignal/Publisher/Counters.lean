import TickToSignal.Publisher.Held

/-!
# What the two ends count as lost

At a resend the publisher counts the rows that TP lacks and the ring no longer
holds, TP counts the same rows when the next row jumps over them. If the
connection dies before that, the next resend finds them gone once more and the
publisher counts them again.

## Implementation notes

`World.gone` lists what each resend counted, so a row counted twice is in it
twice. The run is one of a single handler session against a single TP process,
whatever that process knew before.
-/

namespace TickToSignal.Publisher

open Foundation

variable {α : Type*}

/-- The steps of a run in which neither TP nor the handler ends. -/
def Step.ofSession : Step α → Bool
  | .tpStart | .tpCrash | .handlerStart _ _ | .handlerExit => false
  | .sessionSave | .register _ | .resendRow _ | .publish _ _ | .eventFailed | .connLost
  | .tpProcess => true

/-- The handler is inside `connect` and has not registered. -/
def TpPublisher.isConnecting (h : TpPublisher α) : Bool :=
  match h.conn with
  | .connecting => true
  | _ => false

/-- A registration whose reply arrives starts a resend. -/
def Resends (w : World α) : Step α → Bool
  | .register false => w.handler.any TpPublisher.isConnecting
  | _ => false

/-- Every resend finds TP past the rows that earlier ones counted. -/
def PastGone (w : World α) (s : Step α) : Prop :=
  Resends w s = true → ∀ h ∈ w.handler, ∀ k ∈ w.gone,
    k.1 = h.sessionId → k.2 ≤ lastLogged w.log h.sessionId

instance PastGone.decidable (w : World α) (s : Step α) : Decidable (PastGone w s) :=
  inferInstanceAs (Decidable (Resends w s = true → ∀ h ∈ w.handler, ∀ k ∈ w.gone,
    k.1 = h.sessionId → k.2 ≤ lastLogged w.log h.sessionId))

/-- The counted rows of a session that TP has not jumped over yet. -/
def World.owed (w : World α) (session : Int) : List (Int × Int) :=
  w.gone.filter fun k => decide (k.1 = session ∧ lastLogged w.log session < k.2)

/-- The publisher has counted what TP has, and the rows TP will count next, each once. -/
structure Counted (w : World α) (h : TpPublisher α) (tp : TpTable) : Prop where
  total : h.rowsUnresendable = tp.missed + (w.owed h.sessionId).length
  once : (w.owed h.sessionId).Nodup

/-- Neither world has logged, missed or counted anything that the other has not. -/
structure SameCounts (w w' : World α) : Prop where
  log : w'.log = w.log
  gone : w'.gone = w.gone
  handler : w'.handler.map (fun h => (h.sessionId, h.width, h.rowsUnresendable)) =
    w.handler.map fun h => (h.sessionId, h.width, h.rowsUnresendable)
  tp : w'.tp.map (·.missed) = w.tp.map (·.missed)

/-- The invariant of the session once TP knows it. -/
structure Counting (cfg : PublisherConfig) (w : World α) : Prop extends Consistent w where
  width : ∀ h ∈ w.handler, h.width = cfg.tp.fhWidth
  counted : ∀ h ∈ w.handler, ∀ tp ∈ w.tp, Counted w h tp

/-- A handler that has not registered yet, and a TP process that knows other sessions. -/
def opening (cfg : PublisherConfig) (id : Int) (width : Nat) (tp : TpTable)
    (file : Option SessionFile) : World α :=
  { handler := some
      { sessionId := id, width := width, ring := ResendRing.ofCapacity cfg.ringSize }
    started := id, tp := some tp, file := file }

/-- TP does not know the session, and has counted nothing. -/
structure Unknown (id : Int) (tp : TpTable) : Prop where
  other : tp.sessionId ≠ some id
  last : ∀ l ∈ tp.last, 0 ≤ l
  missed : tp.missed = 0

/-- The invariant of the session. -/
def InSession (cfg : PublisherConfig) (id : Int) (width : Nat) (w : World α) : Prop :=
  w.handler = none ∨ (∃ tp file, w = opening cfg id width tp file ∧ Unknown id tp) ∨
    Counting cfg w

section
variable {cfg : PublisherConfig} {w w' : World α} {h h' : TpPublisher α} {tp tp' : TpTable}
  {id : Int} {width : Nat}

theorem registerSession_missed (cfg : TpConfig) (tp : TpTable) (sessionId nextSeq : Int)
    (width : Nat) :
    (tp.registerSession cfg sessionId nextSeq width).2.missed = tp.missed := by
  unfold TpTable.registerSession
  split
  · rfl
  · dsimp only
    split
    · rfl
    · split <;> rfl
    · rfl
    · rfl
    · rfl

/-- A registration of a session TP does not know starts it at 0. -/
theorem Unknown.registerSession (hu : Unknown id tp) (cfg : TpConfig) :
    ∃ reply tp', tp.registerSession cfg id 1 cfg.fhWidth = (.ok reply, tp') ∧
      tp'.sessionId = some id ∧ tp'.last = some 0 ∧ tp'.missed = 0 ∧ (reply = 0 ∨ reply = -1) := by
  cases hs : tp.sessionId with
  | some other =>
      have hne : id ≠ other := by
        rintro rfl
        exact hu.other hs
      cases hl : tp.last <;>
        simp [TpTable.registerSession, TpTable.registrationKind, TpTable.registrationReply, hs, hl,
          hne, hu.missed]
  | none =>
      cases hl : tp.last with
      | none =>
          simp [TpTable.registerSession, TpTable.registrationKind, TpTable.registrationReply, hs, hl,
            hu.missed]
      | some l =>
          have hpos := hu.last l hl
          by_cases hlt : 0 < l
          · simp [TpTable.registerSession, TpTable.registrationKind, TpTable.registrationReply, hs,
              hl, hlt, hu.missed]
          · obtain rfl : l = 0 := by omega
            simp [TpTable.registerSession, TpTable.registrationKind, TpTable.registrationReply, hs,
              hl, hu.missed]

/-- Counts depend on the log, the gone rows and the two counters. -/
theorem Counted.congr (hcount : Counted w h tp) (hlog : w'.log = w.log) (hgone : w'.gone = w.gone)
    (hid : h'.sessionId = h.sessionId) (hrows : h'.rowsUnresendable = h.rowsUnresendable)
    (hmissed : tp'.missed = tp.missed) : Counted w' h' tp' := by
  have howed : w'.owed h'.sessionId = w.owed h.sessionId := by
    rw [World.owed, World.owed, hlog, hgone, hid]
  exact ⟨by rw [howed, hrows, hmissed]; exact hcount.total, howed ▸ hcount.once⟩

theorem resend_rowsUnresendable (h : TpPublisher α) (reply : Int) :
    (h.resend reply).2.rowsUnresendable = h.rowsUnresendable + (h.resend reply).1 ∧
      0 ≤ (h.resend reply).1 := by
  unfold TpPublisher.resend
  dsimp only
  split
  · simp
  · refine ⟨rfl, ?_⟩
    unfold ResendRing.missingAfter
    split
    · exact Int.le_refl 0
    · split <;> omega

/-- The rows that a resend finds gone. -/
theorem nodup_found (s reply m : Int) :
    ((List.range m.toNat).map fun (k : Nat) => (s, reply + 1 + (k : Int))).Nodup := by
  refine List.Nodup.map (fun a b hab => ?_) List.nodup_range
  simp only [Prod.mk.injEq, true_and] at hab
  omega

/-- A resend that finds nothing owed counts the gone rows once. -/
theorem Counted.startResend (hcount : Counted w h tp) (hnone : w.owed h.sessionId = [])
    {reply : Int} (hreply : lastLogged w.log h.sessionId ≤ reply ∨ (h.resend reply).1 = 0)
    (hlog : w'.log = w.log)
    (hgone : w'.gone = w.gone ++ (List.range (h.resend reply).1.toNat).map
      fun (k : Nat) => (h.sessionId, reply + 1 + (k : Int)))
    (hmissed : tp'.missed = tp.missed) : Counted w' (h.resend reply).2 tp' := by
  obtain ⟨hrows, hpos⟩ := resend_rowsUnresendable h reply
  have hfound : w'.owed (h.resend reply).2.sessionId =
      (List.range (h.resend reply).1.toNat).map
        fun (k : Nat) => (h.sessionId, reply + 1 + (k : Int)) := by
    rw [(resend_session h reply).1, World.owed, hlog, hgone, List.filter_append]
    rw [World.owed] at hnone
    rw [hnone, List.nil_append, List.filter_eq_self]
    rintro ⟨s, n⟩ hk
    obtain ⟨rfl, hlow, hhigh⟩ := mem_gone_iff.mp hk
    simp only [true_and, decide_eq_true_eq]
    omega
  have htotal := hcount.total
  rw [hnone, List.length_nil] at htotal
  refine ⟨?_, hfound ▸ nodup_found _ _ _⟩
  rw [hfound, hrows, hmissed, htotal, List.length_map, List.length_range]
  omega

/-- What is owed on a live connection is everything between the log and the rows sent on it. -/
theorem Counted.length_owed (hcount : Counted w h tp) {mark : Int} (hflow : Flowing w h mark) :
    (w.owed h.sessionId).length = (mark - lastLogged w.log h.sessionId).toNat := by
  have hperm : (w.owed h.sessionId).Perm
      ((List.range (mark - lastLogged w.log h.sessionId).toNat).map
        fun (k : Nat) => (h.sessionId, lastLogged w.log h.sessionId + 1 + (k : Int))) := by
    refine (List.perm_ext_iff_of_nodup hcount.once (nodup_found _ _ _)).mpr ?_
    rintro ⟨s, n⟩
    rw [mem_gone_iff, World.owed, List.mem_filter, decide_eq_true_eq]
    constructor
    · rintro ⟨hmem, rfl, hlt⟩
      refine ⟨rfl, hlt, ?_⟩
      by_contra hn
      exact hflow.kept n (by omega) hmem
    · rintro ⟨rfl, hlt, hn⟩
      exact ⟨hflow.gone n hlt (by omega), rfl, hlt⟩
  rw [hperm.length_eq, List.length_map, List.length_range]

/-- A row that TP takes was sent after the last resend, and is past what that one counted. -/
theorem owed_tpProcess (hc : Consistent w) (hh : w.handler = some h) (htp : w.tp = some tp)
    {row : Row α} {rest : List (Row α)} (hwire : w.wire = row :: rest) :
    ∃ mark, Flowing w h mark ∧ row.fhSeqNo = mark + 1 ∧ w.tpProcess.owed h.sessionId = [] := by
  have hr := hc.running h hh
  have hlow := (hc.lastLogged_bounds hr).1
  have hlink : w.linkUp = true := by
    by_contra hdown
    simp [hc.down (by simpa using hdown)] at hwire
  obtain ⟨-, -, -, mark, hflow⟩ := hr.linked hlink
  obtain ⟨-, hseq, -⟩ := hflow.head_eq hr hlow hwire
  refine ⟨mark, hflow, hseq, ?_⟩
  have habove := hflow.above
  simp only [World.tpProcess, hh, htp, hwire]
  rw [World.owed, List.filter_eq_nil_iff]
  rintro ⟨s, n⟩ hmem
  rw [decide_eq_true_eq, lastLogged_append, if_pos rfl, hseq]
  rintro ⟨rfl, hlt⟩
  exact hflow.kept n (by omega) hmem

/-- TP takes the next row: it counts what is owed. -/
theorem Counting.tpProcess (hc : Counting cfg w) : Counting cfg w.tpProcess := by
  have hcons := hc.toConsistent.tpProcess
  cases hh : w.handler with
  | none => simpa only [World.tpProcess, hh] using hc
  | some h =>
  cases htp : w.tp with
  | none => simpa only [World.tpProcess, hh, htp] using hc
  | some tp =>
  cases hwire : w.wire with
  | nil => simpa only [World.tpProcess, hh, htp, hwire] using hc
  | cons row rest =>
      obtain ⟨mark, hflow, hseq, hnone⟩ := owed_tpProcess hc.toConsistent hh htp hwire
      have hr := hc.running h hh
      have habove := hflow.above
      have hmissed : (tp.checkSeq row.fhSeqNo).missed =
          tp.missed + (row.fhSeqNo - lastLogged w.log h.sessionId - 1) := by
        have hlink : w.linkUp = true := by
          by_contra hdown
          simp [hc.down (by simpa using hdown)] at hwire
        exact (TpTable.checkSeq_above (hr.tpLast (hr.linked hlink).1 tp htp) (by omega)).2
      have hcount := hc.counted h hh tp htp
      have htotal := hcount.total
      rw [hcount.length_owed hflow] at htotal
      simp only [World.tpProcess, hh, htp, hwire] at hcons hnone ⊢
      refine ⟨hcons, ?_, ?_⟩
      · rintro _ ⟨⟩
        exact hc.width h hh
      · rintro _ ⟨⟩ _ ⟨⟩
        refine ⟨?_, by rw [hnone]; exact List.nodup_nil⟩
        rw [hnone, hmissed, List.length_nil]
        omega

/-! ## The other steps -/

theorem exists_of_map_eq {β γ : Type*} {f : β → γ} {o o' : Option β} (h : o'.map f = o.map f)
    {b' : β} (hb : b' ∈ o') : ∃ b ∈ o, f b' = f b := by
  obtain rfl : o' = some b' := hb
  cases o with
  | none => simp at h
  | some b => exact ⟨b, rfl, Option.some.inj h⟩

theorem SameCounts.refl (w : World α) : SameCounts w w := ⟨rfl, rfl, rfl, rfl⟩

theorem Unmoved.sameCounts (h : Unmoved w w') : SameCounts w w' :=
  ⟨h.log, h.gone, h.counts, congrArg _ h.table⟩

theorem publish_counts (w : World α) (data : α) (accepted : Bool) :
    SameCounts w (w.publish data accepted) := by
  cases hh : w.handler with
  | none =>
      simp only [World.publish, hh]
      exact .refl w
  | some h =>
      cases hconn : h.conn <;> simp only [World.publish, hh, hconn]
      case connected => split_ifs <;> exact ⟨rfl, rfl, by simp [hh], rfl⟩
      case lost => exact ⟨rfl, rfl, by simp [hh], rfl⟩
      all_goals exact .refl w

theorem eq_register_of_resends {s : Step α} (hres : Resends w s = true) : s = .register false := by
  cases s with
  | register replyLost =>
      cases replyLost with
      | false => rfl
      | true => simp [Resends] at hres
  | tpStart | tpCrash | sessionSave | handlerStart | handlerExit | resendRow | publish
  | eventFailed | connLost | tpProcess => simp [Resends] at hres

/-- A registration that starts no resend. -/
theorem register_counts (cfg : PublisherConfig) {replyLost : Bool}
    (hno : Resends w (.register replyLost) = false) : SameCounts w (w.register cfg replyLost) := by
  cases hh : w.handler with
  | none =>
      simp only [World.register, hh]
      exact .refl w
  | some h =>
  cases htp : w.tp with
  | none =>
      simp only [World.register, hh, htp]
      exact .refl w
  | some tp =>
  cases hconn : h.conn <;> simp only [World.register, hh, htp, hconn]
  case connecting =>
    cases replyLost with
    | false => simp [Resends, hh, TpPublisher.isConnecting, hconn] at hno
    | true =>
        have hmissed := registerSession_missed cfg.tp tp h.sessionId (h.fhSeqNo + 1) h.width
        rcases heq : tp.registerSession cfg.tp h.sessionId (h.fhSeqNo + 1) h.width with
          ⟨_ | reply, tp'⟩
        all_goals
          rw [heq] at hmissed
          exact ⟨rfl, rfl, by simp [hh], by simpa [htp] using hmissed⟩
  all_goals exact .refl w

theorem step_counts (cfg : PublisherConfig) {s : Step α} (hs : s.ofSession = true)
    (hno : Resends w s = false) (hproc : s ≠ .tpProcess) : SameCounts w (w.step cfg s) := by
  cases s with
  | tpStart | tpCrash | handlerStart | handlerExit => simp [Step.ofSession] at hs
  | tpProcess => exact absurd rfl hproc
  | register replyLost => exact register_counts cfg hno
  | sessionSave => exact (sessionSave_unmoved w).sameCounts
  | resendRow accepted => exact (resendRow_unmoved w accepted).sameCounts
  | publish data accepted => exact publish_counts w data accepted
  | eventFailed => exact (eventFailed_unmoved w).sameCounts
  | connLost => exact (connLost_unmoved w).sameCounts

theorem Counting.quiet (hc : Counting cfg w) (hcons : Consistent w') (hsame : SameCounts w w') :
    Counting cfg w' := by
  refine ⟨hcons, ?_, ?_⟩
  · intro h' hh'
    obtain ⟨h, hh, heq⟩ := exists_of_map_eq hsame.handler hh'
    simp only [Prod.mk.injEq] at heq
    rw [heq.2.1]
    exact hc.width h hh
  · intro h' hh' tp' htp'
    obtain ⟨h, hh, heq⟩ := exists_of_map_eq hsame.handler hh'
    obtain ⟨tp, htp, hmissed⟩ := exists_of_map_eq hsame.tp htp'
    simp only [Prod.mk.injEq] at heq
    exact (hc.counted h hh tp htp).congr hsame.log hsame.gone heq.1 heq.2.2 hmissed

/-- A resend counts what no earlier one did. -/
theorem Counting.resend (hc : Counting cfg w) (hres : Resends w (.register false) = true)
    (hpast : PastGone w (.register false)) : Counting cfg (w.register cfg false) := by
  cases hh : w.handler with
  | none => simpa only [World.register, hh] using hc
  | some h =>
  cases htp : w.tp with
  | none => simpa only [World.register, hh, htp] using hc
  | some tp =>
  cases hconn : h.conn with
  | resending rest sent => simpa only [World.register, hh, htp, hconn] using hc
  | connected => simpa only [World.register, hh, htp, hconn] using hc
  | lost => simpa only [World.register, hh, htp, hconn] using hc
  | connecting =>
      have hcons := hc.toConsistent.register cfg false
      obtain ⟨reply, tp', heq, -, -, hreply⟩ :=
        hc.registerSession cfg hh htp (hc.width h hh)
      have hmissed : tp'.missed = tp.missed := by
        have hsame := registerSession_missed cfg.tp tp h.sessionId (h.fhSeqNo + 1) h.width
        rwa [heq] at hsame
      simp only [World.register, hh, htp, hconn, heq, Bool.false_eq_true, if_false] at hcons ⊢
      refine ⟨hcons, ?_, ?_⟩
      · rintro _ ⟨⟩
        rw [(resend_session h reply).2]
        exact hc.width h hh
      · rintro _ ⟨⟩ _ ⟨⟩
        have hnone : w.owed h.sessionId = [] := by
          rw [World.owed, List.filter_eq_nil_iff]
          intro k hk
          rw [decide_eq_true_eq]
          rintro ⟨hs, hlt⟩
          have hle := hpast hres h hh k hk hs
          omega
        refine (hc.counted h hh tp htp).startResend hnone ?_ rfl rfl hmissed
        obtain rfl | ⟨rfl, -⟩ := hreply
        · exact Or.inl (Int.le_refl _)
        · exact Or.inr (by simp [TpPublisher.resend])

theorem Counting.step (hc : Counting cfg w) (s : Step α) (hs : s.ofSession = true)
    (hpast : PastGone w s) : Counting cfg (w.step cfg s) := by
  by_cases hproc : s = .tpProcess
  · subst hproc
    exact hc.tpProcess
  cases hres : Resends w s with
  | true =>
      obtain rfl := eq_register_of_resends hres
      exact hc.resend hres hpast
  | false =>
      refine hc.quiet (hc.toConsistent.step cfg s ?_) (step_counts cfg hs hres hproc)
      cases s with
      | tpStart => simp [Step.ofSession] at hs
      | tpCrash | sessionSave | handlerStart | handlerExit | register | resendRow | publish
      | eventFailed | connLost | tpProcess => trivial

/-- TP has taken the session up, and neither side has counted anything. -/
theorem Counting.adopted (hu : Unknown id tp) (hpos : 0 < id) (file : Option SessionFile)
    {reply : Int} (heq : tp.registerSession cfg.tp id 1 cfg.tp.fhWidth = (.ok reply, tp')) :
    Counting cfg { (opening cfg id cfg.tp.fhWidth tp file : World α) with
      tp := some tp', file := some tp'.sessionSave } := by
  obtain ⟨_, _, heq', hid, hlast, hmissed, -⟩ := hu.registerSession cfg.tp
  obtain ⟨-, rfl⟩ := Prod.mk.inj (heq.symm.trans heq')
  -- before the registration the world is that of a TP that never had a session
  have hbase : Consistent (opening cfg id cfg.tp.fhWidth {} none : World α) := by
    have hstart := (consistent_init : Consistent ({} : World α)).tpStart (fun _ e he => by simp at he)
    have hopen := hstart.handlerStart cfg id cfg.tp.fhWidth
    simpa [World.tpStart, World.handlerStart, opening, hpos, TpTable.sessionLoad,
      TpTable.recoverFhSeq] using hopen
  refine ⟨hbase.adopt rfl (by simp [World.fileId, opening]) hid hlast, ?_, ?_⟩
  · rintro _ ⟨⟩
    rfl
  · rintro _ ⟨⟩ _ ⟨⟩
    exact ⟨by simp [World.owed, opening, hmissed], List.nodup_nil⟩

/-- Before the first registration nothing else happens. -/
theorem opening_step {file : Option SessionFile} (hu : Unknown id tp) (hpos : 0 < id)
    (s : Step α) (hs : s.ofSession = true) :
    InSession cfg id width ((opening cfg id width tp file : World α).step cfg s) := by
  cases s with
  | tpStart | tpCrash | handlerStart | handlerExit => simp [Step.ofSession] at hs
  | connLost | eventFailed | tpProcess | resendRow | publish =>
      exact Or.inr (Or.inl ⟨tp, file, rfl, hu⟩)
  | sessionSave => exact Or.inr (Or.inl ⟨tp, some tp.sessionSave, rfl, hu⟩)
  | register replyLost =>
      by_cases hwidth : width = cfg.tp.fhWidth
      · subst hwidth
        obtain ⟨reply, tp', heq, hid, -, hmissed, hreply⟩ := hu.registerSession cfg.tp
        have hset : Counting cfg { (opening cfg id cfg.tp.fhWidth tp file : World α) with
            tp := some tp', file := some tp'.sessionSave } := Counting.adopted hu hpos file heq
        cases replyLost with
        | true =>
            refine Or.inr (Or.inr ?_)
            simpa only [World.step, World.register, opening, Int.zero_add, heq, if_true] using hset
        | false =>
            refine Or.inr (Or.inr ?_)
            have hreply' : reply = 0 ∨ reply = -1 ∧ (0 : Int) = 0 :=
              hreply.imp_right fun hneg => ⟨hneg, rfl⟩
            have hresent := hset.startResend rfl hid rfl hreply'
            simp only [World.step, World.register, opening, Int.zero_add, heq, Bool.false_eq_true,
              if_false]
            refine ⟨hresent, ?_, ?_⟩
            · rintro _ ⟨⟩
              exact (resend_session _ reply).2
            · rintro _ ⟨⟩ _ ⟨⟩
              refine (hset.counted _ rfl _ rfl).startResend rfl (Or.inr ?_) rfl rfl rfl
              simp [TpPublisher.resend, ResendRing.ofCapacity]
      · have hrejected : tp.registerSession cfg.tp id 1 width =
            (.error _, { tp with rejectedRegistrations := tp.rejectedRegistrations + 1 }) :=
          if_pos hwidth
        simp only [World.step, World.register, opening, Int.zero_add, hrejected]
        cases replyLost with
        | true => exact Or.inr (Or.inl ⟨_, file, rfl, { hu with }⟩)
        | false => exact Or.inl rfl

/-- One step of the session. -/
theorem InSession.step (hin : InSession cfg id width w) (hpos : 0 < id) (s : Step α)
    (hs : s.ofSession = true) (hpast : PastGone w s) : InSession cfg id width (w.step cfg s) := by
  obtain hnone | ⟨tp, file, rfl, hu⟩ | hc := hin
  · refine Or.inl ?_
    cases s with
    | tpStart | tpCrash | handlerStart | handlerExit => simp [Step.ofSession] at hs
    | sessionSave => cases htp : w.tp <;> simp [World.step, World.sessionSave, htp, hnone]
    | register replyLost => simp only [World.step, World.register, hnone]
    | resendRow accepted => simp only [World.step, World.resendRow, hnone]
    | publish data accepted => simp only [World.step, World.publish, hnone]
    | eventFailed => simp only [World.step, World.eventFailed, hnone]
    | connLost => exact hnone
    | tpProcess => simp only [World.step, World.tpProcess, hnone]
  · exact opening_step hu hpos s hs
  · exact Or.inr (Or.inr (hc.step s hs hpast))

/-- Whatever TP has logged since there were `n` rows, it has counted all that is gone. -/
def CaughtUp (n : Nat) (w : World α) : Prop :=
  n < w.log.length → ∀ h ∈ w.handler, w.owed h.sessionId = []

theorem CaughtUp.quiet {n : Nat} (hup : CaughtUp n w) (hsame : SameCounts w w') :
    CaughtUp n w' := by
  intro hlt h' hh'
  obtain ⟨h, hh, heq⟩ := exists_of_map_eq hsame.handler hh'
  simp only [Prod.mk.injEq] at heq
  have hnone := hup (hsame.log ▸ hlt) h hh
  rwa [World.owed, hsame.log, hsame.gone, heq.1]

theorem CaughtUp.step {n : Nat} (hup : CaughtUp n w) (hin : InSession cfg id width w) (s : Step α)
    (hs : s.ofSession = true) (hno : Resends w s = false) : CaughtUp n (w.step cfg s) := by
  by_cases hproc : s = .tpProcess
  · subst hproc
    simp only [World.step]
    cases hh : w.handler with
    | none => simpa only [World.tpProcess, hh] using hup
    | some h =>
    cases htp : w.tp with
    | none => simpa only [World.tpProcess, hh, htp] using hup
    | some tp =>
    cases hwire : w.wire with
    | nil => simpa only [World.tpProcess, hh, htp, hwire] using hup
    | cons row rest =>
        obtain hnone | ⟨_, _, rfl, -⟩ | hc := hin
        · simp [hnone] at hh
        · simp [opening] at hwire
        · obtain ⟨-, -, -, hnone⟩ := owed_tpProcess hc.toConsistent hh htp hwire
          rintro - h' hh'
          obtain rfl : h = h' := by simpa [World.tpProcess, hh, htp, hwire] using hh'
          exact hnone
  · exact hup.quiet (step_counts cfg hs hno hproc)

end

end TickToSignal.Publisher
