import TickToSignal.OrderBook.UpdateIdOrder
import TickToSignal.Quote.RequestProtocol
import TickToSignal.Quote.SnapshotPauses

/-!
# What one event does to the requests of one symbol

Next to what `Kept` and `Asked` say about ids and queues, this is about the
backoff and about the one book state in which a snapshot is on trial,
`SYNCING`. An event of another symbol changes nothing (`Calm`); an event of the
symbol itself changes the backoff only when its book was `SYNCING`.
-/

namespace TickToSignal.OrderBook.SymbolBook

variable {K : Type*}

section
variable [LinearOrder K] [Zero K] {cfg : BookConfig} {s : SymbolBook K}

/-- The book goes on as it was or is found broken; it does not fall back to `SYNCING`. -/
theorem applyDelta_syncing {d : BufferedDelta K} (h : (s.applyDelta cfg d).2.state = .SYNCING) :
    s.state = .SYNCING ∧ (s.applyDelta cfg d).1 = true := by
  obtain ⟨hs, -, hout⟩ | ⟨-, seq, ⟨-, hout⟩ | ⟨-, hout⟩ | ⟨-, hout⟩⟩ := s.applyDelta_cases cfg d
  · rw [hout] at h
    exact absurd h hs
  · simp [hout] at h
  · rw [hout, passOn_state] at h
    exact ⟨h, by rw [hout]⟩
  · simp [hout, passOn_state, applyEvent] at h

/-- A replay that fails leaves a book that is not syncing any more. -/
theorem replay_failed {ds : List (BufferedDelta K)} (h : (s.replay cfg ds).1 = true) :
    (s.replay cfg ds).2.state ≠ .SYNCING := by
  induction ds generalizing s with
  | nil => simp [replay] at h
  | cons d ds ih =>
      have hd : (s.applyDelta cfg d).2.state = .SYNCING → (s.applyDelta cfg d).1 = true :=
        fun hsync => (applyDelta_syncing hsync).2
      simp only [replay] at h ⊢
      split
      · rename_i s' heq
        intro hsync
        rw [heq] at hd
        exact Bool.false_ne_true (hd hsync)
      · rename_i s' heq
        rw [heq] at h
        exact ih h

/-- A snapshot that fails to bridge leaves no book waiting for its bridge. -/
theorem onSnapshot_failed {id : Int} {bids asks : List (PriceLevel K)}
    (h : (s.onSnapshot cfg id bids asks).1 = .SYNC_FAILED ∨
      (s.onSnapshot cfg id bids asks).1 = .REFRESH_FAILED) :
    (s.onSnapshot cfg id bids asks).2.state ≠ .SYNCING := by
  simp only [onSnapshot] at h ⊢
  split_ifs at h ⊢ with hrefresh hinit hfail hvalid
  · have hstate : (finishRefresh cfg { s with snapshotRequested := false } id bids asks).2.state
        = s.state := by
      simp only [finishRefresh]
      split
      · rfl
      · split_ifs <;> rfl
    rw [hstate, hrefresh.1]
    decide
  · simp at h
  · exact replay_failed hfail
  · simp at h
  · simp at h

end

end TickToSignal.OrderBook.SymbolBook

namespace TickToSignal.Quote

open OrderBook Foundation

variable {n : Nat} {K : Type*} [LinearOrder K] [Zero K]

/-- The symbol waits for nothing that it did not wait for, and not less long. -/
structure Calm (i : Fin n) (h h' : QuoteFeedHandler n K) : Prop where
  latest : h'.latestRequestId i = h.latestRequestId i
  requestedAt : h'.snapshotRequestedAtMs i = h.snapshotRequestedAtMs i
  nextAllowed : h'.snapshotScheduler.nextAllowedMs i = h.snapshotScheduler.nextAllowedMs i
  syncing : (h'.books i).state = .SYNCING → (h.books i).state = .SYNCING

section
variable {h h₁ h₂ : QuoteFeedHandler n K} {i j : Fin n} {nowMs recv : Int}

omit [LinearOrder K] [Zero K]

theorem Calm.refl (i : Fin n) (h : QuoteFeedHandler n K) : Calm i h h := ⟨rfl, rfl, rfl, id⟩

theorem Calm.trans (h01 : Calm i h h₁) (h12 : Calm i h₁ h₂) : Calm i h h₂ where
  latest := h12.latest.trans h01.latest
  requestedAt := h12.requestedAt.trans h01.requestedAt
  nextAllowed := h12.nextAllowed.trans h01.nextAllowed
  syncing := fun hs => h01.syncing (h12.syncing hs)

theorem Calm.foldl {α : Type*} {f : QuoteFeedHandler n K → α → QuoteFeedHandler n K}
    (hf : ∀ h a, Calm i h (f h a)) (h : QuoteFeedHandler n K) (l : List α) :
    Calm i h (l.foldl f h) := by
  induction l generalizing h with
  | nil => exact .refl i h
  | cons a l ih => exact (hf h a).trans (ih (f h a))

theorem Calm.setBook (hij : i ≠ j) (h : QuoteFeedHandler n K) (s : SymbolBook K) :
    Calm i h (h.setBook j s) :=
  ⟨rfl, rfl, rfl, by simp [QuoteFeedHandler.setBook, Function.update_of_ne hij]⟩

theorem Calm.publishQuote (h : QuoteFeedHandler n K) (q : BookQuote K) :
    Calm i h (h.publishQuote j q nowMs) := by
  refine ⟨rfl, rfl, rfl, fun hs => ?_⟩
  by_cases hij : i = j
  · subst hij
    simpa [QuoteFeedHandler.publishQuote, SymbolBook.recordPublish] using hs
  · simpa [QuoteFeedHandler.publishQuote, Function.update_of_ne hij] using hs

end

section
variable {h : QuoteFeedHandler n K} {i j : Fin n} {nowMs recv : Int} {cfg : HandlerConfig n}
  {d : BufferedDelta K}

theorem Calm.maybePublish (h : QuoteFeedHandler n K) :
    Calm i h (h.maybePublish cfg j recv nowMs) := by
  simp only [QuoteFeedHandler.maybePublish]
  split_ifs
  · exact .publishQuote h _
  · exact .refl i h

omit [LinearOrder K] in
theorem Calm.checkPublishTimeouts (h : QuoteFeedHandler n K) :
    Calm i h (h.checkPublishTimeouts cfg recv nowMs) := by
  apply Calm.foldl
  intro h j
  simp only [QuoteFeedHandler.heartbeat]
  split_ifs
  · exact .refl i h
  · exact .publishQuote h _

omit [LinearOrder K] [Zero K] in
/-- Asking the scheduler moves the backoff of no symbol, and a yes respects that of its own. -/
theorem tryAcquire_nextAllowed (c : SnapshotSchedulerConfig) (s : SnapshotScheduler n) (j : Fin n)
    (nowMs : Int) :
    (s.tryAcquire c j nowMs).2.nextAllowedMs = s.nextAllowedMs ∧
      ((s.tryAcquire c j nowMs).1 = true → s.nextAllowedMs j ≤ nowMs) := by
  constructor
  · simp only [SnapshotScheduler.tryAcquire]
    split_ifs <;> exact SnapshotScheduler.refill_nextAllowedMs c s nowMs
  · intro hgranted
    by_contra hearly
    have hrefused : (s.tryAcquire c j nowMs).1 = false :=
      SnapshotScheduler.tryAcquire_refused_of_backoff (not_le.mp hearly)
    rw [hgranted] at hrefused
    exact Bool.noConfusion hrefused

omit [LinearOrder K] [Zero K] in
theorem Calm.acquireAndRequest (hij : i ≠ j) (h : QuoteFeedHandler n K)
    (start : SymbolBook K → SymbolBook K) :
    Calm i h (h.acquireAndRequest cfg j nowMs start) := by
  have hbackoff := (tryAcquire_nextAllowed cfg.schedCfg h.snapshotScheduler j nowMs).1
  simp only [QuoteFeedHandler.acquireAndRequest]
  split_ifs
  · constructor
    · simp [QuoteFeedHandler.requestSnapshot, QuoteFeedHandler.setBook, Function.update_of_ne hij]
    · simp [QuoteFeedHandler.requestSnapshot, QuoteFeedHandler.setBook, Function.update_of_ne hij]
    · exact congrFun hbackoff i
    · simp [QuoteFeedHandler.requestSnapshot, QuoteFeedHandler.setBook, Function.update_of_ne hij]
  · exact ⟨rfl, rfl, congrFun hbackoff i, id⟩

omit [LinearOrder K] [Zero K] in
/-- A request that goes out respects the backoff of its symbol. -/
theorem acquireAndRequest_due (cfg : HandlerConfig n) (h : QuoteFeedHandler n K) (j : Fin n)
    (nowMs : Int) (start : SymbolBook K → SymbolBook K)
    (hstart : (start (h.books j)).state = (h.books j).state) :
    let h' := h.acquireAndRequest cfg j nowMs start
    h'.snapshotScheduler.nextAllowedMs = h.snapshotScheduler.nextAllowedMs ∧
      (h'.books j).state = (h.books j).state ∧
      (h'.nextRequestId ≠ h.nextRequestId → h.snapshotScheduler.nextAllowedMs j ≤ nowMs) := by
  obtain ⟨hbackoff, hdue⟩ := tryAcquire_nextAllowed cfg.schedCfg h.snapshotScheduler j nowMs
  simp only [QuoteFeedHandler.acquireAndRequest]
  split_ifs with hgranted
  · refine ⟨hbackoff, ?_, fun _ => hdue hgranted⟩
    simp [QuoteFeedHandler.requestSnapshot, QuoteFeedHandler.setBook,
      SymbolBook.setSnapshotRequested, hstart]
  · exact ⟨hbackoff, rfl, fun hsent => absurd rfl hsent⟩

theorem maybePublish_state (h : QuoteFeedHandler n K) :
    ((h.maybePublish cfg j recv nowMs).books j).state = (h.books j).state := by
  simp only [QuoteFeedHandler.maybePublish]
  split_ifs
  · simp [QuoteFeedHandler.publishQuote, SymbolBook.recordPublish]
  · rfl

theorem maybePublish_requests (cfg : HandlerConfig n) (h : QuoteFeedHandler n K) (j : Fin n)
    (recv nowMs : Int) :
    (h.maybePublish cfg j recv nowMs).snapshotScheduler = h.snapshotScheduler ∧
      (h.maybePublish cfg j recv nowMs).nextRequestId = h.nextRequestId := by
  simp only [QuoteFeedHandler.maybePublish]
  split_ifs <;> exact ⟨rfl, rfl⟩

/-- The end of `serve`: publish, and refresh a book whose known depth is running low. -/
def QuoteFeedHandler.publishAndRefresh (cfg : HandlerConfig n) (h : QuoteFeedHandler n K)
    (symIdx : Fin n) (recv nowMs : Int) : QuoteFeedHandler n K :=
  if ((h.maybePublish cfg symIdx recv nowMs).books symIdx).wantsRefresh cfg.book then
    (h.maybePublish cfg symIdx recv nowMs).acquireAndRequest cfg symIdx nowMs
      SymbolBook.beginRefresh
  else h.maybePublish cfg symIdx recv nowMs

theorem serve_eq (h : QuoteFeedHandler n K) (state : BookState) :
    h.serve cfg j state recv nowMs =
      if (h.books j).isValid = false then h
      else QuoteFeedHandler.publishAndRefresh cfg
        (if state = .SYNCING then { h with snapshotScheduler := h.snapshotScheduler.onSynced j }
          else h) j recv nowMs := by
  simp only [QuoteFeedHandler.serve, QuoteFeedHandler.publishAndRefresh, Bool.not_eq_true']

theorem Calm.publishAndRefresh (hij : i ≠ j) (h : QuoteFeedHandler n K) :
    Calm i h (h.publishAndRefresh cfg j recv nowMs) := by
  simp only [QuoteFeedHandler.publishAndRefresh]
  split_ifs
  · exact (Calm.maybePublish h).trans (.acquireAndRequest hij _ _)
  · exact .maybePublish h

theorem publishAndRefresh_due (cfg : HandlerConfig n) (h : QuoteFeedHandler n K) (j : Fin n)
    (recv nowMs : Int) :
    let h' := h.publishAndRefresh cfg j recv nowMs
    h'.snapshotScheduler.nextAllowedMs = h.snapshotScheduler.nextAllowedMs ∧
      (h'.books j).state = (h.books j).state ∧
      (h'.nextRequestId ≠ h.nextRequestId → h.snapshotScheduler.nextAllowedMs j ≤ nowMs) := by
  obtain ⟨hsched, hnext⟩ := maybePublish_requests cfg h j recv nowMs
  simp only [QuoteFeedHandler.publishAndRefresh]
  split_ifs
  · obtain ⟨hbackoff, hstate, hdue⟩ := acquireAndRequest_due cfg
      (h.maybePublish cfg j recv nowMs) j nowMs SymbolBook.beginRefresh rfl
    rw [hsched, hnext] at hdue
    exact ⟨hbackoff.trans (by rw [hsched]), hstate.trans (maybePublish_state h), hdue⟩
  · exact ⟨by rw [hsched], maybePublish_state h, fun hsent => absurd hnext hsent⟩

theorem Calm.serve (hij : i ≠ j) (h : QuoteFeedHandler n K) (state : BookState) :
    Calm i h (h.serve cfg j state recv nowMs) := by
  rw [serve_eq]
  split_ifs
  · exact .refl i h
  · have hsynced : Calm i h { h with snapshotScheduler := h.snapshotScheduler.onSynced j } :=
      ⟨rfl, rfl, Function.update_of_ne hij _ _, id⟩
    exact hsynced.trans (.publishAndRefresh hij _)
  · exact .publishAndRefresh hij h

omit [LinearOrder K] in
theorem Calm.resync (hij : i ≠ j) (h : QuoteFeedHandler n K) (state : BookState) :
    Calm i h (h.resync cfg j state recv nowMs) := by
  have hnoted : Calm i h
      (if state = .VALID then { h with ctrSequenceGaps := h.ctrSequenceGaps + 1 }
        else { h with
          snapshotScheduler := h.snapshotScheduler.onFailure cfg.schedCfg j nowMs }) := by
    split_ifs
    · exact ⟨rfl, rfl, rfl, id⟩
    · have hbackoff := (SnapshotScheduler.onFailure_backoff cfg.schedCfg h.snapshotScheduler j nowMs
        0 0 (-1)).2
      exact ⟨rfl, rfl, (congrFun hbackoff i).trans (Function.update_of_ne hij _ _), id⟩
  simp only [QuoteFeedHandler.resync]
  apply hnoted.trans
  generalize (if state = BookState.VALID then _ else _ : QuoteFeedHandler n K) = u
  have hcounted : Calm i u { u with ctrResyncs := u.ctrResyncs + 1 } := ⟨rfl, rfl, rfl, id⟩
  exact (hcounted.trans (.publishQuote _ _)).trans (.setBook hij _ _)

/-- An event of another symbol is no business of this one. -/
theorem Calm.handleDelta (hij : i ≠ j) (h : QuoteFeedHandler n K) :
    Calm i h (h.handleDelta cfg j d recv nowMs) := by
  simp only [QuoteFeedHandler.handleDelta]
  split
  · split_ifs
    · exact (Calm.setBook hij h _).trans (.acquireAndRequest hij _ _)
    · exact .setBook hij h _
  · exact .setBook hij h _
  · split_ifs
    · exact (Calm.setBook hij h _).trans (.serve hij _ _)
    · exact (Calm.setBook hij h _).trans (.resync hij _ _)

omit [LinearOrder K] in
/-- A book found broken is reset; it counts as a failed request while it waited for its bridge. -/
theorem resync_spec (cfg : HandlerConfig n) (h : QuoteFeedHandler n K) (j : Fin n)
    (state : BookState) (recv nowMs : Int) :
    let h' := h.resync cfg j state recv nowMs
    (h'.books j).state = .INIT ∧ h'.nextRequestId = h.nextRequestId ∧
      h'.snapshotScheduler =
        if state = .VALID then h.snapshotScheduler
        else h.snapshotScheduler.onFailure cfg.schedCfg j nowMs := by
  simp only [QuoteFeedHandler.resync]
  refine ⟨by simp [QuoteFeedHandler.setBook, SymbolBook.reset], ?_, ?_⟩
  · simp only [QuoteFeedHandler.setBook, QuoteFeedHandler.publishInvalid,
      QuoteFeedHandler.publishQuote]
    split_ifs <;> rfl
  · simp only [QuoteFeedHandler.setBook, QuoteFeedHandler.publishInvalid,
      QuoteFeedHandler.publishQuote]
    split_ifs <;> rfl

theorem serve_due (cfg : HandlerConfig n) (h : QuoteFeedHandler n K) (j : Fin n)
    (recv nowMs : Int) {state : BookState} (hs : state ≠ .SYNCING) :
    let h' := h.serve cfg j state recv nowMs
    h'.snapshotScheduler.nextAllowedMs = h.snapshotScheduler.nextAllowedMs ∧
      (h'.books j).state = (h.books j).state ∧
      (h'.nextRequestId ≠ h.nextRequestId → h.snapshotScheduler.nextAllowedMs j ≤ nowMs) := by
  rw [serve_eq]
  simp only [if_neg hs]
  split_ifs
  · exact ⟨rfl, rfl, fun hsent => absurd rfl hsent⟩
  · exact publishAndRefresh_due cfg h j recv nowMs

/-- An event that a book in `SYNCING` or `VALID` takes or refuses. -/
theorem handleDelta_of_open (cfg : HandlerConfig n) (h : QuoteFeedHandler n K) (j : Fin n)
    (d : BufferedDelta K) (recv nowMs : Int) {state : BookState}
    (hs : (h.books j).state = state) (hopen : state = .SYNCING ∨ state = .VALID) :
    h.handleDelta cfg j d recv nowMs =
      if ((h.books j).applyDelta cfg.book d).1 then
        (h.setBook j ((h.books j).applyDelta cfg.book d).2).serve cfg j state recv nowMs
      else (h.setBook j ((h.books j).applyDelta cfg.book d).2).resync cfg j state recv nowMs := by
  subst hs
  simp only [QuoteFeedHandler.handleDelta]
  split
  · rename_i hinit
    simp [hinit] at hopen
  · rename_i hinvalid
    simp [hinvalid] at hopen
  · rfl

omit [LinearOrder K] [Zero K] in
@[simp] theorem setBook_books_self (h : QuoteFeedHandler n K) (s : SymbolBook K) :
    (h.setBook j s).books j = s := by
  simp [QuoteFeedHandler.setBook]

/-- While the book is not waiting for its bridge, the backoff stays, and a request that is sent
respects it. -/
theorem handleDelta_due (cfg : HandlerConfig n) (d : BufferedDelta K) (recv nowMs : Int)
    (hs : (h.books j).state ≠ .SYNCING) :
    let h' := h.handleDelta cfg j d recv nowMs
    (h'.books j).state ≠ .SYNCING ∧
      h'.snapshotScheduler.nextAllowedMs j = h.snapshotScheduler.nextAllowedMs j ∧
      (h'.nextRequestId ≠ h.nextRequestId → h.snapshotScheduler.nextAllowedMs j ≤ nowMs) := by
  intro h'
  cases hstate : (h.books j).state with
  | INIT =>
      have hbuffered : ((h.setBook j ((h.books j).bufferDelta d).2).books j).state = .INIT := by
        rw [setBook_books_self, SymbolBook.bufferDelta_frame.2.1]
        exact hstate
      simp only [h', QuoteFeedHandler.handleDelta, hstate]
      split_ifs
      · obtain ⟨hbackoff, hkept, hdue⟩ := acquireAndRequest_due cfg
          (h.setBook j ((h.books j).bufferDelta d).2) j nowMs id rfl
        exact ⟨by rw [hkept, hbuffered]; decide, congrFun hbackoff j, hdue⟩
      · exact ⟨by rw [hbuffered]; decide, rfl, fun hsent => absurd rfl hsent⟩
  | INVALID =>
      simp only [h', QuoteFeedHandler.handleDelta, hstate]
      exact ⟨by simp [SymbolBook.reset], rfl, fun hsent => absurd rfl hsent⟩
  | SYNCING => exact absurd hstate hs
  | VALID =>
      have hkept : ((h.books j).applyDelta cfg.book d).2.state ≠ .SYNCING :=
        fun hsync => hs (SymbolBook.applyDelta_syncing hsync).1
      have hout := handleDelta_of_open cfg h j d recv nowMs hstate (Or.inr rfl)
      simp only [h', hout]
      split_ifs
      · obtain ⟨hbackoff, hserved, hdue⟩ := serve_due cfg
          (h.setBook j ((h.books j).applyDelta cfg.book d).2) j recv nowMs
          (show BookState.VALID ≠ .SYNCING by decide)
        rw [setBook_books_self] at hserved
        exact ⟨by rwa [hserved], congrFun hbackoff j, hdue⟩
      · obtain ⟨hreset, hnext, hsched⟩ := resync_spec cfg
          (h.setBook j ((h.books j).applyDelta cfg.book d).2) j .VALID recv nowMs
        refine ⟨by simp [hreset], ?_, fun hsent => absurd hnext hsent⟩
        rw [hsched, if_pos rfl]
        rfl

/-- A book that waits for its bridge asks for nothing until it has it or is found broken. -/
theorem handleDelta_syncing (hs : (h.books j).state = .SYNCING)
    (hafter : ((h.handleDelta cfg j d recv nowMs).books j).state = .SYNCING) :
    (h.handleDelta cfg j d recv nowMs).nextRequestId = h.nextRequestId := by
  have hout := handleDelta_of_open cfg h j d recv nowMs hs (Or.inl rfl)
  rw [hout] at hafter ⊢
  split_ifs at hafter ⊢
  · rw [serve_eq] at hafter ⊢
    simp only [if_true] at hafter ⊢
    split_ifs at hafter ⊢ with hwaiting
    · rfl
    · have hpublished := (publishAndRefresh_due cfg
        { h.setBook j ((h.books j).applyDelta cfg.book d).2 with
          snapshotScheduler := h.snapshotScheduler.onSynced j } j recv nowMs).2.1
      have hsync := hpublished.symm.trans hafter
      simp only [SymbolBook.isValid, decide_eq_false_iff_not, not_not] at hwaiting
      exact absurd (hsync.symm.trans hwaiting) (by decide)
  · exact (resync_spec cfg _ j _ recv nowMs).2.1

/-- A snapshot that the events do not bridge sets the backoff. -/
theorem handleDelta_unbridged (cfg : HandlerConfig n) (recv nowMs : Int)
    (hs : (h.books j).state = .SYNCING)
    (hrefused : ((h.books j).applyDelta cfg.book d).1 = false) :
    let h' := h.handleDelta cfg j d recv nowMs
    (h'.books j).state ≠ .SYNCING ∧ h'.nextRequestId = h.nextRequestId ∧
      h'.snapshotScheduler = h.snapshotScheduler.onFailure cfg.schedCfg j nowMs := by
  intro h'
  have hout := handleDelta_of_open cfg h j d recv nowMs hs (Or.inl rfl)
  obtain ⟨hreset, hnext, hsched⟩ := resync_spec cfg
    (h.setBook j ((h.books j).applyDelta cfg.book d).2) j .SYNCING recv nowMs
  simp only [h', hout, hrefused, if_neg Bool.false_ne_true]
  exact ⟨by simp [hreset], hnext, by rw [hsched]; rfl⟩

end

end TickToSignal.Quote
