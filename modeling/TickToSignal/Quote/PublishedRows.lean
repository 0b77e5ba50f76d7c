import TickToSignal.Quote.Continuity
import TickToSignal.Quote.UpdateRanges

/-!
# What a handler run publishes

The rows are numbered one by one over all symbols, and where the events have
ids of their own, the ranges of a symbol's rows are not empty and no two
consecutive valid ones overlap. Both are kept by every event.
-/

namespace TickToSignal.Quote

open OrderBook Foundation

variable {n : Nat} {K : Type*}

/-- A depth message has a range of ids. -/
def Event.Spans (sync : DepthSync) : Event n K → Prop
  | .message _ delta _ _ => Quote.Spans sync delta
  | _ => True

/-! ## Numbers and symbols -/

/-- The rows carry the numbers 1, 2, 3, … and the symbol of their book. -/
structure Numbered (cfg : HandlerConfig n) (h : QuoteFeedHandler n K) : Prop where
  sym : ∀ i, (h.books i).sym = cfg.symbolsUpper i
  count : h.fhSeqNo = h.published.length
  row : ∀ (k : ℕ) (p : Fin n × BookQuote K), h.published[k]? = some p →
    p.2.fhSeqNo = k + 1 ∧ p.2.sym = cfg.symbolsUpper p.1

section Numbered
variable {cfg : HandlerConfig n} {h h' : QuoteFeedHandler n K} {i : Fin n} {q : BookQuote K}
  {recv nowMs : Int}

/-- Nothing published, and every book is still its symbol's. -/
theorem Numbered.congr (hn : Numbered cfg h) (hp : h'.published = h.published)
    (hseq : h'.fhSeqNo = h.fhSeqNo) (hb : ∀ i, (h'.books i).sym = (h.books i).sym) :
    Numbered cfg h' where
  sym := fun i => (hb i).trans (hn.sym i)
  count := by rw [hseq, hp, hn.count]
  row := by
    rw [hp]
    exact hn.row

/-- One book replaced by one of the same symbol. -/
theorem Numbered.replace (hn : Numbered cfg h) {s : SymbolBook K}
    (hp : h'.published = h.published) (hseq : h'.fhSeqNo = h.fhSeqNo)
    (hb : h'.books = Function.update h.books i s) (hsym : s.sym = (h.books i).sym) :
    Numbered cfg h' := by
  refine hn.congr hp hseq fun j => ?_
  rw [hb]
  by_cases hij : j = i
  · subst hij
    simpa using hsym
  · rw [Function.update_of_ne hij]

theorem Numbered.publishQuote (hn : Numbered cfg h) (hseq : q.fhSeqNo = h.fhSeqNo + 1)
    (hsym : q.sym = cfg.symbolsUpper i) : Numbered cfg (h.publishQuote i q nowMs) where
  sym := by
    intro j
    by_cases hij : j = i
    · subst hij
      simpa [QuoteFeedHandler.publishQuote, SymbolBook.recordPublish] using hn.sym j
    · simpa [QuoteFeedHandler.publishQuote, Function.update_of_ne hij] using hn.sym j
  count := by simp [QuoteFeedHandler.publishQuote, hn.count]
  row := by
    intro k p hk
    rw [QuoteFeedHandler.publishQuote, List.getElem?_append] at hk
    split_ifs at hk with hlt
    · exact hn.row k p hk
    · obtain ⟨hzero, rfl⟩ : k - h.published.length = 0 ∧ (i, q) = p := by
        simpa [List.getElem?_singleton] using hk
      have hk : k = h.published.length := by omega
      exact ⟨by rw [hseq, hn.count, hk], hsym⟩

theorem Numbered.acquireAndRequest (hn : Numbered cfg h) {start : SymbolBook K → SymbolBook K}
    (hstart : (start (h.books i)).sym = (h.books i).sym) :
    Numbered cfg (h.acquireAndRequest cfg i nowMs start) := by
  simp only [QuoteFeedHandler.acquireAndRequest]
  split_ifs
  · refine hn.replace (i := i) (s := (start (h.books i)).setSnapshotRequested true) rfl rfl ?_
      hstart
    simp [QuoteFeedHandler.requestSnapshot, QuoteFeedHandler.setBook]
  · exact hn.congr rfl rfl fun _ => rfl

theorem Numbered.expireRequest (hn : Numbered cfg h) :
    Numbered cfg (h.expireRequest cfg nowMs i) := by
  simp only [QuoteFeedHandler.expireRequest]
  split_ifs
  · exact hn.replace rfl rfl rfl (sameRange_cancelRefresh (h.books i)).sym
  · exact hn

theorem Numbered.noteOutcome (hn : Numbered cfg h) (outcome : SnapshotOutcome) :
    Numbered cfg (h.noteOutcome cfg nowMs i outcome) := by
  cases outcome <;> exact hn.congr rfl rfl fun _ => rfl

variable [Zero K]

theorem getQuote_label (s : SymbolBook K) (book : BookConfig) (recv seqNo : Int) :
    (s.getQuote book recv seqNo).sym = s.sym ∧ (s.getQuote book recv seqNo).fhSeqNo = seqNo := by
  simp only [SymbolBook.getQuote]
  split_ifs <;> exact ⟨rfl, rfl⟩

theorem Numbered.publishInvalid (hn : Numbered cfg h) :
    Numbered cfg (h.publishInvalid cfg i recv nowMs) :=
  hn.publishQuote rfl rfl

theorem Numbered.publishOwn (hn : Numbered cfg h) :
    Numbered cfg (h.publishQuote i ((h.books i).getQuote cfg.book recv (h.fhSeqNo + 1)) nowMs) := by
  obtain ⟨hsym, hseq⟩ := getQuote_label (h.books i) cfg.book recv (h.fhSeqNo + 1)
  exact hn.publishQuote hseq (hsym.trans (hn.sym i))

theorem Numbered.resync (hn : Numbered cfg h) (state : BookState) :
    Numbered cfg (h.resync cfg i state recv nowMs) := by
  simp only [QuoteFeedHandler.resync]
  generalize hcounted : ({ (if state = .VALID then _ else _ : QuoteFeedHandler n K) with
    ctrResyncs := _ } : QuoteFeedHandler n K) = counted
  have hkept : Numbered cfg counted := by
    subst hcounted
    split_ifs <;> exact hn.congr rfl rfl fun _ => rfl
  have hmarked : Numbered cfg (counted.publishInvalid cfg i recv nowMs) := hkept.publishInvalid
  exact hmarked.replace rfl rfl rfl rfl

theorem Numbered.onConnect (hn : Numbered cfg h) (tpConnected : Bool) (nowNs : Int) :
    Numbered cfg (h.onConnect cfg tpConnected nowNs nowMs) := by
  have hmarked : Numbered cfg
      (if tpConnected then
        (List.finRange n).foldl (QuoteFeedHandler.markHole cfg nowNs nowMs) h else h) := by
    split_ifs
    · refine exec_invariant (fun h i hn => ?_) (List.finRange n) hn
      simp only [QuoteFeedHandler.markHole]
      split_ifs
      · exact hn.publishInvalid
      · exact hn
    · exact hn
  exact hmarked.congr rfl rfl fun _ => rfl

variable [LinearOrder K]

theorem Numbered.serve (hn : Numbered cfg h) (state : BookState) :
    Numbered cfg (h.serve cfg i state recv nowMs) := by
  have hnoted : Numbered cfg
      (if state = .SYNCING then { h with snapshotScheduler := h.snapshotScheduler.onSynced i }
      else h) := by
    split_ifs
    · exact hn.congr rfl rfl fun _ => rfl
    · exact hn
  simp only [QuoteFeedHandler.serve]
  generalize (if state = .SYNCING then
    { h with snapshotScheduler := h.snapshotScheduler.onSynced i } else h) = noted at hnoted ⊢
  have hpublished : Numbered cfg (noted.maybePublish cfg i recv nowMs) := by
    simp only [QuoteFeedHandler.maybePublish]
    split_ifs
    · exact hnoted.publishOwn
    · exact hnoted
  split_ifs
  · exact hn
  · exact hpublished.acquireAndRequest rfl
  · exact hpublished

theorem Numbered.handleDelta (hn : Numbered cfg h) (d : BufferedDelta K) :
    Numbered cfg (h.handleDelta cfg i d recv nowMs) := by
  let applied := (h.books i).applyDelta cfg.book d
  have hset : Numbered cfg (h.setBook i applied.2) :=
    hn.replace rfl rfl rfl (applyDelta_sym cfg.book (h.books i) d)
  have hlive : ∀ state, Numbered cfg
      (if applied.1 then (h.setBook i applied.2).serve cfg i state recv nowMs
      else (h.setBook i applied.2).resync cfg i state recv nowMs) := by
    intro state
    split_ifs
    · exact hset.serve state
    · exact hset.resync state
  cases hstate : (h.books i).state with
  | INIT =>
      simp only [QuoteFeedHandler.handleDelta, hstate]
      have hbuffered : Numbered cfg (h.setBook i ((h.books i).bufferDelta d).2) :=
        hn.replace rfl rfl rfl (sameRange_bufferDelta (h.books i) d).sym
      split_ifs
      · exact hbuffered.acquireAndRequest rfl
      · exact hbuffered
  | INVALID =>
      simp only [QuoteFeedHandler.handleDelta, hstate]
      exact hn.replace rfl rfl rfl rfl
  | SYNCING => simpa only [QuoteFeedHandler.handleDelta, hstate] using hlive .SYNCING
  | VALID => simpa only [QuoteFeedHandler.handleDelta, hstate] using hlive .VALID

theorem Numbered.applyResult (hn : Numbered cfg h) (r : SnapshotResult n K) :
    Numbered cfg (h.applyResult cfg nowMs r) := by
  simp only [QuoteFeedHandler.applyResult]
  split_ifs
  · exact hn
  · exact hn.replace rfl rfl rfl (sameRange_cancelRefresh (h.books r.symIdx)).sym
  · apply Numbered.noteOutcome
    exact hn.replace rfl rfl rfl (onSnapshot_sym cfg.book (h.books r.symIdx) _ _ _)

theorem Numbered.step (hn : Numbered cfg h) (e : Event n K) : Numbered cfg (h.step cfg e) := by
  cases e with
  | connect tpConnected nowNs nowMs => exact hn.onConnect tpConnected nowNs
  | applyResults nowMs =>
      have hexpired : Numbered cfg
          ((List.finRange n).foldl (QuoteFeedHandler.expireRequest cfg nowMs) h) :=
        exec_invariant (fun _ _ hn => hn.expireRequest) _ hn
      exact exec_invariant (fun _ r hn => hn.applyResult r) _ (hexpired.congr rfl rfl fun _ => rfl)
  | message symIdx delta recv nowMs => exact hn.handleDelta delta
  | checkTimeouts recv nowMs =>
      refine exec_invariant (fun h i hn => ?_) _ hn
      simp only [QuoteFeedHandler.heartbeat]
      split_ifs
      · exact hn
      · exact hn.publishOwn
  | worker data =>
      simp only [QuoteFeedHandler.step, QuoteFeedHandler.workerStep]
      split
      · exact hn
      · exact hn.congr rfl rfl fun _ => rfl

omit [LinearOrder K] in
theorem numbered_init (cfg : HandlerConfig n) (nowMs : Int) :
    Numbered cfg (QuoteFeedHandler.init cfg nowMs : QuoteFeedHandler n K) where
  sym := fun _ => rfl
  count := rfl
  row := by simp [QuoteFeedHandler.init]

end Numbered

/-! ## Ranges -/

/-- Two rows of one symbol: when both are valid, their ranges do not overlap. -/
def Apart (sync : DepthSync) (p q : BookQuote K) : Prop :=
  p.isValid = true → q.isValid = true → Advances sync p q

/-- No two consecutive rows of a symbol overlap, and no next one will. -/
structure Ranged (cfg : HandlerConfig n) (h : QuoteFeedHandler n K) : Prop where
  inRange : ∀ i, InRange cfg.book (h.books i)
  spans : ∀ i, ∀ d ∈ (h.books i).deltaBuffer, Spans cfg.book.sync d
  chain : ∀ i, (h.rows i).IsChain (Apart cfg.book.sync)
  nonempty : ∀ i, ∀ q ∈ h.rows i, q.isValid = true → q.exchFirstUpdateId ≤ q.exchUpdateId

section Books
variable {cfg : HandlerConfig n} {h h' : QuoteFeedHandler n K} {i : Fin n} {q : BookQuote K}
  {recv nowMs : Int}

/-- Nothing published, and what the books are now. -/
theorem Ranged.of_published (hr : Ranged cfg h) (hp : h'.published = h.published)
    (hin : ∀ i, InRange cfg.book (h'.books i))
    (hspans : ∀ i, ∀ d ∈ (h'.books i).deltaBuffer, Spans cfg.book.sync d) : Ranged cfg h' where
  inRange := hin
  spans := hspans
  chain := by simpa only [QuoteFeedHandler.rows, hp] using hr.chain
  nonempty := by simpa only [QuoteFeedHandler.rows, hp] using hr.nonempty

/-- One book replaced, nothing published. -/
theorem Ranged.replace (hr : Ranged cfg h) {s : SymbolBook K} (hp : h'.published = h.published)
    (hb : h'.books = Function.update h.books i s) (hin : InRange cfg.book s)
    (hspans : ∀ d ∈ s.deltaBuffer, Spans cfg.book.sync d) : Ranged cfg h' := by
  apply hr.of_published hp
  · rw [hb]
    exact Function.forall_update_iff h.books (fun _ s => InRange cfg.book s) |>.mpr
      ⟨hin, fun j _ => hr.inRange j⟩
  · rw [hb]
    exact Function.forall_update_iff h.books
      (fun _ s => ∀ d ∈ s.deltaBuffer, Spans cfg.book.sync d) |>.mpr ⟨hspans, fun j _ => hr.spans j⟩

theorem Ranged.congr (hr : Ranged cfg h) (hp : h'.published = h.published)
    (hb : h'.books = h.books) : Ranged cfg h' :=
  hr.of_published hp (hb ▸ hr.inRange) (hb ▸ hr.spans)

/-- A published row that does not overlap the last one. -/
theorem Ranged.publishQuote (hr : Ranged cfg h)
    (hapart : ∀ p ∈ (h.rows i).getLast?, Apart cfg.book.sync p q)
    (hrange : q.isValid = true → q.exchFirstUpdateId ≤ q.exchUpdateId)
    (hin : InRange cfg.book ((h.books i).recordPublish nowMs q)) :
    Ranged cfg (h.publishQuote i q nowMs) where
  inRange := Function.forall_update_iff h.books (fun _ s => InRange cfg.book s) |>.mpr
    ⟨hin, fun j _ => hr.inRange j⟩
  spans := Function.forall_update_iff h.books
    (fun _ s => ∀ d ∈ s.deltaBuffer, Spans cfg.book.sync d) |>.mpr ⟨hr.spans i, fun j _ => hr.spans j⟩
  chain := by
    intro j
    rw [rows_publishQuote]
    split_ifs with hij
    · subst hij
      apply (hr.chain i).append (List.isChain_singleton q)
      intro p hp r hq
      obtain rfl : q = r := by simpa using hq
      exact hapart p hp
    · exact hr.chain j
  nonempty := by
    intro j r hrow
    rw [rows_publishQuote] at hrow
    split_ifs at hrow
    · obtain hrow | hrow := List.mem_append.mp hrow
      · exact hr.nonempty j r hrow
      · obtain rfl := List.mem_singleton.mp hrow
        exact hrange
    · exact hr.nonempty j r hrow

theorem Ranged.acquireAndRequest (hr : Ranged cfg h) {start : SymbolBook K → SymbolBook K}
    (hin : InRange cfg.book (start (h.books i)))
    (hspans : ∀ d ∈ (start (h.books i)).deltaBuffer, Spans cfg.book.sync d) :
    Ranged cfg (h.acquireAndRequest cfg i nowMs start) := by
  simp only [QuoteFeedHandler.acquireAndRequest]
  split_ifs
  · refine hr.replace (i := i) (s := (start (h.books i)).setSnapshotRequested true) rfl ?_
      (hin.congr ⟨rfl, rfl, rfl, rfl, rfl, rfl⟩ fun _ => rfl) hspans
    simp [QuoteFeedHandler.requestSnapshot, QuoteFeedHandler.setBook]
  · exact hr.congr rfl rfl

/-- A refresh or a request given up. -/
theorem InRange.giveUp {book : BookConfig} {s : SymbolBook K} (hin : InRange book s)
    (hspans : ∀ d ∈ s.deltaBuffer, Spans book.sync d) :
    InRange book (s.cancelRefresh.setSnapshotRequested false) ∧
      ∀ d ∈ (s.cancelRefresh.setSnapshotRequested false).deltaBuffer, Spans book.sync d := by
  have hrequested : SameRange s.cancelRefresh (s.cancelRefresh.setSnapshotRequested false) :=
    ⟨rfl, rfl, rfl, rfl, rfl, rfl⟩
  constructor
  · refine hin.congr ((sameRange_cancelRefresh s).trans hrequested) fun _ => ?_
    simp only [SymbolBook.setSnapshotRequested, SymbolBook.cancelRefresh]
    split_ifs <;> rfl
  · intro d hd
    simp only [SymbolBook.setSnapshotRequested, SymbolBook.cancelRefresh] at hd
    split_ifs at hd
    · simp at hd
    · exact hspans d hd

theorem Ranged.expireRequest (hr : Ranged cfg h) :
    Ranged cfg (h.expireRequest cfg nowMs i) := by
  obtain ⟨hin, hspans⟩ := (hr.inRange i).giveUp (hr.spans i)
  simp only [QuoteFeedHandler.expireRequest]
  split_ifs
  · exact hr.replace rfl rfl hin hspans
  · exact hr

theorem Ranged.noteOutcome (hr : Ranged cfg h) (outcome : SnapshotOutcome) :
    Ranged cfg (h.noteOutcome cfg nowMs i outcome) := by
  cases outcome <;> exact hr.congr rfl rfl

end Books

section Publish
variable [Zero K] {cfg : HandlerConfig n} {h : QuoteFeedHandler n K} {i : Fin n}
  {last : Fin n → Option Int} {recv nowMs : Int}

/-- An invalid row has no range. -/
theorem Ranged.publishInvalid (hr : Ranged cfg h) :
    Ranged cfg (h.publishInvalid cfg i recv nowMs) := by
  apply hr.publishQuote
  · intro p _ _ hq
    simp [QuoteFeedHandler.invalidQuote] at hq
  · intro hq
    simp [QuoteFeedHandler.invalidQuote] at hq
  · exact (hr.inRange i).recordPublish_invalid rfl

/-- The book's own quote. -/
theorem Ranged.publishOwn (hr : Ranged cfg h) (hs : Sound cfg last h) {seqNo : Int} :
    Ranged cfg (h.publishQuote i ((h.books i).getQuote cfg.book recv seqNo) nowMs) := by
  apply hr.publishQuote
  · intro p hp hpv hq
    rw [hs.tip i] at hp
    exact (hr.inRange i).advances_getQuote (hs.books i) hp hpv hq
  · exact (hr.inRange i).getQuote_le
  · exact (hr.inRange i).recordPublish_getQuote

/-- A book that failed: one invalid row, then a reset. -/
theorem Ranged.resync (hr : Ranged cfg h) (state : BookState) :
    Ranged cfg (h.resync cfg i state recv nowMs) := by
  simp only [QuoteFeedHandler.resync]
  generalize hcounted : ({ (if state = .VALID then _ else _ : QuoteFeedHandler n K) with
    ctrResyncs := _ } : QuoteFeedHandler n K) = counted
  have hkept : Ranged cfg counted := by
    subst hcounted
    split_ifs <;> exact hr.congr rfl rfl
  have hmarked : Ranged cfg (counted.publishInvalid cfg i recv nowMs) := hkept.publishInvalid
  refine hmarked.replace rfl rfl (inRange_of_not_valid BookState.noConfusion) ?_
  simp [SymbolBook.reset]

/-- A new connection resets every book. -/
theorem Ranged.onConnect (hr : Ranged cfg h) (tpConnected : Bool) (nowNs : Int) :
    Ranged cfg (h.onConnect cfg tpConnected nowNs nowMs) := by
  have hmarked : Ranged cfg
      (if tpConnected then
        (List.finRange n).foldl (QuoteFeedHandler.markHole cfg nowNs nowMs) h else h) := by
    split_ifs
    · refine exec_invariant (fun h i hr => ?_) (List.finRange n) hr
      simp only [QuoteFeedHandler.markHole]
      split_ifs
      · exact hr.publishInvalid
      · exact hr
    · exact hr
  refine hmarked.of_published rfl (fun _ => inRange_of_not_valid BookState.noConfusion) ?_
  simp [QuoteFeedHandler.onConnect, SymbolBook.reset]

end Publish

section Step
variable [LinearOrder K] [Zero K] {cfg : HandlerConfig n} {h : QuoteFeedHandler n K}
  {i : Fin n} {last : Fin n → Option Int} {recv nowMs : Int} {d : BufferedDelta K}

/-- A book that took an event. -/
theorem Ranged.serve (hr : Ranged cfg h) (hs : Sound cfg last h) (state : BookState) :
    Ranged cfg (h.serve cfg i state recv nowMs) := by
  have hnoted : ∀ noted, noted = (if state = .SYNCING then
      { h with snapshotScheduler := h.snapshotScheduler.onSynced i } else h) →
        Ranged cfg noted ∧ Sound cfg last noted := by
    rintro noted rfl
    split_ifs
    · exact ⟨hr.congr rfl rfl, hs.congr rfl rfl⟩
    · exact ⟨hr, hs⟩
  simp only [QuoteFeedHandler.serve]
  generalize hnote : (if state = .SYNCING then
    { h with snapshotScheduler := h.snapshotScheduler.onSynced i } else h) = noted
  obtain ⟨hranged, hsound⟩ := hnoted noted hnote.symm
  have hpublished : Ranged cfg (noted.maybePublish cfg i recv nowMs) := by
    simp only [QuoteFeedHandler.maybePublish]
    split_ifs
    · exact hranged.publishOwn hsound
    · exact hranged
  split_ifs
  · exact hr
  · apply hpublished.acquireAndRequest
    · exact (hpublished.inRange i).congr ⟨rfl, rfl, rfl, rfl, rfl, rfl⟩ fun _ => rfl
    · simp [SymbolBook.beginRefresh]
  · exact hpublished

/-- The buffer after an event holds what it held and the event. -/
theorem spans_applyDelta {book : BookConfig} {s : SymbolBook K}
    (hspans : ∀ e ∈ s.deltaBuffer, Spans book.sync e) (hspan : Spans book.sync d) :
    ∀ e ∈ (s.applyDelta book d).2.deltaBuffer, Spans book.sync e := by
  intro e he
  obtain ⟨-, -, heq⟩ | ⟨-, seq, ⟨-, heq⟩ | ⟨-, heq⟩ | ⟨-, heq⟩⟩ := s.applyDelta_cases book d
  · rw [heq] at he
    exact hspans e he
  · rw [heq] at he
    exact hspans e he
  all_goals
    rw [heq] at he
    obtain he | rfl := SymbolBook.passOn_mem he
    · exact hspans e he
    · exact hspan

/-- A depth event of the symbol's stream. -/
theorem Ranged.handleDelta (hr : Ranged cfg h) (hs : Sound cfg last h)
    (hd : Follows cfg.book.sync (last i) d) (hspan : Spans cfg.book.sync d) :
    Ranged cfg (h.handleDelta cfg i d recv nowMs) := by
  let applied := (h.books i).applyDelta cfg.book d
  have hset : Ranged cfg (h.setBook i applied.2) :=
    hr.replace rfl rfl ((hr.inRange i).applyDelta (hs.books i) hd hspan)
      (spans_applyDelta (hr.spans i) hspan)
  have hlive : ∀ state, Ranged cfg
      (if applied.1 then (h.setBook i applied.2).serve cfg i state recv nowMs
      else (h.setBook i applied.2).resync cfg i state recv nowMs) := by
    intro state
    split_ifs with hok
    · have htaken : Sound cfg (Function.update last i (some d.finalUpdateId))
          (h.setBook i applied.2) :=
        hs.replace rfl rfl ((h.books i).applyDelta_lastPublished cfg.book d)
          ((hs.books i).applyDelta hd hok)
      exact hset.serve htaken state
    · exact hset.resync state
  cases hstate : (h.books i).state with
  | INIT =>
      simp only [QuoteFeedHandler.handleDelta, hstate]
      have hbuffered : Ranged cfg (h.setBook i ((h.books i).bufferDelta d).2) := by
        refine hr.replace rfl rfl (inRange_of_not_valid ?_) fun e he => ?_
        · rw [(sameRange_bufferDelta (h.books i) d).state, hstate]
          exact BookState.noConfusion
        · obtain he | rfl := SymbolBook.bufferDelta_mem he
          · exact hr.spans i e he
          · exact hspan
      split_ifs
      · exact hbuffered.acquireAndRequest (hbuffered.inRange i) (hbuffered.spans i)
      · exact hbuffered
  | INVALID =>
      simp only [QuoteFeedHandler.handleDelta, hstate]
      refine hr.replace rfl rfl (inRange_of_not_valid BookState.noConfusion) ?_
      simp [SymbolBook.reset]
  | SYNCING => simpa only [QuoteFeedHandler.handleDelta, hstate] using hlive .SYNCING
  | VALID => simpa only [QuoteFeedHandler.handleDelta, hstate] using hlive .VALID

/-- A snapshot leaves nothing in the buffer that was not there. -/
theorem spans_onSnapshot {book : BookConfig} {s : SymbolBook K}
    (hspans : ∀ e ∈ s.deltaBuffer, Spans book.sync e) (id : Int) (bids asks : List (PriceLevel K)) :
    ∀ e ∈ (s.onSnapshot book id bids asks).2.deltaBuffer, Spans book.sync e := by
  simp only [SymbolBook.onSnapshot]
  split_ifs
  · simp [SymbolBook.finishRefresh_seq]
  · exact hspans
  all_goals simp

theorem Ranged.applyResult (hr : Ranged cfg h) (hs : Sound cfg last h) (r : SnapshotResult n K) :
    Ranged cfg (h.applyResult cfg nowMs r) := by
  obtain ⟨hin, hspans⟩ := (hr.inRange r.symIdx).giveUp (hr.spans r.symIdx)
  simp only [QuoteFeedHandler.applyResult]
  split_ifs
  · exact hr
  · exact hr.replace rfl rfl hin hspans
  · apply Ranged.noteOutcome
    exact hr.replace rfl rfl
      ((hr.inRange r.symIdx).onSnapshot (hs.books r.symIdx) (hr.spans r.symIdx) _ _ _)
      (spans_onSnapshot (hr.spans r.symIdx) _ _ _)

theorem Ranged.applySnapshotResults (hr : Ranged cfg h) (hs : Sound cfg last h) :
    Ranged cfg (h.applySnapshotResults cfg nowMs) := by
  let expired := (List.finRange n).foldl (QuoteFeedHandler.expireRequest cfg nowMs) h
  have hexpired : Ranged cfg expired ∧ Sound cfg last expired :=
    exec_invariant (P := fun h => Ranged cfg h ∧ Sound cfg last h)
      (fun _ _ hboth => ⟨hboth.1.expireRequest, hboth.2.expireRequest⟩) (List.finRange n) ⟨hr, hs⟩
  have happlied : Ranged cfg (expired.results.foldl (QuoteFeedHandler.applyResult cfg nowMs)
        { expired with results := [] }) ∧
      Sound cfg last (expired.results.foldl (QuoteFeedHandler.applyResult cfg nowMs)
        { expired with results := [] }) :=
    exec_invariant (P := fun h => Ranged cfg h ∧ Sound cfg last h)
      (fun _ r hboth => ⟨hboth.1.applyResult hboth.2 r, hboth.2.applyResult r⟩) expired.results
      ⟨hexpired.1.congr rfl rfl, hexpired.2.congr rfl rfl⟩
  exact happlied.1

omit [LinearOrder K] in
theorem heartbeat_published (hboth : Ranged cfg h ∧ Sound cfg last h) :
    Ranged cfg (h.heartbeat cfg recv nowMs i) ∧ Sound cfg last (h.heartbeat cfg recv nowMs i) := by
  obtain ⟨hr, hs⟩ := hboth
  simp only [QuoteFeedHandler.heartbeat]
  split_ifs with hvalid
  · exact ⟨hr, hs⟩
  · have hquote := getQuote_ids (by simpa using hvalid)
    exact ⟨hr.publishOwn hs,
      hs.publishQuote hs.continues_getQuote ((hs.books i).recordPublish_getQuote hquote.1)⟩

omit [LinearOrder K] in
theorem Ranged.checkPublishTimeouts (hr : Ranged cfg h) (hs : Sound cfg last h) :
    Ranged cfg (h.checkPublishTimeouts cfg recv nowMs) := by
  let due := (List.finRange n).filter fun i => (h.books i).timeoutPublishNeeded nowMs
  have hboth : Ranged cfg (due.foldl (QuoteFeedHandler.heartbeat cfg recv nowMs) h) ∧
      Sound cfg last (due.foldl (QuoteFeedHandler.heartbeat cfg recv nowMs) h) :=
    exec_invariant (P := fun h => Ranged cfg h ∧ Sound cfg last h)
      (fun _ _ hboth => heartbeat_published hboth) due ⟨hr, hs⟩
  exact hboth.1

/-- One event of a well-formed stream with ids. -/
theorem Ranged.step {e : Event n K} {es : List (Event n K)} (hr : Ranged cfg h)
    (hs : Sound cfg last h) (hwf : WellFormed cfg.book.sync last (e :: es))
    (hspan : e.Spans cfg.book.sync) : Ranged cfg (h.step cfg e) := by
  cases e with
  | connect tpConnected nowNs nowMs => exact hr.onConnect tpConnected nowNs
  | applyResults nowMs => exact hr.applySnapshotResults hs
  | message symIdx delta recv nowMs => exact hr.handleDelta hs hwf.1 hspan
  | checkTimeouts recv nowMs => exact hr.checkPublishTimeouts hs
  | worker data =>
      simp only [QuoteFeedHandler.step, QuoteFeedHandler.workerStep]
      split
      · exact hr
      · exact hr.congr rfl rfl

omit [LinearOrder K] in
theorem ranged_init (cfg : HandlerConfig n) (nowMs : Int) :
    Ranged cfg (QuoteFeedHandler.init cfg nowMs : QuoteFeedHandler n K) where
  inRange := fun _ => inRange_of_not_valid BookState.noConfusion
  spans := by simp [QuoteFeedHandler.init, SymbolBook.init]
  chain := fun _ => List.isChain_nil
  nonempty := by simp [QuoteFeedHandler.init, QuoteFeedHandler.rows]

/-- A whole run keeps all of it. -/
theorem published_exec {es : List (Event n K)} (hn : Numbered cfg h) (hs : Sound cfg last h)
    (hr : Ranged cfg h) (hwf : WellFormed cfg.book.sync last es)
    (hspans : ∀ e ∈ es, e.Spans cfg.book.sync) :
    Numbered cfg (exec (QuoteFeedHandler.step cfg) h es) ∧
      Recorded cfg (exec (QuoteFeedHandler.step cfg) h es) ∧
      Ranged cfg (exec (QuoteFeedHandler.step cfg) h es) := by
  induction es generalizing h last with
  | nil => exact ⟨hn, hs.toRecorded, hr⟩
  | cons e es ih =>
      obtain ⟨last', hs', hwf'⟩ := hs.step hwf
      have hr' := hr.step hs hwf (hspans e List.mem_cons_self)
      exact ih (hn.step e) hs' hr' hwf' fun e' he' => hspans e' (List.mem_cons_of_mem e he')

end Step

/-- In every run on a well-formed stream of events with ids, every valid row has a range that is
not empty, and of two consecutive rows of a symbol that are both valid the second repeats the ids
of the first or starts after them. -/
theorem published_ranges_apart [LinearOrder K] [Zero K] (cfg : HandlerConfig n) (startMs : Int)
    (es : List (Event n K)) (hwf : WellFormed cfg.book.sync (fun _ => none) es)
    (hspans : ∀ e ∈ es, e.Spans cfg.book.sync) (i : Fin n) :
    let rows := (exec (QuoteFeedHandler.step cfg) (QuoteFeedHandler.init cfg startMs) es).rows i
    (∀ q ∈ rows, q.isValid = true → q.exchFirstUpdateId ≤ q.exchUpdateId) ∧
      rows.IsChain fun p q => p.isValid = true → q.isValid = true →
        Advances cfg.book.sync p q := by
  obtain ⟨-, -, hranged⟩ := published_exec (numbered_init cfg startMs) (sound_init fun _ => none)
    (ranged_init cfg startMs) hwf hspans
  exact ⟨hranged.nonempty i, hranged.chain i⟩

theorem spans_sampleEvents : ∀ e ∈ sampleEvents, e.Spans sampleConfig.book.sync := by
  simp [sampleEvents, Event.Spans, Spans, sampleConfig, BookConfig.oneLevel]

theorem published_ranges_apart_sample :
    let rows := (exec (QuoteFeedHandler.step sampleConfig)
      (QuoteFeedHandler.init sampleConfig 0) sampleEvents).rows 0
    (∀ q ∈ rows, q.isValid = true → q.exchFirstUpdateId ≤ q.exchUpdateId) ∧
      rows.IsChain fun p q => p.isValid = true → q.isValid = true → Advances .Spot p q :=
  published_ranges_apart sampleConfig 0 sampleEvents
    (by simp [WellFormed, Follows, sampleEvents, sampleConfig, BookConfig.oneLevel])
    spans_sampleEvents 0

end TickToSignal.Quote
