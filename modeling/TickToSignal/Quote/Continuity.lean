import TickToSignal.Quote.Handler
import TickToSignal.Quote.UpdateIds
import TickToSignal.Foundation.Machine

/-!
# Two valid rows in a row continue each other

A run of the handler is a list of events whose depth messages are, per symbol
and per connection, a chain with losses. The invariant joins each symbol's
`Continuous` book to the rows published for it; every event keeps it, so the
rows of a symbol form a chain under the checker's rule wherever two valid ones
stand next to each other.
-/

namespace TickToSignal.Quote

open OrderBook Foundation

variable {n : Nat} {K : Type*}

/-- Depth messages of each connection are a chain with losses, starting from the
last event of each symbol; the publisher's connection is up at every connect. -/
def WellFormed (sync : DepthSync) : (Fin n → Option Int) → List (Event n K) → Prop
  | _, [] => True
  | last, e :: es =>
      match e with
      | .connect tpConnected _ _ =>
          tpConnected = true ∧ WellFormed sync (fun _ => none) es
      | .message symIdx delta _ _ =>
          Follows sync (last symIdx) delta ∧
            WellFormed sync (Function.update last symIdx (some delta.finalUpdateId)) es
      | _ => WellFormed sync last es

/-- Two rows of one symbol: when both are valid, the second continues the first. -/
def Continues (sync : DepthSync) (p q : BookQuote K) : Prop :=
  p.isValid = true → q.isValid = true → cont sync p q = true

/-- The rows published so far, and each book's memory of its last one. -/
structure Recorded (cfg : HandlerConfig n) (h : QuoteFeedHandler n K) : Prop where
  chain : ∀ i, (h.rows i).IsChain (Continues cfg.book.sync)
  tip : ∀ i, (h.rows i).getLast? = (h.books i).lastPublished

/-- The invariant of a run; `last` is the last event each symbol's connection delivered. -/
structure Sound (cfg : HandlerConfig n) (last : Fin n → Option Int) (h : QuoteFeedHandler n K) :
    Prop extends Recorded cfg h where
  books : ∀ i, Continuous cfg.book (last i) (h.books i)

section Rows
variable {cfg : HandlerConfig n} {h h' : QuoteFeedHandler n K} {i : Fin n} {q : BookQuote K}
  {last : Fin n → Option Int} {nowMs : Int}

theorem Recorded.congr (hrec : Recorded cfg h) (hp : h'.published = h.published)
    (hb : ∀ i, (h'.books i).lastPublished = (h.books i).lastPublished) : Recorded cfg h' where
  chain := by
    intro i
    simpa only [QuoteFeedHandler.rows, hp] using hrec.chain i
  tip := by
    intro i
    simpa only [QuoteFeedHandler.rows, hp, hb] using hrec.tip i

theorem rows_publishQuote (h : QuoteFeedHandler n K) (i j : Fin n) (q : BookQuote K)
    (nowMs : Int) :
    (h.publishQuote i q nowMs).rows j = if i = j then h.rows j ++ [q] else h.rows j := by
  simp only [QuoteFeedHandler.rows, QuoteFeedHandler.publishQuote, List.filter_append,
    List.map_append]
  split_ifs with hij <;> simp [hij]

/-- A row that continues the last one keeps every symbol's rows a chain. -/
theorem Recorded.publishQuote (hrec : Recorded cfg h)
    (hq : ∀ p ∈ (h.books i).lastPublished, Continues cfg.book.sync p q) :
    Recorded cfg (h.publishQuote i q nowMs) where
  chain := by
    intro j
    rw [rows_publishQuote]
    split_ifs with hij
    · apply (hrec.chain j).append (List.isChain_singleton q)
      intro p hp r hr
      obtain rfl : q = r := by simpa using hr
      rw [hrec.tip j, ← hij] at hp
      exact hq p hp
    · exact hrec.chain j
  tip := by
    intro j
    rw [rows_publishQuote]
    split_ifs with hij
    · subst hij
      simp [QuoteFeedHandler.publishQuote, SymbolBook.recordPublish]
    · simpa [QuoteFeedHandler.publishQuote, Function.update_of_ne (Ne.symm hij)] using hrec.tip j

/-- One book replaced, nothing published. -/
theorem Sound.replace {s : SymbolBook K} {l : Option Int} (hs : Sound cfg last h)
    (hp : h'.published = h.published) (hb : h'.books = Function.update h.books i s)
    (hlp : s.lastPublished = (h.books i).lastPublished) (hc : Continuous cfg.book l s) :
    Sound cfg (Function.update last i l) h' where
  toRecorded := by
    apply hs.toRecorded.congr hp
    intro j
    rw [hb]
    by_cases hij : j = i
    · subst hij
      simpa using hlp
    · rw [Function.update_of_ne hij]
  books := by
    intro j
    rw [hb]
    by_cases hij : j = i
    · subst hij
      simpa using hc
    · rw [Function.update_of_ne hij, Function.update_of_ne hij]
      exact hs.books j

/-- The same when the symbol's last event stays the last. -/
theorem Sound.modify {s : SymbolBook K} (hs : Sound cfg last h)
    (hp : h'.published = h.published) (hb : h'.books = Function.update h.books i s)
    (hlp : s.lastPublished = (h.books i).lastPublished)
    (hc : Continuous cfg.book (last i) s) : Sound cfg last h' := by
  simpa using hs.replace hp hb hlp hc

/-- Nothing that the invariant mentions has changed. -/
theorem Sound.congr (hs : Sound cfg last h) (hp : h'.published = h.published)
    (hb : h'.books = h.books) : Sound cfg last h' where
  toRecorded := hs.toRecorded.congr hp fun i => by rw [hb]
  books := fun i => hb ▸ hs.books i

/-- A published row that continues the last one. -/
theorem Sound.publishQuote (hs : Sound cfg last h)
    (hq : ∀ p ∈ (h.books i).lastPublished, Continues cfg.book.sync p q)
    (hc : Continuous cfg.book (last i) ((h.books i).recordPublish nowMs q)) :
    Sound cfg last (h.publishQuote i q nowMs) where
  toRecorded := hs.toRecorded.publishQuote hq
  books := by
    intro j
    simp only [QuoteFeedHandler.publishQuote]
    by_cases hij : j = i
    · subst hij
      simpa using hc
    · rw [Function.update_of_ne hij]
      exact hs.books j

theorem Sound.acquireAndRequest (hs : Sound cfg last h) {start : SymbolBook K → SymbolBook K}
    (hc : Continuous cfg.book (last i) (start (h.books i)))
    (hlp : (start (h.books i)).lastPublished = (h.books i).lastPublished) :
    Sound cfg last (h.acquireAndRequest cfg i nowMs start) := by
  simp only [QuoteFeedHandler.acquireAndRequest]
  split_ifs
  · refine hs.modify (i := i) (s := (start (h.books i)).setSnapshotRequested true) rfl ?_ hlp
      (hc.setSnapshotRequested true)
    simp [QuoteFeedHandler.requestSnapshot, QuoteFeedHandler.setBook]
  · exact hs.congr rfl rfl

end Rows

section Publish
variable [Zero K] {cfg : HandlerConfig n} {h : QuoteFeedHandler n K}
  {i : Fin n} {last : Fin n → Option Int} {recv nowMs : Int}

/-- A book's own valid quote continues its last row. -/
theorem Sound.continues_getQuote (hs : Sound cfg last h) {seqNo : Int} :
    ∀ p ∈ (h.books i).lastPublished,
      Continues cfg.book.sync p ((h.books i).getQuote cfg.book recv seqNo) :=
  fun _ hp hpv hq => (hs.books i).cont_getQuote hp hpv hq

theorem Sound.publishInvalid (hs : Sound cfg last h) :
    Sound cfg last (h.publishInvalid cfg i recv nowMs) := by
  apply hs.publishQuote
  · intro p _ _ hq
    simp [QuoteFeedHandler.invalidQuote] at hq
  · exact (hs.books i).recordPublish_invalid rfl

/-- A book that failed: one invalid row, then a reset. -/
theorem Sound.resync {s : SymbolBook K} {l : Option Int} (hs : Sound cfg last h)
    (hlp : s.lastPublished = (h.books i).lastPublished) (state : BookState) :
    Sound cfg (Function.update last i l) ((h.setBook i s).resync cfg i state recv nowMs) := by
  have hbroken : Recorded cfg (h.setBook i s) := by
    refine hs.toRecorded.congr rfl fun j => ?_
    by_cases hij : j = i
    · subst hij
      simpa [QuoteFeedHandler.setBook] using hlp
    · simp [QuoteFeedHandler.setBook, Function.update_of_ne hij]
  simp only [QuoteFeedHandler.resync]
  generalize hcounted : ({ (if state = .VALID then _ else _ : QuoteFeedHandler n K) with
    ctrResyncs := _ } : QuoteFeedHandler n K) = counted
  have hpub : counted.published = (h.setBook i s).published := by
    subst hcounted
    split_ifs <;> rfl
  have hbooks : counted.books = Function.update h.books i s := by
    subst hcounted
    split_ifs <;> rfl
  have hmarked : Recorded cfg (counted.publishInvalid cfg i recv nowMs) := by
    apply Recorded.publishQuote (hbroken.congr hpub fun j => by rw [hbooks]; rfl)
    intro p _ _ hq
    simp [QuoteFeedHandler.invalidQuote] at hq
  constructor
  · refine hmarked.congr rfl fun j => ?_
    by_cases hij : j = i
    · subst hij
      simp [QuoteFeedHandler.setBook, SymbolBook.reset]
    · simp [QuoteFeedHandler.setBook, Function.update_of_ne hij]
  · intro j
    by_cases hij : j = i
    · subst hij
      simp only [QuoteFeedHandler.setBook, Function.update_self]
      apply continuous_reset
      simp [QuoteFeedHandler.publishInvalid, QuoteFeedHandler.publishQuote,
        QuoteFeedHandler.invalidQuote, SymbolBook.lastPublishedValid, SymbolBook.recordPublish]
    · simpa [QuoteFeedHandler.setBook, QuoteFeedHandler.publishInvalid,
        QuoteFeedHandler.publishQuote, Function.update_of_ne hij, hbooks] using hs.books j

end Publish

section Step
variable [LinearOrder K] [Zero K] {cfg : HandlerConfig n} {h : QuoteFeedHandler n K}
  {i : Fin n} {last : Fin n → Option Int} {recv nowMs : Int} {d : BufferedDelta K}

theorem Sound.maybePublish (hs : Sound cfg last h) (hvalid : (h.books i).state = .VALID) :
    Sound cfg last (h.maybePublish cfg i recv nowMs) := by
  simp only [QuoteFeedHandler.maybePublish]
  split_ifs
  · exact hs.publishQuote hs.continues_getQuote ((hs.books i).recordPublish_getQuote hvalid)
  · exact hs

omit [LinearOrder K] [Zero K] in
/-- A refresh is only begun on a valid book. -/
theorem Sound.refreshIfWanted (hs : Sound cfg last h) :
    Sound cfg last
      (if (h.books i).wantsRefresh cfg.book then
        h.acquireAndRequest cfg i nowMs SymbolBook.beginRefresh
      else h) := by
  split_ifs with hwants
  · have hvalid : (h.books i).state = .VALID := by
      simp only [SymbolBook.wantsRefresh, Bool.and_eq_true, decide_eq_true_eq] at hwants
      exact hwants.1.1.1
    exact hs.acquireAndRequest ((hs.books i).beginRefresh hvalid) rfl
  · exact hs

/-- A book that took an event. -/
theorem Sound.serve (hs : Sound cfg last h) (state : BookState) :
    Sound cfg last (h.serve cfg i state recv nowMs) := by
  unfold QuoteFeedHandler.serve
  by_cases hvalid : (h.books i).state = .VALID
  · have hnoted : Sound cfg last
        (if state = .SYNCING then { h with snapshotScheduler := h.snapshotScheduler.onSynced i }
        else h) := by
      split_ifs
      · exact hs.congr rfl rfl
      · exact hs
    have hstill : ((if state = .SYNCING then
        { h with snapshotScheduler := h.snapshotScheduler.onSynced i }
        else h).books i).state = .VALID := by
      split_ifs <;> exact hvalid
    simpa [SymbolBook.isValid, hvalid] using (hnoted.maybePublish hstill).refreshIfWanted
  · simpa [SymbolBook.isValid, hvalid] using hs

/-- A depth event of the symbol's stream. -/
theorem Sound.handleDelta (hs : Sound cfg last h) (hd : Follows cfg.book.sync (last i) d) :
    Sound cfg (Function.update last i (some d.finalUpdateId))
      (h.handleDelta cfg i d recv nowMs) := by
  let applied := (h.books i).applyDelta cfg.book d
  have hlp : applied.2.lastPublished = (h.books i).lastPublished :=
    (h.books i).applyDelta_lastPublished cfg.book d
  have hlive : ∀ state, Sound cfg (Function.update last i (some d.finalUpdateId))
      (if applied.1 then (h.setBook i applied.2).serve cfg i state recv nowMs
      else (h.setBook i applied.2).resync cfg i state recv nowMs) := by
    intro state
    split_ifs with hok
    · have htaken : Sound cfg (Function.update last i (some d.finalUpdateId))
          (h.setBook i applied.2) := hs.replace rfl rfl hlp ((hs.books i).applyDelta hd hok)
      exact htaken.serve state
    · exact hs.resync hlp state
  cases hstate : (h.books i).state with
  | INIT =>
      simp only [QuoteFeedHandler.handleDelta, hstate]
      have hbuffered : Sound cfg (Function.update last i (some d.finalUpdateId))
          (h.setBook i ((h.books i).bufferDelta d).2) :=
        hs.replace rfl rfl (by simp) ((hs.books i).bufferDelta hstate hd)
      split_ifs
      · exact hbuffered.acquireAndRequest (hbuffered.books i) rfl
      · exact hbuffered
  | INVALID =>
      simp only [QuoteFeedHandler.handleDelta, hstate]
      exact hs.replace rfl rfl rfl (continuous_reset ((hs.books i).marked (by simp [hstate])))
  | SYNCING => simpa only [QuoteFeedHandler.handleDelta, hstate] using hlive .SYNCING
  | VALID => simpa only [QuoteFeedHandler.handleDelta, hstate] using hlive .VALID

omit [LinearOrder K] [Zero K] in
theorem Sound.expireRequest (hs : Sound cfg last h) :
    Sound cfg last (h.expireRequest cfg nowMs i) := by
  simp only [QuoteFeedHandler.expireRequest]
  split_ifs
  · exact hs.modify rfl rfl (by simp [SymbolBook.setSnapshotRequested])
      ((hs.books i).cancelRefresh.setSnapshotRequested false)
  · exact hs

omit [LinearOrder K] [Zero K] in
theorem Sound.noteOutcome (hs : Sound cfg last h) (outcome : SnapshotOutcome) :
    Sound cfg last (h.noteOutcome cfg nowMs i outcome) := by
  cases outcome <;> exact hs.congr rfl rfl

/-- A snapshot result, stale, failed or any snapshot at all. -/
theorem Sound.applyResult (hs : Sound cfg last h) (r : SnapshotResult n K) :
    Sound cfg last (h.applyResult cfg nowMs r) := by
  simp only [QuoteFeedHandler.applyResult]
  split_ifs
  · exact hs
  · exact hs.modify rfl rfl (by simp [SymbolBook.setSnapshotRequested])
      ((hs.books r.symIdx).cancelRefresh.setSnapshotRequested false)
  · apply Sound.noteOutcome
    exact hs.modify rfl rfl (by simp) ((hs.books r.symIdx).onSnapshot _ _ _)

theorem Sound.applySnapshotResults (hs : Sound cfg last h) :
    Sound cfg last (h.applySnapshotResults cfg nowMs) := by
  have hexpired : Sound cfg last
      ((List.finRange n).foldl (QuoteFeedHandler.expireRequest cfg nowMs) h) :=
    exec_invariant (fun _ _ hs => hs.expireRequest) _ hs
  exact exec_invariant (fun _ r hs => hs.applyResult r) _ (hexpired.congr rfl rfl)

omit [LinearOrder K] in
theorem Sound.checkPublishTimeouts (hs : Sound cfg last h) :
    Sound cfg last (h.checkPublishTimeouts cfg recv nowMs) := by
  refine exec_invariant (fun h i hs => ?_) _ hs
  simp only [QuoteFeedHandler.heartbeat]
  split_ifs with hvalid
  · exact hs
  · have hquote := getQuote_ids (by simpa using hvalid)
    exact hs.publishQuote hs.continues_getQuote ((hs.books i).recordPublish_getQuote hquote.1)

omit [LinearOrder K] in
/-- Marking the hole of one symbol leaves no valid last row there, and undoes no other mark. -/
theorem markHole_lastPublishedValid (h : QuoteFeedHandler n K) (i j : Fin n) (nowNs : Int)
    (hj : i = j ∨ (h.books j).lastPublishedValid = false) :
    ((h.markHole cfg nowNs nowMs i).books j).lastPublishedValid = false := by
  simp only [QuoteFeedHandler.markHole]
  split_ifs with hvalid
  · by_cases hij : j = i
    · subst hij
      simp [QuoteFeedHandler.publishInvalid, QuoteFeedHandler.publishQuote,
        QuoteFeedHandler.invalidQuote, SymbolBook.recordPublish, SymbolBook.lastPublishedValid]
    · have hkept := hj.resolve_left (Ne.symm hij)
      simpa [QuoteFeedHandler.publishInvalid, QuoteFeedHandler.publishQuote,
        Function.update_of_ne hij] using hkept
  · rcases hj with rfl | hj
    · simpa using hvalid
    · exact hj

omit [LinearOrder K] in
/-- A new connection: no valid row lies behind the books that are reset. -/
theorem Sound.onConnect (hs : Sound cfg last h) (nowNs : Int) :
    Sound cfg (fun _ => none) (h.onConnect cfg true nowNs nowMs) := by
  have hmark : Sound cfg last
      ((List.finRange n).foldl (QuoteFeedHandler.markHole cfg nowNs nowMs) h) := by
    refine exec_invariant (fun h i hs => ?_) (List.finRange n) hs
    simp only [QuoteFeedHandler.markHole]
    split_ifs
    · exact hs.publishInvalid
    · exact hs
  have hmarked : ∀ i ∈ List.finRange n,
      (((List.finRange n).foldl (QuoteFeedHandler.markHole cfg nowNs nowMs) h).books
        i).lastPublishedValid = false :=
    exec_establishes (fun h i j hj => markHole_lastPublishedValid h i j nowNs (Or.inr hj))
      (fun h i => markHole_lastPublishedValid h i i nowNs (Or.inl rfl))
  constructor
  · exact hmark.toRecorded.congr rfl fun i => rfl
  · exact fun i => continuous_reset (hmarked i (List.mem_finRange i))

/-- One event of a well-formed stream, and the stream that is left. -/
theorem Sound.step {e : Event n K} {es : List (Event n K)} (hs : Sound cfg last h)
    (hwf : WellFormed cfg.book.sync last (e :: es)) :
    ∃ last', Sound cfg last' (h.step cfg e) ∧ WellFormed cfg.book.sync last' es := by
  cases e with
  | connect tpConnected nowNs nowMs =>
      obtain ⟨rfl, hrest⟩ := hwf
      exact ⟨_, hs.onConnect nowNs, hrest⟩
  | applyResults nowMs => exact ⟨_, hs.applySnapshotResults, hwf⟩
  | message symIdx delta recv nowMs => exact ⟨_, hs.handleDelta hwf.1, hwf.2⟩
  | checkTimeouts recv nowMs => exact ⟨_, hs.checkPublishTimeouts, hwf⟩
  | worker data =>
      refine ⟨last, ?_, hwf⟩
      simp only [QuoteFeedHandler.step, QuoteFeedHandler.workerStep]
      split
      · exact hs
      · exact hs.congr rfl rfl

/-- A whole run keeps the invariant. -/
theorem Sound.exec {es : List (Event n K)} (hs : Sound cfg last h)
    (hwf : WellFormed cfg.book.sync last es) :
    ∃ last', Sound cfg last' (Foundation.exec (QuoteFeedHandler.step cfg) h es) := by
  induction es generalizing h last with
  | nil => exact ⟨last, hs⟩
  | cons e es ih =>
      obtain ⟨last', hs', hwf'⟩ := hs.step hwf
      exact ih hs' hwf'

omit [LinearOrder K] in
theorem sound_init (last : Fin n → Option Int) :
    Sound cfg last (QuoteFeedHandler.init cfg nowMs : QuoteFeedHandler n K) where
  chain := fun _ => List.isChain_nil
  tip := fun _ => rfl
  books := fun _ => continuous_init _ _

end Step

/-- Published-row continuity: in every run on a well-formed stream, any two
consecutive rows of a symbol that are both valid satisfy the checker's rule. -/
theorem published_rows_continue [LinearOrder K] [Zero K] (cfg : HandlerConfig n)
    (startMs : Int) (es : List (Event n K))
    (hwf : WellFormed cfg.book.sync (fun _ => none) es) (i : Fin n) :
    ((exec (QuoteFeedHandler.step cfg) (QuoteFeedHandler.init cfg startMs) es).rows i).IsChain
      fun p q => p.isValid = true → q.isValid = true → cont cfg.book.sync p q = true := by
  obtain ⟨last, hs⟩ := (sound_init (fun _ => none)).exec hwf
  exact hs.chain i

def sampleConfig : HandlerConfig 1 :=
  { book := .oneLevel
    schedCfg := { jitter := fun _ => 0 }
    symbolsUpper := fun _ => "BTCUSDT" }

/-- A connection on which a snapshot is fetched, bridged and followed by one more event. -/
def sampleEvents : List (Event 1 Int) :=
  [.connect true 0 1,
    .message 0 { firstUpdateId := 10, finalUpdateId := 10, bids := [], asks := [] } 0 2,
    .worker { lastUpdateId := 10, bids := [⟨100, 1⟩], asks := [⟨101, 1⟩], success := true },
    .applyResults 3,
    .message 0 { firstUpdateId := 11, finalUpdateId := 11, bids := [⟨100, 3⟩], asks := [] } 0 4,
    .message 0 { firstUpdateId := 12, finalUpdateId := 13, bids := [⟨100, 4⟩], asks := [] } 0 5]

theorem rows_of_sampleEvents :
    let h := exec (QuoteFeedHandler.step sampleConfig) (QuoteFeedHandler.init sampleConfig 0)
      sampleEvents
    (h.rows 0).map (fun q => (q.isValid, q.exchFirstUpdateId, q.exchUpdateId)) =
        [(true, 11, 11), (true, 12, 13)] ∧
      (h.rows 0).IsChain fun p q =>
        p.isValid = true → q.isValid = true → cont .Spot p q = true := by
  constructor
  · decide +kernel
  · exact published_rows_continue sampleConfig 0 sampleEvents
      (by simp [WellFormed, Follows, sampleEvents, sampleConfig, BookConfig.oneLevel]) 0

end TickToSignal.Quote
