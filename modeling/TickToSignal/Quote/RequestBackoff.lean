import TickToSignal.Quote.RequestEffects

/-!
# Backoff between the requests of one symbol

A failed request must keep its symbol waiting. Between the failure and the next
request nothing is expected for the symbol: no result of an older request is
accepted any more, so none can make the scheduler forget the failure (`Waiting`).

The one failure the scheduler never hears of is a refresh snapshot that is held
until the stream reaches it and then dropped: the book drops it by itself.

## Implementation notes

A failure is described by what happens to the request, not by the calls to the
scheduler. It becomes known when the result is read, when the timeout check
finds the request overdue, or with the event that does not bridge. A result that
is discarded as stale is not read.
-/

namespace TickToSignal.OrderBook.SymbolBook

variable {K : Type*}

/-- A refresh snapshot is held, and the stream does not bridge to it. -/
def DropsShadow (cfg : BookConfig) (s : SymbolBook K) (d : BufferedDelta K) : Prop :=
  s.shadow.pending = true ∧ (checkSequence cfg.sync s.shadow.seq d).1 = .FAIL

instance (cfg : BookConfig) (s : SymbolBook K) (d : BufferedDelta K) :
    Decidable (s.DropsShadow cfg d) :=
  inferInstanceAs (Decidable (_ ∧ _))

end TickToSignal.OrderBook.SymbolBook

namespace TickToSignal.Quote

open OrderBook Foundation

variable {n : Nat} {K : Type*} [LinearOrder K] [Zero K]

/-! ## Failures, grants, and what is promised -/

namespace QuoteFeedHandler

/-- The result is read, and reports a failed fetch or a snapshot that does not bridge. -/
def reportsFailure (cfg : HandlerConfig n) (h : QuoteFeedHandler n K) (r : SnapshotResult n K) :
    Bool :=
  let outcome := ((h.books r.symIdx).onSnapshot cfg.book r.data.lastUpdateId
    r.data.bids r.data.asks).1
  decide (h.latestRequestId r.symIdx ≤ r.requestId) &&
    (!r.data.success || decide (outcome = .SYNC_FAILED) || decide (outcome = .REFRESH_FAILED))

/-- The results among `rs` that report a failure when they are drained in order. -/
def failing (cfg : HandlerConfig n) (nowMs : Int) :
    QuoteFeedHandler n K → List (SnapshotResult n K) → List (SnapshotResult n K)
  | _, [] => []
  | h, r :: rs =>
      if h.reportsFailure cfg r then r :: failing cfg nowMs (h.applyResult cfg nowMs r) rs
      else failing cfg nowMs (h.applyResult cfg nowMs r) rs

/-- The results that one drain finds to have failed. -/
def failedResults (cfg : HandlerConfig n) (h : QuoteFeedHandler n K) (nowMs : Int) :
    List (SnapshotResult n K) :=
  failing cfg nowMs { (List.finRange n).foldl (expireRequest cfg nowMs) h with results := [] }
    ((List.finRange n).foldl (expireRequest cfg nowMs) h).results

end QuoteFeedHandler

/-- The wait after a failure is never shorter than the first one. -/
structure SnapshotSchedulerConfig.Patient (c : SnapshotSchedulerConfig) : Prop where
  initial_nonneg : 0 ≤ c.initialBackoffMs
  initial_le_max : c.initialBackoffMs ≤ c.maxBackoffMs
  fraction_nonneg : 0 ≤ c.jitterFraction
  jitter_nonneg : ∀ k, 0 ≤ c.jitter k

namespace Protocol

/-- With this event it becomes known that a request of the symbol has failed. -/
inductive FailureKnown (cfg : HandlerConfig n) (w : Protocol n K) :
    ProtocolEvent n K → Fin n → Int → Prop
  | timedOut {i : Fin n} {nowMs : Int} (overdue : w.handler.Overdue nowMs i) :
      FailureKnown cfg w (.loop (.applyResults nowMs)) i nowMs
  | reported {r : SnapshotResult n K} {nowMs : Int} (hr : r ∈ w.handler.failedResults cfg nowMs) :
      FailureKnown cfg w (.loop (.applyResults nowMs)) r.symIdx nowMs
  | unbridged {i : Fin n} {d : BufferedDelta K} {recv nowMs : Int}
      (syncing : (w.handler.books i).state = .SYNCING)
      (refused : ((w.handler.books i).applyDelta cfg.book d).1 = false) :
      FailureKnown cfg w (.loop (.message i d recv nowMs)) i nowMs
  | dropped {i : Fin n} {d : BufferedDelta K} {recv nowMs : Int}
      (drops : (w.handler.books i).DropsShadow cfg.book d) :
      FailureKnown cfg w (.loop (.message i d recv nowMs)) i nowMs

/-- With this event a request of the symbol is granted and sent. -/
inductive Grants (cfg : HandlerConfig n) (w : Protocol n K) :
    ProtocolEvent n K → Fin n → Int → Prop
  | sent {i : Fin n} {d : BufferedDelta K} {recv nowMs : Int}
      (granted : (w.handler.handleDelta cfg i d recv nowMs).nextRequestId
        ≠ w.handler.nextRequestId) :
      Grants cfg w (.loop (.message i d recv nowMs)) i nowMs

/-- No held refresh snapshot of the symbol is dropped by this event. -/
def KeepsShadow (cfg : HandlerConfig n) (i : Fin n) (w : Protocol n K) :
    ProtocolEvent n K → Prop
  | .loop (.message j d _ _) => j = i → ¬ (w.handler.books i).DropsShadow cfg.book d
  | _ => True

/-- Whenever a request of the symbol turns out to have failed, the next one granted comes no
sooner than the initial backoff. -/
def BackoffKept (cfg : HandlerConfig n) (i : Fin n) (w : Protocol n K)
    (es : List (ProtocolEvent n K)) : Prop :=
  ∀ pre e post t, es = pre ++ e :: post → FailureKnown cfg (exec (step cfg) w pre) e i t →
    ∀ mid e' rest t', e :: post = mid ++ e' :: rest →
      Admits (step cfg) (fun w x => ∀ t, ¬ Grants cfg w x i t) (exec (step cfg) w pre) mid →
      Grants cfg (exec (step cfg) w (pre ++ mid)) e' i t' →
        t + cfg.schedCfg.initialBackoffMs ≤ t'

end Protocol

/-! ## The invariant of one symbol -/

/-- No result is expected for the symbol: those that may still arrive are stale. -/
structure Settled (i : Fin n) (h : QuoteFeedHandler n K) (out : List (Fin n × Nat)) : Prop where
  requestedAt : h.snapshotRequestedAtMs i = 0
  stale : ∀ id, (i, id) ∈ out → id < h.latestRequestId i

/-- Every request has at most one result to come, and a book that waits for its bridge has had
its own. -/
structure Sole (i : Fin n) (h : QuoteFeedHandler n K) (out : List (Fin n × Nat)) : Prop where
  once : (out.map (·.2)).Nodup
  le_next : ∀ p ∈ out, p.2 ≤ h.nextRequestId
  le_latest : ∀ id, (i, id) ∈ out → id ≤ h.latestRequestId i
  syncing : (h.books i).state = .SYNCING → Settled i h out

/-- The symbol is kept waiting until a deadline, and nothing can make the scheduler forget it. -/
structure Waiting (i : Fin n) (deadline : Int) (h : QuoteFeedHandler n K)
    (out : List (Fin n × Nat)) : Prop extends Settled i h out where
  deadline_le : deadline ≤ h.snapshotScheduler.nextAllowedMs i
  not_syncing : (h.books i).state ≠ .SYNCING

section
variable {h h' : QuoteFeedHandler n K} {i j : Fin n} {nowMs recv deadline : Int}
  {out out' : List (Fin n × Nat)} {cfg : HandlerConfig n}

omit [LinearOrder K] [Zero K]

theorem Settled.calm (hset : Settled i h out) (hc : Calm i h h') : Settled i h' out where
  requestedAt := hc.requestedAt.trans hset.requestedAt
  stale := by
    rw [hc.latest]
    exact hset.stale

theorem Settled.subset (hset : Settled i h out) (hout : out' ⊆ out) : Settled i h out' :=
  ⟨hset.requestedAt, fun id hid => hset.stale id (hout hid)⟩

theorem Waiting.calm (hw : Waiting i deadline h out) (hc : Calm i h h') :
    Waiting i deadline h' out where
  __ := hw.toSettled.calm hc
  deadline_le := hc.nextAllowed ▸ hw.deadline_le
  not_syncing := fun hs => hw.not_syncing (hc.syncing hs)

theorem Waiting.subset (hw : Waiting i deadline h out) (hout : out' ⊆ out) :
    Waiting i deadline h out' where
  __ := hw
  stale := (hw.toSettled.subset hout).stale

theorem Sole.subperm (hs : Sole i h out) (hout : out'.Subperm out) : Sole i h out' where
  once := by
    obtain ⟨l, hperm, hsub⟩ := hout
    have hl : (l.map (·.2)).Nodup := hs.once.sublist (hsub.map _)
    exact (hperm.map (·.2)).nodup_iff.mp hl
  le_next := fun p hp => hs.le_next p (hout.subset hp)
  le_latest := fun id hid => hs.le_latest id (hout.subset hid)
  syncing := fun hsync => (hs.syncing hsync).subset hout.subset

theorem Sole.calm (hs : Sole i h out) (hc : Calm i h h')
    (hnext : h'.nextRequestId = h.nextRequestId) : Sole i h' out where
  once := hs.once
  le_next := hnext ▸ hs.le_next
  le_latest := hc.latest ▸ hs.le_latest
  syncing := fun hsync => (hs.syncing (hc.syncing hsync)).calm hc

/-- A request of another symbol has an id of its own. -/
theorem Sole.asked_other (hs : Sole i h out) (ha : Asked j nowMs h h') (hc : Calm i h h')
    (hij : i ≠ j) : Sole i h' ((j, h.nextRequestId + 1) :: out) := by
  have hmem : ∀ id, (i, id) ∈ (j, h.nextRequestId + 1) :: out → (i, id) ∈ out := by
    intro id hid
    obtain heq | hid := List.mem_cons.mp hid
    · exact absurd (Prod.ext_iff.mp heq).1 hij
    · exact hid
  constructor
  · rw [List.map_cons, List.nodup_cons]
    refine ⟨fun hin => ?_, hs.once⟩
    obtain ⟨p, hp, hid⟩ := List.mem_map.mp hin
    have hle := hs.le_next p hp
    omega
  · intro p hp
    rw [ha.next]
    obtain rfl | hp := List.mem_cons.mp hp
    · exact Nat.le_refl _
    · exact Nat.le_succ_of_le (hs.le_next p hp)
  · intro id hid
    rw [hc.latest]
    exact hs.le_latest id (hmem id hid)
  · intro hsync
    have hset := (hs.syncing (hc.syncing hsync)).calm hc
    exact ⟨hset.requestedAt, fun id hid => hset.stale id (hmem id hid)⟩

/-- A request of the symbol is newer than all that are outstanding. -/
theorem Sole.asked_self (hs : Sole i h out) (ha : Asked i nowMs h h')
    (hsync : (h'.books i).state ≠ .SYNCING) : Sole i h' ((i, h.nextRequestId + 1) :: out) := by
  have hle : ∀ p ∈ (i, h.nextRequestId + 1) :: out, p.2 ≤ h.nextRequestId + 1 := by
    intro p hp
    obtain rfl | hp := List.mem_cons.mp hp
    · exact Nat.le_refl _
    · exact Nat.le_succ_of_le (hs.le_next p hp)
  constructor
  · rw [List.map_cons, List.nodup_cons]
    refine ⟨fun hin => ?_, hs.once⟩
    obtain ⟨p, hp, hid⟩ := List.mem_map.mp hin
    have hold := hs.le_next p hp
    omega
  · rw [ha.next]
    exact hle
  · intro id hid
    rw [ha.latest, Function.update_self]
    exact hle (i, id) hid
  · exact fun h' => absurd h' hsync

end

/-- A reported failure sets a deadline for its own symbol. -/
theorem deadline_onFailure {c : SnapshotSchedulerConfig} (hc : c.Patient) (s : SnapshotScheduler n)
    (i : Fin n) (nowMs httpStatus retryAfterSec usedWeight1m : Int) :
    nowMs + c.initialBackoffMs
      ≤ (s.onFailure c i nowMs httpStatus retryAfterSec usedWeight1m).nextAllowedMs i := by
  have hfirst : c.delay 1 = c.initialBackoffMs := by
    simp [SnapshotSchedulerConfig.delay, hc.initial_le_max]
  have hlonger : c.delay 1 ≤ c.delay (s.failures i + 1) :=
    SnapshotScheduler.delay_le_delay (Nat.le_add_left 1 _) hc.initial_nonneg
  have hwait := SnapshotScheduler.delay_le_backoff hc.fraction_nonneg
    (hc.jitter_nonneg s.failuresTotal) hc.initial_nonneg
    ((hfirst ▸ hc.initial_nonneg).trans hlonger)
  rw [(SnapshotScheduler.onFailure_backoff c s i nowMs httpStatus retryAfterSec usedWeight1m).2,
    Function.update_self]
  omega

section
variable {h h' : QuoteFeedHandler n K} {i j : Fin n} {nowMs recv deadline : Int}
  {out out' : List (Fin n × Nat)} {cfg : HandlerConfig n}

theorem nextAllowed_onFailure_other (hij : i ≠ j) (s : SnapshotScheduler n)
    (c : SnapshotSchedulerConfig) (nowMs httpStatus retryAfterSec usedWeight1m : Int) :
    (s.onFailure c j nowMs httpStatus retryAfterSec usedWeight1m).nextAllowedMs i
      = s.nextAllowedMs i := by
  rw [(SnapshotScheduler.onFailure_backoff c s j nowMs httpStatus retryAfterSec usedWeight1m).2,
    Function.update_of_ne hij]

/-! ### The timeout check -/

omit [LinearOrder K] [Zero K] in
theorem expireRequest_of_overdue (cfg : HandlerConfig n) (hdue : h.Overdue nowMs j) :
    let h' := h.expireRequest cfg nowMs j
    h'.latestRequestId j = h.latestRequestId j + 1 ∧ h'.snapshotRequestedAtMs j = 0 ∧
      h'.nextRequestId = h.nextRequestId ∧ (h'.books j).state = (h.books j).state ∧
      h'.snapshotScheduler = h.snapshotScheduler.onFailure cfg.schedCfg j nowMs := by
  have hstate : (h.books j).cancelRefresh.state = (h.books j).state := by
    simp only [SymbolBook.cancelRefresh]
    split_ifs <;> rfl
  simp only [QuoteFeedHandler.expireRequest]
  split_ifs with hover
  · simp [SymbolBook.setSnapshotRequested, hstate]
  · exact absurd hdue hover

omit [LinearOrder K] [Zero K] in
theorem Calm.expireRequest (hij : i ≠ j) (h : QuoteFeedHandler n K) :
    Calm i h (h.expireRequest cfg nowMs j) := by
  simp only [QuoteFeedHandler.expireRequest]
  split_ifs
  · constructor
    · exact Function.update_of_ne hij _ _
    · exact Function.update_of_ne hij _ _
    · exact nextAllowed_onFailure_other hij h.snapshotScheduler cfg.schedCfg nowMs 0 0 (-1)
    · simp [Function.update_of_ne hij]
  · exact .refl i h

omit [LinearOrder K] [Zero K] in
theorem expireRequest_nextRequestId (h : QuoteFeedHandler n K) :
    (h.expireRequest cfg nowMs j).nextRequestId = h.nextRequestId := by
  simp only [QuoteFeedHandler.expireRequest]
  split_ifs <;> rfl

omit [LinearOrder K] [Zero K] in
theorem Sole.expireRequest (hs : Sole i h out) : Sole i (h.expireRequest cfg nowMs j) out := by
  by_cases hij : i = j
  · subst hij
    by_cases hdue : h.Overdue nowMs i
    · obtain ⟨hlatest, hat, hnext, -, -⟩ := expireRequest_of_overdue cfg hdue
      have hstale : ∀ id, (i, id) ∈ out → id < (h.expireRequest cfg nowMs i).latestRequestId i :=
        fun id hid => hlatest ▸ Nat.lt_succ_of_le (hs.le_latest id hid)
      exact
        { once := hs.once, le_next := hnext ▸ hs.le_next
          le_latest := fun id hid => (hstale id hid).le, syncing := fun _ => ⟨hat, hstale⟩ }
    · have hsame : h.expireRequest cfg nowMs i = h := if_neg hdue
      rwa [hsame]
  · exact hs.calm (.expireRequest hij h) (expireRequest_nextRequestId h)

omit [LinearOrder K] [Zero K] in
theorem Waiting.expireRequest (hw : Waiting i deadline h out) :
    Waiting i deadline (h.expireRequest cfg nowMs j) out := by
  by_cases hij : i = j
  · subst hij
    have hsame : h.expireRequest cfg nowMs i = h := if_neg fun hdue => hdue.1 hw.requestedAt
    rwa [hsame]
  · exact hw.calm (.expireRequest hij h)

omit [LinearOrder K] [Zero K] in
theorem Waiting.expireRequests (cfg : HandlerConfig n) (nowMs : Int)
    (hw : Waiting i deadline h out) (l : List (Fin n)) :
    Waiting i deadline (l.foldl (QuoteFeedHandler.expireRequest cfg nowMs) h) out := by
  induction l generalizing h with
  | nil => exact hw
  | cons j l ih => exact ih hw.expireRequest

omit [LinearOrder K] [Zero K] in
theorem Sole.expireRequests (cfg : HandlerConfig n) (nowMs : Int) (hs : Sole i h out)
    (l : List (Fin n)) :
    Sole i (l.foldl (QuoteFeedHandler.expireRequest cfg nowMs) h) out := by
  induction l generalizing h with
  | nil => exact hs
  | cons j l ih => exact ih hs.expireRequest

omit [LinearOrder K] [Zero K] in
/-- The check that gives a request up keeps the symbol waiting. -/
theorem Sole.waiting_of_overdue (hs : Sole i h out) (hc : cfg.schedCfg.Patient)
    (hdue : h.Overdue nowMs i) {l : List (Fin n)} (hi : i ∈ l) :
    Waiting i (nowMs + cfg.schedCfg.initialBackoffMs)
      (l.foldl (QuoteFeedHandler.expireRequest cfg nowMs) h) out := by
  induction l generalizing h with
  | nil => simp at hi
  | cons j l ih =>
      by_cases hij : i = j
      · subst hij
        obtain ⟨hlatest, hat, -, hstate, hsched⟩ := expireRequest_of_overdue cfg hdue
        have hfirst : Waiting i (nowMs + cfg.schedCfg.initialBackoffMs)
            (h.expireRequest cfg nowMs i) out :=
          { requestedAt := hat
            stale := fun id hid => hlatest ▸ Nat.lt_succ_of_le (hs.le_latest id hid)
            deadline_le := hsched ▸ deadline_onFailure hc _ i nowMs 0 0 (-1)
            not_syncing := fun hsync => hdue.1 (hs.syncing (hstate ▸ hsync)).requestedAt }
        exact hfirst.expireRequests cfg nowMs l
      · have hcalm : Calm i h (h.expireRequest cfg nowMs j) := .expireRequest hij h
        have hstill : (h.expireRequest cfg nowMs j).Overdue nowMs i := by
          rwa [QuoteFeedHandler.Overdue, hcalm.requestedAt]
        exact ih hs.expireRequest hstill ((List.mem_cons.mp hi).resolve_left hij)

/-! ### The results -/

/-- A result is no business of another symbol. -/
theorem Calm.applyResult {r : SnapshotResult n K} (hi : i ≠ r.symIdx) (h : QuoteFeedHandler n K) :
    Calm i h (h.applyResult cfg nowMs r) := by
  obtain ⟨hlatest, -, -, -, hat⟩ := h.applyResult_requests cfg nowMs r
  refine ⟨by rw [hlatest], ?_, ?_, ?_⟩
  · rw [hat]
    split_ifs
    · rfl
    · exact Function.update_of_ne hi _ _
  · have hfetched := congrFun (SnapshotScheduler.checkUsedWeight_backoff cfg.schedCfg
      h.snapshotScheduler nowMs r.data.usedWeight1m).2 i
    simp only [QuoteFeedHandler.applyResult]
    split_ifs
    · rfl
    · exact nextAllowed_onFailure_other hi h.snapshotScheduler cfg.schedCfg nowMs
        r.data.httpStatus r.data.retryAfterSec r.data.usedWeight1m
    · cases ((h.books r.symIdx).onSnapshot cfg.book r.data.lastUpdateId r.data.bids r.data.asks).1
      case SYNC_FAILED | REFRESH_FAILED =>
        exact (nextAllowed_onFailure_other hi (h.snapshotScheduler.checkUsedWeight cfg.schedCfg
          nowMs r.data.usedWeight1m) cfg.schedCfg nowMs 0 0 (-1)).trans hfetched
      case SYNCED | REFRESHED | REFRESH_AWAITING_BRIDGE =>
        exact (Function.update_of_ne hi _ _).trans hfetched
      case AWAITING_BRIDGE | IGNORED => exact hfetched
  · rw [h.applyResult_books cfg nowMs r]
    split_ifs
    · rw [Function.update_of_ne hi]
      exact id
    · rw [Function.update_of_ne hi]
      exact id
    · exact id

/-- A result that reports a failure sets the backoff of its symbol, whose book does not wait for
a bridge unless it already did. -/
theorem applyResult_reported (nowMs : Int) (hc : cfg.schedCfg.Patient) {r : SnapshotResult n K}
    (hr : h.reportsFailure cfg r = true) :
    let h' := h.applyResult cfg nowMs r
    nowMs + cfg.schedCfg.initialBackoffMs ≤ h'.snapshotScheduler.nextAllowedMs r.symIdx ∧
      ((h'.books r.symIdx).state = .SYNCING → (h.books r.symIdx).state = .SYNCING) := by
  intro h'
  simp only [QuoteFeedHandler.reportsFailure, Bool.and_eq_true, decide_eq_true_eq, Bool.or_eq_true,
    Bool.not_eq_true'] at hr
  obtain ⟨hfresh, hfailed⟩ := hr
  have hbooks := h.applyResult_books cfg nowMs r
  rw [if_pos hfresh] at hbooks
  by_cases hok : r.data.success = true
  · have hout := hfailed.imp_left fun hor => hor.resolve_left (by simp [hok])
    constructor
    · simp only [h', QuoteFeedHandler.applyResult, if_neg (not_lt.mpr hfresh), hok, Bool.not_true,
        Bool.false_eq_true, if_false]
      obtain hout | hout := hout <;> rw [hout] <;> exact deadline_onFailure hc _ _ _ 0 0 (-1)
    · intro hsync
      have hkept := SymbolBook.onSnapshot_failed hout
      rw [hbooks, if_pos (by simp [QuoteFeedHandler.accepts, hfresh, hok]),
        Function.update_self] at hsync
      exact absurd hsync hkept
  · have hno : r.data.success = false := Bool.eq_false_iff.mpr hok
    constructor
    · simp only [h', QuoteFeedHandler.applyResult, if_neg (not_lt.mpr hfresh), hno, Bool.not_false,
        if_true]
      exact deadline_onFailure hc _ _ _ _ _ _
    · rw [hbooks, if_neg (by simp [QuoteFeedHandler.accepts, hno]), Function.update_self]
      simp only [SymbolBook.setSnapshotRequested, SymbolBook.cancelRefresh]
      split_ifs <;> exact id

theorem applyResult_stale {r : SnapshotResult n K}
    (hstale : r.requestId < h.latestRequestId r.symIdx) : h.applyResult cfg nowMs r = h := by
  simp [QuoteFeedHandler.applyResult, hstale]

/-- A result that is read was the only one to come. -/
theorem Sole.settled_of_read {r : SnapshotResult n K}
    (hs : Sole r.symIdx h ((r.symIdx, r.requestId) :: out))
    (hread : h.latestRequestId r.symIdx ≤ r.requestId) :
    Settled r.symIdx (h.applyResult cfg nowMs r) out := by
  obtain ⟨hlatest, -, -, -, hat⟩ := h.applyResult_requests cfg nowMs r
  constructor
  · rw [hat, if_neg (not_lt.mpr hread), Function.update_self]
  · intro id hid
    rw [hlatest]
    have hle : id ≤ h.latestRequestId r.symIdx := hs.le_latest id (List.mem_cons_of_mem _ hid)
    have hother : id ≠ r.requestId := by
      rintro rfl
      have honce := hs.once
      rw [List.map_cons, List.nodup_cons] at honce
      exact honce.1 (List.mem_map.mpr ⟨_, hid, rfl⟩)
    have hown := hs.le_latest r.requestId List.mem_cons_self
    omega

theorem Sole.applyResult {r : SnapshotResult n K}
    (hs : Sole i h ((r.symIdx, r.requestId) :: out)) : Sole i (h.applyResult cfg nowMs r) out := by
  have hrest : Sole i h out := hs.subperm (List.sublist_cons_self _ _).subperm
  obtain ⟨hlatest, hnext, -⟩ := h.applyResult_requests cfg nowMs r
  by_cases hi : i = r.symIdx
  · subst hi
    by_cases hstale : r.requestId < h.latestRequestId r.symIdx
    · rwa [applyResult_stale hstale]
    · exact
        { once := hrest.once, le_next := hnext ▸ hrest.le_next
          le_latest := hlatest ▸ hrest.le_latest
          syncing := fun _ => hs.settled_of_read (not_lt.mp hstale) }
  · exact hrest.calm (.applyResult hi h) hnext

theorem Waiting.applyResult {r : SnapshotResult n K}
    (hw : Waiting i deadline h ((r.symIdx, r.requestId) :: out)) :
    Waiting i deadline (h.applyResult cfg nowMs r) out := by
  have hrest : Waiting i deadline h out := hw.subset (List.subset_cons_self _ _)
  by_cases hi : i = r.symIdx
  · subst hi
    rwa [applyResult_stale (hw.stale r.requestId List.mem_cons_self)]
  · exact hrest.calm (.applyResult hi h)

/-- The result that reports the failure keeps its symbol waiting. -/
theorem Sole.waiting_of_reported (hc : cfg.schedCfg.Patient) {r : SnapshotResult n K}
    (hs : Sole r.symIdx h ((r.symIdx, r.requestId) :: out))
    (hr : h.reportsFailure cfg r = true) :
    Waiting r.symIdx (nowMs + cfg.schedCfg.initialBackoffMs) (h.applyResult cfg nowMs r) out := by
  have hread : h.latestRequestId r.symIdx ≤ r.requestId := by
    simp only [QuoteFeedHandler.reportsFailure, Bool.and_eq_true, decide_eq_true_eq] at hr
    exact hr.1
  obtain ⟨hdeadline, hsync⟩ := applyResult_reported nowMs hc hr
  exact
    { hs.settled_of_read hread with
      deadline_le := hdeadline
      not_syncing := fun hsyncing =>
        absurd ((hs.syncing (hsync hsyncing)).stale r.requestId List.mem_cons_self)
          (not_lt.mpr hread) }

theorem Sole.drain {rs : List (SnapshotResult n K)}
    (hs : Sole i h (rs.map (fun r => (r.symIdx, r.requestId)) ++ out)) :
    Sole i (rs.foldl (QuoteFeedHandler.applyResult cfg nowMs) h) out := by
  induction rs generalizing h with
  | nil => exact hs
  | cons r rs ih => exact ih hs.applyResult

theorem Waiting.drain {rs : List (SnapshotResult n K)}
    (hw : Waiting i deadline h (rs.map (fun r => (r.symIdx, r.requestId)) ++ out)) :
    Waiting i deadline (rs.foldl (QuoteFeedHandler.applyResult cfg nowMs) h) out := by
  induction rs generalizing h with
  | nil => exact hw
  | cons r rs ih => exact ih hw.applyResult

theorem Sole.waiting_of_failing (hc : cfg.schedCfg.Patient) {r : SnapshotResult n K}
    {rs : List (SnapshotResult n K)}
    (hs : Sole r.symIdx h (rs.map (fun r => (r.symIdx, r.requestId)) ++ out))
    (hr : r ∈ h.failing cfg nowMs rs) :
    Waiting r.symIdx (nowMs + cfg.schedCfg.initialBackoffMs)
      (rs.foldl (QuoteFeedHandler.applyResult cfg nowMs) h) out := by
  induction rs generalizing h with
  | nil => simp [QuoteFeedHandler.failing] at hr
  | cons r' rs ih =>
      simp only [QuoteFeedHandler.failing] at hr
      split_ifs at hr with hreport
      · obtain rfl | hr := List.mem_cons.mp hr
        · exact (hs.waiting_of_reported hc hreport).drain
        · exact ih hs.applyResult hr
      · exact ih hs.applyResult hr

/-! ### A new connection -/

omit [LinearOrder K] in
theorem Calm.markHoles (cfg : HandlerConfig n) (h : QuoteFeedHandler n K) (i : Fin n)
    (tpConnected : Bool) (nowNs nowMs : Int) :
    Calm i h (if tpConnected then
      (List.finRange n).foldl (QuoteFeedHandler.markHole cfg nowNs nowMs) h else h) := by
  split_ifs
  · apply Calm.foldl
    intro h j
    simp only [QuoteFeedHandler.markHole]
    split_ifs
    · exact .publishQuote h _
    · exact .refl i h
  · exact .refl i h

omit [LinearOrder K] in
/-- The connection is lost: nothing that was requested is expected any more. -/
theorem onConnect_spec (cfg : HandlerConfig n) (h : QuoteFeedHandler n K) (i : Fin n)
    (tpConnected : Bool) (nowNs nowMs : Int) :
    let h' := h.onConnect cfg tpConnected nowNs nowMs
    h.latestRequestId i ≤ h'.latestRequestId i ∧ h'.snapshotRequestedAtMs i = 0 ∧
      h'.nextRequestId = h.nextRequestId ∧ (h'.books i).state = .INIT ∧
      h'.snapshotScheduler.nextAllowedMs i = h.snapshotScheduler.nextAllowedMs i := by
  have hkept := Kept.markHoles nowMs cfg h tpConnected nowNs
  have hcalm := Calm.markHoles cfg h i tpConnected nowNs nowMs
  simp only [QuoteFeedHandler.onConnect]
  refine ⟨?_, trivial, hkept.next, rfl, hcalm.nextAllowed⟩
  rw [← hcalm.latest]
  split_ifs <;> omega

omit [LinearOrder K] in
theorem Waiting.connect (hw : Waiting i deadline h out) (tpConnected : Bool) (nowNs : Int) :
    Waiting i deadline (h.onConnect cfg tpConnected nowNs nowMs) out := by
  obtain ⟨hlatest, hat, -, hstate, hbackoff⟩ := onConnect_spec cfg h i tpConnected nowNs nowMs
  exact
    { requestedAt := hat, stale := fun id hid => (hw.stale id hid).trans_le hlatest
      deadline_le := hbackoff ▸ hw.deadline_le, not_syncing := by simp [hstate] }

omit [LinearOrder K] in
theorem Sole.connect (hs : Sole i h out) (tpConnected : Bool) (nowNs : Int) :
    Sole i (h.onConnect cfg tpConnected nowNs nowMs) out := by
  obtain ⟨hlatest, -, hnext, hstate, -⟩ := onConnect_spec cfg h i tpConnected nowNs nowMs
  exact
    { once := hs.once, le_next := hnext ▸ hs.le_next
      le_latest := fun id hid => (hs.le_latest id hid).trans hlatest
      syncing := fun hsync => by simp [hstate] at hsync }

end

/-! ## Runs -/

namespace Protocol

variable {w : Protocol n K} {cfg : HandlerConfig n} {i j : Fin n} {nowMs recv deadline : Int}
  {d : BufferedDelta K}

def SoleAt (i : Fin n) (w : Protocol n K) : Prop := Sole i w.handler w.outstanding

def WaitingAt (i : Fin n) (deadline : Int) (w : Protocol n K) : Prop :=
  Waiting i deadline w.handler w.outstanding

/-- What one timeout check and drain leaves outstanding is what was, less the results. -/
theorem drain_outstanding (cfg : HandlerConfig n) (w : Protocol n K) (nowMs : Int) (g : History n) :
    let h₁ := (List.finRange n).foldl (QuoteFeedHandler.expireRequest cfg nowMs) w.handler
    let rest := w.handler.requests.map (fun r => (r.symIdx, r.requestId)) ++
      w.fetching.toList.map fun r => (r.symIdx, r.requestId)
    outstanding ⟨w.handler.applySnapshotResults cfg nowMs, w.fetching, g⟩ = rest ∧
      w.outstanding.Perm (h₁.results.map (fun r => (r.symIdx, r.requestId)) ++ rest) := by
  intro h₁ rest
  have hexp := Expired.fold nowMs cfg w.handler (List.finRange n)
  obtain ⟨hreq, hres⟩ := foldl_applyResult_queues nowMs cfg { h₁ with results := [] } h₁.results
  constructor
  · simp only [outstanding, QuoteFeedHandler.applySnapshotResults]
    rw [hreq, hres]
    simp only [List.map_nil, List.append_nil, rest]
    rw [hexp.requests]
  · rw [hexp.results]
    exact List.perm_append_comm

theorem SoleAt.message (hs : w.SoleAt i) (j : Fin n) (d : BufferedDelta K) (recv nowMs : Int)
    (g : History n) :
    SoleAt i ⟨w.handler.handleDelta cfg j d recv nowMs, w.fetching, g⟩ := by
  have hcases := handleDelta_cases nowMs recv cfg (i := j) w.handler d
  by_cases hij : i = j
  · subst hij
    have hsync : ((w.handler.handleDelta cfg i d recv nowMs).books i).state = .SYNCING →
        (w.handler.books i).state = .SYNCING ∧
          (w.handler.handleDelta cfg i d recv nowMs).nextRequestId = w.handler.nextRequestId := by
      intro hafter
      have hbefore : (w.handler.books i).state = .SYNCING := by
        by_contra hno
        exact (handleDelta_due cfg d recv nowMs hno).1 hafter
      exact ⟨hbefore, handleDelta_syncing hbefore hafter⟩
    obtain hk | ha := hcases
    · have hsame : outstanding ⟨w.handler.handleDelta cfg i d recv nowMs, w.fetching, g⟩
          = w.outstanding := by
        simp only [outstanding, hk.requests, hk.results]
      rw [SoleAt, hsame]
      exact
        { once := hs.once, le_next := hk.next ▸ hs.le_next, le_latest := hk.latest ▸ hs.le_latest
          syncing := fun hafter =>
            have hset := hs.syncing (hsync hafter).1
            ⟨hk.requestedAt ▸ hset.requestedAt, hk.latest ▸ hset.stale⟩ }
    · have hnot : ((w.handler.handleDelta cfg i d recv nowMs).books i).state ≠ .SYNCING := by
        intro hafter
        exact absurd (ha.next.symm.trans (hsync hafter).2) (Nat.succ_ne_self _)
      exact (Sole.asked_self hs ha hnot).subperm (asked_outstanding ha g)
  · have hcalm : Calm i w.handler (w.handler.handleDelta cfg j d recv nowMs) :=
      .handleDelta hij w.handler
    obtain hk | ha := hcases
    · have hsame : outstanding ⟨w.handler.handleDelta cfg j d recv nowMs, w.fetching, g⟩
          = w.outstanding := by
        simp only [outstanding, hk.requests, hk.results]
      rw [SoleAt, hsame]
      exact Sole.calm hs hcalm hk.next
    · exact (Sole.asked_other hs ha hcalm hij).subperm (asked_outstanding ha g)

/-- Without a grant for it, a depth event leaves a symbol waiting. -/
theorem WaitingAt.message (hw : w.WaitingAt i deadline) (j : Fin n) (d : BufferedDelta K)
    (recv nowMs : Int) (g : History n)
    (hnone : ¬ Grants cfg w (.loop (.message j d recv nowMs)) i nowMs) :
    WaitingAt i deadline ⟨w.handler.handleDelta cfg j d recv nowMs, w.fetching, g⟩ := by
  obtain hk | ha := handleDelta_cases nowMs recv cfg (i := j) w.handler d
  · have hsame : outstanding ⟨w.handler.handleDelta cfg j d recv nowMs, w.fetching, g⟩
        = w.outstanding := by
      simp only [outstanding, hk.requests, hk.results]
    rw [WaitingAt, hsame]
    by_cases hij : i = j
    · subst hij
      obtain ⟨hsync, hbackoff, -⟩ := handleDelta_due cfg d recv nowMs hw.not_syncing
      exact
        { requestedAt := hk.requestedAt ▸ hw.requestedAt, stale := hk.latest ▸ hw.stale
          deadline_le := hbackoff ▸ hw.deadline_le, not_syncing := hsync }
    · exact Waiting.calm hw (.handleDelta hij w.handler)
  · by_cases hij : i = j
    · subst hij
      exact absurd (Grants.sent (by rw [ha.next]; exact Nat.succ_ne_self _)) hnone
    · have hcalm : Calm i w.handler (w.handler.handleDelta cfg j d recv nowMs) :=
        .handleDelta hij w.handler
      have hcalmed := Waiting.calm hw hcalm
      exact
        { hcalmed with
          stale := fun id hid => by
            obtain heq | hid := List.mem_cons.mp ((asked_outstanding ha g).subset hid)
            · exact absurd (Prod.ext_iff.mp heq).1 hij
            · exact hcalmed.stale id hid }

/-- Nothing has happened to the symbol, though some request may have been lost. -/
structure Undisturbed (i : Fin n) (w w' : Protocol n K) : Prop where
  calm : Calm i w.handler w'.handler
  next : w'.handler.nextRequestId = w.handler.nextRequestId
  out : w'.outstanding.Subperm w.outstanding

omit [LinearOrder K] [Zero K] in
theorem Undisturbed.trans {w₁ w₂ : Protocol n K} (h01 : Undisturbed i w w₁)
    (h12 : Undisturbed i w₁ w₂) : Undisturbed i w w₂ where
  calm := h01.calm.trans h12.calm
  next := h12.next.trans h01.next
  out := h12.out.trans h01.out

omit [LinearOrder K] [Zero K] in
theorem SoleAt.undisturbed {w' : Protocol n K} (hs : w.SoleAt i) (h : Undisturbed i w w') :
    w'.SoleAt i :=
  (Sole.calm hs h.calm h.next).subperm h.out

omit [LinearOrder K] [Zero K] in
theorem WaitingAt.undisturbed {w' : Protocol n K} (hw : w.WaitingAt i deadline)
    (h : Undisturbed i w w') : w'.WaitingAt i deadline :=
  (Waiting.calm hw h.calm).subset h.out.subset

omit [LinearOrder K] [Zero K] in
theorem Undisturbed.take (i : Fin n) (w : Protocol n K) : Undisturbed i w w.take := by
  obtain ⟨hout, requests, hhandler⟩ := w.take_outstanding
  refine ⟨?_, by rw [hhandler], hout⟩
  rw [hhandler]
  exact ⟨rfl, rfl, rfl, id⟩

omit [LinearOrder K] [Zero K] in
theorem Undisturbed.finish (i : Fin n) (w : Protocol n K) (data : SnapshotData K) :
    Undisturbed i w (w.finish data) := by
  obtain ⟨hout, results, hhandler⟩ := w.finish_outstanding data
  refine ⟨?_, by rw [hhandler], hout⟩
  rw [hhandler]
  exact ⟨rfl, rfl, rfl, id⟩

/-- The worker thread and the heartbeats leave the symbol alone. -/
theorem step_cases (cfg : HandlerConfig n) (i : Fin n) (w : Protocol n K) (e : ProtocolEvent n K) :
    Undisturbed i w (w.step cfg e) ∨
      (∃ tpConnected nowNs nowMs, e = .loop (.connect tpConnected nowNs nowMs)) ∨
      (∃ nowMs, e = .loop (.applyResults nowMs)) ∨
      ∃ j d recv nowMs, e = .loop (.message j d recv nowMs) := by
  cases e with
  | take => exact Or.inl (.take i w)
  | finish data => exact Or.inl (.finish i w data)
  | loop e =>
      cases e with
      | connect tpConnected nowNs nowMs => exact Or.inr (Or.inl ⟨tpConnected, nowNs, nowMs, rfl⟩)
      | applyResults nowMs => exact Or.inr (Or.inr (Or.inl ⟨nowMs, rfl⟩))
      | message j d recv nowMs => exact Or.inr (Or.inr (Or.inr ⟨j, d, recv, nowMs, rfl⟩))
      | checkTimeouts recv nowMs =>
          have hk : Kept w.handler (w.handler.checkPublishTimeouts cfg recv nowMs) :=
            .checkPublishTimeouts cfg w.handler
          refine Or.inl ⟨.checkPublishTimeouts w.handler, hk.next, ?_⟩
          simp only [outstanding, Protocol.step, QuoteFeedHandler.step, hk.requests, hk.results]
          exact List.Subperm.refl _
      | worker data =>
          left
          simp only [Protocol.step]
          split_ifs
          · exact (Undisturbed.take i w).trans (.finish i w.take data)
          · exact ⟨.refl i w.handler, rfl, List.Subperm.refl _⟩

omit [LinearOrder K] in
theorem connect_outstanding (w : Protocol n K) (tpConnected : Bool) (nowNs nowMs : Int)
    (g : History n) :
    outstanding ⟨w.handler.onConnect cfg tpConnected nowNs nowMs, w.fetching, g⟩
      = w.outstanding := by
  have hk := Kept.markHoles nowMs cfg w.handler tpConnected nowNs
  simp only [outstanding, QuoteFeedHandler.onConnect]
  rw [hk.requests, hk.results]

/-- Every event keeps the invariant. -/
theorem SoleAt.step (hs : w.SoleAt i) (e : ProtocolEvent n K) : (w.step cfg e).SoleAt i := by
  obtain hquiet | ⟨tpConnected, nowNs, nowMs, rfl⟩ | ⟨nowMs, rfl⟩ | ⟨j, d, recv, nowMs, rfl⟩ :=
    step_cases cfg i w e
  · exact hs.undisturbed hquiet
  · simp only [SoleAt, Protocol.step, QuoteFeedHandler.step, connect_outstanding]
    exact Sole.connect hs tpConnected nowNs
  · obtain ⟨hafter, hbefore⟩ := drain_outstanding cfg w nowMs (w.history.expire w.handler nowMs)
    have hchecked := (Sole.subperm hs hbefore.symm.subperm).expireRequests cfg nowMs
      (List.finRange n)
    simp only [SoleAt, Protocol.step, QuoteFeedHandler.step, History.note, hafter]
    exact Sole.drain (hchecked.calm ⟨rfl, rfl, rfl, id⟩ rfl)
  · exact hs.message j d recv nowMs _

/-- Every event that is not a grant keeps a symbol waiting. -/
theorem WaitingAt.step (hw : w.WaitingAt i deadline) (e : ProtocolEvent n K)
    (hnone : ∀ t, ¬ Grants cfg w e i t) : (w.step cfg e).WaitingAt i deadline := by
  obtain hquiet | ⟨tpConnected, nowNs, nowMs, rfl⟩ | ⟨nowMs, rfl⟩ | ⟨j, d, recv, nowMs, rfl⟩ :=
    step_cases cfg i w e
  · exact hw.undisturbed hquiet
  · simp only [WaitingAt, Protocol.step, QuoteFeedHandler.step, connect_outstanding]
    exact Waiting.connect hw tpConnected nowNs
  · obtain ⟨hafter, hbefore⟩ := drain_outstanding cfg w nowMs (w.history.expire w.handler nowMs)
    have hchecked := (Waiting.subset hw hbefore.symm.subset).expireRequests cfg nowMs
      (List.finRange n)
    simp only [WaitingAt, Protocol.step, QuoteFeedHandler.step, History.note, hafter]
    exact Waiting.drain (hchecked.calm ⟨rfl, rfl, rfl, id⟩)
  · exact hw.message j d recv nowMs _ (hnone nowMs)

/-- A failure that becomes known keeps its symbol waiting, unless the book has dropped a held
snapshot. -/
theorem SoleAt.waiting_of_failure (hs : w.SoleAt i) (hc : cfg.schedCfg.Patient)
    {e : ProtocolEvent n K} {t : Int} (hkeeps : KeepsShadow cfg i w e)
    (hfail : FailureKnown cfg w e i t) :
    (w.step cfg e).WaitingAt i (t + cfg.schedCfg.initialBackoffMs) := by
  cases hfail with
  | timedOut overdue =>
      obtain ⟨hafter, hbefore⟩ := drain_outstanding cfg w t (w.history.expire w.handler t)
      have hchecked := (Sole.subperm hs hbefore.symm.subperm).waiting_of_overdue hc overdue
        (List.mem_finRange i)
      simp only [WaitingAt, Protocol.step, QuoteFeedHandler.step, History.note, hafter]
      exact Waiting.drain (hchecked.calm ⟨rfl, rfl, rfl, id⟩)
  | @reported r _ hr =>
      obtain ⟨hafter, hbefore⟩ := drain_outstanding cfg w t (w.history.expire w.handler t)
      have hchecked := (Sole.subperm hs hbefore.symm.subperm).expireRequests cfg t
        (List.finRange n)
      simp only [WaitingAt, Protocol.step, QuoteFeedHandler.step, History.note, hafter]
      exact Sole.waiting_of_failing hc (hchecked.calm ⟨rfl, rfl, rfl, id⟩ rfl) hr
  | @unbridged _ d recv _ syncing refused =>
      obtain ⟨hsync, hnext, hsched⟩ := handleDelta_unbridged cfg recv t syncing refused
      have hset : Settled i w.handler w.outstanding := hs.syncing syncing
      obtain hk | ha := handleDelta_cases t recv cfg (i := i) w.handler d
      · simp only [WaitingAt, Protocol.step, QuoteFeedHandler.step, outstanding, hk.requests,
          hk.results]
        exact
          { requestedAt := hk.requestedAt ▸ hset.requestedAt, stale := hk.latest ▸ hset.stale
            deadline_le := hsched ▸ deadline_onFailure hc _ i t 0 0 (-1), not_syncing := hsync }
      · exact absurd (ha.next.symm.trans hnext) (Nat.succ_ne_self _)
  | dropped drops => exact absurd drops (hkeeps rfl)

/-- A grant respects the deadline. -/
theorem WaitingAt.deadline_le_of_grant (hw : w.WaitingAt i deadline) {e : ProtocolEvent n K}
    {t : Int} (hgrant : Grants cfg w e i t) : deadline ≤ t := by
  cases hgrant with
  | @sent _ d recv _ granted =>
      exact hw.deadline_le.trans ((handleDelta_due cfg d recv t hw.not_syncing).2.2 granted)

omit [LinearOrder K] in
theorem SoleAt.init (startMs : Int) : (Protocol.init (K := K) cfg startMs).SoleAt i where
  once := List.nodup_nil
  le_next := by simp [outstanding, Protocol.init, QuoteFeedHandler.init]
  le_latest := by simp [outstanding, Protocol.init, QuoteFeedHandler.init]
  syncing := fun hsync => by
    simp [Protocol.init, QuoteFeedHandler.init, SymbolBook.init] at hsync

/-- In a run in which the book of the symbol drops no held refresh snapshot, a request that turns
out to have failed is followed by none for the same symbol before the initial backoff is over. -/
theorem backoff_after_failure (cfg : HandlerConfig n) (hc : cfg.schedCfg.Patient) (startMs : Int)
    (i : Fin n) (es : List (ProtocolEvent n K))
    (hkeeps : Admits (step cfg) (KeepsShadow cfg i) (init cfg startMs) es) :
    BackoffKept cfg i (init cfg startMs) es := by
  rintro pre e post t rfl hfail mid e' rest t' hsplit hnone hgrant
  have hsole : (exec (step cfg) (init cfg startMs) pre).SoleAt i :=
    exec_invariant (P := fun w : Protocol n K => w.SoleAt i) (fun _ e hs => hs.step e) pre
      (.init startMs)
  have hkept := ((admits_append _ _ _ pre (e :: post)).mp hkeeps).2.1
  cases mid with
  | nil =>
      -- the event that makes the failure known is itself no grant
      obtain ⟨rfl, -⟩ := List.cons.inj hsplit
      rw [List.append_nil] at hgrant
      obtain ⟨hgranted⟩ := hgrant
      cases hfail with
      | unbridged syncing refused =>
          exact absurd (handleDelta_unbridged cfg _ _ syncing refused).2.1 hgranted
      | dropped drops => exact absurd drops (hkept rfl)
  | cons x mid =>
      obtain ⟨rfl, -⟩ := List.cons.inj hsplit
      have hwaiting := hsole.waiting_of_failure hc hkept hfail
      rw [exec_append, exec_cons] at hgrant
      have hstill := Admits.invariant
        (P := fun w : Protocol n K => w.WaitingAt i (t + cfg.schedCfg.initialBackoffMs))
        (fun _ x hw hx => hw.step x hx) hnone.2 hwaiting
      exact hstill.deadline_le_of_grant hgrant

instance (cfg : HandlerConfig n) (i : Fin n) (w : Protocol n K) :
    ∀ e, Decidable (KeepsShadow cfg i w e)
  | .loop (.message j d _ _) =>
      inferInstanceAs (Decidable (j = i → ¬ (w.handler.books i).DropsShadow cfg.book d))
  | .loop (.connect _ _ _) | .loop (.applyResults _) | .loop (.checkTimeouts _ _)
  | .loop (.worker _) | .take | .finish _ => isTrue trivial

end Protocol

/-- An event of the only symbol, one id long. -/
def oneId (id : Int) (bids : List (PriceLevel Int)) (nowMs : Int) : ProtocolEvent 1 Int :=
  .loop (.message (Fin.last 0) { firstUpdateId := id, finalUpdateId := id, bids := bids, asks := [] }
    0 nowMs)

/-- The fetch for the first event fails; the requests of the next two are refused and granted. -/
def failedFetch : List (ProtocolEvent 1 Int) :=
  [oneId 10 [] 1, .take, .finish { httpStatus := 500 }, .loop (.applyResults 2),
    oneId 11 [] 900, oneId 12 [] 1100]

theorem failedFetch_backs_off :
    (Protocol.init watchedConfig 0).BackoffKept watchedConfig (Fin.last 0) failedFetch :=
  Protocol.backoff_after_failure watchedConfig
    ⟨by decide, by decide, show (0 : ℚ) ≤ 1 / 4 by norm_num, fun _ => Rat.le_refl⟩ 0 (Fin.last 0)
    failedFetch (by decide +kernel)

/-- A book of five levels a side loses bids until it asks for a refresh, whose snapshot is behind
it and is held. -/
def heldBehind : List (ProtocolEvent 1 Int) :=
  [oneId 10 [] 1, .take,
    .finish
      { lastUpdateId := 9, success := true
        bids := [⟨15, 1⟩, ⟨14, 1⟩, ⟨13, 1⟩, ⟨12, 1⟩, ⟨11, 1⟩]
        asks := [⟨21, 1⟩, ⟨22, 1⟩, ⟨23, 1⟩, ⟨24, 1⟩, ⟨25, 1⟩] },
    .loop (.applyResults 2),
    oneId 11 [⟨15, 0⟩, ⟨14, 0⟩, ⟨13, 0⟩, ⟨12, 0⟩] 3, .take,
    .finish { lastUpdateId := 5, success := true, bids := [⟨11, 1⟩], asks := [⟨21, 1⟩] },
    .loop (.applyResults 4)]

/-- The next event drops the held snapshot, and the same event sends the next request. -/
theorem dropped_shadow_sends_at_once :
    ¬ (Protocol.init watchedConfig 0).BackoffKept watchedConfig (Fin.last 0)
      (heldBehind ++ [oneId 12 [] 5]) := by
  intro hkept
  have hdrops : ((exec (Protocol.step watchedConfig) (Protocol.init watchedConfig 0)
      heldBehind).handler.books (Fin.last 0)).DropsShadow watchedConfig.book
      { firstUpdateId := 12, finalUpdateId := 12, bids := [], asks := [] } := by
    decide +kernel
  have hsent : ((exec (Protocol.step watchedConfig) (Protocol.init watchedConfig 0)
      heldBehind).handler.handleDelta watchedConfig (Fin.last 0)
      { firstUpdateId := 12, finalUpdateId := 12, bids := [], asks := [] } 0 5).nextRequestId
      ≠ (exec (Protocol.step watchedConfig) (Protocol.init watchedConfig 0)
        heldBehind).handler.nextRequestId := by
    decide +kernel
  have hwait := hkept heldBehind (oneId 12 [] 5) [] 5 rfl (.dropped hdrops) [] (oneId 12 [] 5) [] 5
    rfl trivial (.sent hsent)
  exact absurd hwait (by decide)

end TickToSignal.Quote
