import TickToSignal.OrderBook.Correctness
import TickToSignal.Foundation.Machine

/-!
# A refresh that does not succeed leaves no trace

Two runs are compared: one in which refreshes are begun, get their snapshots,
are cancelled, overflow or drop their shadow, and one without any of that. The
live part of a book evolves by itself as long as no refresh is swapped in; once
nothing is in flight, what is left over is never read again.

## Implementation notes

A swap is visible in the counter `depthRefreshes`, so a run in which no refresh
succeeds is one that leaves this counter alone. `live` replaces what is not
compared by fixed values.
-/

namespace TickToSignal.OrderBook

open Foundation

variable {K : Type*} [LinearOrder K] [Zero K]

/-- What happens to one symbol's book, publishing included. -/
inductive BookEvent (K : Type*)
  | op (o : BookOp K)
  | maybePublish (nowMs fhRecvTimeUtcNs fhSeqNo : Int)
  | heartbeat (nowMs fhRecvTimeUtcNs fhSeqNo : Int)
  | publish (nowMs : Int) (quote : BookQuote K)

/-- The calls that are about a refresh when the book is not waiting for its first snapshot. -/
def BookEvent.ofRefresh : BookEvent K → Bool
  | .op (.onSnapshot ..) | .op .beginRefresh | .op .cancelRefresh => true
  | _ => false

namespace SymbolBook

/-- The state after an event. -/
def step (cfg : BookConfig) (s : SymbolBook K) : BookEvent K → SymbolBook K
  | .op o => o.run cfg s
  | .maybePublish nowMs fhRecvTimeUtcNs fhSeqNo =>
      let quote := s.getQuote cfg fhRecvTimeUtcNs fhSeqNo
      if s.shouldPublish nowMs quote then s.recordPublish nowMs quote else s
  | .heartbeat nowMs fhRecvTimeUtcNs fhSeqNo =>
      let quote := s.getQuote cfg fhRecvTimeUtcNs fhSeqNo
      if s.timeoutPublishNeeded nowMs && quote.isValid then s.recordPublish nowMs quote else s
  | .publish nowMs quote => s.recordPublish nowMs quote

/-- No refresh snapshot is awaited and none is held. -/
def Idle (s : SymbolBook K) : Prop := s.refreshPending = false ∧ s.shadow.pending = false

/-- The book without refresh flags, delta buffer, held shadow and counters. -/
def live (s : SymbolBook K) : SymbolBook K :=
  { s with
    deltaBuffer := [], snapshotRequested := false, refreshPending := false, shadow := Shadow.none
    bufferOverflows := 0, depthRefreshes := 0, refreshFailures := 0, depthExhaustedEvents := 0 }

/-- Two books have the same levels and horizons, sequence state, validity and quotes. -/
structure SameBook (cfg : BookConfig) (s t : SymbolBook K) : Prop where
  book : s.book = t.book
  seq : s.seq = t.seq
  state : s.state = t.state
  quote : ∀ fhRecvTimeUtcNs fhSeqNo,
    s.getQuote cfg fhRecvTimeUtcNs fhSeqNo = t.getQuote cfg fhRecvTimeUtcNs fhSeqNo
  published : s.lastPublished = t.lastPublished ∧ s.lastPublishTimeMs = t.lastPublishTimeMs
  publishes : ∀ nowMs quote, s.shouldPublish nowMs quote = t.shouldPublish nowMs quote

omit [LinearOrder K] in
theorem getQuote_live (cfg : BookConfig) (s : SymbolBook K) (fhRecvTimeUtcNs fhSeqNo : Int) :
    s.live.getQuote cfg fhRecvTimeUtcNs fhSeqNo = s.getQuote cfg fhRecvTimeUtcNs fhSeqNo := rfl

theorem shouldPublish_live (s : SymbolBook K) (nowMs : Int) (quote : BookQuote K) :
    s.live.shouldPublish nowMs quote = s.shouldPublish nowMs quote := rfl

/-- What is compared is part of what is live. -/
theorem SameBook.of_live {cfg : BookConfig} {s t : SymbolBook K} (h : s.live = t.live) :
    SameBook cfg s t where
  book := congrArg (·.book) h
  seq := congrArg (·.seq) h
  state := congrArg (·.state) h
  quote := fun a b => by rw [← getQuote_live, h, getQuote_live]
  published := ⟨congrArg (·.lastPublished) h, congrArg (·.lastPublishTimeMs) h⟩
  publishes := fun a q => by rw [← shouldPublish_live, h, shouldPublish_live]

/-! ## While a refresh is in flight -/

section
variable {cfg : BookConfig} {s : SymbolBook K}

omit [LinearOrder K] in
theorem bufferDelta_live (d : BufferedDelta K) : (s.bufferDelta d).2.live = s.live := by
  simp only [bufferDelta]
  split_ifs <;> rfl

omit [LinearOrder K] [Zero K] in
theorem bufferDelta_depthRefreshes (d : BufferedDelta K) :
    (s.bufferDelta d).2.depthRefreshes = s.depthRefreshes := by
  simp only [bufferDelta]
  split_ifs <;> rfl

/-- A shadow that is not swapped in leaves the live book alone. -/
theorem feedShadow_live {d : BufferedDelta K}
    (h : (s.feedShadow cfg d).depthRefreshes = s.depthRefreshes) :
    (s.feedShadow cfg d).live = s.live := by
  simp only [feedShadow] at h ⊢
  split at h
  · rfl
  · rfl
  · exact absurd h (Nat.succ_ne_self _)

theorem passOn_live {d : BufferedDelta K}
    (h : (s.passOn cfg d).depthRefreshes = s.depthRefreshes) :
    (s.passOn cfg d).live = s.live := by
  simp only [passOn] at h ⊢
  split_ifs at h ⊢ with hpending hshadow hshadow
  · rw [feedShadow_live (h.trans (bufferDelta_depthRefreshes d).symm), bufferDelta_live]
  · exact bufferDelta_live d
  · exact feedShadow_live h
  · rfl

theorem Idle.passOn (h : s.Idle) (d : BufferedDelta K) : s.passOn cfg d = s := by
  simp [SymbolBook.passOn, h.1, h.2]

omit [LinearOrder K] in
theorem live_idle (s : SymbolBook K) : s.live.Idle := ⟨rfl, rfl⟩

/-- An event does to the live book what it does without any refresh, unless it swaps one in. -/
theorem applyDelta_live {d : BufferedDelta K}
    (h : (s.applyDelta cfg d).2.depthRefreshes = s.depthRefreshes) :
    (s.applyDelta cfg d).2.live = (s.live.applyDelta cfg d).2.live := by
  have hidle : ∀ t : SymbolBook K, t.live.passOn cfg d = t.live := fun t => (live_idle t).passOn d
  obtain ⟨hsync, hvalid, hout⟩ | ⟨hstate, seq, ⟨hv, hout⟩ | ⟨hv, hout⟩ | ⟨hv, hout⟩⟩ :=
    s.applyDelta_cases cfg d
  · rw [hout]
    simp only [applyDelta]
    split
    · rfl
    · rfl
    · rename_i heq
      exact absurd heq hsync
    · rename_i heq
      exact absurd heq hvalid
  · have hlive : s.live.applyDelta cfg d = (false, { s.live with seq := seq, state := .INVALID }) := by
      obtain hs | hs := hstate <;> simp [applyDelta, live, hs, hv]
    rw [hout, hlive]
    rfl
  · have hlive : s.live.applyDelta cfg d = (true, passOn cfg { s.live with seq := seq } d) := by
      obtain hs | hs := hstate <;> simp [applyDelta, live, hs, hv]
    rw [hout] at h ⊢
    rw [hlive]
    exact (passOn_live h).trans (congrArg live (hidle { s with seq := seq })).symm
  · have hlive : s.live.applyDelta cfg d
        = (true, passOn cfg (applyEvent cfg { s.live with seq := seq } d) d) := by
      obtain hs | hs := hstate <;> simp [applyDelta, live, hs, hv]
    have hkept : Idle (applyEvent cfg { s.live with seq := seq } d) := ⟨rfl, rfl⟩
    rw [hout] at h ⊢
    rw [hlive, hkept.passOn]
    exact passOn_live h

/-- The book has been synced and not been reset since. -/
def Opened (s : SymbolBook K) : Prop := s.state = .VALID ∨ s.state = .INVALID

theorem applyDelta_opened {d : BufferedDelta K} (hopen : s.Opened)
    (h : (s.applyDelta cfg d).2.depthRefreshes = s.depthRefreshes) :
    (s.applyDelta cfg d).2.Opened := by
  obtain ⟨-, -, hout⟩ | ⟨hstate, seq, ⟨hv, hout⟩ | ⟨hv, hout⟩ | ⟨hv, hout⟩⟩ :=
    s.applyDelta_cases cfg d
  · rwa [hout]
  · rw [hout]
    exact Or.inr rfl
  · rw [hout] at h ⊢
    have hsame : (passOn cfg { s with seq := seq } d).state = s.state :=
      congrArg (·.state) (passOn_live h)
    exact hopen.imp hsame.trans hsame.trans
  · rw [hout] at h ⊢
    exact Or.inl (congrArg (·.state) (passOn_live h))

/-- A snapshot that is not swapped in leaves the live book alone. -/
theorem onSnapshot_live (hopen : s.Opened) {id : Int} {bids asks : List (PriceLevel K)}
    (h : (s.onSnapshot cfg id bids asks).2.depthRefreshes = s.depthRefreshes) :
    (s.onSnapshot cfg id bids asks).2.live = s.live := by
  have hsynced : s.state ≠ .INIT := by
    rintro hinit
    obtain hs | hs := hopen <;> simp [hs] at hinit
  simp only [onSnapshot] at h ⊢
  split_ifs at h ⊢
  · simp only [finishRefresh] at h ⊢
    split at h
    · rfl
    · split_ifs at h ⊢ with hat hahead
      · exact absurd h (Nat.succ_ne_self _)
      · rfl
      · exact absurd h (Nat.succ_ne_self _)
  · rfl

/-- A refresh in flight is invisible: its own calls change nothing. -/
theorem step_live_of_ofRefresh (hopen : s.Opened) {e : BookEvent K} (he : e.ofRefresh = true)
    (h : (s.step cfg e).depthRefreshes = s.depthRefreshes) : (s.step cfg e).live = s.live := by
  cases e with
  | op o =>
      cases o with
      | onSnapshot id bids asks => exact onSnapshot_live hopen h
      | beginRefresh => rfl
      | cancelRefresh =>
          simp only [step, BookOp.run, cancelRefresh]
          split_ifs <;> rfl
      | bufferDelta | applyDelta | reset => simp [BookEvent.ofRefresh] at he
  | maybePublish | heartbeat | publish => simp [BookEvent.ofRefresh] at he

/-- A synced book stays one, valid or not, until it is reset. -/
theorem step_opened (hopen : s.Opened) {e : BookEvent K} (he : e ≠ .op .reset)
    (h : (s.step cfg e).depthRefreshes = s.depthRefreshes) : (s.step cfg e).Opened := by
  have hkeep : ∀ t : SymbolBook K, t.state = s.state → t.Opened :=
    fun t ht => hopen.imp ht.trans ht.trans
  cases e with
  | op o =>
      cases o with
      | bufferDelta d => exact hkeep _ (congrArg (·.state) (bufferDelta_live d))
      | onSnapshot id bids asks => exact hkeep _ (congrArg (·.state) (onSnapshot_live hopen h))
      | applyDelta d => exact applyDelta_opened hopen h
      | beginRefresh => exact hopen
      | cancelRefresh =>
          simp only [step, BookOp.run, cancelRefresh]
          split_ifs <;> exact hopen
      | reset => exact absurd rfl he
  | maybePublish | heartbeat =>
      simp only [step]
      split_ifs <;> exact hopen
  | publish => exact hopen

/-- The other events act on the live book alone. -/
theorem step_live_of_not_ofRefresh {e : BookEvent K} (he : e.ofRefresh = false)
    (h : (s.step cfg e).depthRefreshes = s.depthRefreshes) :
    (s.step cfg e).live = (s.live.step cfg e).live := by
  cases e with
  | op o =>
      cases o with
      | bufferDelta d =>
          simp only [step, BookOp.run, bufferDelta_live]
          rfl
      | applyDelta d => exact applyDelta_live h
      | reset => rfl
      | onSnapshot | beginRefresh | cancelRefresh => simp [BookEvent.ofRefresh] at he
  | maybePublish nowMs fhRecvTimeUtcNs fhSeqNo =>
      -- whether and what is published is the same for the live book by definition
      by_cases hp : s.shouldPublish nowMs (s.getQuote cfg fhRecvTimeUtcNs fhSeqNo) = true
      · have hs : s.step cfg (.maybePublish nowMs fhRecvTimeUtcNs fhSeqNo)
            = s.recordPublish nowMs (s.getQuote cfg fhRecvTimeUtcNs fhSeqNo) := if_pos hp
        have hlive : s.live.step cfg (.maybePublish nowMs fhRecvTimeUtcNs fhSeqNo)
            = s.live.recordPublish nowMs (s.getQuote cfg fhRecvTimeUtcNs fhSeqNo) := if_pos hp
        rw [hs, hlive]
        rfl
      · have hs : s.step cfg (.maybePublish nowMs fhRecvTimeUtcNs fhSeqNo) = s := if_neg hp
        have hlive : s.live.step cfg (.maybePublish nowMs fhRecvTimeUtcNs fhSeqNo) = s.live :=
          if_neg hp
        rw [hs, hlive]
        rfl
  | heartbeat nowMs fhRecvTimeUtcNs fhSeqNo =>
      have hneeded : s.live.timeoutPublishNeeded nowMs = s.timeoutPublishNeeded nowMs := rfl
      simp only [step, getQuote_live, hneeded]
      cases s.timeoutPublishNeeded nowMs && (s.getQuote cfg fhRecvTimeUtcNs fhSeqNo).isValid <;> rfl
  | publish nowMs quote => rfl

/-- Without a refresh in flight no event swaps one in, and none comes into flight by itself. -/
theorem Idle.step (h : s.Idle) {e : BookEvent K} (he : e.ofRefresh = false) :
    (s.step cfg e).Idle ∧ (s.step cfg e).depthRefreshes = s.depthRefreshes := by
  cases e with
  | op o =>
      cases o with
      | bufferDelta d =>
          refine ⟨?_, bufferDelta_depthRefreshes d⟩
          simp only [SymbolBook.step, BookOp.run, bufferDelta]
          split_ifs <;> exact h
      | applyDelta d =>
          simp only [SymbolBook.step, BookOp.run]
          obtain ⟨-, -, hout⟩ | ⟨-, seq, ⟨-, hout⟩ | ⟨-, hout⟩ | ⟨-, hout⟩⟩ :=
            s.applyDelta_cases cfg d
          · rw [hout]
            exact ⟨h, rfl⟩
          · rw [hout]
            exact ⟨h, rfl⟩
          · have hskip : Idle { s with seq := seq } := h
            rw [hout, hskip.passOn d]
            exact ⟨h, rfl⟩
          · have happly : Idle (applyEvent cfg { s with seq := seq } d) := h
            rw [hout, happly.passOn d]
            exact ⟨h, rfl⟩
      | reset => exact ⟨⟨rfl, rfl⟩, rfl⟩
      | onSnapshot | beginRefresh | cancelRefresh => simp [BookEvent.ofRefresh] at he
  | maybePublish nowMs fhRecvTimeUtcNs fhSeqNo =>
      simp only [SymbolBook.step]
      split_ifs <;> exact ⟨h, rfl⟩
  | heartbeat nowMs fhRecvTimeUtcNs fhSeqNo =>
      simp only [SymbolBook.step]
      split_ifs <;> exact ⟨h, rfl⟩
  | publish nowMs quote => exact ⟨h, rfl⟩

end

/-! ## Once nothing is in flight -/

/-- Two books no event can tell apart: the live parts agree, and so does what is awaited or held. -/
structure Twin (s t : SymbolBook K) : Prop where
  live : s.live = t.live
  pending : s.refreshPending = t.refreshPending
  held : s.shadow.pending = t.shadow.pending
  shadow : s.shadow.pending = true → s.shadow = t.shadow
  /-- the buffer is read by a snapshot that is awaited -/
  buffer : s.refreshPending = true ∨ s.state = .INIT → s.deltaBuffer = t.deltaBuffer

namespace Twin

variable {cfg : BookConfig} {s t : SymbolBook K}

omit [LinearOrder K] in
theorem state (h : Twin s t) : s.state = t.state := congrArg (·.state) h.live

omit [LinearOrder K] in
theorem seq (h : Twin s t) : s.seq = t.seq := congrArg (·.seq) h.live

omit [LinearOrder K] in
/-- What is left of a refresh that is over makes no difference. -/
theorem of_idle (hlive : s.live = t.live) (hs : s.Idle) (ht : t.Idle) (hinit : s.state ≠ .INIT) :
    Twin s t where
  live := hlive
  pending := hs.1.trans ht.1.symm
  held := hs.2.trans ht.2.symm
  shadow := fun hheld => absurd (hs.2.symm.trans hheld) (by decide)
  buffer := by
    rintro (hp | hi)
    · exact absurd (hs.1.symm.trans hp) (by decide)
    · exact absurd hi hinit

omit [LinearOrder K] in
theorem bufferDelta (h : Twin s t) (d : BufferedDelta K) :
    Twin (s.bufferDelta d).2 (t.bufferDelta d).2 := by
  have heq : ∀ u : SymbolBook K, ∃ overflows, (u.bufferDelta d).2 =
      { u with
        deltaBuffer :=
          if (u.deltaBuffer ++ [d]).length > maxDeltaBufferSize then (u.deltaBuffer ++ [d]).tail
          else u.deltaBuffer ++ [d]
        bufferOverflows := overflows } := by
    intro u
    simp only [SymbolBook.bufferDelta]
    split_ifs <;> exact ⟨_, rfl⟩
  obtain ⟨a, hs⟩ := heq s
  obtain ⟨b, ht⟩ := heq t
  rw [hs, ht]
  exact
    { live := h.live, pending := h.pending, held := h.held, shadow := h.shadow
      buffer := fun hread => by rw [h.buffer hread] }

/-- A held shadow is dropped, kept or swapped in alike. -/
theorem feedShadow (h : Twin s t) (hheld : s.shadow.pending = true) (d : BufferedDelta K) :
    Twin (s.feedShadow cfg d) (t.feedShadow cfg d) := by
  have hshadow := h.shadow hheld
  simp only [SymbolBook.feedShadow, ← hshadow]
  rcases checkSequence cfg.sync s.shadow.seq d with ⟨v, seq⟩
  cases v with
  | FAIL =>
      exact
        { live := h.live, pending := h.pending, held := rfl, shadow := fun _ => rfl
          buffer := h.buffer }
  | SKIP =>
      exact
        { live := h.live, pending := h.pending, held := rfl, shadow := fun _ => rfl
          buffer := h.buffer }
  | APPLY =>
      have hlive : ∀ (u : SymbolBook K) (n : Nat) (b : Book K) (q : Seq) (w : Bool),
          SymbolBook.live
              { u with
                book := b, seq := q, shadow := Shadow.none, wasExhausted := w, depthRefreshes := n }
            = { u.live with book := b, seq := q, wasExhausted := w } := fun _ _ _ _ _ => rfl
      exact
        { live := (hlive s _ _ _ _).trans (h.live ▸ (hlive t _ _ _ _).symm)
          pending := h.pending, held := rfl, shadow := fun _ => rfl, buffer := h.buffer }

theorem passOn (h : Twin s t) (d : BufferedDelta K) : Twin (s.passOn cfg d) (t.passOn cfg d) := by
  have hbuffered : Twin (if s.refreshPending then (s.bufferDelta d).2 else s)
      (if t.refreshPending then (t.bufferDelta d).2 else t) := by
    rw [← h.pending]
    split_ifs
    · exact h.bufferDelta d
    · exact h
  simp only [SymbolBook.passOn]
  generalize (if s.refreshPending then (s.bufferDelta d).2 else s) = s' at hbuffered ⊢
  generalize (if t.refreshPending then (t.bufferDelta d).2 else t) = t' at hbuffered ⊢
  rw [← hbuffered.held]
  split_ifs with hheld
  · exact hbuffered.feedShadow hheld d
  · exact hbuffered

theorem applyEvent (h : Twin s t) (d : BufferedDelta K) :
    Twin (s.applyEvent cfg d) (t.applyEvent cfg d) where
  live := by
    have hlive := congrArg (fun u => (SymbolBook.applyEvent cfg u d).live) h.live
    exact hlive
  pending := h.pending
  held := h.held
  shadow := h.shadow
  buffer := by
    rintro (hp | hi)
    · exact h.buffer (Or.inl hp)
    · simp [SymbolBook.applyEvent] at hi

/-- An event is accepted by both books or by neither, and leaves them twins. -/
theorem applyDelta (cfg : BookConfig) (h : Twin s t) (d : BufferedDelta K) :
    (s.applyDelta cfg d).1 = (t.applyDelta cfg d).1 ∧
      Twin (s.applyDelta cfg d).2 (t.applyDelta cfg d).2 := by
  have hseq : ∀ q : Seq, Twin { s with seq := q } { t with seq := q } := fun q =>
    { live := congrArg (fun u : SymbolBook K => { u with seq := q }) h.live
      pending := h.pending, held := h.held, shadow := h.shadow, buffer := h.buffer }
  rcases hv : checkSequence cfg.sync s.seq d with ⟨v, q⟩
  have hstep : ∀ u : SymbolBook K, u.state = .SYNCING ∨ u.state = .VALID → u.seq = s.seq →
      u.applyDelta cfg d =
        if v = .FAIL then (false, { u with seq := q, state := .INVALID })
        else if v = .SKIP then (true, SymbolBook.passOn cfg { u with seq := q } d)
        else (true, SymbolBook.passOn cfg (SymbolBook.applyEvent cfg { u with seq := q } d) d) := by
    intro u hu hseq
    cases v <;> obtain hu | hu := hu <;> simp [SymbolBook.applyDelta, hu, hseq, hv]
  by_cases hs : s.state = .SYNCING ∨ s.state = .VALID
  · rw [hstep s hs rfl, hstep t (h.state ▸ hs) h.seq.symm]
    cases v with
    | FAIL =>
        exact ⟨rfl,
          { live := congrArg (fun u : SymbolBook K => { u with seq := q, state := .INVALID }) h.live
            pending := h.pending, held := h.held, shadow := h.shadow
            buffer := fun hread => h.buffer (hread.imp_right fun hi => absurd hi (by simp)) }⟩
    | SKIP => exact ⟨rfl, (hseq q).passOn d⟩
    | APPLY => exact ⟨rfl, ((hseq q).applyEvent d).passOn d⟩
  · have hnone : ∀ u : SymbolBook K, u.state = s.state → u.applyDelta cfg d = (false, u) := by
      intro u hu
      obtain ⟨-, -, hout⟩ | ⟨hstate, -⟩ := u.applyDelta_cases cfg d
      · exact hout
      · exact absurd (hu ▸ hstate) hs
    rw [hnone s rfl, hnone t h.state.symm]
    exact ⟨rfl, h⟩

theorem replay (cfg : BookConfig) (h : Twin s t) (ds : List (BufferedDelta K)) :
    (s.replay cfg ds).1 = (t.replay cfg ds).1 ∧
      Twin (s.replay cfg ds).2 (t.replay cfg ds).2 := by
  induction ds generalizing s t with
  | nil => exact ⟨rfl, h⟩
  | cons d ds ih =>
      obtain ⟨hsame, htwin⟩ := h.applyDelta cfg d
      simp only [SymbolBook.replay]
      rcases hs : s.applyDelta cfg d with ⟨ok, s'⟩
      rcases ht : t.applyDelta cfg d with ⟨ok', t'⟩
      simp only [hs, ht] at hsame htwin
      subst hsame
      cases ok with
      | false => exact ⟨rfl, htwin⟩
      | true => exact ih htwin

/-- A refresh snapshot is swapped in, held or refused by both books alike. -/
theorem finishRefresh (cfg : BookConfig) (h : Twin s t) (hpending : s.refreshPending = true) (id : Int)
    (bids asks : List (PriceLevel K)) :
    Twin (s.finishRefresh cfg id bids asks).2 (t.finishRefresh cfg id bids asks).2 := by
  have hswap : ∀ (b : Book K) (q : Seq),
      Twin (SymbolBook.swapIn cfg { s with refreshPending := false, deltaBuffer := [] } b q)
        (SymbolBook.swapIn cfg { t with refreshPending := false, deltaBuffer := [] } b q) := by
    intro b q
    have hlive := congrArg (fun u : SymbolBook K => (SymbolBook.swapIn cfg u b q).live) h.live
    exact { live := hlive, pending := rfl, held := h.held, shadow := h.shadow, buffer := fun _ => rfl }
  have hlive := congrArg (fun u : SymbolBook K => { u with seq := s.seq }) h.live
  simp only [SymbolBook.finishRefresh, ← h.buffer (Or.inl hpending), ← h.seq]
  cases replayShadow cfg (Book.load cfg bids asks)
      { needBridge := true, snapshotId := id, lastId := id } s.deltaBuffer with
  | none =>
      exact
        { live := hlive, pending := rfl, held := h.held, shadow := h.shadow
          buffer := fun _ => rfl }
  | some built =>
      obtain ⟨b, sseq⟩ := built
      dsimp only
      split_ifs
      · exact hswap b s.seq
      · exact
          { live := hlive, pending := rfl, held := rfl, shadow := fun _ => rfl
            buffer := fun _ => rfl }
      · exact hswap b sseq

/-- The first snapshot of a book is loaded and met with the buffered events. -/
theorem onSnapshot_init {u : SymbolBook K} (hinit : u.state = .INIT)
    {buf : List (BufferedDelta K)} (hbuf : u.deltaBuffer = buf) (id : Int)
    (bids asks : List (PriceLevel K)) :
    (u.onSnapshot cfg id bids asks).2 =
      { ((SymbolBook.applySnapshot cfg { u with snapshotRequested := false, refreshPending := false }
          id bids asks).replay cfg buf).2 with deltaBuffer := [] } := by
  subst hbuf
  simp only [SymbolBook.onSnapshot, hinit, ne_eq, not_true_eq_false, if_false, reduceCtorEq,
    false_and]
  split_ifs <;> rfl

theorem onSnapshot (h : Twin s t) (id : Int) (bids asks : List (PriceLevel K)) :
    Twin (s.onSnapshot cfg id bids asks).2 (t.onSnapshot cfg id bids asks).2 := by
  by_cases hinit : s.state = .INIT
  · have hloaded : Twin
        (SymbolBook.applySnapshot cfg { s with snapshotRequested := false, refreshPending := false }
          id bids asks)
        (SymbolBook.applySnapshot cfg { t with snapshotRequested := false, refreshPending := false }
          id bids asks) := by
      have hlive := congrArg
        (fun u : SymbolBook K => (SymbolBook.applySnapshot cfg u id bids asks).live) h.live
      exact
        { live := hlive, pending := rfl, held := h.held, shadow := h.shadow
          buffer := fun hread => absurd hread (by simp [SymbolBook.applySnapshot]) }
    have hreplayed := (hloaded.replay cfg s.deltaBuffer).2
    rw [onSnapshot_init hinit rfl, onSnapshot_init (h.state ▸ hinit) (h.buffer (Or.inr hinit)).symm]
    exact
      { live := hreplayed.live, pending := hreplayed.pending, held := hreplayed.held
        shadow := hreplayed.shadow, buffer := fun _ => rfl }
  · by_cases hrefresh : s.state = .VALID ∧ s.refreshPending = true
    · have hasked : Twin { s with snapshotRequested := false } { t with snapshotRequested := false } :=
        { live := h.live, pending := h.pending, held := h.held, shadow := h.shadow
          buffer := h.buffer }
      have htrefresh : t.state = .VALID ∧ t.refreshPending = true :=
        ⟨h.state ▸ hrefresh.1, h.pending ▸ hrefresh.2⟩
      have hout := hasked.finishRefresh cfg hrefresh.2 id bids asks
      simp only [SymbolBook.onSnapshot]
      rwa [if_pos hrefresh, if_pos htrefresh]
    · have htrefresh : ¬ (t.state = .VALID ∧ t.refreshPending = true) := by
        rwa [← h.state, ← h.pending]
      have htinit : t.state ≠ .INIT := h.state ▸ hinit
      simp only [SymbolBook.onSnapshot]
      rw [if_neg hrefresh, if_neg htrefresh, if_pos hinit, if_pos htinit]
      exact
        { live := h.live, pending := rfl, held := h.held, shadow := h.shadow
          buffer := fun hread => absurd (hread.resolve_left (by simp)) hinit }

/-- No event tells twins apart. -/
theorem step (h : Twin s t) (e : BookEvent K) : Twin (s.step cfg e) (t.step cfg e) := by
  have hrecord : ∀ nowMs quote, Twin (s.recordPublish nowMs quote) (t.recordPublish nowMs quote) :=
    fun nowMs quote =>
      { live := congrArg (fun u : SymbolBook K => u.recordPublish nowMs quote) h.live
        pending := h.pending, held := h.held, shadow := h.shadow, buffer := h.buffer }
  have hsame : SameBook cfg s t := SameBook.of_live h.live
  cases e with
  | op o =>
      cases o with
      | bufferDelta d => exact h.bufferDelta d
      | onSnapshot id bids asks => exact h.onSnapshot id bids asks
      | applyDelta d => exact (h.applyDelta cfg d).2
      | beginRefresh =>
          exact
            { live := h.live, pending := rfl, held := h.held, shadow := h.shadow
              buffer := fun _ => rfl }
      | cancelRefresh =>
          simp only [SymbolBook.step, BookOp.run, cancelRefresh]
          rw [← h.pending]
          split_ifs
          · exact
              { live := h.live, pending := rfl, held := h.held, shadow := h.shadow
                buffer := fun _ => rfl }
          · exact h
      | reset =>
          have hlive := congrArg (fun u : SymbolBook K => u.reset.live) h.live
          exact
            { live := hlive, pending := rfl, held := rfl, shadow := fun _ => rfl
              buffer := fun _ => rfl }
  | maybePublish nowMs fhRecvTimeUtcNs fhSeqNo =>
      simp only [SymbolBook.step]
      rw [← hsame.quote, ← hsame.publishes]
      split_ifs
      · exact hrecord _ _
      · exact h
  | heartbeat nowMs fhRecvTimeUtcNs fhSeqNo =>
      have hneeded : t.timeoutPublishNeeded nowMs = s.timeoutPublishNeeded nowMs := by
        have hlive := congrArg (fun u : SymbolBook K => u.timeoutPublishNeeded nowMs) h.live
        exact hlive.symm
      simp only [SymbolBook.step]
      rw [← hsame.quote, hneeded]
      split_ifs
      · exact hrecord _ _
      · exact h
  | publish nowMs quote => exact hrecord nowMs quote

end Twin

/-! ## The counter of swapped-in refreshes -/

theorem depthRefreshes_le_passOn (cfg : BookConfig) (s : SymbolBook K) (d : BufferedDelta K) :
    s.depthRefreshes ≤ (s.passOn cfg d).depthRefreshes := by
  have hfeed : ∀ u : SymbolBook K, u.depthRefreshes ≤ (u.feedShadow cfg d).depthRefreshes := by
    intro u
    simp only [feedShadow]
    split
    · exact Nat.le_refl _
    · exact Nat.le_refl _
    · exact Nat.le_succ _
  simp only [passOn]
  split_ifs
  · exact (bufferDelta_depthRefreshes d).ge.trans (hfeed _)
  · exact (bufferDelta_depthRefreshes d).ge
  · exact hfeed s
  · exact Nat.le_refl _

theorem depthRefreshes_le_applyDelta (cfg : BookConfig) (s : SymbolBook K) (d : BufferedDelta K) :
    s.depthRefreshes ≤ (s.applyDelta cfg d).2.depthRefreshes := by
  obtain ⟨-, -, hout⟩ | ⟨-, seq, ⟨-, hout⟩ | ⟨-, hout⟩ | ⟨-, hout⟩⟩ := s.applyDelta_cases cfg d
  · rw [hout]
  · rw [hout]
  · rw [hout]
    exact depthRefreshes_le_passOn cfg { s with seq := seq } d
  · rw [hout]
    exact depthRefreshes_le_passOn cfg (applyEvent cfg { s with seq := seq } d) d

theorem depthRefreshes_le_replay (cfg : BookConfig) (s : SymbolBook K) (ds : List (BufferedDelta K)) :
    s.depthRefreshes ≤ (s.replay cfg ds).2.depthRefreshes := by
  induction ds generalizing s with
  | nil => exact Nat.le_refl _
  | cons d ds ih =>
      have hd := depthRefreshes_le_applyDelta cfg s d
      simp only [replay]
      split
      · rename_i s' heq
        rwa [heq] at hd
      · rename_i s' heq
        rw [heq] at hd
        exact hd.trans (ih s')

theorem depthRefreshes_le_step (cfg : BookConfig) (s : SymbolBook K) (e : BookEvent K) :
    s.depthRefreshes ≤ (s.step cfg e).depthRefreshes := by
  cases e with
  | op o =>
      cases o with
      | bufferDelta d => exact (bufferDelta_depthRefreshes d).ge
      | applyDelta d => exact depthRefreshes_le_applyDelta cfg s d
      | beginRefresh | reset => exact Nat.le_refl _
      | cancelRefresh =>
          simp only [step, BookOp.run, cancelRefresh]
          split_ifs <;> exact Nat.le_refl _
      | onSnapshot id bids asks =>
          by_cases hinit : s.state = .INIT
          · simp only [step, BookOp.run, Twin.onSnapshot_init hinit rfl]
            exact depthRefreshes_le_replay cfg
              (applySnapshot cfg { s with snapshotRequested := false, refreshPending := false }
                id bids asks) s.deltaBuffer
          · simp only [step, BookOp.run, onSnapshot]
            split_ifs
            · simp only [finishRefresh]
              split
              · exact Nat.le_refl _
              · split_ifs
                · exact Nat.le_succ _
                · exact Nat.le_refl _
                · exact Nat.le_succ _
            · exact Nat.le_refl _
  | maybePublish | heartbeat =>
      simp only [step]
      split_ifs <;> exact Nat.le_refl _
  | publish => exact Nat.le_refl _

theorem depthRefreshes_le_exec (cfg : BookConfig) (s : SymbolBook K) (es : List (BookEvent K)) :
    s.depthRefreshes ≤ (exec (step cfg) s es).depthRefreshes :=
  exec_invariant (P := fun t : SymbolBook K => s.depthRefreshes ≤ t.depthRefreshes)
    (fun t e h => h.trans (depthRefreshes_le_step cfg t e)) es (Nat.le_refl _)

/-! ## The two runs -/

/-- The events that are not about a refresh. -/
def withoutRefresh (es : List (BookEvent K)) : List (BookEvent K) :=
  es.filter fun e => !e.ofRefresh

/-- As long as nothing is swapped in, the refreshes of the one run are invisible in it. -/
theorem live_exec_withoutRefresh {cfg : BookConfig} {es : List (BookEvent K)}
    (hreset : .op .reset ∉ es) {s t : SymbolBook K} (hlive : s.live = t.live) (hopen : s.Opened)
    (hidle : t.Idle) (hnone : (exec (step cfg) s es).depthRefreshes = s.depthRefreshes) :
    (exec (step cfg) s es).live = (exec (step cfg) t (withoutRefresh es)).live ∧
      (exec (step cfg) s es).Opened ∧ (exec (step cfg) t (withoutRefresh es)).Idle := by
  induction es generalizing s t with
  | nil => exact ⟨hlive, hopen, hidle⟩
  | cons e es ih =>
      rw [exec_cons] at hnone
      have hstep : (s.step cfg e).depthRefreshes = s.depthRefreshes :=
        ((depthRefreshes_le_exec cfg _ es).trans hnone.le).antisymm
          (depthRefreshes_le_step cfg s e)
      have hnext : (s.step cfg e).Opened :=
        step_opened hopen (fun heq => hreset (heq ▸ List.mem_cons_self)) hstep
      have htail := hnone.trans hstep.symm
      cases he : e.ofRefresh with
      | true =>
          have hsame := step_live_of_ofRefresh hopen he hstep
          simp only [exec_cons, withoutRefresh, List.filter_cons, he]
          exact ih (fun hin => hreset (List.mem_cons_of_mem e hin)) (hsame.trans hlive) hnext
            hidle htail
      | false =>
          have hs := step_live_of_not_ofRefresh he hstep
          have ht : (t.step cfg e).live = (t.live.step cfg e).live :=
            step_live_of_not_ofRefresh he (hidle.step he).2
          simp only [exec_cons, withoutRefresh, List.filter_cons, he]
          exact ih (fun hin => hreset (List.mem_cons_of_mem e hin))
            (hs.trans ((congrArg (fun u => (step cfg u e).live) hlive).trans ht.symm)) hnext
            (hidle.step he).1 htail

namespace Twin

/-- No run tells twins apart. -/
theorem run {cfg : BookConfig} {s t : SymbolBook K} (h : Twin s t) (es : List (BookEvent K)) :
    Twin (exec (SymbolBook.step cfg) s es) (exec (SymbolBook.step cfg) t es) := by
  induction es generalizing s t with
  | nil => exact h
  | cons e es ih => exact ih (h.step e)

omit [LinearOrder K] in
/-- A reset forgets everything that is not live. -/
theorem of_reset {s t : SymbolBook K} (hlive : s.live = t.live) : Twin s.reset t.reset where
  live := by
    have hreset := congrArg (fun u : SymbolBook K => u.reset.live) hlive
    exact hreset
  pending := rfl
  held := rfl
  shadow := fun _ => rfl
  buffer := fun _ => rfl

end Twin

section
variable {cfg : BookConfig} {s : SymbolBook K} {during : List (BookEvent K)}

/-- A refresh that succeeds nowhere in a run succeeds nowhere in the beginning of it. -/
theorem depthRefreshes_of_beginning {pre : List (BookEvent K)} (hpre : pre <+: during)
    (hfailed : (exec (step cfg) s during).depthRefreshes = s.depthRefreshes) :
    (exec (step cfg) s pre).depthRefreshes = s.depthRefreshes := by
  obtain ⟨post, rfl⟩ := hpre
  have hpost := depthRefreshes_le_exec cfg (exec (step cfg) s pre) post
  rw [← exec_append, hfailed] at hpost
  exact hpost.antisymm (depthRefreshes_le_exec cfg s pre)

/-- A valid book with no refresh in flight, as `wantsRefresh` asks for, goes through
refreshes none of which succeeds. After each event it is the same book as without
them; once nothing is in flight any more, and after a reset, whatever follows,
further refreshes included, acts on both alike. -/
theorem failed_refresh_leaves_no_trace (hvalid : s.state = .VALID) (hidle : s.Idle)
    (hreset : .op .reset ∉ during)
    (hfailed : (exec (step cfg) s during).depthRefreshes = s.depthRefreshes) :
    (∀ pre, pre <+: during →
      SameBook cfg (exec (step cfg) s pre) (exec (step cfg) s (withoutRefresh pre))) ∧
    ((exec (step cfg) s during).Idle → ∀ rest,
      SameBook cfg (exec (step cfg) s (during ++ rest))
        (exec (step cfg) s (withoutRefresh during ++ rest))) ∧
    (∀ rest,
      SameBook cfg (exec (step cfg) s (during ++ .op .reset :: rest))
        (exec (step cfg) s (withoutRefresh during ++ .op .reset :: rest))) := by
  have hrun := live_exec_withoutRefresh hreset rfl (Or.inl hvalid) hidle hfailed
  obtain ⟨hlive, hopen, hquiet⟩ := hrun
  have hsynced : (exec (step cfg) s during).state ≠ .INIT := by
    intro hinit
    obtain hs | hs := hopen <;> simp [hs] at hinit
  refine ⟨?_, ?_, ?_⟩
  · intro pre hpre
    have hbegin := live_exec_withoutRefresh (fun hin => hreset (hpre.subset hin)) rfl
      (Or.inl hvalid) hidle (depthRefreshes_of_beginning hpre hfailed)
    exact SameBook.of_live hbegin.1
  · intro hover rest
    rw [exec_append, exec_append]
    exact SameBook.of_live ((Twin.of_idle hlive hover hquiet hsynced).run rest).live
  · intro rest
    rw [exec_append, exec_append, exec_cons, exec_cons]
    exact SameBook.of_live ((Twin.of_reset hlive).run rest).live

end

/-- A book at id 100 with one level a side. -/
def validAt100 : SymbolBook Int :=
  exec (BookOp.run .oneLevel) (SymbolBook.init "btcusdt" 0)
    [.onSnapshot 99 [⟨10, 1⟩] [⟨11, 1⟩],
      .applyDelta { firstUpdateId := 100, finalUpdateId := 100, bids := [⟨10, 2⟩], asks := [] }]

/-- A refresh whose snapshot is behind the book is held, and dropped by the next event. -/
def droppedRefresh : List (BookEvent Int) :=
  [.op .beginRefresh,
    .op (.onSnapshot 95 [⟨10, 5⟩] [⟨11, 1⟩]),
    .op (.applyDelta { firstUpdateId := 101, finalUpdateId := 101, bids := [⟨10, 3⟩], asks := [] }),
    .maybePublish 20 20 1]

theorem droppedRefresh_leaves_no_trace :
    SameBook .oneLevel (exec (step .oneLevel) validAt100 droppedRefresh)
      (exec (step .oneLevel) validAt100 (withoutRefresh droppedRefresh)) := by
  have hreset : .op .reset ∉ droppedRefresh := by simp [droppedRefresh]
  have hfailed : (exec (step .oneLevel) validAt100 droppedRefresh).depthRefreshes
      = validAt100.depthRefreshes := by decide
  exact (failed_refresh_leaves_no_trace (by decide) ⟨by decide, by decide⟩ hreset hfailed).1
    droppedRefresh (List.prefix_refl _)

example : (exec (step .oneLevel) validAt100 droppedRefresh).refreshFailures = 1 := by decide

end SymbolBook

end TickToSignal.OrderBook
