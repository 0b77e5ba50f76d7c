import TickToSignal.OrderBook.Correctness
import Mathlib.Data.List.Chain

/-!
# The update ids of consecutive rows of one symbol

`cont` is the rule the stored rows are checked by. `Continuous` is what a
symbol's book keeps between two events so that the next valid quote obeys it:
the id range a row will carry starts where the last valid row ended, and every
operation that breaks the chain of applied events leaves a book whose last row
is marked invalid.
-/

namespace TickToSignal.Quote

open OrderBook

variable {K : Type*}

/-- The rule of `.qs.check`: does a valid row continue the valid row before it? -/
def cont (sync : DepthSync) (prev cur : BookQuote K) : Bool :=
  match sync with
  | .Spot =>
      decide (cur.exchFirstUpdateId ≤ prev.exchUpdateId + 1) &&
        decide (cur.exchUpdateId ≥ prev.exchUpdateId)
  | .Futures =>
      decide (cur.exchPrevUpdateId = prev.exchUpdateId) ||
        (decide (cur.exchFirstUpdateId = prev.exchFirstUpdateId) &&
          decide (cur.exchUpdateId = prev.exchUpdateId))

/-- An event may follow the last event of its connection: on spot it starts
right after it, or further on when events in between were lost; on futures
`pu` tells, and is any other id after a loss. -/
def Follows (sync : DepthSync) (last : Option Int) (d : BufferedDelta K) : Prop :=
  match sync with
  | .Spot =>
      d.firstUpdateId ≤ d.finalUpdateId ∧
        ∀ u ∈ last, d.firstUpdateId = u + 1 ∨ u + 1 < d.firstUpdateId
  | .Futures => True

/-- Buffered events: an unbroken part of the connection's events, up to the last. -/
structure Buffered (sync : DepthSync) (last : Option Int) (buf : List (BufferedDelta K)) :
    Prop where
  ordered : ∀ d ∈ buf, Follows sync none d
  chained : buf.IsChain fun a b => Follows sync (some a.finalUpdateId) b
  ends : ∀ d ∈ buf.getLast?, last = some d.finalUpdateId

/-- The ids the next row will carry continue those of the last valid row. -/
def RangeFrom (sync : DepthSync) (s : SymbolBook K) (q : BookQuote K) : Prop :=
  if s.rangeClosed then s.rangeFirstU = q.exchFirstUpdateId ∧ s.seq.lastId = q.exchUpdateId
  else
    match sync with
    | .Spot => s.rangeFirstU ≤ q.exchUpdateId + 1 ∧ q.exchUpdateId ≤ s.seq.lastId
    | .Futures => s.rangePrevU = q.exchUpdateId

/-- The live part of what a symbol's book keeps between events; `last` is the
final update id of the last event its connection delivered. -/
structure InChain (cfg : BookConfig) (last : Option Int) (s : SymbolBook K) : Prop where
  marked : s.state ≠ .VALID → s.lastPublishedValid = false
  bridged : s.state = .VALID → s.seq.needBridge = false ∧ last = some s.seq.lastId
  refreshing : s.refreshPending = true → s.state = .VALID
  holding : s.shadow.pending = true → s.state = .VALID
  fresh : s.state = .INIT ∨ s.state = .SYNCING → s.rangeClosed = true
  opened : cfg.sync = .Spot → s.state = .VALID → s.rangeFirstU ≤ s.seq.lastId + 1
  range : s.state = .VALID → ∀ q ∈ s.lastPublished, q.isValid = true → RangeFrom cfg.sync s q

/-- What a symbol's book keeps between events. -/
structure Continuous (cfg : BookConfig) (last : Option Int) (s : SymbolBook K) : Prop
    extends InChain cfg last s where
  buffered : s.state = .INIT ∨ s.refreshPending = true → Buffered cfg.sync last s.deltaBuffer

section Stream
variable {sync : DepthSync} {last : Option Int} {seq seq' : Seq} {d : BufferedDelta K}
  {buf : List (BufferedDelta K)}

theorem Follows.ordered (h : Follows sync last d) : Follows sync none d := by
  cases sync with
  | Spot => exact ⟨h.1, by simp⟩
  | Futures => trivial

theorem buffered_nil (sync : DepthSync) (last : Option Int) :
    Buffered sync last ([] : List (BufferedDelta K)) := by
  constructor <;> simp

theorem Buffered.tail (h : Buffered sync last buf) : Buffered sync last buf.tail where
  ordered := fun e he => h.ordered e (List.mem_of_mem_tail he)
  chained := h.chained.tail
  ends := by
    intro e he
    cases buf with
    | nil => simp at he
    | cons a as =>
        cases as with
        | nil => simp at he
        | cons b bs => exact h.ends e (by simpa using he)

theorem Buffered.snoc (h : Buffered sync last buf) (hd : Follows sync last d) :
    Buffered sync (some d.finalUpdateId) (buf ++ [d]) where
  ordered := by
    intro e he
    rcases List.mem_append.mp he with he | he
    · exact h.ordered e he
    · exact List.mem_singleton.mp he ▸ hd.ordered
  chained := by
    apply h.chained.append (List.isChain_singleton d)
    intro e he f hf
    have hf' : d = f := by simpa using hf
    subst hf'
    exact h.ends e he ▸ hd
  ends := by
    intro e he
    have he' : d = e := by simpa using he
    rw [he']

/-- An event that follows the one a bridged book is at is never stale. -/
theorem checkSequence_ne_skip (hd : Follows sync (some seq.lastId) d)
    (hbridged : seq.needBridge = false) : checkSequence sync seq d ≠ (.SKIP, seq') := by
  cases sync with
  | Spot =>
      obtain ⟨hordered, hnext⟩ := hd
      have hlater := hnext seq.lastId rfl
      have hfresh : ¬ d.finalUpdateId < seq.lastId := by omega
      simp only [checkSequence, hbridged, Bool.false_eq_true, if_false, if_neg hfresh]
      split_ifs <;> simp
  | Futures =>
      simp only [checkSequence, hbridged, Bool.false_eq_true, if_false]
      split_ifs <;> simp

/-- A bridged book only takes an event that continues it. -/
theorem checkSequence_apply_next (hbridged : seq.needBridge = false)
    (hv : checkSequence sync seq d = (.APPLY, seq')) :
    (sync = .Spot → d.firstUpdateId ≤ seq.lastId + 1 ∧ seq.lastId ≤ d.finalUpdateId) ∧
      (sync = .Futures → d.prevFinalUpdateId = seq.lastId) := by
  cases sync with
  | Spot =>
      simp only [checkSequence, hbridged, Bool.false_eq_true, if_false] at hv
      split_ifs at hv with hstale hgap
      · simp at hv
      · simp at hv
      · exact ⟨fun _ => ⟨by omega, by omega⟩, by simp⟩
  | Futures =>
      simp only [checkSequence, hbridged, Bool.false_eq_true, if_false] at hv
      split_ifs at hv with hprev
      · exact ⟨by simp, fun _ => hprev⟩
      · simp at hv

end Stream

section SymbolBook
variable [LinearOrder K] [Zero K] {cfg : BookConfig} {last : Option Int} {s : SymbolBook K}
  {d : BufferedDelta K}

omit [LinearOrder K] [Zero K] in
theorem RangeFrom.congr {sync : DepthSync} {s' : SymbolBook K} {q : BookQuote K}
    (h : RangeFrom sync s q) (hclosed : s'.rangeClosed = s.rangeClosed)
    (hfirst : s'.rangeFirstU = s.rangeFirstU) (hprev : s'.rangePrevU = s.rangePrevU)
    (hlast : s'.seq.lastId = s.seq.lastId) : RangeFrom sync s' q := by
  simpa only [RangeFrom, hclosed, hfirst, hprev, hlast] using h

/-- A shadow that has bridged ends at the last buffered event. -/
theorem replayShadow_lastId {buf : List (BufferedDelta K)} {b b' : Book K} {seq seq' : Seq}
    (hbuf : Buffered cfg.sync last buf)
    (hnext : seq.needBridge = false → ∀ d ∈ buf.head?, Follows cfg.sync (some seq.lastId) d)
    (hr : SymbolBook.replayShadow cfg b seq buf = some (b', seq'))
    (hsome : seq.needBridge = true ∨ buf ≠ []) (hbridged : seq'.needBridge = false) :
    last = some seq'.lastId := by
  induction buf generalizing b seq with
  | nil =>
      simp only [SymbolBook.replayShadow, Option.some.injEq, Prod.mk.injEq] at hr
      obtain ⟨-, rfl⟩ := hr
      simp [hbridged] at hsome
  | cons d ds ih =>
      have hrest : Buffered cfg.sync last ds := hbuf.tail
      simp only [SymbolBook.replayShadow] at hr
      split at hr
      · simp at hr
      · rename_i seq₁ hv
        obtain rfl := checkSequence_eq_of_ne_apply hv (by decide)
        cases hneed : seq₁.needBridge with
        | true => exact ih hrest (by simp [hneed]) hr (Or.inl hneed)
        | false => exact absurd hv (checkSequence_ne_skip (hnext hneed d rfl) hneed)
      · rename_i seq₁ hv
        have hdone := checkSequence_apply_bridged hv
        cases ds with
        | nil =>
            simp only [SymbolBook.replayShadow, Option.some.injEq, Prod.mk.injEq] at hr
            obtain ⟨-, rfl⟩ := hr
            exact hbuf.ends d rfl
        | cons e es =>
            apply ih hrest _ hr (Or.inr (by simp))
            intro _ f hf
            obtain rfl : e = f := by simpa using hf
            exact (List.isChain_cons_cons.mp hbuf.chained).1

omit [LinearOrder K] in
/-- A book with nothing applied and no valid row behind it. -/
theorem continuous_reset (hs : s.lastPublishedValid = false) : Continuous cfg last s.reset := by
  refine ⟨⟨fun _ => hs, ?_, ?_, ?_, ?_, ?_, ?_⟩, ?_⟩ <;>
    simp [SymbolBook.reset, Shadow.none, buffered_nil]

omit [LinearOrder K] in
theorem continuous_init (sym : String) (nowMs : Int) :
    Continuous cfg last (SymbolBook.init sym nowMs : SymbolBook K) := by
  refine ⟨⟨?_, ?_, ?_, ?_, ?_, ?_, ?_⟩, ?_⟩ <;>
    simp [SymbolBook.init, Shadow.none, SymbolBook.lastPublishedValid, buffered_nil]

omit [LinearOrder K] [Zero K] in
/-- Outside `VALID` and `INIT` nothing depends on the stream. -/
theorem Continuous.forget {last' : Option Int} (h : Continuous cfg last s)
    (hvalid : s.state ≠ .VALID) (hinit : s.state ≠ .INIT) : Continuous cfg last' s where
  marked := h.marked
  bridged := fun hs => absurd hs hvalid
  refreshing := h.refreshing
  holding := h.holding
  fresh := h.fresh
  opened := h.opened
  range := h.range
  buffered := by
    rintro (hs | hs)
    · exact absurd hs hinit
    · exact absurd (h.refreshing hs) hvalid

omit [LinearOrder K] [Zero K] in
/-- An event the live book takes is the last it has applied. -/
theorem InChain.follows_lastId (h : InChain cfg last s) (hs : s.state = .VALID)
    (hd : Follows cfg.sync last d) : Follows cfg.sync (some s.seq.lastId) d :=
  (h.bridged hs).2 ▸ hd

/-- An applied event: the range goes on from where it was, or opens with it. -/
theorem InChain.applyEvent {seq : Seq} (h : InChain cfg last s)
    (hs : s.state = .SYNCING ∨ s.state = .VALID) (hd : Follows cfg.sync last d)
    (hv : checkSequence cfg.sync s.seq d = (.APPLY, seq)) :
    InChain cfg (some d.finalUpdateId) (SymbolBook.applyEvent cfg { s with seq := seq } d) := by
  have hdone := checkSequence_apply_bridged hv
  constructor
  case marked => exact fun hs' => absurd rfl hs'
  case bridged => exact fun _ => ⟨hdone, rfl⟩
  case refreshing => exact fun _ => rfl
  case holding => exact fun _ => rfl
  case fresh => simp [SymbolBook.applyEvent]
  case opened =>
    intro hspot _
    rw [hspot] at hd
    have hordered : d.firstUpdateId ≤ d.finalUpdateId := hd.1
    simp only [SymbolBook.applyEvent]
    split_ifs with hclosed
    · omega
    · have hvalid : s.state = .VALID := by
        rcases hs with hs | hs
        · exact absurd (h.fresh (Or.inr hs)) hclosed
        · exact hs
      have hfirst := h.opened hspot hvalid
      have hnext := (hspot ▸ h.follows_lastId hvalid (hspot ▸ hd)).2 s.seq.lastId rfl
      omega
  case range =>
    intro _ q hq hqv
    have hvalid : s.state = .VALID := by
      by_contra hne
      have hlp := h.marked hne
      have hq' : s.lastPublished = some q := hq
      simp [SymbolBook.lastPublishedValid, hq', hqv] at hlp
    obtain ⟨hbridged, -⟩ := h.bridged hvalid
    have hrange := h.range hvalid q hq hqv
    obtain ⟨hspot, hfutures⟩ := checkSequence_apply_next hbridged hv
    cases hsync : cfg.sync with
    | Spot =>
        obtain ⟨hfirst, hlast⟩ := hspot hsync
        rw [hsync] at hrange
        simp only [RangeFrom, SymbolBook.applyEvent, Bool.false_eq_true, if_false] at hrange ⊢
        split_ifs at hrange ⊢ <;> omega
    | Futures =>
        have hprev := hfutures hsync
        rw [hsync] at hrange
        simp only [RangeFrom, SymbolBook.applyEvent, Bool.false_eq_true, if_false] at hrange ⊢
        split_ifs at hrange ⊢ <;> omega

omit [LinearOrder K] [Zero K] in
/-- The fields the live part of the invariant mentions. -/
theorem InChain.congr {s' : SymbolBook K} (h : InChain cfg last s) (hstate : s'.state = s.state)
    (hseq : s'.seq = s.seq) (hlp : s'.lastPublished = s.lastPublished)
    (hclosed : s'.rangeClosed = s.rangeClosed) (hfirst : s'.rangeFirstU = s.rangeFirstU)
    (hprev : s'.rangePrevU = s.rangePrevU)
    (hrefresh : s'.refreshPending = true → s.refreshPending = true)
    (hheld : s'.shadow.pending = true → s.shadow.pending = true) : InChain cfg last s' where
  marked := by
    simp only [SymbolBook.lastPublishedValid, hstate, hlp]
    exact h.marked
  bridged := by
    rw [hstate, hseq]
    exact h.bridged
  refreshing := fun hr => hstate ▸ h.refreshing (hrefresh hr)
  holding := fun hp => hstate ▸ h.holding (hheld hp)
  fresh := by
    rw [hstate, hclosed]
    exact h.fresh
  opened := by
    rw [hstate, hseq, hfirst]
    exact h.opened
  range := by
    rw [hstate, hlp]
    intro hs q hq hqv
    exact (h.range hs q hq hqv).congr hclosed hfirst hprev (congrArg Seq.lastId hseq)

/-- Passing on the event the live book is at. -/
theorem InChain.passOn (h : InChain cfg (some d.finalUpdateId) s) (hs : s.state = .VALID)
    (hbuf : s.refreshPending = true → Buffered cfg.sync last s.deltaBuffer)
    (hd : Follows cfg.sync last d) : Continuous cfg (some d.finalUpdateId) (s.passOn cfg d) := by
  obtain ⟨hbridged, hlast⟩ := h.bridged hs
  have hlastId : s.seq.lastId = d.finalUpdateId := (Option.some.inj hlast).symm
  have hbuffered : Continuous cfg (some d.finalUpdateId)
      (if s.refreshPending then (s.bufferDelta d).2 else s) := by
    split_ifs with hr
    · have hsnoc := (hbuf hr).snoc hd
      simp only [SymbolBook.bufferDelta]
      split_ifs
      · exact ⟨h.congr rfl rfl rfl rfl rfl rfl id id, fun _ => hsnoc.tail⟩
      · exact ⟨h.congr rfl rfl rfl rfl rfl rfl id id, fun _ => hsnoc⟩
    · refine ⟨h, ?_⟩
      rintro (hinit | hr')
      · simp [hs] at hinit
      · exact absurd hr' hr
  have hstate : (if s.refreshPending then (s.bufferDelta d).2 else s).state = .VALID := by
    simp only [SymbolBook.bufferDelta]
    split_ifs <;> exact hs
  simp only [SymbolBook.passOn]
  generalize (if s.refreshPending then (s.bufferDelta d).2 else s) = s' at hbuffered hstate ⊢
  obtain ⟨hbridged', hlast'⟩ := hbuffered.bridged hstate
  split_ifs with hheld
  · simp only [SymbolBook.feedShadow]
    split
    · exact ⟨hbuffered.toInChain.congr rfl rfl rfl rfl rfl rfl id (by simp [Shadow.none]),
        hbuffered.buffered⟩
    · exact ⟨hbuffered.toInChain.congr rfl rfl rfl rfl rfl rfl id id, hbuffered.buffered⟩
    · -- the shadow ends at the same event as the live book, so the range is unaffected
      rename_i seq hv
      have hseq : s'.seq.lastId = d.finalUpdateId := (Option.some.inj hlast').symm
      have hdone := checkSequence_apply_bridged hv
      refine ⟨⟨hbuffered.marked, fun _ => ⟨hdone, rfl⟩, hbuffered.refreshing, ?_,
        hbuffered.fresh, ?_, ?_⟩, hbuffered.buffered⟩
      · simp [Shadow.none]
      · intro hspot _
        exact hseq ▸ hbuffered.opened hspot hstate
      · intro _ q hq hqv
        exact (hbuffered.range hstate q hq hqv).congr rfl rfl rfl hseq.symm
  · exact hbuffered

/-- An event the book takes or skips. -/
theorem Continuous.applyDelta (h : Continuous cfg last s) (hd : Follows cfg.sync last d)
    (hok : (s.applyDelta cfg d).1 = true) :
    Continuous cfg (some d.finalUpdateId) (s.applyDelta cfg d).2 := by
  obtain ⟨-, -, heq⟩ | ⟨hs, seq, ⟨-, heq⟩ | ⟨hv, heq⟩ | ⟨hv, heq⟩⟩ := s.applyDelta_cases cfg d
  · simp [heq] at hok
  · simp [heq] at hok
  · obtain rfl := checkSequence_eq_of_ne_apply hv (by decide)
    have hsync : s.state = .SYNCING := by
      rcases hs with hs | hs
      · exact hs
      · exact absurd hv (checkSequence_ne_skip (h.follows_lastId hs hd) (h.bridged hs).1)
    have hpass : s.passOn cfg d = s := by
      have hr : s.refreshPending = false := by
        by_contra hr
        simpa [hsync] using h.refreshing (by simpa using hr)
      have hp : s.shadow.pending = false := by
        by_contra hp
        simpa [hsync] using h.holding (by simpa using hp)
      simp [SymbolBook.passOn, hr, hp]
    rw [heq]
    simpa only [hpass] using h.forget (by simp [hsync]) (by simp [hsync])
  · rw [heq]
    exact (h.toInChain.applyEvent hs hd hv).passOn rfl (fun hr => h.buffered (Or.inr hr)) hd

/-- With no refresh in flight and no shadow held, events start neither, and a
book that has a snapshot keeps it or fails. -/
theorem applyDelta_quiet (cfg : BookConfig) (d : BufferedDelta K)
    (hr : s.refreshPending = false) (hp : s.shadow.pending = false) (hinit : s.state ≠ .INIT) :
    (s.applyDelta cfg d).2.refreshPending = false ∧
      (s.applyDelta cfg d).2.shadow.pending = false ∧ (s.applyDelta cfg d).2.state ≠ .INIT := by
  obtain ⟨-, -, heq⟩ | ⟨-, seq, ⟨-, heq⟩ | ⟨-, heq⟩ | ⟨-, heq⟩⟩ := s.applyDelta_cases cfg d <;>
    simp [heq, SymbolBook.passOn, SymbolBook.applyEvent, hr, hp, hinit]

/-- A book that no valid row lies behind stays so when an event is refused. -/
theorem Continuous.refused (last' : Option Int) (h : Continuous cfg last s)
    (hlp : s.lastPublishedValid = false) (hinit : s.state ≠ .INIT)
    (hr : s.refreshPending = false) (hp : s.shadow.pending = false)
    (hfail : (s.applyDelta cfg d).1 = false) :
    Continuous cfg last' (s.applyDelta cfg d).2 := by
  obtain ⟨-, hvalid, heq⟩ | ⟨-, seq, ⟨-, heq⟩ | ⟨-, heq⟩ | ⟨-, heq⟩⟩ := s.applyDelta_cases cfg d
  · rw [heq]
    exact h.forget hvalid hinit
  · rw [heq]
    exact ⟨⟨fun _ => hlp, by simp, by simp [hr], by simp [hp], by simp, by simp, by simp⟩,
      by simp [hr]⟩
  · simp [heq] at hfail
  · simp [heq] at hfail

/-- Replaying the buffered events over a snapshot. -/
theorem Continuous.replay {buf : List (BufferedDelta K)} {before : Option Int}
    (h : Continuous cfg before s) (hlp : s.lastPublishedValid = false) (hinit : s.state ≠ .INIT)
    (hr : s.refreshPending = false) (hp : s.shadow.pending = false)
    (hbuf : Buffered cfg.sync last buf) (hhead : ∀ d ∈ buf.head?, Follows cfg.sync before d)
    (hempty : buf = [] → s.state ≠ .VALID) : Continuous cfg last (s.replay cfg buf).2 := by
  induction buf generalizing s before with
  | nil => exact h.forget (hempty rfl) hinit
  | cons d ds ih =>
      have happlied := h.applyDelta (hhead d rfl)
      have hrefused := h.refused last (d := d) hlp hinit hr hp
      obtain ⟨hr', hp', hinit'⟩ := applyDelta_quiet cfg d hr hp hinit
      have hlp' := s.applyDelta_lastPublished cfg d
      simp only [SymbolBook.replay]
      split
      · rename_i s' heq
        simpa [heq] using hrefused (by simp [heq])
      · rename_i s' heq
        simp only [heq] at happlied hr' hp' hinit' hlp'
        have hs' := happlied trivial
        cases ds with
        | nil => exact hbuf.ends d rfl ▸ hs'
        | cons e es =>
            refine ih hs' ?_ hinit' hr' hp' hbuf.tail ?_ (by simp)
            · simpa [SymbolBook.lastPublishedValid, hlp'] using hlp
            · intro f hf
              obtain rfl : e = f := by simpa using hf
              exact (List.isChain_cons_cons.mp hbuf.chained).1

/-- A refresh snapshot. -/
theorem Continuous.finishRefresh (h : Continuous cfg last s) (hs : s.state = .VALID)
    (hr : s.refreshPending = true) (id : Int) (bids asks : List (PriceLevel K)) :
    Continuous cfg last (s.finishRefresh cfg id bids asks).2 := by
  obtain ⟨hbridged, hlast⟩ := h.bridged hs
  simp only [SymbolBook.finishRefresh]
  split
  · exact ⟨h.toInChain.congr rfl rfl rfl rfl rfl rfl (by simp) (fun hp => hp), by simp [hs]⟩
  · rename_i b seq hbuilt
    split_ifs with hsame hheld
    · exact ⟨h.toInChain.congr rfl rfl rfl rfl rfl rfl (by simp [SymbolBook.swapIn])
        (fun hp => hp), by simp [SymbolBook.swapIn, hs]⟩
    · exact ⟨⟨h.marked, h.bridged, by simp, fun _ => hs, h.fresh, h.opened, h.range⟩,
        by simp [hs]⟩
    · have hdone : seq.needBridge = false := by simpa using hheld
      have hseq : s.seq.lastId = seq.lastId :=
        Option.some.inj (hlast.symm.trans
          (replayShadow_lastId (h.buffered (Or.inr hr)) (by simp) hbuilt (Or.inl rfl) hdone))
      refine ⟨⟨h.marked, fun _ => ⟨hdone, hseq ▸ hlast⟩, by simp [SymbolBook.swapIn],
        fun _ => hs, h.fresh, ?_, ?_⟩, by simp [SymbolBook.swapIn, hs]⟩
      · intro hspot _
        exact hseq ▸ h.opened hspot hs
      · intro _ q hq hqv
        exact (h.range hs q hq hqv).congr rfl rfl rfl hseq.symm

/-- Any snapshot, in any state. -/
theorem Continuous.onSnapshot (h : Continuous cfg last s) (id : Int)
    (bids asks : List (PriceLevel K)) : Continuous cfg last (s.onSnapshot cfg id bids asks).2 := by
  simp only [SymbolBook.onSnapshot]
  split_ifs with hrefresh hstate
  · have hanswered : Continuous cfg last { s with snapshotRequested := false } :=
      ⟨h.toInChain.congr rfl rfl rfl rfl rfl rfl (fun hr => hr) (fun hp => hp), h.buffered⟩
    exact hanswered.finishRefresh hrefresh.1 hrefresh.2 id bids asks
  · refine ⟨h.toInChain.congr rfl rfl rfl rfl rfl rfl (by simp) (fun hp => hp), ?_⟩
    rintro (hinit | hr)
    · exact absurd hinit hstate
    · simp at hr
  all_goals
    have hinit : s.state = .INIT := by simpa using hstate
    have hp : s.shadow.pending = false := by
      by_contra hp
      simpa [hinit] using h.holding (by simpa using hp)
    have hlp := h.marked (by simp [hinit])
    have hbuf := h.buffered (Or.inl hinit)
    let loaded := SymbolBook.applySnapshot cfg
      { s with snapshotRequested := false, refreshPending := false } id bids asks
    have hloaded : Continuous cfg none loaded := by
      refine ⟨⟨fun _ => hlp, ?_, ?_, ?_, fun _ => h.fresh (Or.inl hinit), ?_, ?_⟩, ?_⟩ <;>
        simp [loaded, SymbolBook.applySnapshot, hp]
    have hreplayed : Continuous cfg last (loaded.replay cfg s.deltaBuffer).2 :=
      hloaded.replay hlp (by simp [loaded, SymbolBook.applySnapshot]) rfl hp hbuf
        (fun d hd => hbuf.ordered d (List.mem_of_mem_head? hd))
        (by simp [loaded, SymbolBook.applySnapshot])
    exact ⟨hreplayed.toInChain.congr rfl rfl rfl rfl rfl rfl (fun hr => hr) (fun hp => hp),
      fun _ => buffered_nil _ _⟩

omit [LinearOrder K] [Zero K] in
/-- A delta that waits for the first snapshot. -/
theorem Continuous.bufferDelta (h : Continuous cfg last s) (hs : s.state = .INIT)
    (hd : Follows cfg.sync last d) :
    Continuous cfg (some d.finalUpdateId) (s.bufferDelta d).2 := by
  have hsnoc := (h.buffered (Or.inl hs)).snoc hd
  have hchain : InChain cfg (some d.finalUpdateId) s :=
    ⟨h.marked, by simp [hs], h.refreshing, h.holding, h.fresh, h.opened, h.range⟩
  simp only [SymbolBook.bufferDelta]
  split_ifs
  · exact ⟨hchain.congr rfl rfl rfl rfl rfl rfl id id, fun _ => hsnoc.tail⟩
  · exact ⟨hchain.congr rfl rfl rfl rfl rfl rfl id id, fun _ => hsnoc⟩

omit [LinearOrder K] [Zero K] in
theorem Continuous.setSnapshotRequested (h : Continuous cfg last s) (val : Bool) :
    Continuous cfg last (s.setSnapshotRequested val) :=
  ⟨h.toInChain.congr rfl rfl rfl rfl rfl rfl id id, h.buffered⟩

omit [LinearOrder K] [Zero K] in
theorem Continuous.cancelRefresh (h : Continuous cfg last s) :
    Continuous cfg last s.cancelRefresh := by
  simp only [SymbolBook.cancelRefresh]
  split_ifs
  · exact ⟨h.toInChain.congr rfl rfl rfl rfl rfl rfl (by simp) id, fun _ => buffered_nil _ _⟩
  · exact h

omit [LinearOrder K] [Zero K] in
/-- A refresh is begun only on a valid book. -/
theorem Continuous.beginRefresh (h : Continuous cfg last s) (hs : s.state = .VALID) :
    Continuous cfg last s.beginRefresh :=
  ⟨⟨h.marked, h.bridged, fun _ => hs, h.holding, h.fresh, h.opened, h.range⟩,
    fun _ => buffered_nil _ _⟩

section Publish
variable {q : BookQuote K} {recv seqNo nowMs : Int}

omit [LinearOrder K] in
/-- The ids of a valid quote. -/
theorem getQuote_ids (hq : (s.getQuote cfg recv seqNo).isValid = true) :
    s.state = .VALID ∧ (s.getQuote cfg recv seqNo).exchFirstUpdateId = s.rangeFirstU ∧
      (s.getQuote cfg recv seqNo).exchUpdateId = s.seq.lastId ∧
      (cfg.sync = .Futures → (s.getQuote cfg recv seqNo).exchPrevUpdateId = s.rangePrevU) := by
  obtain ⟨hs, hbid, hask⟩ := SymbolBook.getQuote_valid hq
  refine ⟨hs, ?_, ?_, fun hfutures => ?_⟩
  · simp [SymbolBook.getQuote, SymbolBook.depthExhausted, hs, hbid, hask]
  · simp [SymbolBook.getQuote, SymbolBook.depthExhausted, hs, hbid, hask]
  · simp [SymbolBook.getQuote, SymbolBook.depthExhausted, hs, hbid, hask, hfutures]

omit [LinearOrder K] in
/-- The next valid quote continues the last valid row. -/
theorem Continuous.cont_getQuote (h : Continuous cfg last s) {p : BookQuote K}
    (hp : p ∈ s.lastPublished) (hpv : p.isValid = true)
    (hq : (s.getQuote cfg recv seqNo).isValid = true) :
    cont cfg.sync p (s.getQuote cfg recv seqNo) = true := by
  obtain ⟨hs, hfirst, hlast, hprev⟩ := getQuote_ids hq
  have hrange := h.range hs p hp hpv
  have hopened := h.opened
  cases hsync : cfg.sync with
  | Spot =>
      have hopen := hopened hsync hs
      simp only [RangeFrom, hsync] at hrange
      simp only [cont, hfirst, hlast, Bool.and_eq_true, decide_eq_true_eq]
      split_ifs at hrange <;> omega
  | Futures =>
      have hprev' := hprev hsync
      simp only [RangeFrom, hsync] at hrange
      simp only [cont, hfirst, hlast, hprev', Bool.or_eq_true, Bool.and_eq_true,
        decide_eq_true_eq]
      split_ifs at hrange
      · exact Or.inr hrange
      · exact Or.inl hrange

omit [LinearOrder K] in
/-- Publishing the book's own quote. -/
theorem Continuous.recordPublish_getQuote (h : Continuous cfg last s) (hs : s.state = .VALID) :
    Continuous cfg last (s.recordPublish nowMs (s.getQuote cfg recv seqNo)) := by
  refine ⟨⟨fun hne => absurd hs hne, h.bridged, h.refreshing, h.holding, fun _ => rfl, h.opened,
    ?_⟩, h.buffered⟩
  intro _ q hq hqv
  obtain rfl : s.getQuote cfg recv seqNo = q := Option.some.inj hq
  obtain ⟨-, hfirst, hlast, -⟩ := getQuote_ids hqv
  simp [RangeFrom, SymbolBook.recordPublish, hfirst, hlast]

omit [LinearOrder K] [Zero K] in
/-- Publishing an invalid row. -/
theorem Continuous.recordPublish_invalid (h : Continuous cfg last s) (hq : q.isValid = false) :
    Continuous cfg last (s.recordPublish nowMs q) := by
  refine ⟨⟨fun _ => hq, h.bridged, h.refreshing, h.holding, fun _ => rfl, h.opened, ?_⟩,
    h.buffered⟩
  intro _ p hp hpv
  obtain rfl : q = p := Option.some.inj hp
  simp [hq] at hpv

end Publish

end SymbolBook

end TickToSignal.Quote
