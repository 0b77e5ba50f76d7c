import TickToSignal.Quote.UpdateIds
import TickToSignal.OrderBook.UpdateIdOrder

/-!
# The id ranges of consecutive rows of one symbol do not overlap

`Continuous` says that the ids of the next valid quote continue those of the
last valid row. Where the events have ids of their own, the next quote either
repeats the ids of that row or starts after them, and its range is not empty.
-/

namespace TickToSignal.Quote

open OrderBook

variable {K : Type*}

/-- An event has a range of ids; on futures it starts after the event it follows. -/
def Spans (sync : DepthSync) (d : BufferedDelta K) : Prop :=
  d.firstUpdateId ≤ d.finalUpdateId ∧ (sync = .Futures → d.prevFinalUpdateId < d.firstUpdateId)

/-- The row repeats the ids of its predecessor or starts after them. -/
def Advances (sync : DepthSync) (p q : BookQuote K) : Prop :=
  (q.exchFirstUpdateId = p.exchFirstUpdateId ∧ q.exchUpdateId = p.exchUpdateId ∧
      (sync = .Futures → q.exchPrevUpdateId = p.exchPrevUpdateId)) ∨
    p.exchUpdateId < q.exchFirstUpdateId

/-- The range the next row will carry is not empty, and is that of the last valid row or lies
after it. -/
structure InRange (cfg : BookConfig) (s : SymbolBook K) : Prop where
  within : s.state = .VALID → s.rangeFirstU ≤ s.seq.lastId
  later : s.state = .VALID → s.rangeClosed = false → ∀ q ∈ s.lastPublished, q.isValid = true →
    q.exchUpdateId < s.rangeFirstU
  repeats : s.state = .VALID → s.rangeClosed = true → cfg.sync = .Futures →
    ∀ q ∈ s.lastPublished, q.isValid = true → s.rangePrevU = q.exchPrevUpdateId

/-- Two books that are equal in what the symbol and the range of the next row depend on, the last
id apart. -/
structure SameRange (s t : SymbolBook K) : Prop where
  sym : t.sym = s.sym
  state : t.state = s.state
  firstU : t.rangeFirstU = s.rangeFirstU
  prevU : t.rangePrevU = s.rangePrevU
  closed : t.rangeClosed = s.rangeClosed
  lastPublished : t.lastPublished = s.lastPublished

section Frame
variable {s t u : SymbolBook K}

theorem SameRange.refl (s : SymbolBook K) : SameRange s s := ⟨rfl, rfl, rfl, rfl, rfl, rfl⟩

theorem SameRange.trans (hst : SameRange s t) (htu : SameRange t u) : SameRange s u where
  sym := htu.sym.trans hst.sym
  state := htu.state.trans hst.state
  firstU := htu.firstU.trans hst.firstU
  prevU := htu.prevU.trans hst.prevU
  closed := htu.closed.trans hst.closed
  lastPublished := htu.lastPublished.trans hst.lastPublished

theorem sameRange_bufferDelta (s : SymbolBook K) (d : BufferedDelta K) :
    SameRange s (s.bufferDelta d).2 := by
  simp only [SymbolBook.bufferDelta]
  split_ifs <;> exact ⟨rfl, rfl, rfl, rfl, rfl, rfl⟩

theorem sameRange_cancelRefresh (s : SymbolBook K) : SameRange s s.cancelRefresh := by
  simp only [SymbolBook.cancelRefresh]
  split_ifs <;> exact ⟨rfl, rfl, rfl, rfl, rfl, rfl⟩

variable [LinearOrder K] [Zero K]

theorem sameRange_feedShadow (cfg : BookConfig) (s : SymbolBook K) (d : BufferedDelta K) :
    SameRange s (s.feedShadow cfg d) := by
  simp only [SymbolBook.feedShadow]
  split <;> exact ⟨rfl, rfl, rfl, rfl, rfl, rfl⟩

theorem sameRange_passOn (cfg : BookConfig) (s : SymbolBook K) (d : BufferedDelta K) :
    SameRange s (s.passOn cfg d) := by
  have hbuffered : SameRange s (if s.refreshPending then (s.bufferDelta d).2 else s) := by
    split_ifs
    · exact sameRange_bufferDelta s d
    · exact .refl s
  simp only [SymbolBook.passOn]
  split_ifs at hbuffered ⊢
  · exact hbuffered.trans (sameRange_feedShadow cfg _ d)
  · exact hbuffered
  · exact hbuffered.trans (sameRange_feedShadow cfg _ d)
  · exact hbuffered

theorem sameRange_finishRefresh (cfg : BookConfig) (s : SymbolBook K) (id : Int)
    (bids asks : List (PriceLevel K)) : SameRange s (s.finishRefresh cfg id bids asks).2 := by
  simp only [SymbolBook.finishRefresh]
  split
  · exact ⟨rfl, rfl, rfl, rfl, rfl, rfl⟩
  · split_ifs <;> exact ⟨rfl, rfl, rfl, rfl, rfl, rfl⟩

theorem applyDelta_sym (cfg : BookConfig) (s : SymbolBook K) (d : BufferedDelta K) :
    (s.applyDelta cfg d).2.sym = s.sym := by
  obtain ⟨-, -, heq⟩ | ⟨-, seq, ⟨-, heq⟩ | ⟨-, heq⟩ | ⟨-, heq⟩⟩ := s.applyDelta_cases cfg d
  · rw [heq]
  · rw [heq]
  · rw [heq]
    exact (sameRange_passOn cfg _ d).sym
  · rw [heq]
    exact (sameRange_passOn cfg _ d).sym

theorem replay_sym (cfg : BookConfig) (s : SymbolBook K) (ds : List (BufferedDelta K)) :
    (s.replay cfg ds).2.sym = s.sym := by
  induction ds generalizing s with
  | nil => rfl
  | cons d ds ih =>
      have hd := applyDelta_sym cfg s d
      simp only [SymbolBook.replay]
      split
      · rename_i s' heq
        rw [← hd, heq]
      · rename_i s' heq
        rw [ih, ← hd, heq]

theorem onSnapshot_sym (cfg : BookConfig) (s : SymbolBook K) (id : Int)
    (bids asks : List (PriceLevel K)) : (s.onSnapshot cfg id bids asks).2.sym = s.sym := by
  simp only [SymbolBook.onSnapshot]
  split_ifs
  · exact (sameRange_finishRefresh cfg _ id bids asks).sym
  · rfl
  all_goals exact replay_sym cfg _ s.deltaBuffer

end Frame

section Range
variable {cfg : BookConfig} {last : Option Int} {s t : SymbolBook K} {d : BufferedDelta K}

/-- A book that is not valid has no range to keep. -/
theorem inRange_of_not_valid (h : s.state ≠ .VALID) : InRange cfg s where
  within := fun hs => absurd hs h
  later := fun hs => absurd hs h
  repeats := fun hs => absurd hs h

theorem InRange.congr (h : InRange cfg s) (hsame : SameRange s t)
    (hlast : s.state = .VALID → t.seq.lastId = s.seq.lastId) : InRange cfg t where
  within := by
    intro hs
    rw [hsame.state] at hs
    rw [hsame.firstU, hlast hs]
    exact h.within hs
  later := by
    rw [hsame.state, hsame.closed, hsame.lastPublished, hsame.firstU]
    exact h.later
  repeats := by
    rw [hsame.state, hsame.closed, hsame.lastPublished, hsame.prevU]
    exact h.repeats

/-- Two valid books at the same point of the stream are at the same id. -/
theorem InRange.of_stream (h : InRange cfg s) (hsame : SameRange s t) (hs : InChain cfg last s)
    (ht : InChain cfg last t) : InRange cfg t := by
  refine h.congr hsame fun hvalid => ?_
  have hlast := (hs.bridged hvalid).2
  exact Option.some.inj ((ht.bridged (hsame.state.trans hvalid)).2.symm.trans hlast)

/-- A valid row behind a book tells that the book is valid. -/
theorem InChain.valid_of_published (h : InChain cfg last s) {q : BookQuote K}
    (hq : q ∈ s.lastPublished) (hv : q.isValid = true) : s.state = .VALID := by
  by_contra hne
  have hinvalid := h.marked hne
  have hq : s.lastPublished = some q := hq
  simp [SymbolBook.lastPublishedValid, hq, hv] at hinvalid

/-- The event a bridged book takes starts after the id the book is at. -/
theorem lastId_lt_firstUpdateId {seq seq' : Seq} (hd : Follows cfg.sync (some seq.lastId) d)
    (hspan : Spans cfg.sync d) (hbridged : seq.needBridge = false)
    (hv : checkSequence cfg.sync seq d = (.APPLY, seq')) : seq.lastId < d.firstUpdateId := by
  obtain ⟨hspot, hfutures⟩ := checkSequence_apply_next hbridged hv
  cases hsync : cfg.sync with
  | Spot =>
      rw [hsync] at hd
      have hnext := hd.2 seq.lastId rfl
      omega
  | Futures =>
      have hprev := hfutures hsync
      have hafter := hspan.2 hsync
      omega

variable [LinearOrder K] [Zero K]

/-- An applied event opens a range that starts after the last row, or goes on with the open one. -/
theorem InRange.applyEvent {seq : Seq} (h : InRange cfg s) (hc : InChain cfg last s)
    (hs : s.state = .SYNCING ∨ s.state = .VALID) (hd : Follows cfg.sync last d)
    (hspan : Spans cfg.sync d) (hv : checkSequence cfg.sync s.seq d = (.APPLY, seq)) :
    InRange cfg (SymbolBook.applyEvent cfg { s with seq := seq } d) := by
  have hnext : s.state = .VALID → s.seq.lastId < d.firstUpdateId := fun hvalid =>
    lastId_lt_firstUpdateId (hc.follows_lastId hvalid hd) hspan (hc.bridged hvalid).1 hv
  have hrange := hspan.1
  constructor
  case within =>
    intro _
    simp only [SymbolBook.applyEvent]
    split_ifs with hclosed
    · exact hrange
    · have hvalid : s.state = .VALID := hs.resolve_left fun hsync =>
        hclosed (hc.fresh (Or.inr hsync))
      have hwithin := h.within hvalid
      have hlater := hnext hvalid
      omega
  case later =>
    intro _ _ q hq hqv
    have hvalid := hc.valid_of_published hq hqv
    simp only [SymbolBook.applyEvent]
    split_ifs with hclosed
    · have hfrom := hc.range hvalid q hq hqv
      simp only [RangeFrom, hclosed, if_true] at hfrom
      exact hfrom.2 ▸ hnext hvalid
    · exact h.later hvalid (by simpa using hclosed) q hq hqv
  case repeats =>
    intro _ hclosed
    simp [SymbolBook.applyEvent] at hclosed

/-- An event of the stream, whether the book takes it or not. -/
theorem InRange.applyDelta (h : InRange cfg s) (hc : Continuous cfg last s)
    (hd : Follows cfg.sync last d) (hspan : Spans cfg.sync d) :
    InRange cfg (s.applyDelta cfg d).2 := by
  have hok := hc.applyDelta hd
  obtain ⟨-, hvalid, heq⟩ | ⟨hs, seq, ⟨-, heq⟩ | ⟨hv, heq⟩ | ⟨hv, heq⟩⟩ := s.applyDelta_cases cfg d
  · rw [heq]
    exact inRange_of_not_valid hvalid
  · rw [heq]
    exact inRange_of_not_valid BookState.noConfusion
  · have hsync : s.state = .SYNCING := hs.resolve_right fun hvalid =>
      checkSequence_ne_skip (hc.follows_lastId hvalid hd) (hc.bridged hvalid).1 hv
    rw [heq]
    apply inRange_of_not_valid
    rw [SymbolBook.passOn_state]
    exact fun hvalid => BookState.noConfusion (hsync.symm.trans hvalid)
  · rw [heq] at hok ⊢
    have happlied := hc.toInChain.applyEvent hs hd hv
    exact (h.applyEvent hc.toInChain hs hd hspan hv).of_stream (sameRange_passOn cfg _ d) happlied
      (hok rfl).toInChain

/-- Replaying the buffered events over a snapshot. -/
theorem InRange.replay {buf : List (BufferedDelta K)} {before : Option Int} (h : InRange cfg s)
    (hc : Continuous cfg before s) (hbuf : Buffered cfg.sync last buf)
    (hhead : ∀ d ∈ buf.head?, Follows cfg.sync before d) (hspans : ∀ d ∈ buf, Spans cfg.sync d) :
    InRange cfg (s.replay cfg buf).2 := by
  induction buf generalizing s before with
  | nil => exact h
  | cons d ds ih =>
      have hspan := hspans d List.mem_cons_self
      have happlied := h.applyDelta hc (hhead d rfl) hspan
      have hok := hc.applyDelta (hhead d rfl)
      simp only [SymbolBook.replay]
      split
      · rename_i s' heq
        simpa [heq] using happlied
      · rename_i s' heq
        rw [heq] at happlied hok
        apply ih happlied (hok rfl) hbuf.tail
        · intro e he
          cases ds with
          | nil => simp at he
          | cons e' ds =>
              obtain rfl : e' = e := by simpa using he
              exact (List.isChain_cons_cons.mp hbuf.chained).1
        · exact fun e he => hspans e (List.mem_cons_of_mem d he)

/-- A book that was just loaded from a snapshot, with no valid row behind it. -/
theorem continuous_applySnapshot (hc : Continuous cfg last s) (hinit : s.state = .INIT) (id : Int)
    (bids asks : List (PriceLevel K)) :
    Continuous cfg none (SymbolBook.applySnapshot cfg
      { s with snapshotRequested := false, refreshPending := false } id bids asks) := by
  have hheld : s.shadow.pending = false := by
    by_contra hheld
    simpa [hinit] using hc.holding (by simpa using hheld)
  have hmarked := hc.marked (by simp [hinit])
  refine ⟨⟨fun _ => hmarked, ?_, ?_, ?_, fun _ => hc.fresh (Or.inl hinit), ?_, ?_⟩, ?_⟩ <;>
    simp [SymbolBook.applySnapshot, hheld]

/-- Any snapshot, in any state. -/
theorem InRange.onSnapshot (h : InRange cfg s) (hc : Continuous cfg last s)
    (hspans : ∀ d ∈ s.deltaBuffer, Spans cfg.sync d) (id : Int) (bids asks : List (PriceLevel K)) :
    InRange cfg (s.onSnapshot cfg id bids asks).2 := by
  have hafter := hc.onSnapshot id bids asks
  by_cases hinit : s.state = .INIT
  · have hbuf := hc.buffered (Or.inl hinit)
    have hreplayed : InRange cfg ((SymbolBook.applySnapshot cfg
        { s with snapshotRequested := false, refreshPending := false } id bids asks).replay cfg
          s.deltaBuffer).2 := by
      have hloaded := continuous_applySnapshot hc hinit id bids asks
      apply InRange.replay (inRange_of_not_valid BookState.noConfusion) hloaded hbuf _ hspans
      exact fun d hd => hbuf.ordered d (List.mem_of_mem_head? hd)
    simp only [SymbolBook.onSnapshot, hinit, reduceCtorEq, false_and, if_false, ne_eq,
      not_true_eq_false]
    split_ifs <;> exact hreplayed.congr ⟨rfl, rfl, rfl, rfl, rfl, rfl⟩ fun _ => rfl
  · have hsame : SameRange s (s.onSnapshot cfg id bids asks).2 := by
      simp only [SymbolBook.onSnapshot, hinit, ne_eq, not_false_eq_true, if_true]
      split_ifs
      · have hrequested : SameRange s { s with snapshotRequested := false } :=
          ⟨rfl, rfl, rfl, rfl, rfl, rfl⟩
        exact hrequested.trans (sameRange_finishRefresh cfg _ id bids asks)
      · exact ⟨rfl, rfl, rfl, rfl, rfl, rfl⟩
    exact h.of_stream hsame hc.toInChain hafter.toInChain

end Range

section Publish
variable [Zero K] {cfg : BookConfig} {last : Option Int} {s : SymbolBook K} {p q : BookQuote K}
  {recv seqNo nowMs : Int}

/-- The next valid quote repeats the ids of the last valid row or starts after them. -/
theorem InRange.advances_getQuote (h : InRange cfg s) (hc : Continuous cfg last s)
    (hp : p ∈ s.lastPublished) (hpv : p.isValid = true)
    (hq : (s.getQuote cfg recv seqNo).isValid = true) :
    Advances cfg.sync p (s.getQuote cfg recv seqNo) := by
  obtain ⟨hvalid, hfirst, hlast, hprev⟩ := getQuote_ids hq
  cases hclosed : s.rangeClosed with
  | true =>
      have hfrom := hc.range hvalid p hp hpv
      simp only [RangeFrom, hclosed, if_true] at hfrom
      refine Or.inl ⟨hfirst.trans hfrom.1, hlast.trans hfrom.2, fun hfutures => ?_⟩
      exact (hprev hfutures).trans (h.repeats hvalid hclosed hfutures p hp hpv)
  | false => exact Or.inr (hfirst ▸ h.later hvalid hclosed p hp hpv)

/-- The range of a valid quote is not empty. -/
theorem InRange.getQuote_le (h : InRange cfg s)
    (hq : (s.getQuote cfg recv seqNo).isValid = true) :
    (s.getQuote cfg recv seqNo).exchFirstUpdateId ≤ (s.getQuote cfg recv seqNo).exchUpdateId := by
  obtain ⟨hvalid, hfirst, hlast, -⟩ := getQuote_ids hq
  rw [hfirst, hlast]
  exact h.within hvalid

/-- Publishing the book's own quote. -/
theorem InRange.recordPublish_getQuote (h : InRange cfg s) :
    InRange cfg (s.recordPublish nowMs (s.getQuote cfg recv seqNo)) where
  within := h.within
  later := fun _ hclosed => absurd hclosed Bool.true_eq_false.mp
  repeats := by
    intro _ _ hfutures q hq hqv
    obtain rfl : s.getQuote cfg recv seqNo = q := Option.some.inj hq
    exact ((getQuote_ids hqv).2.2.2 hfutures).symm

omit [Zero K] in
/-- Publishing an invalid row. -/
theorem InRange.recordPublish_invalid (h : InRange cfg s) (hq : q.isValid = false) :
    InRange cfg (s.recordPublish nowMs q) where
  within := h.within
  later := by
    intro _ _ p hp hpv
    obtain rfl : q = p := Option.some.inj hp
    exact absurd hpv (Bool.eq_false_iff.mp hq)
  repeats := by
    intro _ _ _ p hp hpv
    obtain rfl : q = p := Option.some.inj hp
    exact absurd hpv (Bool.eq_false_iff.mp hq)

end Publish

end TickToSignal.Quote
