import TickToSignal.OrderBook.Manager
import TickToSignal.OrderBook.Knowledge
import TickToSignal.Foundation.Machine
import Mathlib.Algebra.Ring.Int.Defs

/-!
# A valid quote is the top of the exchange's book

The exchange is a history of whole books indexed by update id. A depth event
is truthful when it carries the quantities at its final id of every level that
changed since before its first id; a snapshot is truthful when it is the best
`snapshotLimit` levels per side at its id. `Coherent` is the invariant: the
live book, and a held shadow, know the exchange's book at the update id their
sequencing state is at. Every operation keeps it, in any order.
-/

namespace TickToSignal.OrderBook

open Foundation

variable {K : Type*} [LinearOrder K] [Zero K]

/-- The exchange's whole book at one update id. -/
structure Market (K : Type*) [LinearOrder K] [Zero K] where
  bid : RankedSide true K
  ask : RankedSide false K

/-- The exchange's books over time, by update id. -/
abbrev History (K : Type*) [LinearOrder K] [Zero K] := Int → Market K

/-- The id just before the range an event covers. -/
def BufferedDelta.base (sync : DepthSync) (d : BufferedDelta K) : Int :=
  match sync with
  | .Spot => d.firstUpdateId - 1
  | .Futures => d.prevFinalUpdateId

/-- The updates of one side carry the quantities at the final id of every level
changed since the base. -/
structure CarriesChanges {isBid : Bool} (side : Int → RankedSide isBid K) (base final : Int)
    (us : List (PriceLevel K)) : Prop where
  value : ∀ u ∈ us, (side final).qtyAt u.price = u.qty
  cover : ∀ id p, base ≤ id → id ≤ final → (side id).qtyAt p ≠ (side final).qtyAt p →
    ∃ u ∈ us, u.price = p

/-- A depth event as the exchange sends it. -/
structure BufferedDelta.Truthful (sync : DepthSync) (H : History K) (d : BufferedDelta K) :
    Prop where
  ordered : d.firstUpdateId ≤ d.finalUpdateId
  chained : sync = .Futures → d.prevFinalUpdateId < d.firstUpdateId
  bids : CarriesChanges (fun id => (H id).bid) (d.base sync) d.finalUpdateId d.bids
  asks : CarriesChanges (fun id => (H id).ask) (d.base sync) d.finalUpdateId d.asks

/-- Operations on one symbol's book, in any order. -/
inductive BookOp (K : Type*)
  | bufferDelta (d : BufferedDelta K)
  | onSnapshot (lastUpdateId : Int) (bids asks : List (PriceLevel K))
  | applyDelta (d : BufferedDelta K)
  | beginRefresh
  | cancelRefresh
  | reset

/-- Carry out one operation. -/
def BookOp.run (cfg : BookConfig) (s : SymbolBook K) : BookOp K → SymbolBook K
  | .bufferDelta d => (s.bufferDelta d).2
  | .onSnapshot lastUpdateId bids asks => (s.onSnapshot cfg lastUpdateId bids asks).2
  | .applyDelta d => (s.applyDelta cfg d).2
  | .beginRefresh => s.beginRefresh
  | .cancelRefresh => s.cancelRefresh
  | .reset => s.reset

/-- Events and snapshots come from the exchange whose history is `H`. -/
def BookOp.Truthful (cfg : BookConfig) (H : History K) : BookOp K → Prop
  | .bufferDelta d => d.Truthful cfg.sync H
  | .applyDelta d => d.Truthful cfg.sync H
  | .onSnapshot lastUpdateId bids asks =>
      bids = (H lastUpdateId).bid.levels.take cfg.snapshotLimit ∧
        asks = (H lastUpdateId).ask.levels.take cfg.snapshotLimit
  | _ => True

/-- Both sides know the exchange's book at an update id. -/
structure Book.KnowsAt (H : History K) (b : Book K) (id : Int) : Prop where
  bid : b.bid.Knows true (H id).bid.qtyAt
  ask : b.ask.Knows false (H id).ask.qtyAt

/-- A book together with its sequencing state: it knows the exchange's book at
`lastId`, which is the snapshot's id until the first event is applied. -/
structure Tracks (H : History K) (b : Book K) (seq : Seq) : Prop where
  fresh : seq.needBridge = true → seq.lastId = seq.snapshotId
  knows : b.KnowsAt H seq.lastId

section Sequencing
variable {sync : DepthSync} {H : History K} {seq seq' : Seq} {d : BufferedDelta K}

omit [LinearOrder K] [Zero K] in
/-- A skipped or refused event leaves the sequencing state alone. -/
theorem checkSequence_eq_of_ne_apply {v : Verdict} (h : checkSequence sync seq d = (v, seq'))
    (hv : v ≠ .APPLY) : seq' = seq := by
  cases sync <;> simp only [checkSequence] at h <;> split_ifs at h <;> grind

omit [LinearOrder K] [Zero K] in
/-- Applying an event ends the wait for the bridge and changes nothing else. -/
theorem checkSequence_apply (h : checkSequence sync seq d = (.APPLY, seq')) :
    seq' = { seq with needBridge := false } := by
  cases seq
  cases sync <;> simp only [checkSequence] at h <;> split_ifs at h <;> simp_all

/-- An event is applied only to a book inside the range the event covers. -/
theorem checkSequence_covers (hd : d.Truthful sync H)
    (hfresh : seq.needBridge = true → seq.lastId = seq.snapshotId)
    (h : checkSequence sync seq d = (.APPLY, seq')) :
    d.base sync ≤ seq.lastId ∧ seq.lastId ≤ d.finalUpdateId := by
  have hordered := hd.ordered
  have hchained := hd.chained
  cases sync <;> simp only [checkSequence, BufferedDelta.base] at h ⊢ <;> split_ifs at h <;> grind

/-- The event's updates take the book from the id it is at to the event's final id. -/
theorem Book.KnowsAt.applyLevels {cfg : BookConfig} {b : Book K} {id : Int}
    (hd : d.Truthful sync H) (hb : b.KnowsAt H id) (hbase : d.base sync ≤ id)
    (hfinal : id ≤ d.finalUpdateId) :
    (OrderBook.applyLevels cfg b d.bids d.asks).KnowsAt H d.finalUpdateId := by
  have hbids : Side.setAll (H id).bid.qtyAt d.bids = (H d.finalUpdateId).bid.qtyAt :=
    Side.setAll_eq hd.bids.value fun p => hd.bids.cover id p hbase hfinal
  have hasks : Side.setAll (H id).ask.qtyAt d.asks = (H d.finalUpdateId).ask.qtyAt :=
    Side.setAll_eq hd.asks.value fun p => hd.asks.cover id p hbase hfinal
  exact ⟨hbids ▸ hb.bid.updates cfg.maxLevels_pos d.bids,
    hasks ▸ hb.ask.updates cfg.maxLevels_pos d.asks⟩

/-- One applied event: the book is then at the event's final id. -/
theorem Tracks.apply (cfg : BookConfig) {b : Book K} (hd : d.Truthful sync H)
    (hb : Tracks H b seq) (h : checkSequence sync seq d = (.APPLY, seq')) :
    Tracks H (applyLevels cfg b d.bids d.asks) { seq' with lastId := d.finalUpdateId } := by
  obtain ⟨hbase, hfinal⟩ := checkSequence_covers hd hb.fresh h
  refine ⟨?_, hb.knows.applyLevels hd hbase hfinal⟩
  simp [checkSequence_apply h]

omit [LinearOrder K] [Zero K] in
theorem checkSequence_apply_bridged (h : checkSequence sync seq d = (.APPLY, seq')) :
    seq'.needBridge = false := by
  simp [checkSequence_apply h]

end Sequencing

/-- Loading a truthful snapshot gives a book at the snapshot's id. -/
theorem tracks_load (cfg : BookConfig) (H : History K) (id : Int) :
    Tracks H
      (Book.load cfg ((H id).bid.levels.take cfg.snapshotLimit)
        ((H id).ask.levels.take cfg.snapshotLimit))
      { needBridge := true, snapshotId := id, lastId := id } where
  fresh := fun _ => rfl
  knows :=
    { bid := Side.knows_load cfg.maxLevels_pos cfg.snapshotLimit_pos _
      ask := Side.knows_load cfg.maxLevels_pos cfg.snapshotLimit_pos _ }

/-- What holds between any two operations on a symbol. -/
structure Coherent (cfg : BookConfig) (H : History K) (s : SymbolBook K) : Prop where
  syncing : s.state = .SYNCING → s.seq.needBridge = true ∧ Tracks H s.book s.seq
  valid : s.state = .VALID → s.seq.needBridge = false ∧ Tracks H s.book s.seq
  shadow : s.shadow.pending = true →
    s.shadow.seq.needBridge = true ∧ Tracks H s.shadow.book s.shadow.seq
  -- a shadow is only ever held over a book that had been valid
  unheld : s.state = .INIT ∨ s.state = .SYNCING → s.shadow.pending = false
  buffer : ∀ d ∈ s.deltaBuffer, d.Truthful cfg.sync H

section Invariant
variable {cfg : BookConfig} {H : History K} {s : SymbolBook K} {d : BufferedDelta K}

theorem coherent_init (sym : String) (nowMs : Int) :
    Coherent cfg H (SymbolBook.init sym nowMs) := by
  constructor <;> simp [SymbolBook.init, Shadow.none]

/-- Only the fields the invariant mentions matter to it. -/
theorem Coherent.congr {s' : SymbolBook K} (h : Coherent cfg H s) (hstate : s'.state = s.state)
    (hseq : s'.seq = s.seq) (hbook : s'.book = s.book) (hshadow : s'.shadow = s.shadow)
    (hbuffer : ∀ d ∈ s'.deltaBuffer, d.Truthful cfg.sync H) : Coherent cfg H s' := by
  constructor
  · rw [hstate, hseq, hbook]; exact h.syncing
  · rw [hstate, hseq, hbook]; exact h.valid
  · rw [hshadow]; exact h.shadow
  · rw [hstate, hshadow]; exact h.unheld
  · exact hbuffer

/-- A book that events are applied to tracks the exchange. -/
theorem Coherent.live (h : Coherent cfg H s) (hs : s.state = .SYNCING ∨ s.state = .VALID) :
    Tracks H s.book s.seq := by
  rcases hs with hs | hs
  · exact (h.syncing hs).2
  · exact (h.valid hs).2

theorem Coherent.bufferDelta (h : Coherent cfg H s) (hd : d.Truthful cfg.sync H) :
    Coherent cfg H (s.bufferDelta d).2 := by
  have hall : ∀ e ∈ s.deltaBuffer ++ [d], e.Truthful cfg.sync H := by
    intro e he
    rcases List.mem_append.mp he with he | he
    · exact h.buffer e he
    · exact List.mem_singleton.mp he ▸ hd
  simp only [SymbolBook.bufferDelta]
  split_ifs
  · exact h.congr rfl rfl rfl rfl fun e he => hall e (List.mem_of_mem_tail he)
  · exact h.congr rfl rfl rfl rfl hall

/-- The live book after its next event. -/
theorem Coherent.applyEvent {seq : Seq} (h : Coherent cfg H s) (hd : d.Truthful cfg.sync H)
    (hlive : Tracks H s.book s.seq) (hv : checkSequence cfg.sync s.seq d = (.APPLY, seq)) :
    Coherent cfg H (SymbolBook.applyEvent cfg { s with seq := seq } d) := by
  have htracks := hlive.apply cfg hd hv
  have hbridged := checkSequence_apply_bridged hv
  constructor
  · simp [SymbolBook.applyEvent]
  · intro _
    exact ⟨hbridged, htracks⟩
  · exact h.shadow
  · simp [SymbolBook.applyEvent]
  · exact h.buffer

/-- A held shadow after an event. -/
theorem Coherent.feedShadow (h : Coherent cfg H s) (hd : d.Truthful cfg.sync H)
    (hpending : s.shadow.pending = true) : Coherent cfg H (s.feedShadow cfg d) := by
  obtain ⟨hneed, htracks⟩ := h.shadow hpending
  have hstate : ¬ (s.state = .INIT ∨ s.state = .SYNCING) := by
    intro hs
    simp [h.unheld hs] at hpending
  unfold SymbolBook.feedShadow
  split
  · exact ⟨h.syncing, h.valid, by simp [Shadow.none], by simp [Shadow.none], h.buffer⟩
  · rename_i seq hv
    rw [checkSequence_eq_of_ne_apply hv (by decide)]
    exact h.congr rfl rfl rfl rfl h.buffer
  · rename_i seq hv
    have happlied := htracks.apply cfg hd hv
    have hbridged := checkSequence_apply_bridged hv
    constructor
    · intro hs
      exact absurd (Or.inr hs) hstate
    · intro _
      exact ⟨hbridged, happlied⟩
    · simp [Shadow.none]
    · simp [Shadow.none]
    · exact h.buffer

/-- Passing an event on keeps the live book's part. -/
theorem Coherent.passOn (h : Coherent cfg H s) (hd : d.Truthful cfg.sync H) :
    Coherent cfg H (s.passOn cfg d) := by
  have hbuffered : Coherent cfg H (if s.refreshPending then (s.bufferDelta d).2 else s) := by
    split_ifs
    · exact h.bufferDelta hd
    · exact h
  simp only [SymbolBook.passOn]
  generalize (if s.refreshPending then (s.bufferDelta d).2 else s) = s' at hbuffered ⊢
  split_ifs with hpending
  · exact hbuffered.feedShadow hd hpending
  · exact hbuffered

theorem Coherent.applyDelta (h : Coherent cfg H s) (hd : d.Truthful cfg.sync H) :
    Coherent cfg H (s.applyDelta cfg d).2 := by
  obtain ⟨-, -, heq⟩ | ⟨hs, seq, ⟨hv, heq⟩ | ⟨hv, heq⟩ | ⟨hv, heq⟩⟩ := s.applyDelta_cases cfg d
  · rw [heq]
    exact h
  · rw [heq]
    exact ⟨by simp, by simp, h.shadow, by simp, h.buffer⟩
  · rw [heq, checkSequence_eq_of_ne_apply hv (by decide)]
    exact h.passOn hd
  · rw [heq]
    exact (h.applyEvent hd (h.live hs) hv).passOn hd

/-- Replaying buffered events. -/
theorem Coherent.replay {ds : List (BufferedDelta K)} (h : Coherent cfg H s)
    (hds : ∀ d ∈ ds, d.Truthful cfg.sync H) : Coherent cfg H (s.replay cfg ds).2 := by
  induction ds generalizing s with
  | nil => exact h
  | cons d ds ih =>
      have hd := h.applyDelta (hds d List.mem_cons_self)
      simp only [SymbolBook.replay]
      split
      · rename_i s' heq
        simpa [heq] using hd
      · rename_i s' heq
        rw [heq] at hd
        exact ih hd fun e he => hds e (List.mem_cons_of_mem d he)

/-- A shadow that survives the buffered events tracks the exchange. -/
theorem tracks_replayShadow {ds : List (BufferedDelta K)} {b b' : Book K} {seq seq' : Seq}
    (h : Tracks H b seq) (hds : ∀ d ∈ ds, d.Truthful cfg.sync H)
    (hr : SymbolBook.replayShadow cfg b seq ds = some (b', seq')) : Tracks H b' seq' := by
  induction ds generalizing b seq with
  | nil =>
      simp only [SymbolBook.replayShadow, Option.some.injEq, Prod.mk.injEq] at hr
      obtain ⟨rfl, rfl⟩ := hr
      exact h
  | cons d ds ih =>
      have hrest : ∀ e ∈ ds, e.Truthful cfg.sync H :=
        fun e he => hds e (List.mem_cons_of_mem d he)
      simp only [SymbolBook.replayShadow] at hr
      split at hr
      · simp at hr
      · rename_i seq₁ hv
        rw [checkSequence_eq_of_ne_apply hv (by decide)] at hr
        exact ih h hrest hr
      · rename_i seq₁ hv
        exact ih (h.apply cfg (hds d List.mem_cons_self) hv) hrest hr

/-- While the bridge is outstanding no buffered event has been applied. -/
theorem replayShadow_of_needBridge {ds : List (BufferedDelta K)} {b b' : Book K}
    {seq seq' : Seq} (hr : SymbolBook.replayShadow cfg b seq ds = some (b', seq'))
    (hneed : seq'.needBridge = true) : b' = b ∧ seq' = seq := by
  induction ds generalizing b seq with
  | nil =>
      simp only [SymbolBook.replayShadow, Option.some.injEq, Prod.mk.injEq] at hr
      exact ⟨hr.1.symm, hr.2.symm⟩
  | cons d ds ih =>
      simp only [SymbolBook.replayShadow] at hr
      split at hr
      · simp at hr
      · rename_i seq₁ hv
        rw [checkSequence_eq_of_ne_apply hv (by decide)] at hr
        exact ih hr
      · rename_i seq₁ hv
        obtain ⟨-, rfl⟩ := ih hr
        simp [checkSequence_apply_bridged hv] at hneed

/-- A refresh snapshot: the live book keeps tracking, whichever way it ends. -/
theorem Coherent.finishRefresh (h : Coherent cfg H s) (hvalid : s.state = .VALID) (id : Int) :
    Coherent cfg H
      (s.finishRefresh cfg id ((H id).bid.levels.take cfg.snapshotLimit)
        ((H id).ask.levels.take cfg.snapshotLimit)).2 := by
  obtain ⟨hbridged, hlive⟩ := h.valid hvalid
  have hload := tracks_load cfg H id
  simp only [SymbolBook.finishRefresh]
  split
  · exact h.congr rfl rfl rfl rfl (by simp)
  · rename_i b seq hbuilt
    have htracks := tracks_replayShadow hload h.buffer hbuilt
    split_ifs with hsame hheld
    · -- nothing was applied, so the shadow is the snapshot, at the live book's id
      obtain ⟨hneed, hid⟩ := by simpa using hsame
      obtain ⟨rfl, -⟩ := replayShadow_of_needBridge hbuilt hneed
      constructor
      · simp [SymbolBook.swapIn, hvalid]
      · intro _
        exact ⟨hbridged, hlive.fresh, hid ▸ hload.knows⟩
      · exact h.shadow
      · exact h.unheld
      · simp [SymbolBook.swapIn]
    · constructor
      · simp [hvalid]
      · exact h.valid
      · exact fun _ => ⟨hheld, htracks⟩
      · simp [hvalid]
      · simp
    · have hdone : seq.needBridge = false := by simpa using hheld
      constructor
      · simp [SymbolBook.swapIn, hvalid]
      · intro _
        exact ⟨hdone, htracks⟩
      · exact h.shadow
      · exact h.unheld
      · simp [SymbolBook.swapIn]

/-- The first snapshot of a book that has none. -/
theorem Coherent.applySnapshot (h : Coherent cfg H s) (hinit : s.state = .INIT) (id : Int) :
    Coherent cfg H
      (s.applySnapshot cfg id ((H id).bid.levels.take cfg.snapshotLimit)
        ((H id).ask.levels.take cfg.snapshotLimit)) where
  syncing := fun _ => ⟨rfl, tracks_load cfg H id⟩
  valid := by simp [SymbolBook.applySnapshot]
  shadow := h.shadow
  unheld := fun _ => h.unheld (Or.inl hinit)
  buffer := h.buffer

theorem Coherent.onSnapshot (h : Coherent cfg H s) (id : Int) :
    Coherent cfg H
      (s.onSnapshot cfg id ((H id).bid.levels.take cfg.snapshotLimit)
        ((H id).ask.levels.take cfg.snapshotLimit)).2 := by
  have hcleared : ∀ s' : SymbolBook K, Coherent cfg H s' →
      Coherent cfg H { s' with deltaBuffer := [] } :=
    fun s' h' => h'.congr rfl rfl rfl rfl (by simp)
  have hanswered : Coherent cfg H { s with snapshotRequested := false } :=
    h.congr rfl rfl rfl rfl h.buffer
  have hinitial : Coherent cfg H { s with snapshotRequested := false, refreshPending := false } :=
    h.congr rfl rfl rfl rfl h.buffer
  simp only [SymbolBook.onSnapshot]
  split_ifs with hrefresh hstate hfailed hbridged
  · exact hanswered.finishRefresh hrefresh.1 id
  · exact hinitial
  all_goals
    refine hcleared _ (Coherent.replay ?_ h.buffer)
    exact hinitial.applySnapshot (by simpa using hstate) id

/-- Every operation keeps the book coherent with the exchange. -/
theorem Coherent.run {op : BookOp K} (h : Coherent cfg H s) (hop : op.Truthful cfg H) :
    Coherent cfg H (op.run cfg s) := by
  cases op with
  | bufferDelta d => exact h.bufferDelta hop
  | onSnapshot id bids asks =>
      obtain ⟨rfl, rfl⟩ := hop
      exact h.onSnapshot id
  | applyDelta d => exact h.applyDelta hop
  | beginRefresh => exact h.congr rfl rfl rfl rfl (by simp [BookOp.run, SymbolBook.beginRefresh])
  | cancelRefresh =>
      simp only [BookOp.run, SymbolBook.cancelRefresh]
      split_ifs
      · exact h.congr rfl rfl rfl rfl (by simp)
      · exact h
  | reset => constructor <;> simp [BookOp.run, SymbolBook.reset, Shadow.none]

/-- After any truthful run the book is coherent with the exchange. -/
theorem coherent_exec {ops : List (BookOp K)} (hops : ∀ op ∈ ops, op.Truthful cfg H)
    (sym : String) (nowMs : Int) :
    Coherent cfg H (exec (BookOp.run cfg) (SymbolBook.init sym nowMs) ops) :=
  exec_invariant_of_mem (fun _ op hop h => h.run (hops op hop)) (coherent_init sym nowMs)

end Invariant

section Quote
variable {cfg : BookConfig} {H : History K} {s : SymbolBook K} {recv seqNo : Int}

/-- A side that is not below `n` publishes the exchange's best `n` levels. -/
theorem Side.Knows.slots {isBid : Bool} {b : RankedSide isBid K} {side : Side K} {n : Nat}
    (h : side.Knows isBid b.qtyAt) (hn : side.below n = false) :
    SymbolBook.slotsOf side.levels n = b.slots n := by
  have hbest := h.best hn
  have hlen : min n b.levels.length = min n side.levels.length := by
    simpa using congrArg List.length hbest
  have hmissing : n - side.levels.length = n - b.levels.length := by omega
  simp only [SymbolBook.slotsOf, RankedSide.slots, hbest, hmissing]

/-- A slot of a ranked side is 0/0 only where the side has run out of levels. -/
theorem RankedSide.exhausted_of_slot {isBid : Bool} {b : RankedSide isBid K} {n i : Nat}
    (hslot : (b.slots n)[i]? = some ⟨0, 0⟩) : b.levels.length ≤ i := by
  by_contra hlt
  have hi : i < b.levels.length := by omega
  by_cases hn : i < n
  · have hget : (b.slots n)[i]? = some b.levels[i] := by
      simp [RankedSide.slots, List.getElem?_append, hn, hi]
    have hzero : b.levels[i] = ⟨0, 0⟩ := Option.some.inj (hget.symm.trans hslot)
    exact absurd (b.positive _ (List.getElem_mem hi)) (by simp [hzero])
  · have hnone : (b.slots n)[i]? = none := by
      refine List.getElem?_eq_none ?_
      simp only [RankedSide.slots, List.length_append, List.length_take, List.length_replicate]
      omega
    simp [hnone] at hslot

omit [LinearOrder K] in
/-- A quote is valid only in state `VALID` with both sides known deep enough. -/
theorem SymbolBook.getQuote_valid (h : (s.getQuote cfg recv seqNo).isValid = true) :
    s.state = .VALID ∧ s.book.bid.below cfg.depth = false ∧
      s.book.ask.below cfg.depth = false := by
  simp only [SymbolBook.getQuote] at h
  split_ifs at h <;> simpa [SymbolBook.depthExhausted] using h

omit [LinearOrder K] in
/-- The fields of a valid quote that the manager fills in from the book. -/
theorem SymbolBook.getQuote_fields (h : (s.getQuote cfg recv seqNo).isValid = true) :
    let q := s.getQuote cfg recv seqNo
    q.exchUpdateId = s.seq.lastId ∧ q.bids = slotsOf s.book.bid.levels cfg.depth ∧
      q.asks = slotsOf s.book.ask.levels cfg.depth := by
  obtain ⟨hstate, hbid, hask⟩ := getQuote_valid h
  simp [SymbolBook.getQuote, SymbolBook.depthExhausted, hstate, hbid, hask]

/-- A valid quote of a coherent book is the top of the exchange's book. -/
theorem Coherent.getQuote (h : Coherent cfg H s)
    (hvalid : (s.getQuote cfg recv seqNo).isValid = true) :
    let q := s.getQuote cfg recv seqNo
    q.bids = (H q.exchUpdateId).bid.slots cfg.depth ∧
      q.asks = (H q.exchUpdateId).ask.slots cfg.depth := by
  obtain ⟨hstate, hbid, hask⟩ := SymbolBook.getQuote_valid hvalid
  obtain ⟨hid, hbids, hasks⟩ := SymbolBook.getQuote_fields hvalid
  have hknows := (h.valid hstate).2.knows
  simp only [hid, hbids, hasks]
  exact ⟨hknows.bid.slots hbid, hknows.ask.slots hask⟩

end Quote

/-- Order-book correctness: in every run whose events and snapshots come from the
exchange, a valid quote is the exchange's best `depth` levels at the quote's update
id, and a slot is blank only where the exchange has no level. -/
theorem valid_quote_is_top_of_exchange (cfg : BookConfig) (H : History K)
    (ops : List (BookOp K)) (hops : ∀ op ∈ ops, op.Truthful cfg H) (sym : String)
    (nowMs recv seqNo : Int) :
    let q := (exec (BookOp.run cfg) (SymbolBook.init sym nowMs) ops).getQuote cfg recv seqNo
    q.isValid = true →
      q.bids = (H q.exchUpdateId).bid.slots cfg.depth ∧
      q.asks = (H q.exchUpdateId).ask.slots cfg.depth ∧
      (∀ i, q.bids[i]? = some ⟨0, 0⟩ → (H q.exchUpdateId).bid.levels.length ≤ i) ∧
      (∀ i, q.asks[i]? = some ⟨0, 0⟩ → (H q.exchUpdateId).ask.levels.length ≤ i) := by
  intro q hvalid
  obtain ⟨hbids, hasks⟩ := (coherent_exec hops sym nowMs).getQuote hvalid
  refine ⟨hbids, hasks, fun i hi => ?_, fun i hi => ?_⟩
  · exact RankedSide.exhausted_of_slot (hbids ▸ hi)
  · exact RankedSide.exhausted_of_slot (hasks ▸ hi)

/-- A two-level market whose best bid quantity changes at update id 11. -/
def sampleHistory : History Int := fun id =>
  { bid :=
      { levels := [⟨100, if id ≤ 10 then 1 else 3⟩, ⟨99, 2⟩]
        ranked := by simp [better]
        positive := by
          intro l hl
          simp only [List.mem_cons, List.not_mem_nil, or_false] at hl
          rcases hl with rfl | rfl
          · dsimp only
            split_ifs <;> decide
          · decide }
    ask := { levels := [⟨101, 1⟩], ranked := by decide, positive := by decide } }

/-- A snapshot at id 10 and the event that bridges it. -/
def sampleOps : List (BookOp Int) :=
  [.onSnapshot 10 [⟨100, 1⟩, ⟨99, 2⟩] [⟨101, 1⟩],
    .applyDelta { firstUpdateId := 11, finalUpdateId := 11, bids := [⟨100, 3⟩], asks := [] }]

theorem sampleOps_truthful :
    ∀ op ∈ sampleOps, op.Truthful { depth := 3, snapshotLimit := 5 } sampleHistory := by
  intro op hop
  simp only [sampleOps, List.mem_cons, List.not_mem_nil, or_false] at hop
  rcases hop with rfl | rfl
  · exact ⟨by decide, by decide⟩
  · refine ⟨by decide, by decide, ⟨?_, ?_⟩, ⟨?_, ?_⟩⟩
    · decide
    · intro id p _ _ hne
      refine ⟨⟨100, 3⟩, List.mem_singleton_self _, ?_⟩
      by_contra hp
      simp [sampleHistory, RankedSide.qtyAt, hp] at hne
    · decide
    · intro id p _ _ hne
      simp [sampleHistory, RankedSide.qtyAt] at hne

theorem valid_quote_of_sampleOps :
    let q := (exec (BookOp.run { depth := 3, snapshotLimit := 5 }) (SymbolBook.init "btcusdt" 0)
      sampleOps).getQuote { depth := 3, snapshotLimit := 5 } 0 1
    q.isValid = true ∧ q.exchUpdateId = 11 ∧ q.bids = (sampleHistory 11).bid.slots 3 ∧
      q.bids = [⟨100, 3⟩, ⟨99, 2⟩, ⟨0, 0⟩] := by
  refine ⟨by decide, by decide, ?_, by decide⟩
  exact (valid_quote_is_top_of_exchange { depth := 3, snapshotLimit := 5 } sampleHistory sampleOps
    sampleOps_truthful "btcusdt" 0 0 1 (by decide)).1

end TickToSignal.OrderBook
