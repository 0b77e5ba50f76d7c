import TickToSignal.OrderBook.Correctness
import TickToSignal.Foundation.Machine

/-!
# The update id of a valid book

While a book stays `VALID` its update id goes up with every applied event. It
can go back in two places, both of them where a refresh is swapped in: an event
that is stale for the live book may bridge a held shadow, and a refresh that is
in flight may be bridged by buffered events that were all stale. `Forward`
excludes exactly these.
-/

namespace TickToSignal.OrderBook

open Foundation

variable {K : Type*}

/-- On futures an event does not end before the event it follows. -/
def BufferedDelta.Ordered (sync : DepthSync) (d : BufferedDelta K) : Prop :=
  sync = .Futures → d.prevFinalUpdateId ≤ d.finalUpdateId

def BookOp.Ordered (sync : DepthSync) : BookOp K → Prop
  | .bufferDelta d | .applyDelta d => d.Ordered sync
  | _ => True

section Sequencing
variable {sync : DepthSync} {seq seq' : Seq} {d : BufferedDelta K}

/-- An event applied to a book that is past its snapshot does not move it back. -/
theorem checkSequence_apply_le (hd : d.Ordered sync) (hlive : seq.needBridge = false)
    (h : checkSequence sync seq d = (.APPLY, seq')) : seq.lastId ≤ d.finalUpdateId := by
  cases sync with
  | Spot =>
      simp only [checkSequence, hlive] at h
      split_ifs at h <;> grind
  | Futures =>
      have hle := hd rfl
      simp only [checkSequence, hlive] at h
      split_ifs at h <;> grind

/-- The event that bridges a snapshot does not end before it. -/
theorem checkSequence_bridge_le (hd : d.Ordered sync) (hwait : seq.needBridge = true)
    (h : checkSequence sync seq d = (.APPLY, seq')) : seq.snapshotId ≤ d.finalUpdateId := by
  cases sync with
  | Spot =>
      simp only [checkSequence, hwait] at h
      split_ifs at h <;> grind
  | Futures =>
      have hle := hd rfl
      simp only [checkSequence, hwait] at h
      split_ifs at h <;> grind

/-- A skipped event ends no later than where the book is, or than its snapshot. -/
theorem checkSequence_skip_le (h : checkSequence sync seq d = (.SKIP, seq')) :
    d.finalUpdateId ≤ if seq.needBridge then seq.snapshotId else seq.lastId := by
  cases sync <;> simp only [checkSequence] at h <;> split_ifs at h ⊢ <;> grind

/-- A live book skips only what ends before where it is. -/
theorem checkSequence_skip_lt (hlive : seq.needBridge = false)
    (h : checkSequence sync seq d = (.SKIP, seq')) : d.finalUpdateId < seq.lastId := by
  cases sync <;> simp only [checkSequence, hlive] at h <;> split_ifs at h <;> grind

end Sequencing

section Replay
variable [LinearOrder K] [Zero K] {cfg : BookConfig} {b b' : Book K} {seq seq' : Seq}
  {buf : List (BufferedDelta K)}

/-- A shadow past its snapshot only goes up, at least to every event it has seen. -/
theorem replayShadow_le (hbuf : ∀ d ∈ buf, d.Ordered cfg.sync) (hlive : seq.needBridge = false)
    (hr : SymbolBook.replayShadow cfg b seq buf = some (b', seq')) :
    seq.lastId ≤ seq'.lastId ∧ ∀ d ∈ buf, d.finalUpdateId ≤ seq'.lastId := by
  induction buf generalizing b seq with
  | nil =>
      simp only [SymbolBook.replayShadow, Option.some.injEq, Prod.mk.injEq] at hr
      obtain ⟨-, rfl⟩ := hr
      exact ⟨le_rfl, by simp⟩
  | cons d ds ih =>
      have hrest := fun e he => hbuf e (List.mem_cons_of_mem d he)
      simp only [SymbolBook.replayShadow] at hr
      split at hr
      · simp at hr
      · rename_i seq₁ hv
        obtain rfl := checkSequence_eq_of_ne_apply hv (by decide)
        obtain ⟨hle, hall⟩ := ih hrest hlive hr
        have hskip := checkSequence_skip_lt hlive hv
        exact ⟨hle, List.forall_mem_cons.mpr ⟨hskip.le.trans hle, hall⟩⟩
      · rename_i seq₁ hv
        have happly := checkSequence_apply_le (hbuf d List.mem_cons_self) hlive hv
        have hpast : ({ seq₁ with lastId := d.finalUpdateId } : Seq).needBridge = false := by
          simpa using checkSequence_apply_bridged hv
        obtain ⟨hle, hall⟩ := ih hrest hpast hr
        exact ⟨happly.trans hle, List.forall_mem_cons.mpr ⟨hle, hall⟩⟩

/-- A shadow that its events bridged is at the highest of their ids. -/
theorem replayShadow_bridged (hbuf : ∀ d ∈ buf, d.Ordered cfg.sync)
    (hwait : seq.needBridge = true) (hbridged : seq'.needBridge = false)
    (hr : SymbolBook.replayShadow cfg b seq buf = some (b', seq')) :
    seq.snapshotId ≤ seq'.lastId ∧ ∀ d ∈ buf, d.finalUpdateId ≤ seq'.lastId := by
  induction buf generalizing b seq with
  | nil =>
      simp only [SymbolBook.replayShadow, Option.some.injEq, Prod.mk.injEq] at hr
      obtain ⟨-, rfl⟩ := hr
      simp [hwait] at hbridged
  | cons d ds ih =>
      have hrest := fun e he => hbuf e (List.mem_cons_of_mem d he)
      simp only [SymbolBook.replayShadow] at hr
      split at hr
      · simp at hr
      · rename_i seq₁ hv
        obtain rfl := checkSequence_eq_of_ne_apply hv (by decide)
        obtain ⟨hle, hall⟩ := ih hrest hwait hr
        have hskip := checkSequence_skip_le hv
        rw [if_pos hwait] at hskip
        exact ⟨hle, List.forall_mem_cons.mpr ⟨hskip.trans hle, hall⟩⟩
      · rename_i seq₁ hv
        have hbridge := checkSequence_bridge_le (hbuf d List.mem_cons_self) hwait hv
        have hpast : ({ seq₁ with lastId := d.finalUpdateId } : Seq).needBridge = false := by
          simpa using checkSequence_apply_bridged hv
        obtain ⟨hle, hall⟩ := replayShadow_le hrest hpast hr
        exact ⟨hbridge.trans hle, List.forall_mem_cons.mpr ⟨hle, hall⟩⟩

/-- Where a bridged shadow is, some buffered event took it. -/
theorem replayShadow_mem (hr : SymbolBook.replayShadow cfg b seq buf = some (b', seq')) :
    seq' = seq ∨ ∃ d ∈ buf, d.finalUpdateId = seq'.lastId := by
  induction buf generalizing b seq with
  | nil =>
      simp only [SymbolBook.replayShadow, Option.some.injEq, Prod.mk.injEq] at hr
      exact .inl hr.2.symm
  | cons d ds ih =>
      simp only [SymbolBook.replayShadow] at hr
      split at hr
      · simp at hr
      · rename_i seq₁ hv
        obtain rfl := checkSequence_eq_of_ne_apply hv (by decide)
        obtain h | ⟨e, he, h⟩ := ih hr
        · exact .inl h
        · exact .inr ⟨e, List.mem_cons_of_mem d he, h⟩
      · rename_i seq₁ hv
        right
        obtain h | ⟨e, he, h⟩ := ih hr
        · exact ⟨d, List.mem_cons_self, by rw [h]⟩
        · exact ⟨e, List.mem_cons_of_mem d he, h⟩

end Replay

/-- The buffered events bridge this snapshot, without a hole. -/
def Bridges [LinearOrder K] [Zero K] (cfg : BookConfig) (lastUpdateId : Int)
    (bids asks : List (PriceLevel K)) (buf : List (BufferedDelta K)) : Prop :=
  ∃ built ∈ SymbolBook.replayShadow cfg (Book.load cfg bids asks)
      { needBridge := true, snapshotId := lastUpdateId, lastId := lastUpdateId } buf,
    built.2.needBridge = false

instance [LinearOrder K] [Zero K] (cfg : BookConfig) (lastUpdateId : Int)
    (bids asks : List (PriceLevel K)) (buf : List (BufferedDelta K)) :
    Decidable (Bridges cfg lastUpdateId bids asks buf) :=
  inferInstanceAs (Decidable (∃ built ∈ _, _))

/-- No refresh is swapped in by events that are all stale for the live book. -/
def BookOp.Forward [LinearOrder K] [Zero K] (cfg : BookConfig) (s : SymbolBook K) :
    BookOp K → Prop
  | .applyDelta d => s.state = .VALID → s.shadow.pending = true →
      (checkSequence cfg.sync s.seq d).1 = .SKIP →
        (checkSequence cfg.sync s.shadow.seq d).1 ≠ .APPLY
  | .onSnapshot lastUpdateId bids asks => s.state = .VALID → s.refreshPending = true →
      Bridges cfg lastUpdateId bids asks s.deltaBuffer →
        ∃ d ∈ s.deltaBuffer, s.seq.lastId ≤ d.finalUpdateId
  | _ => True

instance [LinearOrder K] [Zero K] (cfg : BookConfig) (s : SymbolBook K) (op : BookOp K) :
    Decidable (op.Forward cfg s) :=
  match op with
  | .applyDelta _ => inferInstanceAs (Decidable (_ → _ → _ → _))
  | .onSnapshot _ _ _ => inferInstanceAs (Decidable (_ → _ → _ → _))
  | .bufferDelta _ | .beginRefresh | .cancelRefresh | .reset => inferInstanceAs (Decidable True)

/-- What holds of every book: a valid one is past its snapshot, and the buffered
events are ordered. -/
structure Linked (cfg : BookConfig) (s : SymbolBook K) : Prop where
  bridged : s.state = .VALID → s.seq.needBridge = false
  ordered : ∀ d ∈ s.deltaBuffer, d.Ordered cfg.sync

section Frame
variable [LinearOrder K] [Zero K] {cfg : BookConfig} {s : SymbolBook K} {d e : BufferedDelta K}

omit [LinearOrder K] [Zero K] in
theorem SymbolBook.bufferDelta_mem (he : e ∈ (s.bufferDelta d).2.deltaBuffer) :
    e ∈ s.deltaBuffer ∨ e = d := by
  have hall : e ∈ s.deltaBuffer ++ [d] := by
    simp only [SymbolBook.bufferDelta] at he
    split_ifs at he
    · exact List.mem_of_mem_tail he
    · exact he
  simpa using hall

omit [LinearOrder K] [Zero K] in
/-- Buffering an event touches the buffer and its overflow counter only. -/
theorem SymbolBook.bufferDelta_frame :
    (s.bufferDelta d).2.seq = s.seq ∧ (s.bufferDelta d).2.state = s.state ∧
      (s.bufferDelta d).2.shadow = s.shadow := by
  simp only [SymbolBook.bufferDelta]
  split_ifs <;> simp

theorem SymbolBook.feedShadow_frame :
    (s.feedShadow cfg d).state = s.state ∧ (s.feedShadow cfg d).deltaBuffer = s.deltaBuffer := by
  simp only [SymbolBook.feedShadow]
  split <;> simp

/-- The live chain after an event went to a held shadow: as before, or the
shadow's, which the event bridged. -/
theorem SymbolBook.feedShadow_seq :
    (s.feedShadow cfg d).seq = s.seq ∧ (checkSequence cfg.sync s.shadow.seq d).1 ≠ .APPLY ∨
    (checkSequence cfg.sync s.shadow.seq d).1 = .APPLY ∧
      (s.feedShadow cfg d).seq.lastId = d.finalUpdateId ∧
      (s.feedShadow cfg d).seq.needBridge = false := by
  simp only [SymbolBook.feedShadow]
  split
  · rename_i seq hv
    exact .inl ⟨rfl, by simp [hv]⟩
  · rename_i seq hv
    exact .inl ⟨rfl, by simp [hv]⟩
  · rename_i seq hv
    exact .inr ⟨by rw [hv], rfl, by simpa using checkSequence_apply_bridged hv⟩

theorem SymbolBook.passOn_state : (s.passOn cfg d).state = s.state := by
  have hbuffer := s.bufferDelta_frame (d := d)
  simp only [SymbolBook.passOn]
  split_ifs <;> simp [SymbolBook.feedShadow_frame, hbuffer]

theorem SymbolBook.passOn_mem (he : e ∈ (s.passOn cfg d).deltaBuffer) :
    e ∈ s.deltaBuffer ∨ e = d := by
  simp only [SymbolBook.passOn] at he
  split_ifs at he
  · rw [SymbolBook.feedShadow_frame.2] at he
    exact s.bufferDelta_mem he
  · exact s.bufferDelta_mem he
  · rw [SymbolBook.feedShadow_frame.2] at he
    exact .inl he
  · exact .inl he

/-- The live chain after an event was passed on. -/
theorem SymbolBook.passOn_seq :
    ((s.passOn cfg d).seq = s.seq ∧
      (s.shadow.pending = true → (checkSequence cfg.sync s.shadow.seq d).1 ≠ .APPLY)) ∨
    s.shadow.pending = true ∧ (checkSequence cfg.sync s.shadow.seq d).1 = .APPLY ∧
      (s.passOn cfg d).seq.lastId = d.finalUpdateId ∧
      (s.passOn cfg d).seq.needBridge = false := by
  obtain ⟨hseq, -, hshadow⟩ := s.bufferDelta_frame (d := d)
  simp only [SymbolBook.passOn]
  generalize hs' : (if s.refreshPending = true then (s.bufferDelta d).2 else s) = s'
  have hkept : s'.seq = s.seq ∧ s'.shadow = s.shadow := by
    subst hs'
    split_ifs
    · exact ⟨hseq, hshadow⟩
    · exact ⟨rfl, rfl⟩
  split_ifs with hpending
  · obtain ⟨h, hother⟩ | ⟨happly, hid, hbridged⟩ := s'.feedShadow_seq (d := d)
    · exact .inl ⟨h.trans hkept.1, fun _ => hkept.2 ▸ hother⟩
    · exact .inr ⟨hkept.2 ▸ hpending, hkept.2 ▸ happly, hid, hbridged⟩
  · refine .inl ⟨hkept.1, fun hheld => ?_⟩
    exact absurd (hkept.2 ▸ hheld) hpending

theorem SymbolBook.onSnapshot_of_valid {id : Int} {bids asks : List (PriceLevel K)}
    (hvalid : s.state = .VALID) :
    s.onSnapshot cfg id bids asks =
      if s.refreshPending then
        finishRefresh cfg { s with snapshotRequested := false } id bids asks
      else (.IGNORED, { s with snapshotRequested := false, refreshPending := false }) := by
  simp [SymbolBook.onSnapshot, hvalid]

/-- A refresh snapshot ends in one of four ways for the live chain: it is swapped
in with the id of the live book, held or dropped, or the buffered events bridge it. -/
theorem SymbolBook.finishRefresh_seq (cfg : BookConfig) (s : SymbolBook K) (id : Int)
    (bids asks : List (PriceLevel K)) :
    let s' := (s.finishRefresh cfg id bids asks).2
    s'.state = s.state ∧ s'.deltaBuffer = [] ∧
      (s'.seq = s.seq ∧ ¬ Bridges cfg id bids asks s.deltaBuffer ∨
        s'.seq.needBridge = false ∧ ∃ b, replayShadow cfg (Book.load cfg bids asks)
          { needBridge := true, snapshotId := id, lastId := id } s.deltaBuffer = some (b, s'.seq)) := by
  simp only [SymbolBook.finishRefresh]
  split
  · rename_i hbuilt
    refine ⟨rfl, rfl, .inl ⟨rfl, ?_⟩⟩
    rintro ⟨built, hsome, -⟩
    simp [hbuilt] at hsome
  · rename_i b seq hbuilt
    have hunbridged : seq.needBridge = true → ¬ Bridges cfg id bids asks s.deltaBuffer := by
      rintro hneed ⟨built, hsome, hdone⟩
      obtain rfl := Option.some.inj (hbuilt.symm.trans hsome)
      simp [hneed] at hdone
    split_ifs with hsame hheld
    · exact ⟨rfl, rfl, .inl ⟨rfl, hunbridged (by simpa using (Bool.and_eq_true_iff.mp hsame).1)⟩⟩
    · exact ⟨rfl, rfl, .inl ⟨rfl, hunbridged hheld⟩⟩
    · have hdone : seq.needBridge = false := by simpa using hheld
      exact ⟨rfl, rfl, .inr ⟨hdone, b, hbuilt⟩⟩

end Frame

section Invariant
variable [LinearOrder K] [Zero K] {cfg : BookConfig} {s : SymbolBook K} {d : BufferedDelta K}

omit [LinearOrder K] in
theorem linked_init (sym : String) (nowMs : Int) :
    Linked cfg (SymbolBook.init sym nowMs : SymbolBook K) := by
  constructor <;> simp [SymbolBook.init]

theorem Linked.passOn (h : Linked cfg s) (hd : d.Ordered cfg.sync) :
    Linked cfg (s.passOn cfg d) := by
  constructor
  · intro hvalid
    rw [SymbolBook.passOn_state] at hvalid
    obtain ⟨heq, -⟩ | ⟨-, -, -, hbridged⟩ := s.passOn_seq (d := d)
    · rw [heq]
      exact h.bridged hvalid
    · exact hbridged
  · intro e he
    obtain he | rfl := s.passOn_mem he
    · exact h.ordered e he
    · exact hd

theorem Linked.applyDelta (h : Linked cfg s) (hd : d.Ordered cfg.sync) :
    Linked cfg (s.applyDelta cfg d).2 := by
  obtain ⟨-, -, heq⟩ | ⟨-, seq, ⟨hv, heq⟩ | ⟨hv, heq⟩ | ⟨hv, heq⟩⟩ := s.applyDelta_cases cfg d
  · rw [heq]
    exact h
  · rw [heq]
    exact ⟨by simp, h.ordered⟩
  · rw [heq, checkSequence_eq_of_ne_apply hv (by decide)]
    exact h.passOn hd
  · rw [heq]
    have hbridged := checkSequence_apply_bridged hv
    have happlied : Linked cfg (SymbolBook.applyEvent cfg { s with seq := seq } d) :=
      ⟨fun _ => hbridged, h.ordered⟩
    exact happlied.passOn hd

theorem Linked.replay {ds : List (BufferedDelta K)} (h : Linked cfg s)
    (hds : ∀ d ∈ ds, d.Ordered cfg.sync) : Linked cfg (s.replay cfg ds).2 := by
  induction ds generalizing s with
  | nil => exact h
  | cons d ds ih =>
      have hd := h.applyDelta (hds d List.mem_cons_self)
      simp only [SymbolBook.replay]
      split
      · rename_i s' heq
        simpa [heq] using hd
      · rename_i s' heq
        rw [heq] at hd
        exact ih hd fun e he => hds e (List.mem_cons_of_mem d he)

theorem Linked.finishRefresh (h : Linked cfg s) (hvalid : s.state = .VALID) (id : Int)
    (bids asks : List (PriceLevel K)) : Linked cfg (s.finishRefresh cfg id bids asks).2 := by
  obtain ⟨-, hbuf, ⟨hseq, -⟩ | ⟨hdone, -⟩⟩ :=
    s.finishRefresh_seq cfg id bids asks
  · refine ⟨fun _ => ?_, by simp [hbuf]⟩
    rw [hseq]
    exact h.bridged hvalid
  · exact ⟨fun _ => hdone, by simp [hbuf]⟩

theorem Linked.onSnapshot (h : Linked cfg s) (id : Int) (bids asks : List (PriceLevel K)) :
    Linked cfg (s.onSnapshot cfg id bids asks).2 := by
  simp only [SymbolBook.onSnapshot]
  split_ifs with hrefresh hstate hfailed hbridged
  · have hanswered : Linked cfg { s with snapshotRequested := false } := ⟨h.bridged, h.ordered⟩
    exact hanswered.finishRefresh hrefresh.1 id bids asks
  · exact ⟨h.bridged, h.ordered⟩
  all_goals
    have hloaded : Linked cfg (SymbolBook.applySnapshot cfg
        { s with snapshotRequested := false, refreshPending := false } id bids asks) :=
      ⟨by simp [SymbolBook.applySnapshot], h.ordered⟩
    exact ⟨(hloaded.replay h.ordered).bridged, by simp⟩

/-- Every operation keeps a valid book past its snapshot. -/
theorem Linked.run {op : BookOp K} (h : Linked cfg s) (hop : op.Ordered cfg.sync) :
    Linked cfg (op.run cfg s) := by
  cases op with
  | bufferDelta d =>
      constructor
      · intro hvalid
        obtain ⟨hseq, hstate, -⟩ := s.bufferDelta_frame (d := d)
        simp only [BookOp.run] at hvalid ⊢
        rw [hseq]
        exact h.bridged (hstate ▸ hvalid)
      · intro e he
        obtain he | rfl := s.bufferDelta_mem he
        · exact h.ordered e he
        · exact hop
  | onSnapshot id bids asks => exact h.onSnapshot id bids asks
  | applyDelta d => exact h.applyDelta hop
  | beginRefresh => exact ⟨h.bridged, by simp [BookOp.run, SymbolBook.beginRefresh]⟩
  | cancelRefresh =>
      simp only [BookOp.run, SymbolBook.cancelRefresh]
      split_ifs
      · exact ⟨h.bridged, by simp⟩
      · exact h
  | reset => constructor <;> simp [BookOp.run, SymbolBook.reset]

end Invariant

section Monotone
variable [LinearOrder K] [Zero K] {cfg : BookConfig} {s : SymbolBook K}

/-- An event that leaves a valid book valid moves its id back exactly when it is
stale for the live book and bridges a held shadow. -/
theorem applyDelta_forward_iff {d : BufferedDelta K} (h : Linked cfg s)
    (hd : d.Ordered cfg.sync) (hvalid : s.state = .VALID)
    (hafter : (s.applyDelta cfg d).2.state = .VALID) :
    s.seq.lastId ≤ (s.applyDelta cfg d).2.seq.lastId ↔ (BookOp.applyDelta d).Forward cfg s := by
  have hlive := h.bridged hvalid
  obtain ⟨-, hnot, -⟩ | ⟨-, seq, ⟨hv, heq⟩ | ⟨hv, heq⟩ | ⟨hv, heq⟩⟩ := s.applyDelta_cases cfg d
  · exact absurd hvalid hnot
  · simp [heq] at hafter
  · obtain rfl := checkSequence_eq_of_ne_apply hv (by decide)
    rw [heq]
    obtain ⟨hseq, hother⟩ | ⟨hheld, happly, hid, -⟩ := s.passOn_seq (d := d)
    · refine iff_of_true ?_ fun _ hheld _ => hother hheld
      exact (congrArg Seq.lastId hseq).ge
    · -- the event is older than the live book, and the shadow takes its id
      refine iff_of_false ?_ fun hforward => hforward hvalid hheld (by rw [hv]) happly
      have hstale := checkSequence_skip_lt hlive hv
      exact not_le.mpr (hid ▸ hstale)
  · refine iff_of_true ?_ fun _ _ hskip => by simp [hv] at hskip
    have hle := checkSequence_apply_le hd hlive hv
    rw [heq]
    obtain ⟨hseq, -⟩ | ⟨-, -, hid, -⟩ :=
      (SymbolBook.applyEvent cfg { s with seq := seq } d).passOn_seq (d := d)
    · rw [hseq]
      exact hle
    · rw [hid]
      exact hle

/-- A refresh snapshot moves the id back exactly when it is bridged by buffered
events that all end before the live book. -/
theorem finishRefresh_forward_iff {id : Int} {bids asks : List (PriceLevel K)} (h : Linked cfg s) :
    s.seq.lastId ≤ (s.finishRefresh cfg id bids asks).2.seq.lastId ↔
      (Bridges cfg id bids asks s.deltaBuffer →
        ∃ d ∈ s.deltaBuffer, s.seq.lastId ≤ d.finalUpdateId) := by
  obtain ⟨-, -, ⟨hseq, hunbridged⟩ | ⟨hdone, b, hbuilt⟩⟩ :=
    s.finishRefresh_seq cfg id bids asks
  · refine iff_of_true ?_ fun hbridges => absurd hbridges hunbridged
    exact (congrArg Seq.lastId hseq).ge
  · have hbridges : Bridges cfg id bids asks s.deltaBuffer := ⟨_, hbuilt, hdone⟩
    obtain ⟨-, hall⟩ := replayShadow_bridged h.ordered rfl hdone hbuilt
    constructor
    · intro hle _
      obtain heq | ⟨d, hd, hid⟩ := replayShadow_mem hbuilt
      · simp [heq] at hdone
      · exact ⟨d, hd, hid ▸ hle⟩
    · intro hforward
      obtain ⟨d, hd, hle⟩ := hforward hbridges
      exact hle.trans (hall d hd)

/-- A step that leaves a valid book valid keeps its id from going back exactly
when it is a forward step. -/
theorem run_forward_iff {op : BookOp K} (h : Linked cfg s) (hop : op.Ordered cfg.sync)
    (hvalid : s.state = .VALID) (hafter : (op.run cfg s).state = .VALID) :
    s.seq.lastId ≤ (op.run cfg s).seq.lastId ↔ op.Forward cfg s := by
  cases op with
  | bufferDelta d =>
      refine iff_of_true ?_ trivial
      simp [BookOp.run, s.bufferDelta_frame]
  | onSnapshot id bids asks =>
      simp only [BookOp.run, s.onSnapshot_of_valid hvalid]
      split_ifs with hrefresh
      · have hanswered : Linked cfg { s with snapshotRequested := false } :=
          ⟨h.bridged, h.ordered⟩
        simpa [BookOp.Forward, hrefresh, hvalid] using finishRefresh_forward_iff hanswered
      · exact iff_of_true le_rfl fun _ hpending => absurd hpending hrefresh
  | applyDelta d => exact applyDelta_forward_iff h hop hvalid hafter
  | beginRefresh => exact iff_of_true le_rfl trivial
  | cancelRefresh =>
      refine iff_of_true ?_ trivial
      simp only [BookOp.run, SymbolBook.cancelRefresh]
      split_ifs <;> simp
  | reset => simp [BookOp.run, SymbolBook.reset] at hafter

/-- The book is valid now and after each of the operations. -/
def StaysValid (cfg : BookConfig) : SymbolBook K → List (BookOp K) → Prop
  | s, [] => s.state = .VALID
  | s, op :: ops => s.state = .VALID ∧ StaysValid cfg (op.run cfg s) ops

instance (cfg : BookConfig) : ∀ (s : SymbolBook K) ops, Decidable (StaysValid cfg s ops)
  | s, [] => inferInstanceAs (Decidable (s.state = .VALID))
  | s, op :: ops =>
      have := instDecidableStaysValid cfg (op.run cfg s) ops
      inferInstanceAs (Decidable (_ ∧ _))

theorem StaysValid.head {ops : List (BookOp K)} (h : StaysValid cfg s ops) : s.state = .VALID := by
  cases ops with
  | nil => exact h
  | cons op ops => exact h.1

/-- Over a stretch of forward steps in which the book stays valid. -/
theorem lastId_le_of_staysValid {ops : List (BookOp K)} (h : Linked cfg s)
    (hops : ∀ op ∈ ops, op.Ordered cfg.sync) (hvalid : StaysValid cfg s ops)
    (hforward : Admits (BookOp.run cfg) (BookOp.Forward cfg) s ops) :
    s.seq.lastId ≤ (exec (BookOp.run cfg) s ops).seq.lastId := by
  induction ops generalizing s with
  | nil => exact le_rfl
  | cons op ops ih =>
      have hop := hops op List.mem_cons_self
      have hstep := (run_forward_iff h hop hvalid.1 hvalid.2.head).mpr hforward.1
      exact hstep.trans (ih (h.run hop) (fun o ho => hops o (List.mem_cons_of_mem op ho))
        hvalid.2 hforward.2)

theorem linked_exec {ops : List (BookOp K)} (hops : ∀ op ∈ ops, op.Ordered cfg.sync)
    (sym : String) (nowMs : Int) :
    Linked cfg (exec (BookOp.run cfg) (SymbolBook.init sym nowMs) ops) :=
  exec_invariant_of_mem (fun _ op hop h => h.run (hops op hop)) (linked_init sym nowMs)

/-- The update id of the valid quotes of a book never goes back while the book
stays valid, if no refresh is swapped in by events that are stale for it. -/
theorem update_id_never_decreases (cfg : BookConfig) (sym : String) (nowMs : Int)
    (ops seg : List (BookOp K)) (hordered : ∀ op ∈ ops ++ seg, op.Ordered cfg.sync)
    (hvalid : StaysValid cfg (exec (BookOp.run cfg) (SymbolBook.init sym nowMs) ops) seg)
    (hforward : Admits (BookOp.run cfg) (BookOp.Forward cfg)
      (exec (BookOp.run cfg) (SymbolBook.init sym nowMs) ops) seg)
    (recv seqNo recv' seqNo' : Int) :
    let s := exec (BookOp.run cfg) (SymbolBook.init sym nowMs) ops
    let before := s.getQuote cfg recv seqNo
    let after := (exec (BookOp.run cfg) s seg).getQuote cfg recv' seqNo'
    before.isValid = true → after.isValid = true → before.exchUpdateId ≤ after.exchUpdateId := by
  intro s before after hbefore hafter
  have hlinked : Linked cfg s :=
    linked_exec (fun op hop => hordered op (List.mem_append_left seg hop)) sym nowMs
  have hle := lastId_le_of_staysValid hlinked
    (fun op hop => hordered op (List.mem_append_right ops hop)) hvalid hforward
  calc before.exchUpdateId = s.seq.lastId := (SymbolBook.getQuote_fields hbefore).1
    _ ≤ (exec (BookOp.run cfg) s seg).seq.lastId := hle
    _ = after.exchUpdateId := (SymbolBook.getQuote_fields hafter).1.symm

end Monotone

/-- A book brought to id 100. -/
def liveAt100 : List (BookOp Int) :=
  [.onSnapshot 99 [⟨10, 1⟩] [⟨11, 1⟩],
    .applyDelta { firstUpdateId := 100, finalUpdateId := 100, bids := [⟨10, 2⟩], asks := [] }]

/-- A refresh that the next event bridges. -/
def refreshAhead : List (BookOp Int) :=
  [.beginRefresh,
    .applyDelta { firstUpdateId := 101, finalUpdateId := 103, bids := [⟨10, 3⟩], asks := [] },
    .onSnapshot 102 [⟨10, 2⟩] [⟨11, 1⟩]]

/-- A refresh behind the live book, bridged by an event the live book skips. -/
def refreshBehind : List (BookOp Int) :=
  [.beginRefresh,
    .applyDelta { firstUpdateId := 95, finalUpdateId := 97, bids := [], asks := [⟨11, 1⟩] },
    .onSnapshot 96 [⟨10, 1⟩] [⟨11, 1⟩]]

theorem update_id_of_refreshAhead :
    let s := exec (BookOp.run .oneLevel) (SymbolBook.init "btcusdt" 0) liveAt100
    (s.getQuote .oneLevel 0 1).exchUpdateId = 100 ∧
      ((exec (BookOp.run .oneLevel) s refreshAhead).getQuote .oneLevel 0 2).exchUpdateId = 103 ∧
      (s.getQuote .oneLevel 0 1).exchUpdateId ≤
        ((exec (BookOp.run .oneLevel) s refreshAhead).getQuote .oneLevel 0 2).exchUpdateId := by
  refine ⟨by decide, by decide, ?_⟩
  refine update_id_never_decreases .oneLevel "btcusdt" 0 liveAt100 refreshAhead ?_ (by decide)
    (by decide) 0 1 0 2 (by decide) (by decide)
  simp [liveAt100, refreshAhead, BookOp.Ordered, BufferedDelta.Ordered, BookConfig.oneLevel]

/-- The book stays valid throughout and its update id falls from 100 to 97. -/
theorem update_id_falls_at_refreshBehind :
    let s := exec (BookOp.run .oneLevel) (SymbolBook.init "btcusdt" 0) liveAt100
    let before := s.getQuote .oneLevel 0 1
    let after := (exec (BookOp.run .oneLevel) s refreshBehind).getQuote .oneLevel 0 2
    StaysValid .oneLevel s refreshBehind ∧ before.isValid = true ∧ after.isValid = true ∧
      before.exchUpdateId = 100 ∧ after.exchUpdateId = 97 := by
  decide

end TickToSignal.OrderBook
