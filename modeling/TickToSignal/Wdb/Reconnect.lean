import TickToSignal.Wdb.World

/-!
# The reconnect protocol

Within one process, whatever the interleaving of logging, publishing,
connection losses, restarts of TP and failed attempts: a table's rows are taken
once and in order, a successful replay leaves nothing behind its cutoff, and an
attempt that fails leaves no trace.

## Implementation notes

The invariant speaks of one table's stream at a time. While a replay runs, what
TP logged above the cutoff is what was kept aside, then what is on the wire;
once live, what it logged above the floor is what is on the wire.
-/

namespace TickToSignal.Wdb

open Foundation

variable {δ : Type*}

/-! ## Streams of one table -/

theorem mem_rowsOf {t : WdbTable} {l : List (WdbTable × Row δ)} {r : Row δ} :
    r ∈ rowsOf t l ↔ (t, r) ∈ l := by
  simp [rowsOf]

@[simp] theorem rowsOf_nil (t : WdbTable) : rowsOf t ([] : List (WdbTable × Row δ)) = [] := rfl

@[simp] theorem rowsOf_append (t : WdbTable) (l l' : List (WdbTable × Row δ)) :
    rowsOf t (l ++ l') = rowsOf t l ++ rowsOf t l' := by
  simp [rowsOf]

theorem rowsOf_cons_self (t : WdbTable) (r : Row δ) (l : List (WdbTable × Row δ)) :
    rowsOf t ((t, r) :: l) = r :: rowsOf t l := by
  simp [rowsOf]

theorem rowsOf_cons_of_ne {t x : WdbTable} (h : x ≠ t) (r : Row δ) (l : List (WdbTable × Row δ)) :
    rowsOf x ((t, r) :: l) = rowsOf x l := by
  simp [rowsOf, h.symm]

@[simp] theorem above_nil (n : Nat) : above n ([] : List (Row δ)) = [] := rfl

@[simp] theorem above_append (n : Nat) (l l' : List (Row δ)) :
    above n (l ++ l') = above n l ++ above n l' := by
  simp [above]

theorem mem_above {n : Nat} {l : List (Row δ)} {r : Row δ} :
    r ∈ above n l ↔ r ∈ l ∧ n < r.tpSeqNo := by
  simp [above]

theorem above_eq_nil {n : Nat} {l : List (Row δ)} (h : ∀ r ∈ l, r.tpSeqNo ≤ n) :
    above n l = [] :=
  List.filter_eq_nil_iff.mpr fun r hr => by simpa using h r hr

theorem above_above {m n : Nat} (h : m ≤ n) (l : List (Row δ)) :
    above n (above m l) = above n l := by
  simp only [above, List.filter_filter]
  apply List.filter_congr
  intro r _
  by_cases hr : n < r.tpSeqNo
  · simp [hr, h.trans_lt hr]
  · simp [hr]

/-- An ascending stream above `m` is what lies up to `n`, then what lies above it. -/
theorem above_split {m n : Nat} (h : m ≤ n) {l : List (Row δ)}
    (hl : l.Pairwise fun a b => a.tpSeqNo < b.tpSeqNo) :
    above m l
      = (l.filter fun r => decide (m < r.tpSeqNo ∧ r.tpSeqNo ≤ n)) ++ above n l := by
  induction l with
  | nil => rfl
  | cons a l ih =>
      have hlt : ∀ b ∈ l, a.tpSeqNo < b.tpSeqNo := fun b => List.rel_of_pairwise_cons hl
      have ih := ih hl.of_cons
      simp only [above] at ih ⊢
      by_cases ham : m < a.tpSeqNo
      · by_cases han : a.tpSeqNo ≤ n
        · rw [List.filter_cons_of_pos (by simpa using ham),
            List.filter_cons_of_pos (by simp [ham, han]),
            List.filter_cons_of_neg (by simpa using han), ih, List.cons_append]
        · have hnone : (l.filter fun r => decide (m < r.tpSeqNo ∧ r.tpSeqNo ≤ n)) = [] := by
            apply List.filter_eq_nil_iff.mpr
            intro b hb
            have := hlt b hb
            simp only [decide_eq_true_eq, not_and]
            omega
          rw [hnone, List.nil_append] at ih
          rw [List.filter_cons_of_pos (by simpa using ham),
            List.filter_cons_of_neg (by simp [han]),
            List.filter_cons_of_pos (by simpa using han), hnone, ih, List.nil_append]
      · rw [List.filter_cons_of_neg (by simpa using ham),
          List.filter_cons_of_neg (by simp [ham]),
          List.filter_cons_of_neg (by simp; omega), ih]

/-! ## TP's side -/

/-- The log is ascending and below the counter, and what WDB has of it on its way or
aside is part of it. -/
structure TpSound (w : World δ) : Prop where
  ascending : w.log.Pairwise fun a b => a.2.tpSeqNo < b.2.tpSeqNo
  le_reserved : ∀ e ∈ w.log, e.2.tpSeqNo ≤ w.reserved
  le_counter : w.tpUp = true → ∀ e ∈ w.log, e.2.tpSeqNo ≤ w.tpSeqNo
  counter_le : w.tpUp = true → w.tpSeqNo ≤ w.reserved
  link : w.linkUp = true → w.tpUp = true
  wire_logged : ∀ e ∈ w.wire, e ∈ w.log
  no_wire : w.linkUp = false → w.wire = []
  live_logged : ∀ t, ∀ r ∈ w.wdb.replayLiveBuffer t, (t, r) ∈ w.log

namespace TpSound

theorem rows_ascending {w : World δ} (h : TpSound w) (t : WdbTable) :
    (rowsOf t w.log).Pairwise fun a b => a.tpSeqNo < b.tpSeqNo :=
  List.pairwise_map.mpr (h.ascending.filter _)

theorem fresh : TpSound (World.fresh : World δ) :=
  { ascending := List.Pairwise.nil
    le_reserved := by simp [World.fresh]
    le_counter := by simp [World.fresh]
    counter_le := by simp [World.fresh]
    link := by simp [World.fresh]
    wire_logged := by simp [World.fresh]
    no_wire := fun _ => rfl
    live_logged := by simp [World.fresh] }

theorem connLost {w : World δ} (h : TpSound w) : TpSound w.connLost :=
  { ascending := h.ascending
    le_reserved := h.le_reserved
    le_counter := h.le_counter
    counter_le := h.counter_le
    link := fun h => absurd h Bool.false_ne_true
    wire_logged := fun _ he => absurd he List.not_mem_nil
    no_wire := fun _ => rfl
    live_logged := h.live_logged }

/-- Another WDB process state, whose live buffer has logged rows. -/
theorem withWdb {w : World δ} (h : TpSound w) {s : WdbProcess δ}
    (hlive : ∀ t, ∀ r ∈ s.replayLiveBuffer t, (t, r) ∈ w.log) : TpSound { w with wdb := s } :=
  { h with live_logged := hlive }

theorem tpLog {w : World δ} (h : TpSound w) (cfg : WdbConfig) (t : WdbTable) (date : Date)
    (data : δ) : TpSound (w.tpLog cfg t date data) := by
  simp only [World.tpLog]
  by_cases hup : w.tpUp = true
  · have hcounter := h.le_counter hup
    have hle := h.counter_le hup
    rw [if_pos hup]
    refine
      { ascending := ?_, le_reserved := ?_, le_counter := ?_, counter_le := ?_
        link := h.link, wire_logged := ?_, no_wire := ?_, live_logged := ?_ }
    · apply List.pairwise_append.mpr
      refine ⟨h.ascending, List.pairwise_singleton _ _, ?_⟩
      intro a ha b hb
      rw [List.mem_singleton.mp hb]
      exact Nat.lt_succ_of_le (hcounter a ha)
    · intro e he
      dsimp only
      obtain he | he := List.mem_append.mp he
      · have hres := h.le_reserved e he
        split_ifs <;> omega
      · rw [List.mem_singleton.mp he]
        dsimp only
        split_ifs <;> omega
    · intro _ e he
      obtain he | he := List.mem_append.mp he
      · exact Nat.le_succ_of_le (hcounter e he)
      · rw [List.mem_singleton.mp he]
    · intro _
      dsimp only
      split_ifs <;> omega
    · intro e he
      dsimp only at he ⊢
      split_ifs at he
      · obtain he | he := List.mem_append.mp he
        · exact List.mem_append_left _ (h.wire_logged e he)
        · exact List.mem_append_right _ he
      · exact List.mem_append_left _ (h.wire_logged e he)
    · intro hlink
      dsimp only at hlink ⊢
      rw [hlink, Bool.false_and, if_neg Bool.false_ne_true]
      exact h.no_wire hlink
    · exact fun x r hr => List.mem_append_left _ (h.live_logged x r hr)
  · rwa [if_neg hup]

theorem deliver {w : World δ} (h : TpSound w) (cfg : WdbConfig) (io : FlushIO) :
    TpSound (w.deliver cfg io) := by
  cases hwire : w.wire with
  | nil => simpa only [World.deliver, hwire] using h
  | cons e rest =>
      obtain ⟨t, row⟩ := e
      have hrow : (t, row) ∈ w.log := h.wire_logged _ (hwire ▸ List.mem_cons_self)
      have hrest : ∀ e ∈ rest, e ∈ w.log :=
        fun e he => h.wire_logged e (hwire ▸ List.mem_cons_of_mem _ he)
      have hlink : w.linkUp = true := by
        by_contra hdown
        simp [h.no_wire (by simpa using hdown)] at hwire
      have hlive : ∀ x, ∀ r ∈ (w.wdb.upd cfg.maxRows io t row).replayLiveBuffer x,
          (x, r) ∈ w.log := by
        intro x r hr
        simp only [WdbProcess.upd] at hr
        split_ifs at hr
        · exact h.live_logged x r hr
        · dsimp only at hr
          by_cases hx : x = t
          · subst hx
            rw [Function.update_self] at hr
            obtain hr | hr := List.mem_append.mp hr
            · exact h.live_logged x r hr
            · rwa [List.mem_singleton.mp hr]
          · rw [Function.update_of_ne hx] at hr
            exact h.live_logged x r hr
        · rw [WdbProcess.ingest_live] at hr
          exact h.live_logged x r hr
      simp only [World.deliver, hwire]
      exact
        { h with
          wire_logged := hrest
          no_wire := fun hdown => absurd hlink (by simp [show w.linkUp = false from hdown])
          live_logged := hlive }

theorem own {w : World δ} (h : TpSound w) (op : WdbProcess δ → WdbProcess δ)
    (hop : (op w.wdb).replayLiveBuffer = w.wdb.replayLiveBuffer) : TpSound (w.own op) := by
  simp only [World.own]
  split_ifs
  · exact h.withWdb fun t r hr => h.live_logged t r (hop ▸ hr)
  · exact h

/-- Every step keeps TP's side sound. -/
theorem step {w : World δ} (h : TpSound w) (cfg : WdbConfig) (i : Step δ) :
    TpSound (w.step cfg i) := by
  cases i with
  | tpStart =>
      simp only [World.step, World.tpStart]
      split_ifs with hup
      · exact h
      · exact
          { h with
            le_reserved := fun e he => Nat.le_add_right_of_le (h.le_reserved e he)
            le_counter := fun _ => h.le_reserved
            counter_le := fun _ => Nat.le_add_right _ _
            link := fun _ => rfl }
  | tpCrash =>
      exact
        { h.connLost with
          le_counter := fun h => absurd h Bool.false_ne_true
          counter_le := fun h => absurd h Bool.false_ne_true
          link := fun h => absurd h Bool.false_ne_true }
  | tpLog t date data => exact h.tpLog cfg t date data
  | start saves =>
      simp only [World.step, World.start]
      split_ifs
      · exact h
      · have hlive : (WdbProcess.start saves w.wdb.disk).replayLiveBuffer = fun _ => [] := by
          simp only [WdbProcess.start, WdbProcess.reconcileCheckpointWithDisk,
            WdbProcess.saveCheckpoint]
          split_ifs <;> rfl
        exact
          { h.connLost with
            live_logged := fun t r hr => by
              rw [hlive] at hr
              exact absurd hr List.not_mem_nil }
  | crash => exact { h.connLost with }
  | connect =>
      simp only [World.step, World.connect]
      split
      · split_ifs with hup
        · simp only [Bool.and_eq_true] at hup
          exact
            { h with
              link := fun _ => hup.2
              wire_logged := fun _ he => absurd he List.not_mem_nil
              no_wire := fun _ => rfl }
        · exact h
      · exact h
  | subscribe replied =>
      simp only [World.step, World.subscribe]
      split
      · split
        · split_ifs
          · exact h.withWdb h.live_logged
          · exact h.connLost.withWdb h.live_logged
        · exact h
      · exact h
  | replayInfo replied =>
      simp only [World.step, World.replayInfo]
      split
      · split_ifs
        · apply h.withWdb
          intro t r hr
          simp only [WdbProcess.beginReplay] at hr
          split_ifs at hr
          · exact h.live_logged t r hr
          · exact absurd hr List.not_mem_nil
        · exact h.connLost.withWdb h.live_logged
        · exact h
      · exact h
  | readLogs stage io =>
      simp only [World.step, World.readLogs]
      split
      · apply h.withWdb
        intro t r hr
        simp only [WdbProcess.completeReplay, WdbProcess.drainAll_live] at hr
        exact absurd hr List.not_mem_nil
      · exact h.connLost.withWdb fun t r hr => absurd hr List.not_mem_nil
      · exact h
  | deliver io => exact h.deliver cfg io
  | connLost => exact h.connLost
  | closed =>
      simp only [World.step, World.closed]
      split
      · split_ifs
        · exact h
        · exact h.withWdb h.live_logged
      · exact h
  | flush io => exact h.own (fun s => (s.flushAll io).2) (WdbProcess.flushAll_frame io w.wdb).replayLiveBuffer
  | shutdown io =>
      apply h.own
      simp only [WdbProcess.shutdown]
      split_ifs
      · rfl
      · exact (WdbProcess.flushAll_frame io w.wdb).replayLiveBuffer
  | roll today io moves =>
      exact h.own _ (WdbProcess.roll_frame today io moves w.wdb).replayLiveBuffer

end TpSound

/-! ## What was taken -/

/-- What a process took since it started with the floors `first`: logged rows above
those floors, in order, and with each row every earlier one of its table. -/
structure Received (first : WdbTable → Nat) (log : List (WdbTable × Row δ)) (s : WdbProcess δ) :
    Prop where
  ascending : ∀ t, (s.received t).Pairwise fun a b => a.tpSeqNo < b.tpSeqNo
  above_first : ∀ t, ∀ r ∈ s.received t, first t < r.tpSeqNo
  le_floor : ∀ t, ∀ r ∈ s.received t, r.tpSeqNo ≤ s.floor t
  logged : ∀ t, ∀ r ∈ s.received t, (t, r) ∈ log
  floor_eq : ∀ t, s.floor t = first t ∨ ∃ r ∈ s.received t, s.floor t = r.tpSeqNo
  first_le : ∀ t, first t ≤ s.lastTpSeqNo t
  complete : ∀ t r, (t, r) ∈ log → first t < r.tpSeqNo → r.tpSeqNo ≤ s.floor t → r ∈ s.received t

namespace Received

variable {first : WdbTable → Nat} {log : List (WdbTable × Row δ)} {s s' : WdbProcess δ}

/-- A step that leaves floors and record alone leaves the account alone. -/
theorem keep (h : Received first log s) (hfloor : ∀ t, s'.floor t = s.floor t)
    (hrec : s'.received = s.received) (hlast : ∀ t, s.lastTpSeqNo t ≤ s'.lastTpSeqNo t) :
    Received first log s' :=
  { ascending := fun t => hrec ▸ h.ascending t
    above_first := fun t => hrec ▸ h.above_first t
    le_floor := fun t r hr => hfloor t ▸ h.le_floor t r (hrec ▸ hr)
    logged := fun t => hrec ▸ h.logged t
    floor_eq := fun t => by
      rw [hfloor t, hrec]
      exact h.floor_eq t
    first_le := fun t => (h.first_le t).trans (hlast t)
    complete := fun t r hr hfirst hle => hrec ▸ h.complete t r hr hfirst (hfloor t ▸ hle) }

/-- TP logs a row numbered above all it logged and above the floors WDB started with. -/
theorem log_append (h : Received first log s) {e : WdbTable × Row δ}
    (he : ∀ r ∈ s.received e.1, r.tpSeqNo < e.2.tpSeqNo) : Received first (log ++ [e]) s := by
  refine { h with logged := ?_, complete := ?_ }
  · exact fun t r hr => List.mem_append_left _ (h.logged t r hr)
  · intro t r hr hfirst hle
    obtain hr | hr := List.mem_append.mp hr
    · exact h.complete t r hr hfirst hle
    · have htr : (t, r) = e := List.mem_singleton.mp hr
      subst htr
      obtain hfl | ⟨x, hx, hfl⟩ := h.floor_eq t
      · exact absurd (hfl ▸ hle) hfirst.not_ge
      · exact absurd (hfl ▸ hle) (he x hx).not_ge

/-- Rows that are the beginning of what the log has above the floors are all taken. -/
theorem took (h : Received first log s)
    (hlog : ∀ t, (rowsOf t log).Pairwise fun a b => a.tpSeqNo < b.tpSeqNo)
    {rows : WdbTable → List (Row δ)} (ht : WdbProcess.Took rows s s')
    (hrows : ∀ t, rows t <+: above (s.floor t) (rowsOf t log)) : Received first log s' := by
  have hasc : ∀ t, (rows t).Pairwise fun a b => a.tpSeqNo < b.tpSeqNo :=
    fun t => ((hlog t).filter _).sublist (hrows t).sublist
  have hmem : ∀ t, ∀ r ∈ rows t, (t, r) ∈ log ∧ s.floor t < r.tpSeqNo := by
    intro t r hr
    obtain ⟨hr, habove⟩ := mem_above.mp ((hrows t).subset hr)
    exact ⟨mem_rowsOf.mp hr, habove⟩
  have hrec : ∀ t, s'.received t = s.received t ++ rows t := by
    intro t
    rw [ht.received, admitted_eq_self (hasc t) fun r hr => (hmem t r hr).2]
  have hle : ∀ t, s.floor t ≤ s'.floor t := fun t => ht.floor t ▸ le_watermark _
  have hfirst : ∀ t, first t ≤ s.floor t := fun t => (h.first_le t).trans (le_max_left _ _)
  refine
    { ascending := ?_, above_first := ?_, le_floor := ?_, logged := ?_, floor_eq := ?_
      first_le := fun t => (h.first_le t).trans (ht.last_le t), complete := ?_ }
  · intro t
    rw [hrec]
    apply List.pairwise_append.mpr
    exact ⟨h.ascending t, hasc t,
      fun a ha b hb => (h.le_floor t a ha).trans_lt (hmem t b hb).2⟩
  · intro t r hr
    rw [hrec] at hr
    obtain hr | hr := List.mem_append.mp hr
    · exact h.above_first t r hr
    · exact (hfirst t).trans_lt (hmem t r hr).2
  · intro t r hr
    rw [hrec] at hr
    obtain hr | hr := List.mem_append.mp hr
    · exact (h.le_floor t r hr).trans (hle t)
    · rw [ht.floor]
      exact num_le_watermark _ hr
  · intro t r hr
    rw [hrec] at hr
    obtain hr | hr := List.mem_append.mp hr
    · exact h.logged t r hr
    · exact (hmem t r hr).1
  · intro t
    rw [hrec, ht.floor]
    obtain hold | ⟨r, hr, hnew⟩ :=
      watermark_eq_or_mem (fun r : Row δ => r.tpSeqNo) (s.floor t) (rows t)
    · rw [hold]
      obtain hf | ⟨r, hr, hf⟩ := h.floor_eq t
      · exact Or.inl hf
      · exact Or.inr ⟨r, List.mem_append_left _ hr, hf⟩
    · exact Or.inr ⟨r, List.mem_append_right _ hr, hnew⟩
  · intro t r hr hfr hle
    rw [hrec]
    by_cases hold : r.tpSeqNo ≤ s.floor t
    · exact List.mem_append_left _ (h.complete t r hr hfr hold)
    · apply List.mem_append_right
      obtain ⟨rest, hrest⟩ := hrows t
      have hmem : r ∈ rows t ++ rest :=
        hrest ▸ mem_above.mpr ⟨mem_rowsOf.mpr hr, not_le.mp hold⟩
      obtain hr | hr := List.mem_append.mp hmem
      · exact hr
      · have hafter := filter_watermark (hlog t) hrest.symm
        have hnew : r ∈ (rowsOf t log).filter fun a =>
            decide (watermark (fun r : Row δ => r.tpSeqNo) (s.floor t) (rows t) < a.tpSeqNo) :=
          hafter ▸ hr
        rw [ht.floor] at hle
        exact absurd hle (not_le.mpr (by simpa using (List.mem_filter.mp hnew).2))

end Received

/-! ## Where the stream is -/

/-- Between the cutoff and the end of the staging: TP's rows above the cutoff are aside,
then on the wire, and then lost with the connection. -/
structure Replaying (w : World δ) : Prop where
  mode : w.wdb.replayMode = true
  floor_eq : w.wdb.stageFloor = w.wdb.floor
  cutoff_eq : w.wdb.replayCutoff = w.wdb.stageCutoff
  floor_le : ∀ t, w.wdb.floor t ≤ w.wdb.stageCutoff
  stream : ∀ t, ∃ lost, (w.linkUp = true → lost = []) ∧
    above w.wdb.stageCutoff (rowsOf t w.log)
      = above w.wdb.stageCutoff (w.wdb.replayLiveBuffer t)
        ++ above w.wdb.stageCutoff (rowsOf t w.wire) ++ lost

/-- Live: TP's rows above the floor are on the wire. -/
structure Live (w : World δ) : Prop where
  mode : w.wdb.replayMode = false
  stream : w.linkUp = true → ∀ t,
    above (w.wdb.floor t) (rowsOf t w.log) = above (w.wdb.floor t) (rowsOf t w.wire)

structure Streaming (w : World δ) : Prop where
  idle : w.wdb.conn = .disconnected → w.wdb.replayMode = false ∧ w.linkUp = false
  subscribing : ∀ subscribed, w.wdb.conn = .subscribing subscribed → w.wdb.replayMode = true
  replaying : w.wdb.conn = .replaying → Replaying w
  connected : w.wdb.conn = .connected → Live w

/-- The invariant of one process that is not halted. -/
structure Inv (first : WdbTable → Nat) (w : World δ) : Prop where
  running : w.running = true
  tp : TpSound w
  buffered : w.wdb.Buffered
  received : w.wdb.halted = false → Received first w.log w.wdb
  streaming : w.wdb.halted = false → Streaming w

namespace Streaming

theorem ofLive {w : World δ} (hconn : w.wdb.conn = .connected) (hl : Live w) : Streaming w :=
  { idle := fun hc => absurd (hconn.symm.trans hc) (by simp)
    subscribing := fun _ hc => absurd (hconn.symm.trans hc) (by simp)
    replaying := fun hc => absurd (hconn.symm.trans hc) (by simp)
    connected := fun _ => hl }

/-- TP's counter and whether anything runs do not matter. -/
theorem congr {w w' : World δ} (h : Streaming w) (hwdb : w'.wdb = w.wdb)
    (hlink : w'.linkUp = w.linkUp) (hlog : w'.log = w.log) (hwire : w'.wire = w.wire) :
    Streaming w' := by
  refine { idle := ?_, subscribing := ?_, replaying := ?_, connected := ?_ }
  · rw [hwdb, hlink]
    exact h.idle
  · rw [hwdb]
    exact h.subscribing
  · rw [hwdb]
    intro hconn
    have hr := h.replaying hconn
    exact
      { mode := hwdb ▸ hr.mode, floor_eq := hwdb ▸ hr.floor_eq, cutoff_eq := hwdb ▸ hr.cutoff_eq
        floor_le := hwdb ▸ hr.floor_le
        stream := by simpa only [hwdb, hlink, hlog, hwire] using hr.stream }
  · rw [hwdb]
    intro hconn
    have hl := h.connected hconn
    exact
      { mode := hwdb ▸ hl.mode
        stream := by simpa only [hwdb, hlink, hlog, hwire] using hl.stream }

/-- The connection dies: what was on the wire is lost. -/
theorem connLost {w : World δ} (h : Streaming w) : Streaming w.connLost := by
  refine { idle := ?_, subscribing := h.subscribing, replaying := ?_, connected := ?_ }
  · exact fun hconn => ⟨(h.idle hconn).1, rfl⟩
  · intro hconn
    have hr := h.replaying hconn
    refine { mode := hr.mode, floor_eq := hr.floor_eq, cutoff_eq := hr.cutoff_eq
             floor_le := hr.floor_le, stream := ?_ }
    intro t
    obtain ⟨lost, -, hstream⟩ := hr.stream t
    refine ⟨above w.wdb.stageCutoff (rowsOf t w.wire) ++ lost,
      fun hup => absurd hup Bool.false_ne_true, ?_⟩
    simp only [World.connLost, rowsOf_nil, above_nil, List.append_nil]
    rw [← List.append_assoc]
    exact hstream
  · intro hconn
    exact { mode := (h.connected hconn).mode, stream := fun hup => absurd hup Bool.false_ne_true }

/-- Only the connection state and `replayMode` of WDB, and the stream, matter. -/
theorem keep {w : World δ} (h : Streaming w) {s : WdbProcess δ} (hf : WdbProcess.Frame w.wdb s)
    (hfloor : ∀ t, s.floor t = w.wdb.floor t) : Streaming { w with wdb := s } := by
  have hfl : s.floor = w.wdb.floor := funext hfloor
  refine { idle := ?_, subscribing := ?_, replaying := ?_, connected := ?_ }
  · intro hconn
    simp only [hf.conn] at hconn
    simpa only [hf.replayMode] using h.idle hconn
  · intro subscribed hconn
    simp only [hf.conn] at hconn
    simpa only [hf.replayMode] using h.subscribing subscribed hconn
  · intro hconn
    simp only [hf.conn] at hconn
    have hr := h.replaying hconn
    refine { mode := ?_, floor_eq := ?_, cutoff_eq := ?_, floor_le := ?_, stream := ?_ }
    · simpa only [hf.replayMode] using hr.mode
    · simpa only [hf.stageFloor, hfl] using hr.floor_eq
    · simpa only [hf.replayCutoff, hf.stageCutoff] using hr.cutoff_eq
    · simpa only [hf.stageCutoff, hfl] using hr.floor_le
    · simpa only [hf.stageCutoff, hf.replayLiveBuffer] using hr.stream
  · intro hconn
    simp only [hf.conn] at hconn
    have hl := h.connected hconn
    refine { mode := ?_, stream := ?_ }
    · simpa only [hf.replayMode] using hl.mode
    · simpa only [hfl] using hl.stream

/-- A logged row is published to a connection that subscribes to its table. -/
theorem publish {w : World δ} (h : Streaming w) (e : WdbTable × Row δ) (n reserved : Nat) :
    Streaming
      { w with
        tpSeqNo := n, reserved := reserved, log := w.log ++ [e]
        wire := if w.linkUp && w.wdb.conn.subscribes e.1 then w.wire ++ [e] else w.wire } := by
  refine { idle := h.idle, subscribing := h.subscribing, replaying := ?_, connected := ?_ }
  · intro hconn
    replace hconn : w.wdb.conn = .replaying := hconn
    have hr := h.replaying hconn
    refine { mode := hr.mode, floor_eq := hr.floor_eq, cutoff_eq := hr.cutoff_eq
             floor_le := hr.floor_le, stream := ?_ }
    intro x
    obtain ⟨lost, hlost, hstream⟩ := hr.stream x
    cases hlink : w.linkUp with
    | true =>
        refine ⟨[], fun _ => rfl, ?_⟩
        simp only [hconn, Conn.subscribes, Bool.and_self, if_true, rowsOf_append, above_append]
        rw [hstream, hlost hlink]
        simp only [List.append_nil, List.append_assoc]
    | false =>
        refine ⟨lost ++ above w.wdb.stageCutoff (rowsOf x [e]),
          fun hup => absurd hup Bool.false_ne_true, ?_⟩
        simp only [Bool.false_and, if_neg Bool.false_ne_true, rowsOf_append, above_append]
        rw [hstream, List.append_assoc _ lost]
  · intro hconn
    replace hconn : w.wdb.conn = .connected := hconn
    have hl := h.connected hconn
    refine { mode := hl.mode, stream := ?_ }
    intro hlink x
    replace hlink : w.linkUp = true := hlink
    have hx := hl.stream hlink x
    simp only [hconn, hlink, Conn.subscribes, Bool.and_self, if_true, rowsOf_append, above_append]
    rw [← hx]

/-- TP answers with its counter: nothing logged so far is above the cutoff. -/
theorem beginReplay {w : World δ} (htp : TpSound w) {first : WdbTable → Nat}
    (hrec : Received first w.log w.wdb) (hup : w.tpUp = true)
    (hmode : w.wdb.replayMode = true)
    (hrun : (w.wdb.beginReplay w.tpSeqNo).halted = false) :
    Streaming { w with wdb := w.wdb.beginReplay w.tpSeqNo } := by
  have hcounter := htp.le_counter hup
  simp only [WdbProcess.beginReplay] at hrun ⊢
  by_cases hle : ∀ t ∈ tables, w.wdb.lastTpSeqNo t ≤ w.tpSeqNo
  · rw [if_pos hle]
    refine { idle := nofun, subscribing := nofun, replaying := fun _ => ?_, connected := nofun }
    refine { mode := hmode, floor_eq := rfl, cutoff_eq := rfl, floor_le := ?_, stream := ?_ }
    · intro t
      obtain hfl | ⟨r, hr, hfl⟩ := hrec.floor_eq t
      · exact hfl.trans_le ((hrec.first_le t).trans (hle t (mem_tables t)))
      · exact hfl.trans_le (hcounter _ (hrec.logged t r hr))
    · intro t
      refine ⟨[], fun _ => rfl, ?_⟩
      have hlog : above w.tpSeqNo (rowsOf t w.log) = [] :=
        above_eq_nil fun r hr => hcounter _ (mem_rowsOf.mp hr)
      have hlive : above w.tpSeqNo (w.wdb.replayLiveBuffer t) = [] :=
        above_eq_nil fun r hr => hcounter _ (htp.live_logged t r hr)
      have hwire : above w.tpSeqNo (rowsOf t w.wire) = [] :=
        above_eq_nil fun r hr => hcounter _ (htp.wire_logged _ (mem_rowsOf.mp hr))
      simp only [hlog, hlive, hwire, List.append_nil]
  · rw [if_neg hle] at hrun
    exact absurd hrun (by simp)

end Streaming

/-! ## The end of a replay -/

/-- Everything a successful replay takes, per table: what it staged and what it drains. -/
def replayed (w : World δ) (stage : WdbTable → List (Row δ)) (t : WdbTable) : List (Row δ) :=
  stage t ++ above w.wdb.stageCutoff (w.wdb.replayLiveBuffer t)

theorem completeReplay_took {w : World δ} (hbuf : w.wdb.Buffered) (hr : Replaying w)
    (maxRows : Nat) (io : WdbTable → Nat → FlushIO) (stage : WdbTable → List (Row δ)) :
    WdbProcess.Took (replayed w stage) w.wdb
      ((w.wdb.mergeStaged maxRows io stage).drainAll maxRows io) := by
  have hmerge := WdbProcess.mergeStaged_took hbuf maxRows io stage
  have hdrain := WdbProcess.drainAll_took hmerge.buffered maxRows io
  apply (hmerge.trans hdrain).congr
  intro t
  simp only [replayed, WdbProcess.newLive, WdbProcess.mergeStaged_live, hmerge.replayCutoff,
    hr.cutoff_eq]
  rfl

/-- What a successful replay takes is where the log goes on after the floor; after it
come the rows on the wire. -/
theorem replayed_stream {w : World δ} (htp : TpSound w) (hr : Replaying w)
    {stage : WdbTable → List (Row δ)} {io : WdbTable → Nat → FlushIO}
    (hstage : StagesExactly w (.readLogs (some stage) io)) (t : WdbTable) :
    ∃ lost, (w.linkUp = true → lost = []) ∧
      above (w.wdb.floor t) (rowsOf t w.log)
        = replayed w stage t ++ (above w.wdb.stageCutoff (rowsOf t w.wire) ++ lost) := by
  obtain ⟨lost, hlost, hstream⟩ := hr.stream t
  refine ⟨lost, hlost, ?_⟩
  rw [above_split (hr.floor_le t) (htp.rows_ascending t), hstream]
  have hst : stage t = _ := hstage t
  rw [hr.floor_eq] at hst
  simp only [replayed, hst, List.append_assoc]

section

variable (maxRows : Nat) (io : WdbTable → Nat → FlushIO) (stage : WdbTable → List (Row δ))
  (s : WdbProcess δ)

theorem completeReplay_floor (t : WdbTable) : (s.completeReplay maxRows io stage).floor t
    = ((s.mergeStaged maxRows io stage).drainAll maxRows io).floor t := by
  simp only [WdbProcess.completeReplay, WdbProcess.floor]

theorem completeReplay_received : (s.completeReplay maxRows io stage).received
    = ((s.mergeStaged maxRows io stage).drainAll maxRows io).received := by
  simp only [WdbProcess.completeReplay]

theorem completeReplay_last : (s.completeReplay maxRows io stage).lastTpSeqNo
    = ((s.mergeStaged maxRows io stage).drainAll maxRows io).lastTpSeqNo := by
  simp only [WdbProcess.completeReplay]

theorem completeReplay_buffered
    (h : ((s.mergeStaged maxRows io stage).drainAll maxRows io).Buffered) :
    (s.completeReplay maxRows io stage).Buffered := by
  simp only [WdbProcess.completeReplay]
  generalize (s.mergeStaged maxRows io stage).drainAll maxRows io = drained at h ⊢
  exact { ascending := h.ascending, above := h.above, le := h.le }

theorem completeReplay_conn : (s.completeReplay maxRows io stage).conn = .connected := by
  simp only [WdbProcess.completeReplay]

end

/-- After a replay the rows above the floor are the ones on the wire. -/
theorem completeReplay_live {w : World δ} (htp : TpSound w) (hr : Replaying w) (maxRows : Nat)
    {stage : WdbTable → List (Row δ)} {io : WdbTable → Nat → FlushIO}
    (hstage : StagesExactly w (.readLogs (some stage) io))
    (ht : WdbProcess.Took (replayed w stage) w.wdb
      ((w.wdb.mergeStaged maxRows io stage).drainAll maxRows io)) :
    Live { w with wdb := w.wdb.completeReplay maxRows io stage } := by
  refine { mode := rfl, stream := ?_ }
  intro hlink t
  obtain ⟨lost, hlost, hstream⟩ := replayed_stream htp hr hstage t
  rw [hlost hlink, List.append_nil] at hstream
  have hafter : above ((w.wdb.completeReplay maxRows io stage).floor t) (rowsOf t w.log)
      = above w.wdb.stageCutoff (rowsOf t w.wire) := by
    have hfl : (w.wdb.completeReplay maxRows io stage).floor t
        = watermark (fun r : Row δ => r.tpSeqNo) (w.wdb.floor t) (replayed w stage t) := by
      rw [completeReplay_floor, ht.floor]
    rw [hfl]
    exact filter_watermark (htp.rows_ascending t) hstream
  simp only
  rw [hafter]
  apply List.filter_congr
  intro r hrw
  have hlog : r ∈ rowsOf t w.log := mem_rowsOf.mpr (htp.wire_logged _ (mem_rowsOf.mp hrw))
  apply decide_eq_decide.mpr
  constructor
  · intro hcut
    have hmem := mem_above.mpr ⟨hrw, hcut⟩
    rw [← hafter] at hmem
    exact (mem_above.mp hmem).2
  · intro hfl
    have hmem := mem_above.mpr ⟨hlog, hfl⟩
    rw [hafter] at hmem
    exact (mem_above.mp hmem).2

/-! ## Live rows -/

/-- The head of the wire is a duplicate or the next row of its table. -/
theorem Live.head {w : World δ} (hl : Live w) (hlink : w.linkUp = true) {t : WdbTable}
    {row : Row δ} {rest : List (WdbTable × Row δ)} (hwire : w.wire = (t, row) :: rest)
    (hnew : w.wdb.floor t < row.tpSeqNo) (x : WdbTable) :
    WdbProcess.only t [row] x <+: above (w.wdb.floor x) (rowsOf x w.log) := by
  by_cases hx : x = t
  · subst hx
    rw [WdbProcess.only_self, hl.stream hlink, hwire, rowsOf_cons_self]
    simp only [above]
    rw [List.filter_cons_of_pos (by simpa using hnew)]
    exact ⟨_, rfl⟩
  · rw [WdbProcess.only_of_ne hx]
    exact List.nil_prefix

/-- Taking the head of the wire leaves the stream complete. -/
theorem Live.pop {w : World δ} (hl : Live w) {t : WdbTable} {row : Row δ}
    {rest : List (WdbTable × Row δ)} (hwire : w.wire = (t, row) :: rest) {s : WdbProcess δ}
    (hmode : s.replayMode = w.wdb.replayMode) (hfloor : ∀ x, w.wdb.floor x ≤ s.floor x)
    (hrow : row.tpSeqNo ≤ s.floor t) : Live { w with wdb := s, wire := rest } := by
  refine { mode := hmode.trans hl.mode, stream := ?_ }
  intro hlink x
  have hx := hl.stream hlink x
  calc above (s.floor x) (rowsOf x w.log)
      = above (s.floor x) (above (w.wdb.floor x) (rowsOf x w.log)) :=
        (above_above (hfloor x) _).symm
    _ = above (s.floor x) (rowsOf x w.wire) := by rw [hx, above_above (hfloor x)]
    _ = above (s.floor x) (rowsOf x rest) := by
        by_cases hxt : x = t
        · subst hxt
          rw [hwire, rowsOf_cons_self]
          exact List.filter_cons_of_neg (by simpa using hrow)
        · rw [hwire, rowsOf_cons_of_ne hxt]

/-- A row that arrives while a replay runs is put aside. -/
theorem Replaying.pop {w : World δ} (hr : Replaying w) {t : WdbTable} {row : Row δ}
    {rest : List (WdbTable × Row δ)} (hwire : w.wire = (t, row) :: rest) :
    Replaying
      { w with
        wdb :=
          { w.wdb with
            replayLiveBuffer :=
              Function.update w.wdb.replayLiveBuffer t (w.wdb.replayLiveBuffer t ++ [row]) }
        wire := rest } := by
  refine { mode := hr.mode, floor_eq := hr.floor_eq, cutoff_eq := hr.cutoff_eq
           floor_le := hr.floor_le, stream := ?_ }
  intro x
  obtain ⟨lost, hlost, hstream⟩ := hr.stream x
  refine ⟨lost, hlost, hstream.trans ?_⟩
  by_cases hx : x = t
  · subst hx
    rw [hwire, rowsOf_cons_self]
    simp only [Function.update_self, above_append]
    rw [show row :: rowsOf x rest = [row] ++ rowsOf x rest from rfl, above_append]
    simp only [List.append_assoc]
  · rw [hwire, rowsOf_cons_of_ne hx]
    simp only [Function.update_of_ne hx]

/-! ## The invariant along a run -/

/-- Steps of one process in which a replay that succeeds staged what the logs hold. -/
def Allowed (w : World δ) : Step δ → Prop
  | .crash => False
  | i => StagesExactly w i

namespace Inv

variable {first : WdbTable → Nat} {w : World δ}

theorem own (h : Inv first w) (op : WdbProcess δ → WdbProcess δ)
    (hframe : WdbProcess.Frame w.wdb (op w.wdb))
    (hkeep : WdbProcess.KeepsFloor w.wdb (op w.wdb)) : Inv first (w.own op) := by
  have hown : w.own op = { w with wdb := op w.wdb } := by
    simp only [World.own, h.running, if_true]
  rw [hown]
  have hback : (op w.wdb).halted = false → w.wdb.halted = false := hframe.halted ▸ id
  exact
    { running := h.running
      tp := h.tp.withWdb fun t r hr => h.tp.live_logged t r (hframe.replayLiveBuffer ▸ hr)
      buffered := hkeep.1
      received := fun hh =>
        (h.received (hback hh)).keep hkeep.2 hframe.received hframe.last_le
      streaming := fun hh => (h.streaming (hback hh)).keep hframe hkeep.2 }

theorem connLost (h : Inv first w) : Inv first w.connLost :=
  { running := h.running, tp := h.tp.connLost, buffered := h.buffered, received := h.received
    streaming := fun hh => (h.streaming hh).connLost }

theorem tpLog (h : Inv first w) (cfg : WdbConfig) (t : WdbTable) (date : Date) (data : δ) :
    Inv first (w.tpLog cfg t date data) := by
  have htp := h.tp.tpLog cfg t date data
  simp only [World.tpLog] at htp ⊢
  by_cases hup : w.tpUp = true
  · rw [if_pos hup] at htp ⊢
    refine
      { running := h.running, tp := htp, buffered := h.buffered, received := ?_
        streaming := fun hh => (h.streaming hh).publish _ _ _ }
    intro hh
    have hrec := h.received hh
    apply hrec.log_append
    intro r hr
    exact Nat.lt_succ_of_le (h.tp.le_counter hup _ (hrec.logged t r hr))
  · rwa [if_neg hup]

/-- A row on the wire: dropped while halted, put aside during a replay, else taken. -/
theorem deliver (h : Inv first w) (cfg : WdbConfig) (io : FlushIO) :
    Inv first (w.deliver cfg io) := by
  have htp := h.tp.deliver cfg io
  cases hwire : w.wire with
  | nil => simpa only [World.deliver, hwire] using h
  | cons e rest =>
      obtain ⟨t, row⟩ := e
      have hlink : w.linkUp = true := by
        by_contra hdown
        simp [h.tp.no_wire (by simpa using hdown)] at hwire
      simp only [World.deliver, hwire, WdbProcess.upd] at htp ⊢
      by_cases hh : w.wdb.halted = true
      · rw [if_pos hh] at htp ⊢
        exact
          { running := h.running, tp := htp, buffered := h.buffered
            received := fun h0 => absurd (hh.symm.trans h0) (by simp)
            streaming := fun h0 => absurd (hh.symm.trans h0) (by simp) }
      have hgo : w.wdb.halted = false := by simpa using hh
      have hrec := h.received hgo
      have hs := h.streaming hgo
      rw [if_neg hh] at htp ⊢
      by_cases hmode : w.wdb.replayMode = true
      · rw [if_pos hmode] at htp ⊢
        refine
          { running := h.running, tp := htp
            buffered :=
              { ascending := h.buffered.ascending, above := h.buffered.above
                le := h.buffered.le }
            received := fun _ => hrec.keep (fun _ => rfl) rfl fun _ => le_rfl
            streaming := fun _ => ?_ }
        exact
          { idle := hs.idle, subscribing := hs.subscribing
            replaying := fun hconn => (hs.replaying hconn).pop hwire
            connected := fun hconn =>
              absurd (hmode.symm.trans (hs.connected hconn).mode) (by simp) }
      · rw [if_neg hmode] at htp ⊢
        have hconn : w.wdb.conn = .connected := by
          cases hconn : w.wdb.conn with
          | disconnected => exact absurd (hlink.symm.trans (hs.idle hconn).2) (by simp)
          | subscribing subscribed => exact absurd (hs.subscribing subscribed hconn) hmode
          | replaying => exact absurd (hs.replaying hconn).mode hmode
          | connected => rfl
        have hl := hs.connected hconn
        have htook := WdbProcess.ingest_took h.buffered cfg.maxRows io t row
        have hfl : ∀ x, w.wdb.floor x ≤ (w.wdb.ingest cfg.maxRows io t row).floor x :=
          fun x => htook.floor x ▸ le_watermark _
        have hrow : row.tpSeqNo ≤ (w.wdb.ingest cfg.maxRows io t row).floor t := by
          rw [htook.floor, WdbProcess.only_self]
          exact num_le_watermark (fun r : Row δ => r.tpSeqNo) List.mem_cons_self
        have hconn' := htook.conn.trans hconn
        refine
          { running := h.running, tp := htp, buffered := htook.buffered, received := fun _ => ?_
            streaming := fun _ =>
              .ofLive hconn' (hl.pop hwire htook.replayMode hfl hrow) }
        obtain ⟨-, he⟩ | ⟨hnew, -⟩ := WdbProcess.ingest_cases cfg.maxRows io t row w.wdb
        · simpa only [he] using hrec
        · exact hrec.took h.tp.rows_ascending htook fun x => hl.head hlink hwire hnew x

/-- A replay that succeeds takes the log up to the cutoff and what was put aside. -/
theorem completeReplay (h : Inv first w) (hconn : w.wdb.conn = .replaying) (cfg : WdbConfig)
    {stage : WdbTable → List (Row δ)} {io : WdbTable → Nat → FlushIO}
    (hi : StagesExactly w (.readLogs (some stage) io)) (hgo : w.wdb.halted = false) :
    Received first w.log (w.wdb.completeReplay cfg.maxRows io stage) ∧
      Live { w with wdb := w.wdb.completeReplay cfg.maxRows io stage } := by
  have hr := (h.streaming hgo).replaying hconn
  have htook := completeReplay_took h.buffered hr cfg.maxRows io stage
  refine ⟨?_, completeReplay_live h.tp hr cfg.maxRows hi htook⟩
  have hrec := (h.received hgo).took h.tp.rows_ascending htook fun t => by
    obtain ⟨lost, -, hstream⟩ := replayed_stream h.tp hr hi t
    exact ⟨_, hstream.symm⟩
  exact hrec.keep (completeReplay_floor cfg.maxRows io stage w.wdb)
    (completeReplay_received cfg.maxRows io stage w.wdb)
    fun t => (congrFun (completeReplay_last cfg.maxRows io stage w.wdb) t).ge

theorem readLogs (h : Inv first w) (cfg : WdbConfig)
    (stage : Option (WdbTable → List (Row δ))) (io : WdbTable → Nat → FlushIO)
    (hi : StagesExactly w (.readLogs stage io)) : Inv first (w.readLogs cfg stage io) := by
  have htp := h.tp.step cfg (.readLogs stage io)
  simp only [World.step] at htp
  cases hconn : w.wdb.conn with
  | disconnected => simpa only [World.readLogs, hconn] using h
  | subscribing subscribed => simpa only [World.readLogs, hconn] using h
  | connected => simpa only [World.readLogs, hconn] using h
  | replaying =>
      cases stage with
      | none =>
          simp only [World.readLogs, hconn] at htp ⊢
          exact
            { running := h.running, tp := htp
              buffered :=
                { ascending := h.buffered.ascending, above := h.buffered.above
                  le := h.buffered.le }
              received := fun hh => (h.received hh).keep (fun _ => rfl) rfl fun _ => le_rfl
              streaming := fun _ =>
                { idle := fun _ => ⟨rfl, rfl⟩, subscribing := nofun, replaying := nofun
                  connected := nofun } }
      | some stage =>
          simp only [World.readLogs, hconn] at htp ⊢
          have hmerge := WdbProcess.mergeStaged_took h.buffered cfg.maxRows io stage
          have hdrain := WdbProcess.drainAll_took hmerge.buffered cfg.maxRows io
          have hback : (w.wdb.completeReplay cfg.maxRows io stage).halted = false →
              w.wdb.halted = false := by
            intro hh
            simp only [WdbProcess.completeReplay] at hh
            rwa [hdrain.halted, hmerge.halted] at hh
          have hconn' := completeReplay_conn cfg.maxRows io stage w.wdb
          refine
            { running := ?_, tp := htp
              buffered := completeReplay_buffered cfg.maxRows io stage w.wdb hdrain.buffered
              received := fun hh => (h.completeReplay hconn cfg hi (hback hh)).1
              streaming := fun hh =>
                .ofLive hconn' (h.completeReplay hconn cfg hi (hback hh)).2 }
          -- reduced first: unifying the two worlds would evaluate the replay
          dsimp only
          exact h.running

/-- The state of the connection alone changes. -/
theorem session (h : Inv first w) {s : WdbProcess δ} (hlog : s.replayLiveBuffer
      = w.wdb.replayLiveBuffer ∨ s.replayLiveBuffer = fun _ => [])
    (hbuf : s.buffer = w.wdb.buffer) (hlast : s.lastTpSeqNo = w.wdb.lastTpSeqNo)
    (hmax : s.bufMaxSeq = w.wdb.bufMaxSeq) (hrec : s.received = w.wdb.received)
    (hback : s.halted = false → w.wdb.halted = false)
    (hs : s.halted = false → Streaming { w with wdb := s }) : Inv first { w with wdb := s } := by
  have hfloor : ∀ t, s.floor t = w.wdb.floor t := by
    intro t
    simp only [WdbProcess.floor, hlast, hmax]
  refine
    { running := h.running
      tp := h.tp.withWdb ?_
      buffered :=
        { ascending := hbuf ▸ h.buffered.ascending
          above := by
            rw [hbuf, hlast]
            exact h.buffered.above
          le := by
            rw [hbuf, hmax]
            exact h.buffered.le }
      received := fun hh => (h.received (hback hh)).keep hfloor hrec fun t => hlast ▸ le_rfl
      streaming := hs }
  intro t r hr
  obtain hl | hl := hlog
  · exact h.tp.live_logged t r (hl ▸ hr)
  · rw [hl] at hr
    exact absurd hr List.not_mem_nil

/-- An attempt ends in the error branch of `connect`. -/
theorem failConnect (h : Inv first w) :
    Inv first { w.connLost with wdb := w.wdb.failConnect } :=
  h.connLost.session (Or.inl rfl) rfl rfl rfl rfl id fun _ =>
    { idle := fun _ => ⟨rfl, rfl⟩, subscribing := nofun, replaying := nofun, connected := nofun }

theorem replayInfo (h : Inv first w) (replied : Bool) : Inv first (w.replayInfo replied) := by
  cases hconn : w.wdb.conn with
  | disconnected => simpa only [World.replayInfo, hconn] using h
  | replaying => simpa only [World.replayInfo, hconn] using h
  | connected => simpa only [World.replayInfo, hconn] using h
  | subscribing subscribed =>
      simp only [World.replayInfo, hconn]
      split_ifs with hall hup
      · have hlink : w.linkUp = true := (Bool.and_eq_true _ _ ▸ hup).1
        have hback : (w.wdb.beginReplay w.tpSeqNo).halted = false → w.wdb.halted = false := by
          simp only [WdbProcess.beginReplay]
          split_ifs
          · exact id
          · exact fun hh => absurd hh (by simp)
        have hfields : (w.wdb.beginReplay w.tpSeqNo).buffer = w.wdb.buffer ∧
            (w.wdb.beginReplay w.tpSeqNo).lastTpSeqNo = w.wdb.lastTpSeqNo ∧
            (w.wdb.beginReplay w.tpSeqNo).bufMaxSeq = w.wdb.bufMaxSeq ∧
            (w.wdb.beginReplay w.tpSeqNo).received = w.wdb.received := by
          simp only [WdbProcess.beginReplay]
          split_ifs <;> exact ⟨rfl, rfl, rfl, rfl⟩
        obtain ⟨hbuf, hlast, hmax, hrec⟩ := hfields
        refine h.session ?_ hbuf hlast hmax hrec hback fun hh => ?_
        · simp only [WdbProcess.beginReplay]
          split_ifs
          · exact Or.inl rfl
          · exact Or.inr rfl
        · exact Streaming.beginReplay h.tp (h.received (hback hh)) (h.tp.link hlink)
            ((h.streaming (hback hh)).subscribing subscribed hconn) hh
      · exact h.failConnect
      · exact h

/-- Every step of one process keeps the invariant. -/
theorem step (h : Inv first w) (cfg : WdbConfig) (i : Step δ) (hi : Allowed w i) :
    Inv first (w.step cfg i) := by
  cases i with
  | tpStart =>
      have htp := h.tp.step cfg .tpStart
      simp only [World.step, World.tpStart] at htp ⊢
      split_ifs at htp ⊢
      · exact h
      · exact
          { running := h.running, tp := htp, buffered := h.buffered, received := h.received
            streaming := fun hh => (h.streaming hh).congr rfl rfl rfl rfl }
  | tpCrash =>
      exact
        { running := h.running, tp := h.tp.step cfg .tpCrash, buffered := h.buffered
          received := h.received
          streaming := fun hh => (h.connLost.streaming hh).congr rfl rfl rfl rfl }
  | tpLog t date data => exact h.tpLog cfg t date data
  | start saves => simpa only [World.step, World.start, h.running, if_true] using h
  | crash => exact hi.elim
  | connect =>
      cases hconn : w.wdb.conn with
      | disconnected =>
          have htp := h.tp.step cfg .connect
          simp only [World.step, World.connect, hconn] at htp ⊢
          split_ifs at htp ⊢
          · exact
              { running := h.running, tp := htp
                buffered :=
                  { ascending := h.buffered.ascending, above := h.buffered.above
                    le := h.buffered.le }
                received := fun hh => (h.received hh).keep (fun _ => rfl) rfl fun _ => le_rfl
                streaming := fun _ =>
                  { idle := nofun, subscribing := fun _ _ => rfl, replaying := nofun
                    connected := nofun } }
          · exact h
      | subscribing subscribed => simpa only [World.step, World.connect, hconn] using h
      | replaying => simpa only [World.step, World.connect, hconn] using h
      | connected => simpa only [World.step, World.connect, hconn] using h
  | subscribe replied =>
      simp only [World.step, World.subscribe]
      split
      · rename_i subscribed hconn
        split
        · split_ifs
          · refine h.session (Or.inl rfl) rfl rfl rfl rfl id fun hh => ?_
            exact
              { idle := nofun, replaying := nofun, connected := nofun
                subscribing := fun _ _ => (h.streaming hh).subscribing subscribed hconn }
          · exact h.failConnect
        · exact h
      · exact h
  | replayInfo replied => exact h.replayInfo replied
  | readLogs stage io => exact h.readLogs cfg stage io hi
  | deliver io => exact h.deliver cfg io
  | connLost => exact h.connLost
  | closed =>
      cases hconn : w.wdb.conn with
      | disconnected => simpa only [World.step, World.closed, hconn] using h
      | subscribing subscribed => simpa only [World.step, World.closed, hconn] using h
      | replaying => simpa only [World.step, World.closed, hconn] using h
      | connected =>
          simp only [World.step, World.closed, hconn]
          split_ifs with hlink
          · exact h
          · refine h.session (Or.inl rfl) rfl rfl rfl rfl id fun hh => ?_
            have hl := (h.streaming hh).connected hconn
            exact
              { idle := fun _ => ⟨hl.mode, by simpa using hlink⟩, subscribing := nofun
                replaying := nofun, connected := nofun }
  | flush io =>
      exact h.own (fun s => (s.flushAll io).2) (WdbProcess.flushAll_frame io w.wdb)
        (h.buffered.flushAll io)
  | shutdown io =>
      apply h.own
      · simp only [WdbProcess.shutdown]
        split_ifs
        · exact WdbProcess.Frame.refl _
        · exact WdbProcess.flushAll_frame io w.wdb
      · simp only [WdbProcess.shutdown]
        split_ifs
        · exact ⟨h.buffered, fun _ => rfl⟩
        · exact h.buffered.flushAll io
  | roll today io moves =>
      exact h.own _ (WdbProcess.roll_frame today io moves w.wdb) (h.buffered.roll today io moves)

end Inv

/-! ## One process, from its start -/

/-- A WDB process that just started with the floors `first`, next to any TP. -/
structure Started (first : WdbTable → Nat) (w : World δ) : Prop where
  running : w.running = true
  tp : TpSound w
  link : w.linkUp = false
  first_eq : w.wdb.lastTpSeqNo = first
  buffer : w.wdb.buffer = fun _ => []
  bufMaxSeq : w.wdb.bufMaxSeq = fun _ => 0
  received : w.wdb.received = fun _ => []
  replayMode : w.wdb.replayMode = false
  conn : w.wdb.conn = .disconnected

/-- Whatever happened before, a start step puts a process into that state. -/
theorem start_started {w : World δ} (h : TpSound w) (hdown : w.running = false) (cfg : WdbConfig)
    (saves : Bool) :
    Started (w.step cfg (.start saves)).wdb.lastTpSeqNo (w.step cfg (.start saves)) := by
  have htp := h.step cfg (.start saves)
  simp only [World.step, World.start, hdown, if_neg Bool.false_ne_true] at htp ⊢
  refine { running := rfl, tp := htp, link := rfl, first_eq := rfl, buffer := ?_, bufMaxSeq := ?_
           received := ?_, replayMode := ?_, conn := ?_ }
  all_goals
    simp only [WdbProcess.start, WdbProcess.reconcileCheckpointWithDisk, WdbProcess.saveCheckpoint]
    split_ifs <;> rfl

theorem Started.inv {first : WdbTable → Nat} {w : World δ} (h : Started first w) : Inv first w := by
  have hfloor : ∀ t, w.wdb.floor t = first t := by
    intro t
    simp only [WdbProcess.floor, h.first_eq, h.bufMaxSeq]
    omega
  refine { running := h.running, tp := h.tp, buffered := ?_, received := ?_, streaming := ?_ }
  · exact
      { ascending := by simp [h.buffer], above := by simp [h.buffer], le := by simp [h.buffer] }
  · intro _
    exact
      { ascending := by simp [h.received], above_first := by simp [h.received]
        le_floor := by simp [h.received], logged := by simp [h.received]
        floor_eq := fun t => Or.inl (hfloor t), first_le := fun t => h.first_eq ▸ le_rfl
        complete := fun t r _ hfirst hle => absurd (hfloor t ▸ hle) hfirst.not_ge }
  · intro _
    exact
      { idle := fun _ => ⟨h.replayMode, h.link⟩
        subscribing := fun _ hc => absurd (h.conn.symm.trans hc) (by simp)
        replaying := fun hc => absurd (h.conn.symm.trans hc) (by simp)
        connected := fun hc => absurd (h.conn.symm.trans hc) (by simp) }

theorem Started.run {first : WdbTable → Nat} {w : World δ} (h : Started first w)
    (cfg : WdbConfig) {steps : List (Step δ)} (hrun : Admits (World.step cfg) Allowed w steps) :
    Inv first (exec (World.step cfg) w steps) :=
  hrun.invariant (fun _ i hw hi => hw.step cfg i hi) h.inv

/-- A replay that succeeds leaves no logged row behind its cutoff. -/
theorem Inv.caughtUp {first : WdbTable → Nat} {w : World δ} (h : Inv first w) (cfg : WdbConfig)
    (hconn : w.wdb.conn = .replaying) (hgo : w.wdb.halted = false)
    {stage : WdbTable → List (Row δ)} {io : WdbTable → Nat → FlushIO}
    (hi : StagesExactly w (.readLogs (some stage) io)) {t : WdbTable} {r : Row δ}
    (hr : (t, r) ∈ w.log) (hfirst : first t < r.tpSeqNo)
    (hcut : r.tpSeqNo ≤ w.wdb.stageCutoff) :
    r ∈ (w.wdb.completeReplay cfg.maxRows io stage).received t := by
  have hreplay := (h.streaming hgo).replaying hconn
  have htook := completeReplay_took h.buffered hreplay cfg.maxRows io stage
  apply (h.completeReplay hconn cfg hi hgo).1.complete t r hr hfirst
  rw [completeReplay_floor, htook.floor]
  by_cases hold : r.tpSeqNo ≤ w.wdb.floor t
  · exact hold.trans (le_watermark _)
  · have hstage : r ∈ stage t := by
      rw [show stage t = _ from hi t, hreplay.floor_eq]
      exact List.mem_filter.mpr ⟨mem_rowsOf.mpr hr, by simpa using ⟨not_le.mp hold, hcut⟩⟩
    exact num_le_watermark (fun r : Row δ => r.tpSeqNo) (List.mem_append_left _ hstage)

/-- The steps that can belong to an attempt that did not succeed. -/
def OfAttempt : Step δ → Prop
  | .readLogs (some _) _ | .flush _ | .shutdown _ | .roll .. | .crash => False
  | _ => True

theorem Inv.attempt {first : WdbTable → Nat} {w : World δ} (h : Inv first w) (cfg : WdbConfig)
    (hgo : w.wdb.halted = false) (hconn : w.wdb.conn ≠ .connected) {i : Step δ}
    (hi : OfAttempt i) : WdbProcess.SameStore w.wdb (w.step cfg i).wdb := by
  have hs := h.streaming hgo
  cases i with
  | flush _ | shutdown _ | roll _ _ _ | crash => exact hi.elim
  | tpCrash | connLost => exact ⟨rfl, rfl, rfl, rfl⟩
  | tpStart =>
      simp only [World.step, World.tpStart]
      split_ifs <;> exact ⟨rfl, rfl, rfl, rfl⟩
  | tpLog t date data =>
      simp only [World.step, World.tpLog]
      split_ifs <;> exact ⟨rfl, rfl, rfl, rfl⟩
  | start saves =>
      simp only [World.step, World.start, h.running, if_true]
      exact ⟨rfl, rfl, rfl, rfl⟩
  | connect =>
      simp only [World.step, World.connect]
      split
      · split_ifs <;> exact ⟨rfl, rfl, rfl, rfl⟩
      · exact ⟨rfl, rfl, rfl, rfl⟩
  | subscribe replied =>
      simp only [World.step, World.subscribe]
      split
      · split
        · split_ifs <;> exact ⟨rfl, rfl, rfl, rfl⟩
        · exact ⟨rfl, rfl, rfl, rfl⟩
      · exact ⟨rfl, rfl, rfl, rfl⟩
  | replayInfo replied =>
      simp only [World.step, World.replayInfo, WdbProcess.beginReplay]
      split
      · split_ifs <;> exact ⟨rfl, rfl, rfl, rfl⟩
      · exact ⟨rfl, rfl, rfl, rfl⟩
  | readLogs stage io =>
      cases stage with
      | some _ => exact hi.elim
      | none =>
          simp only [World.step, World.readLogs]
          split
          · rename_i heq
            exact absurd heq (by simp)
          · exact ⟨rfl, rfl, rfl, rfl⟩
          · exact ⟨rfl, rfl, rfl, rfl⟩
  | closed =>
      simp only [World.step, World.closed]
      exact ⟨rfl, rfl, rfl, rfl⟩
  | deliver io =>
      simp only [World.step, World.deliver]
      split
      · exact ⟨rfl, rfl, rfl, rfl⟩
      · rename_i t row rest hwire
        have hmode : w.wdb.replayMode = true := by
          cases hc : w.wdb.conn with
          | disconnected =>
              rw [h.tp.no_wire (hs.idle hc).2] at hwire
              exact absurd hwire (by simp)
          | subscribing subscribed => exact hs.subscribing subscribed hc
          | replaying => exact (hs.replaying hc).mode
          | connected => exact absurd hc hconn
        simp only [WdbProcess.upd, hgo, hmode, if_neg Bool.false_ne_true, if_true]
        exact ⟨rfl, rfl, rfl, rfl⟩

/-- Within one process that is not halted: rows are taken at most once and in order; a
replay that succeeds leaves nothing logged up to its cutoff behind; and before it does,
nothing an attempt does touches buffers, floors or the checkpoint. -/
theorem reconnect_delivers (cfg : WdbConfig) {first : WdbTable → Nat} {w₀ : World δ}
    (h₀ : Started first w₀) {steps : List (Step δ)}
    (hrun : Admits (World.step cfg) Allowed w₀ steps)
    (hgo : (exec (World.step cfg) w₀ steps).wdb.halted = false) :
    let w := exec (World.step cfg) w₀ steps
    (∀ t, (w.wdb.received t).Pairwise (fun a b => a.tpSeqNo < b.tpSeqNo) ∧
      ∀ r ∈ w.wdb.received t, first t < r.tpSeqNo ∧ (t, r) ∈ w.log) ∧
    (∀ stage io, w.wdb.conn = .replaying → StagesExactly w (.readLogs (some stage) io) →
      let w' := w.step cfg (.readLogs (some stage) io)
      w'.wdb.conn = .connected ∧
        ∀ t r, (t, r) ∈ w'.log → first t < r.tpSeqNo → r.tpSeqNo ≤ w.wdb.stageCutoff →
          r ∈ w'.wdb.received t) ∧
    (∀ i, OfAttempt i → w.wdb.conn ≠ .connected → WdbProcess.SameStore w.wdb (w.step cfg i).wdb) := by
  have h := h₀.run cfg hrun
  have hrec := h.received hgo
  refine ⟨?_, ?_, ?_⟩
  · exact fun t => ⟨hrec.ascending t, fun r hr => ⟨hrec.above_first t r hr, hrec.logged t r hr⟩⟩
  · intro stage io hconn hi
    simp only [World.step, World.readLogs, hconn]
    refine ⟨completeReplay_conn .., ?_⟩
    exact fun t r hr hfirst hcut => h.caughtUp cfg hconn hgo hi hr hfirst hcut
  · exact fun i hi hconn => h.attempt cfg hgo hconn hi

/-- A first attempt fails while reading the logs; the second succeeds. Row 2 is put aside
and comes with the replay, row 3 is put aside and drained, row 4 is live. -/
def sampleSteps : List (Step Unit) :=
  let io : FlushIO := { today := 0, writes := fun _ => true, saves := true }
  let row (n : Nat) : Row Unit := { tpSeqNo := n, date := 0, data := () }
  let subscribed := [.connect, .subscribe true, .subscribe true, .subscribe true,
    .subscribe true, .subscribe true]
  [.tpStart, .tpLog .tradeGap 0 ()] ++ subscribed ++ [.replayInfo true, .readLogs none fun _ _ => io]
    ++ subscribed ++ [.tpLog .tradeGap 0 (), .deliver io, .replayInfo true, .tpLog .tradeGap 0 (),
      .deliver io, .readLogs (some (WdbProcess.only .tradeGap [row 1, row 2])) fun _ _ => io,
      .tpLog .tradeGap 0 (), .deliver io]

theorem reconnect_delivers_sample :
    ((exec (World.step { maxRows := 2, seqReserve := 10 })
      (World.fresh.step { maxRows := 2, seqReserve := 10 } (.start true)) sampleSteps).wdb.received
        .tradeGap).Pairwise fun a b => a.tpSeqNo < b.tpSeqNo := by
  have hrun : Admits (World.step { maxRows := 2, seqReserve := 10 }) Allowed
      (World.fresh.step { maxRows := 2, seqReserve := 10 } (.start true)) sampleSteps := by
    refine ⟨?_, ?_, ?_, ?_, ?_, ?_, ?_, ?_, ?_, ?_, ?_, ?_, ?_, ?_, ?_, ?_, ?_, ?_, ?_, ?_, ?_, ?_,
      ?_, ?_, trivial⟩
    all_goals first | exact trivial | (intro t; cases t <;> decide)
  exact ((reconnect_delivers { maxRows := 2, seqReserve := 10 }
    (start_started TpSound.fresh rfl _ true) hrun (by decide +kernel)).1 .tradeGap).1

end TickToSignal.Wdb
