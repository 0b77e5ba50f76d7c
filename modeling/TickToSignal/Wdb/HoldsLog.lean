import TickToSignal.Wdb.CrashInFlush
import TickToSignal.Wdb.PartitionOrder
import TickToSignal.Wdb.Reconnect

/-!
# WDB holds what TP logged

Over any number of processes, on either side: what is on disk or buffered was
logged, and once WDB is connected with nothing on its way, disk and buffer
together are a permutation of what TP logged. No process ever halts.

## Implementation notes

A process owes the next one that every logged row at or below the floors it
starts with is on disk. `CrashesInOrder` is what makes a crash pay that.
-/

namespace TickToSignal.Wdb

open Foundation

variable {δ : Type*}

/-- The rows of a table on disk. -/
def Disk.rows (disk : Disk δ) (t : WdbTable) : List (Row δ) :=
  (disk.stored.filter fun e => decide (e.table = t)).map (·.row)

theorem Disk.mem_rows {disk : Disk δ} {t : WdbTable} {r : Row δ} :
    r ∈ disk.rows t ↔ ∃ e ∈ disk.stored, e.table = t ∧ e.row = r := by
  simp [Disk.rows, and_assoc]

theorem WdbProcess.held_eq (s : WdbProcess δ) (t : WdbTable) :
    s.held t = s.disk.rows t ++ s.buffer t := rfl

/-! ## Checkpoints are numbers of stored rows -/

/-- A checkpoint that some stored row of the table is not below. -/
def Disk.Reaches (disk : Disk δ) (t : WdbTable) (n : Nat) : Prop :=
  n = 0 ∨ ∃ r ∈ disk.rows t, n ≤ r.tpSeqNo

theorem Disk.Reaches.mono {disk disk' : Disk δ} {t : WdbTable} {n : Nat}
    (h : disk.Reaches t n) (hsub : ∀ e ∈ disk.stored, e ∈ disk'.stored) : disk'.Reaches t n := by
  obtain hzero | ⟨r, hr, hle⟩ := h
  · exact Or.inl hzero
  · obtain ⟨e, he, htable, hrow⟩ := Disk.mem_rows.mp hr
    exact Or.inr ⟨r, Disk.mem_rows.mpr ⟨e, hsub e he, htable, hrow⟩, hle⟩

theorem Disk.reaches_diskMaxSeq (disk : Disk δ) (t : WdbTable) :
    disk.Reaches t (disk.diskMaxSeq t) := by
  obtain hzero | ⟨e, he, heq⟩ := watermark_eq_or_mem (fun e : Stored δ => e.row.tpSeqNo) 0
    (disk.tmp.filter fun e => decide (e.table = t))
  · exact Or.inl hzero
  · simp only [List.mem_filter, decide_eq_true_eq] at he
    refine Or.inr ⟨e.row, Disk.mem_rows.mpr ⟨e, List.mem_append_left _ he.1, he.2, rfl⟩, ?_⟩
    exact heq.le

namespace WdbProcess

/-- Both checkpoints of a table, in memory and in the file, are reached by its stored rows. -/
structure Capped (s : WdbProcess δ) : Prop extends Buffered s where
  last : ∀ t, s.disk.Reaches t (s.lastTpSeqNo t)
  saved : ∀ t, s.disk.Reaches t (s.disk.loadCheckpoint.seq t)

namespace Capped

variable {s : WdbProcess δ}

theorem saveCheckpoint (h : Capped s) (ok : Bool) (d : Option Date) :
    Capped (s.saveCheckpoint ok d).2 := by
  cases ok
  · exact h
  · exact { h.toBuffered.saveCheckpoint true d with last := h.last, saved := h.last }

theorem keepWrites (h : Capped s) (io : FlushIO) (t : WdbTable) :
    Capped (s.keepWrites t (s.runWrites io t)) := by
  have hsub : ∀ e ∈ s.disk.stored, e ∈ (s.keepWrites t (s.runWrites io t)).disk.stored := by
    intro e he
    simp only [Disk.stored, WdbProcess.keepWrites, (runWrites_spec io t s).tmp_eq]
    obtain he | he := List.mem_append.mp he
    · exact List.mem_append_left _ (List.mem_append_left _ he)
    · exact List.mem_append_right _ he
  exact
    { h.toBuffered.keepWrites io t with
      last := fun x => (h.last x).mono hsub, saved := fun x => (h.saved x).mono hsub }

/-- The checkpoint advances to a number that was written. -/
theorem flushTable (h : Capped s) (io : FlushIO) (t : WdbTable) :
    Capped (s.flushTable io t).2 := by
  obtain he | ⟨-, he⟩ | he | ⟨hrest, -, saves, d, he⟩ := flushTable_cases io t s
  · rwa [he]
  · rw [he]
    exact
      { h.toBuffered.setBuffer (List.nil_sublist _) with last := h.last, saved := h.saved }
  · rw [he]
    exact h.keepWrites io t
  · rw [he]
    have hkeep := h.keepWrites io t
    have hbelow : ∀ r ∈ (s.keepWrites t (s.runWrites io t)).buffer t,
        watermark (·.tpSeqNo) 0 (s.runWrites io t).written < r.tpSeqNo := by
      intro r hr
      simp only [WdbProcess.keepWrites, Function.update_self] at hr
      exact hrest r hr
    apply Capped.saveCheckpoint
    refine { hkeep.toBuffered.setLast hbelow with last := ?_, saved := hkeep.saved }
    intro x
    simp only [setLast]
    by_cases hx : x = t
    · subst hx
      rw [Function.update_self]
      obtain hzero | ⟨r, hr, heq⟩ := watermark_eq_or_mem (fun r : Row δ => r.tpSeqNo) 0
        (s.runWrites io x).written
      · exact Or.inl hzero
      · refine Or.inr ⟨r, Disk.mem_rows.mpr ⟨{ dir := r.date, table := x, row := r }, ?_, rfl, rfl⟩,
          heq.le⟩
        simp only [Disk.stored, WdbProcess.keepWrites, (runWrites_spec io x s).tmp_eq]
        exact List.mem_append_left _ (List.mem_append_right _ (List.mem_map.mpr ⟨r, hr, rfl⟩))
    · rw [Function.update_of_ne hx]
      exact hkeep.last x

theorem start {disk : Disk δ} (h : ∀ t, disk.Reaches t (disk.loadCheckpoint.seq t))
    (saves : Bool) : Capped (WdbProcess.start saves disk) := by
  simp only [WdbProcess.start, reconcileCheckpointWithDisk]
  split_ifs
  · exact { ascending := by simp, above := by simp, le := by simp, last := h, saved := h }
  · apply Capped.saveCheckpoint
    refine { ascending := by simp, above := by simp, le := by simp, last := ?_, saved := h }
    intro t
    dsimp only
    split_ifs
    · exact disk.reaches_diskMaxSeq t
    · exact h t

end Capped

/-- A directory that moves is still on disk. -/
theorem moveDir_stored (d : Date) (s : WdbProcess δ) :
    (s.moveDir d).disk.stored.Perm s.disk.stored := by
  have hsplit := List.filter_append_perm (fun e : Stored δ => decide (e.dir ≠ d)) s.disk.tmp
  simp only [decide_not, Bool.not_not] at hsplit
  simp only [Disk.stored, moveDir, ne_eq, decide_not]
  refine List.Perm.trans ?_ (hsplit.append_right s.disk.hdb)
  rw [List.append_assoc]
  exact List.perm_append_comm.append_left _

end WdbProcess

/-- In every run the checkpoints stay reached. -/
theorem cappedRule : StoreRule (δ := δ) WdbProcess.Capped
    fun disk => ∀ t, disk.Reaches t (disk.loadCheckpoint.seq t) where
  empty := fun _ => Or.inl rfl
  disk := fun h => h.saved
  congr := fun {s s'} h hs =>
    { ascending := hs.buffer ▸ h.ascending
      above := by
        rw [hs.buffer, hs.lastTpSeqNo]
        exact h.above
      le := by
        rw [hs.buffer, hs.bufMaxSeq]
        exact h.le
      last := by
        rw [hs.disk, hs.lastTpSeqNo]
        exact h.last
      saved := hs.disk ▸ h.saved }
  start := fun saves h => .start h saves
  takeRow := fun h hrow => { h.toBuffered.takeRow hrow with last := h.last, saved := h.saved }
  flushTable := fun io t h => h.flushTable io t
  moveDir := fun {s d} h _ =>
    { ascending := h.ascending, above := h.above, le := h.le
      last := fun t => (h.last t).mono fun _ => (s.moveDir_stored d).mem_iff.mpr
      saved := fun t => (h.saved t).mono fun _ => (s.moveDir_stored d).mem_iff.mpr }

/-! ## What a process takes, it holds -/

/-- A running process goes on: it is not halted, and what it received in between is
what it holds in addition. -/
structure Continues (s s' : WdbProcess δ) : Prop where
  halted : s'.halted = s.halted
  gains : ∀ t, ∃ rows, s'.received t = s.received t ++ rows ∧
    (s'.held t).Perm (s.held t ++ rows)

namespace Continues

variable {s s' s'' : WdbProcess δ}

theorem same (hs : WdbProcess.SameStore s s') (hrec : s'.received = s.received)
    (hhalt : s'.halted = s.halted) : Continues s s' := by
  refine { halted := hhalt, gains := fun t => ⟨[], by simp [hrec], ?_⟩ }
  simp only [WdbProcess.held, hs.disk, hs.buffer, List.append_nil]
  exact List.Perm.refl _

theorem refl (s : WdbProcess δ) : Continues s s := same ⟨rfl, rfl, rfl, rfl⟩ rfl rfl

theorem trans (h : Continues s s') (h' : Continues s' s'') : Continues s s'' := by
  refine { halted := h'.halted.trans h.halted, gains := fun t => ?_ }
  obtain ⟨rows, hrec, hheld⟩ := h.gains t
  obtain ⟨rows', hrec', hheld'⟩ := h'.gains t
  refine ⟨rows ++ rows', by rw [hrec', hrec, List.append_assoc], ?_⟩
  rw [← List.append_assoc]
  exact hheld'.trans (hheld.append_right _)

theorem took {rows : WdbTable → List (Row δ)} (h : WdbProcess.Took rows s s') :
    Continues s s' :=
  { halted := h.halted, gains := fun t => ⟨_, h.received t, h.held t⟩ }

/-- An operation of the process on its own moves rows, at most. -/
theorem moved (hf : WdbProcess.Frame s s') (hheld : ∀ t, (s'.held t).Perm (s.held t)) :
    Continues s s' := by
  refine { halted := hf.halted, gains := fun t => ⟨[], by simp [hf.received], ?_⟩ }
  rw [List.append_nil]
  exact hheld t

theorem flushAll (h : s.Buffered) (io : WdbTable → FlushIO) : Continues s (s.flushAll io).2 := by
  refine moved (WdbProcess.flushAll_frame io s) fun t => ?_
  have hall : (s.flushAll io).2.Buffered ∧ ((s.flushAll io).2.held t).Perm (s.held t) :=
    WdbProcess.flushAll_induction (P := fun s' => s'.Buffered ∧ (s'.held t).Perm (s.held t)) io
      (fun s' x hs => ⟨hs.1.flushTable (io x) x, (hs.1.flushTable_held (io x) x t).trans hs.2⟩)
      ⟨h, List.Perm.refl _⟩
  exact hall.2

theorem moveDir (d : Date) (s : WdbProcess δ) : Continues s (s.moveDir d) := by
  refine { halted := rfl, gains := fun t => ⟨[], by simp [WdbProcess.moveDir], ?_⟩ }
  rw [List.append_nil, WdbProcess.held, WdbProcess.held]
  exact (((s.moveDir_stored d).filter _).map _).append_right _

theorem roll (h : s.Buffered) (today : Date) (io : WdbTable → FlushIO) (moves : Date → Bool) :
    Continues s (s.roll today io moves) := by
  have hflush := flushAll h io
  simp only [WdbProcess.roll]
  split_ifs
  · exact refl s
  · exact WdbProcess.rollDates_induction (fun s' d _ _ _ hs => hs.trans (moveDir d s')) hflush
  · exact hflush

theorem shutdown (h : s.Buffered) (io : WdbTable → FlushIO) : Continues s (s.shutdown io) := by
  simp only [WdbProcess.shutdown]
  split_ifs
  · exact refl s
  · exact flushAll h io

theorem completeReplay (h : s.Buffered) (maxRows : Nat) (io : WdbTable → Nat → FlushIO)
    (stage : WdbTable → List (Row δ)) : Continues s (s.completeReplay maxRows io stage) := by
  have hmerge := WdbProcess.mergeStaged_took h maxRows io stage
  have hdrain := took (hmerge.trans (WdbProcess.drainAll_took hmerge.buffered maxRows io))
  simp only [WdbProcess.completeReplay]
  generalize (s.mergeStaged maxRows io stage).drainAll maxRows io = drained at hdrain ⊢
  exact hdrain.trans (same ⟨rfl, rfl, rfl, rfl⟩ rfl rfl)

theorem upd (h : s.Buffered) (maxRows : Nat) (io : FlushIO) (t : WdbTable) (row : Row δ) :
    Continues s (s.upd maxRows io t row) := by
  simp only [WdbProcess.upd]
  split_ifs
  · exact refl s
  · exact same ⟨rfl, rfl, rfl, rfl⟩ rfl rfl
  · exact took (WdbProcess.ingest_took h maxRows io t row)

end Continues

/-- Every step but a crash lets a running process go on, if TP is not behind it. -/
theorem step_continues {w : World δ} (hrun : w.running = true) (hbuf : w.wdb.Buffered)
    (hbehind : w.linkUp = true → ∀ t, w.wdb.lastTpSeqNo t ≤ w.tpSeqNo) (cfg : WdbConfig)
    {i : Step δ} (hi : i ≠ .crash) :
    (w.step cfg i).running = true ∧ Continues w.wdb (w.step cfg i).wdb := by
  cases i with
  | crash => exact absurd rfl hi
  | tpCrash | connLost => exact ⟨hrun, .refl _⟩
  | tpStart =>
      simp only [World.step, World.tpStart]
      split_ifs <;> exact ⟨hrun, .refl _⟩
  | tpLog t date data =>
      simp only [World.step, World.tpLog]
      split_ifs <;> exact ⟨hrun, .refl _⟩
  | start saves =>
      simp only [World.step, World.start, hrun, if_true]
      exact ⟨trivial, .refl _⟩
  | connect =>
      simp only [World.step, World.connect]
      split
      · split_ifs
        · exact ⟨hrun, .same ⟨rfl, rfl, rfl, rfl⟩ rfl rfl⟩
        · exact ⟨hrun, .refl _⟩
      · exact ⟨hrun, .refl _⟩
  | subscribe replied =>
      simp only [World.step, World.subscribe]
      split
      · split
        · split_ifs <;> exact ⟨hrun, .same ⟨rfl, rfl, rfl, rfl⟩ rfl rfl⟩
        · exact ⟨hrun, .refl _⟩
      · exact ⟨hrun, .refl _⟩
  | replayInfo replied =>
      simp only [World.step, World.replayInfo]
      split
      · split_ifs with hall hup
        · have hle : ∀ t ∈ tables, w.wdb.lastTpSeqNo t ≤ w.tpSeqNo :=
            fun t _ => hbehind (Bool.and_eq_true _ _ ▸ hup).1 t
          simp only [WdbProcess.beginReplay, if_pos hle]
          exact ⟨hrun, .same ⟨rfl, rfl, rfl, rfl⟩ rfl rfl⟩
        · exact ⟨hrun, .same ⟨rfl, rfl, rfl, rfl⟩ rfl rfl⟩
        · exact ⟨hrun, .refl _⟩
      · exact ⟨hrun, .refl _⟩
  | readLogs stage io =>
      simp only [World.step, World.readLogs]
      split
      · exact ⟨hrun, .completeReplay hbuf cfg.maxRows io _⟩
      · exact ⟨hrun, .same ⟨rfl, rfl, rfl, rfl⟩ rfl rfl⟩
      · exact ⟨hrun, .refl _⟩
  | deliver io =>
      simp only [World.step, World.deliver]
      split
      · exact ⟨hrun, .refl _⟩
      · exact ⟨hrun, .upd hbuf cfg.maxRows io _ _⟩
  | closed =>
      simp only [World.step, World.closed]
      split
      · split_ifs
        · exact ⟨hrun, .refl _⟩
        · exact ⟨hrun, .same ⟨rfl, rfl, rfl, rfl⟩ rfl rfl⟩
      · exact ⟨hrun, .refl _⟩
  | flush io =>
      simp only [World.step, World.own, hrun, if_true]
      exact ⟨trivial, .flushAll hbuf io⟩
  | shutdown io =>
      simp only [World.step, World.own, hrun, if_true]
      exact ⟨trivial, .shutdown hbuf io⟩
  | roll today io moves =>
      simp only [World.step, World.own, hrun, if_true]
      exact ⟨trivial, .roll hbuf today io moves⟩

/-! ## The log grows at its end -/

/-- What a step logs is numbered above everything that is logged. -/
theorem log_step {w : World δ} (h : TpSound w) (cfg : WdbConfig) (i : Step δ) :
    ∃ new, (w.step cfg i).log = w.log ++ new ∧
      ∀ e ∈ new, 0 < e.2.tpSeqNo ∧ ∀ x ∈ w.log, x.2.tpSeqNo < e.2.tpSeqNo := by
  have hnone : ∃ new, w.log = w.log ++ new ∧
      ∀ e ∈ new, 0 < e.2.tpSeqNo ∧ ∀ x ∈ w.log, x.2.tpSeqNo < e.2.tpSeqNo :=
    ⟨[], by simp, by simp⟩
  cases i with
  | tpLog t date data =>
      simp only [World.step, World.tpLog]
      by_cases hup : w.tpUp = true
      · rw [if_pos hup]
        refine ⟨[(t, { tpSeqNo := w.tpSeqNo + 1, date := date, data := data })], rfl, ?_⟩
        intro e he
        rw [List.mem_singleton.mp he]
        exact ⟨Nat.succ_pos _, fun x hx => Nat.lt_succ_of_le (h.le_counter hup x hx)⟩
      · rw [if_neg hup]
        exact hnone
  | tpStart =>
      simp only [World.step, World.tpStart]
      split_ifs <;> exact hnone
  | tpCrash | connLost | crash => exact hnone
  | start saves =>
      simp only [World.step, World.start]
      split_ifs <;> exact hnone
  | connect =>
      simp only [World.step, World.connect]
      split
      · split_ifs <;> exact hnone
      · exact hnone
  | subscribe replied =>
      simp only [World.step, World.subscribe]
      split
      · split
        · split_ifs <;> exact hnone
        · exact hnone
      · exact hnone
  | replayInfo replied =>
      simp only [World.step, World.replayInfo]
      split
      · split_ifs <;> exact hnone
      · exact hnone
  | readLogs stage io =>
      simp only [World.step, World.readLogs]
      split <;> exact hnone
  | deliver io =>
      simp only [World.step, World.deliver]
      split <;> exact hnone
  | closed =>
      simp only [World.step, World.closed]
      split
      · split_ifs <;> exact hnone
      · exact hnone
  | flush io | shutdown io | roll today io moves =>
      simp only [World.step, World.own]
      split_ifs <;> exact hnone

/-- Without a process only a start step changes the disk. -/
theorem step_down {w : World δ} (h : StoreInv w) (hdown : w.running = false) (cfg : WdbConfig)
    {i : Step δ} (hi : ∀ saves, i ≠ .start saves) :
    (w.step cfg i).running = false ∧ (w.step cfg i).wdb.disk = w.wdb.disk := by
  obtain ⟨hconn, hwire⟩ := h.idle hdown
  cases i with
  | start saves => exact absurd rfl (hi saves)
  | tpLog t date data =>
      simp only [World.step, World.tpLog]
      split_ifs <;> exact ⟨hdown, rfl⟩
  | tpStart =>
      simp only [World.step, World.tpStart]
      split_ifs <;> exact ⟨hdown, rfl⟩
  | tpCrash | connLost => exact ⟨hdown, rfl⟩
  | crash => exact ⟨rfl, rfl⟩
  | connect => simp [World.step, World.connect, hconn, hdown]
  | subscribe replied => simp [World.step, World.subscribe, hconn, hdown]
  | replayInfo replied => simp [World.step, World.replayInfo, hconn, hdown]
  | readLogs stage io => simp [World.step, World.readLogs, hconn, hdown]
  | deliver io => simp [World.step, World.deliver, hwire, hdown]
  | closed => simp [World.step, World.closed, hconn, hdown]
  | flush io | shutdown io | roll today io moves => simp [World.step, World.own, hdown]

/-! ## One process -/

/-- A process that started with the floors `first` over the rows `base` holds these and
what it received. -/
structure Carries (first : WdbTable → Nat) (base : WdbTable → List (Row δ)) (w : World δ) : Prop
    extends Inv first w where
  working : w.wdb.halted = false
  held : ∀ t, (w.wdb.held t).Perm (base t ++ w.wdb.received t)
  base_logged : ∀ t, ∀ r ∈ base t, (t, r) ∈ w.log
  base_complete : ∀ t r, (t, r) ∈ w.log → r.tpSeqNo ≤ first t → r ∈ base t
  first_reached : ∀ t, first t = 0 ∨ ∃ r ∈ base t, first t ≤ r.tpSeqNo

namespace Carries

variable {first : WdbTable → Nat} {base : WdbTable → List (Row δ)} {w : World δ}

theorem logged (h : Carries first base w) {t : WdbTable} {r : Row δ} (hr : r ∈ w.wdb.held t) :
    (t, r) ∈ w.log := by
  obtain hr | hr := List.mem_append.mp ((h.held t).subset hr)
  · exact h.base_logged t r hr
  · exact (h.received h.working).logged t r hr

/-- Nothing logged at or below a floor is missing. -/
theorem complete (h : Carries first base w) {t : WdbTable} {r : Row δ} (hr : (t, r) ∈ w.log)
    (hle : r.tpSeqNo ≤ w.wdb.floor t) : r ∈ w.wdb.held t := by
  apply (h.held t).symm.subset
  by_cases hfirst : r.tpSeqNo ≤ first t
  · exact List.mem_append_left _ (h.base_complete t r hr hfirst)
  · exact List.mem_append_right _
      ((h.received h.working).complete t r hr (not_le.mp hfirst) hle)

theorem stored_logged (h : Carries first base w) {e : Stored δ} (he : e ∈ w.wdb.disk.stored) :
    (e.table, e.row) ∈ w.log :=
  h.logged (List.mem_append_left _ (Disk.mem_rows.mpr ⟨e, he, rfl, rfl⟩))

theorem step (h : Carries first base w) (hbehind : w.linkUp = true → ∀ t,
      w.wdb.lastTpSeqNo t ≤ w.tpSeqNo) (cfg : WdbConfig) {i : Step δ} (hi : i ≠ .crash)
    (hstage : StagesExactly w i) : Carries first base (w.step cfg i) := by
  have hinv := h.toInv.step cfg i (by cases i <;> first | exact absurd rfl hi | exact hstage)
  obtain ⟨-, hgo⟩ := step_continues h.running h.buffered hbehind cfg hi
  obtain ⟨new, hlog, hnew⟩ := log_step h.tp cfg i
  refine
    { hinv with
      working := hgo.halted.trans h.working, held := ?_, base_logged := ?_, base_complete := ?_
      first_reached := h.first_reached }
  · intro t
    obtain ⟨rows, hrec, hheld⟩ := hgo.gains t
    rw [hrec, ← List.append_assoc]
    exact hheld.trans ((h.held t).append_right rows)
  · intro t r hr
    rw [hlog]
    exact List.mem_append_left _ (h.base_logged t r hr)
  · intro t r hr hle
    rw [hlog] at hr
    obtain hr | hr := List.mem_append.mp hr
    · exact h.base_complete t r hr hle
    · -- a new number is above the floors the process started with
      exfalso
      obtain ⟨hpos, habove⟩ := hnew _ hr
      obtain hzero | ⟨x, hx, hxle⟩ := h.first_reached t
      · exact absurd (hzero ▸ hle) hpos.not_ge
      · exact absurd (hle.trans hxle) (habove _ (h.base_logged t x hx)).not_ge

end Carries

/-! ## Runs -/

/-- A crash leaves no row in a buffer below a row of its table in `tmp.*`. -/
def CrashesInOrder (w : World δ) : Step δ → Prop
  | .crash => w.running = true → ∀ t, ∀ r ∈ w.wdb.buffer t, ∀ e ∈ w.wdb.disk.tmp,
      e.table = t → e.row.tpSeqNo < r.tpSeqNo
  | _ => True

/-- The steps after which no row is lost and none is there twice: rolls move only
checkpointed rows, replays that succeed read the whole log, and crashes are in order. -/
structure Faithful (w : World δ) (i : Step δ) : Prop where
  rolls : RollsCheckpointed w i
  stages : StagesExactly w i
  crashes : CrashesInOrder w i

structure HoldsLog (w : World δ) : Prop where
  store : StoreInv w
  capped : StoreKeeps WdbProcess.Capped
    (fun disk => ∀ t, disk.Reaches t (disk.loadCheckpoint.seq t)) w
  tp : TpSound w
  positive : ∀ e ∈ w.log, 0 < e.2.tpSeqNo
  stored_logged : ∀ e ∈ w.wdb.disk.stored, (e.table, e.row) ∈ w.log
  process : w.running = true → ∃ first base, Carries first base w
  down : w.running = false → ∀ t r, (t, r) ∈ w.log →
    r.tpSeqNo ≤ max (w.wdb.disk.loadCheckpoint.seq t) (w.wdb.disk.diskMaxSeq t) →
    r ∈ w.wdb.disk.rows t

namespace HoldsLog

variable {w : World δ}

theorem fresh : HoldsLog (World.fresh : World δ) :=
  { store := .fresh
    capped :=
      { disk := fun _ => Or.inl rfl, process := fun h => absurd h Bool.false_ne_true
        idle := fun _ => ⟨rfl, rfl⟩ }
    tp := .fresh
    positive := by simp [World.fresh]
    stored_logged := by simp [World.fresh, Disk.stored]
    process := fun h => absurd h Bool.false_ne_true
    down := by simp [World.fresh] }

/-- A number that a stored row reaches is below every new one. -/
theorem reaches_lt (h : HoldsLog w) {t : WdbTable} {n m : Nat} (hn : w.wdb.disk.Reaches t n)
    (hpos : 0 < m) (hm : ∀ x ∈ w.log, x.2.tpSeqNo < m) : n < m := by
  obtain hzero | ⟨r, hr, hle⟩ := hn
  · exact hzero ▸ hpos
  · obtain ⟨e, he, rfl, rfl⟩ := Disk.mem_rows.mp hr
    exact hle.trans_lt (hm _ (h.stored_logged e he))

/-- TP is never behind a checkpoint. -/
theorem not_behind (h : HoldsLog w) (hrun : w.running = true) (hlink : w.linkUp = true)
    (t : WdbTable) : w.wdb.lastTpSeqNo t ≤ w.tpSeqNo := by
  have hcounter := h.tp.le_counter (h.tp.link hlink)
  exact Nat.lt_succ_iff.mp (h.reaches_lt ((h.capped.process hrun).last t) (Nat.succ_pos _)
    fun x hx => Nat.lt_succ_of_le (hcounter x hx))

/-- The process that starts finds on disk what its floors refuse. -/
theorem started (h : HoldsLog w) (hdown : w.running = false) (cfg : WdbConfig) (saves : Bool) :
    ∃ first base, Carries first base (w.step cfg (.start saves)) := by
  have hstart := start_started h.tp hdown cfg saves
  have hcapped := (h.capped.step cappedRule cfg (.start saves)).process hstart.running
  have hlog : (w.step cfg (.start saves)).log = w.log := by
    simp only [World.step, World.start, hdown, if_neg Bool.false_ne_true]
  have hwdb : (w.step cfg (.start saves)).wdb = .start saves w.wdb.disk := by
    simp only [World.step, World.start, hdown, if_neg Bool.false_ne_true]
  have hstored : (w.step cfg (.start saves)).wdb.disk.stored = w.wdb.disk.stored := by
    rw [hwdb, WdbProcess.start_stored]
  have hrows : ∀ t, (w.step cfg (.start saves)).wdb.disk.rows t = w.wdb.disk.rows t := by
    intro t
    simp only [Disk.rows, hstored]
  have hfirst : ∀ t, (w.step cfg (.start saves)).wdb.lastTpSeqNo t
      = max (w.wdb.disk.loadCheckpoint.seq t) (w.wdb.disk.diskMaxSeq t) := by
    intro t
    rw [← WdbProcess.start_floor saves w.wdb.disk t, ← hwdb]
    simp only [WdbProcess.floor, hstart.bufMaxSeq, Nat.max_zero]
  refine ⟨_, w.wdb.disk.rows, { hstart.inv with
    working := ?_, held := ?_, base_logged := ?_, base_complete := ?_, first_reached := ?_ }⟩
  · rw [hwdb]
    simp only [WdbProcess.start, WdbProcess.reconcileCheckpointWithDisk, WdbProcess.saveCheckpoint]
    split_ifs <;> rfl
  · intro t
    rw [WdbProcess.held_eq, hrows, hstart.buffer, hstart.received]
  · intro t r hr
    obtain ⟨e, he, rfl, rfl⟩ := Disk.mem_rows.mp hr
    rw [hlog]
    exact h.stored_logged e he
  · intro t r hr hle
    rw [hlog] at hr
    exact h.down hdown t r hr (hfirst t ▸ hle)
  · intro t
    obtain hzero | ⟨r, hr, hle⟩ := hcapped.last t
    · exact Or.inl hzero
    · exact Or.inr ⟨r, hrows t ▸ hr, hle⟩

/-- A crash in order leaves on disk what the next floors refuse. -/
theorem crashed (h : HoldsLog w) (hrun : w.running = true) (hi : CrashesInOrder w .crash)
    {t : WdbTable} {r : Row δ} (hr : (t, r) ∈ w.log)
    (hle : r.tpSeqNo ≤ max (w.wdb.disk.loadCheckpoint.seq t) (w.wdb.disk.diskMaxSeq t)) :
    r ∈ w.wdb.disk.rows t := by
  obtain ⟨first, base, hheld⟩ := h.process hrun
  have hsound := h.store.process hrun
  have hpos : 0 < r.tpSeqNo := h.positive _ hr
  have hmax : w.wdb.disk.diskMaxSeq t = 0 ∨
      ∃ e ∈ w.wdb.disk.tmp, e.table = t ∧ w.wdb.disk.diskMaxSeq t = e.row.tpSeqNo := by
    obtain hzero | ⟨e, he, heq⟩ := watermark_eq_or_mem (fun e : Stored δ => e.row.tpSeqNo) 0
      (w.wdb.disk.tmp.filter fun e => decide (e.table = t))
    · exact Or.inl hzero
    · simp only [List.mem_filter, decide_eq_true_eq] at he
      exact Or.inr ⟨e, he.1, he.2, heq⟩
  have hfloor : r.tpSeqNo ≤ w.wdb.floor t := by
    obtain hcp | hdisk := le_max_iff.mp hle
    · exact hcp.trans ((hsound.saved_le t).trans (le_max_left _ _))
    · obtain hzero | ⟨e, he, rfl, heq⟩ := hmax
      · omega
      · exact (hdisk.trans heq.le).trans (hsound.tmp_le e he)
  obtain hdisk | hbuf := List.mem_append.mp (hheld.complete hr hfloor)
  · exact hdisk
  · -- a buffered row is above the checkpoint and, in order, above everything in `tmp.*`
    exfalso
    obtain hcp | hdisk := le_max_iff.mp hle
    · exact absurd (hcp.trans (hsound.saved_le t)) (hsound.above t r hbuf).not_ge
    · obtain hzero | ⟨e, he, htable, heq⟩ := hmax
      · omega
      · exact absurd (hdisk.trans heq.le) (hi hrun t r hbuf e he htable).not_ge

/-- Every faithful step keeps the account. -/
theorem step (h : HoldsLog w) (cfg : WdbConfig) {i : Step δ} (hi : Faithful w i) :
    HoldsLog (w.step cfg i) := by
  obtain ⟨new, hlog, hnew⟩ := log_step h.tp cfg i
  have hpositive : ∀ e ∈ (w.step cfg i).log, 0 < e.2.tpSeqNo := by
    intro e he
    rw [hlog] at he
    obtain he | he := List.mem_append.mp he
    · exact h.positive e he
    · exact (hnew e he).1
  have hkeep : ∀ e ∈ w.wdb.disk.stored, (e.table, e.row) ∈ (w.step cfg i).log := by
    intro e he
    rw [hlog]
    exact List.mem_append_left _ (h.stored_logged e he)
  have hstore := h.store.step cfg i hi.rolls
  have hcapped := h.capped.step cappedRule cfg i
  have htp := h.tp.step cfg i
  suffices hrest : (∀ e ∈ (w.step cfg i).wdb.disk.stored, (e.table, e.row) ∈ (w.step cfg i).log) ∧
      ((w.step cfg i).running = true → ∃ first base, Carries first base (w.step cfg i)) ∧
      ((w.step cfg i).running = false → ∀ t r, (t, r) ∈ (w.step cfg i).log →
        r.tpSeqNo ≤ max ((w.step cfg i).wdb.disk.loadCheckpoint.seq t)
          ((w.step cfg i).wdb.disk.diskMaxSeq t) → r ∈ (w.step cfg i).wdb.disk.rows t) from
    { store := hstore, capped := hcapped, tp := htp, positive := hpositive
      stored_logged := hrest.1, process := hrest.2.1, down := hrest.2.2 }
  cases hrun : w.running with
  | true =>
      by_cases hcrash : i = .crash
      · subst hcrash
        refine ⟨hkeep, fun hr => absurd hr Bool.false_ne_true, fun _ t r hr hle => ?_⟩
        exact h.crashed hrun hi.crashes hr hle
      · obtain ⟨first, base, hheld⟩ := h.process hrun
        have hbehind := h.not_behind hrun
        have hheld' := hheld.step hbehind cfg hcrash hi.stages
        refine ⟨fun e he => hheld'.stored_logged he, fun _ => ⟨first, base, hheld'⟩, ?_⟩
        exact fun hdown => absurd (hheld'.running.symm.trans hdown) (by simp)
  | false =>
      by_cases hstart : ∃ saves, i = .start saves
      · obtain ⟨saves, rfl⟩ := hstart
        obtain ⟨first, base, hheld⟩ := h.started hrun cfg saves
        refine ⟨fun e he => hheld.stored_logged he, fun _ => ⟨first, base, hheld⟩, ?_⟩
        exact fun hdown => absurd (hheld.running.symm.trans hdown) (by simp)
      · obtain ⟨hdown, hdisk⟩ := step_down h.store hrun cfg fun saves hs => hstart ⟨saves, hs⟩
        refine ⟨hdisk ▸ hkeep, fun hr => absurd (hr.symm.trans hdown) (by simp), ?_⟩
        intro _ t r hr hle
        rw [hdisk] at hle ⊢
        rw [hlog] at hr
        obtain hr | hr := List.mem_append.mp hr
        · exact h.down hrun t r hr hle
        · exfalso
          obtain ⟨hpos, habove⟩ := hnew _ hr
          obtain hcp | hmax := le_max_iff.mp hle
          · exact absurd hcp (h.reaches_lt (h.capped.disk t) hpos habove).not_ge
          · exact absurd hmax
              (h.reaches_lt (w.wdb.disk.reaches_diskMaxSeq t) hpos habove).not_ge

theorem exec (cfg : WdbConfig) {steps : List (Step δ)}
    (hrun : Admits (World.step cfg) Faithful World.fresh steps) :
    HoldsLog (Foundation.exec (World.step cfg) World.fresh steps) :=
  hrun.invariant (fun _ _ hw hi => hw.step cfg hi) fresh

/-- Everything stored or buffered was logged. -/
theorem held_logged (h : HoldsLog w) (hrun : w.running = true) {t : WdbTable} {r : Row δ}
    (hr : r ∈ w.wdb.held t) : r ∈ rowsOf t w.log := by
  obtain ⟨first, base, hheld⟩ := h.process hrun
  exact mem_rowsOf.mpr (hheld.logged hr)

/-- With nothing on its way a connected process holds the log. -/
theorem held_perm (h : HoldsLog w) (hrun : w.running = true) (hconn : w.wdb.conn = .connected)
    (hlink : w.linkUp = true) (hwire : w.wire = []) (t : WdbTable) :
    (w.wdb.held t).Perm (rowsOf t w.log) := by
  obtain ⟨first, base, hheld⟩ := h.process hrun
  have hlive := (hheld.streaming hheld.working).connected hconn
  have hnodup : (rowsOf t w.log).Nodup := (h.tp.rows_ascending t).imp fun hlt heq => by
    rw [heq] at hlt
    exact lt_irrefl _ hlt
  have hnone : above (w.wdb.floor t) (rowsOf t w.log) = [] := by
    rw [hlive.stream hlink t, hwire]
    rfl
  apply (List.perm_ext_iff_of_nodup ((h.store.process hrun).held_nodup t).of_map hnodup).mpr
  intro r
  refine ⟨fun hr => h.held_logged hrun hr, fun hr => ?_⟩
  apply hheld.complete (mem_rowsOf.mp hr)
  by_contra habove
  have hmem := mem_above.mpr ⟨hr, not_le.mp habove⟩
  rw [hnone] at hmem
  exact absurd hmem List.not_mem_nil

end HoldsLog

end TickToSignal.Wdb
