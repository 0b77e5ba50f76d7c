import TickToSignal.Wdb.World

/-!
# No row is stored twice

After a crash the floor is rebuilt from the checkpoint file and from `tmp.*`
alone. So the rows of the HDB must not be above the checkpoint that is on disk:
with that, every flush, roll, replay, crash and restart stores a row at most
once, whatever rows arrive.

## Implementation notes

The rows that arrive and the rows a replay stages are arbitrary here. A crash
inside an operation leaves the disk as the operation would with every later
write failing, so `crash` after a step covers it.
-/

namespace TickToSignal.Wdb

open Foundation

variable {δ : Type*}

/-- What has to hold of a disk between two processes. -/
structure DiskSound (disk : Disk δ) : Prop where
  nodup : (disk.stored.map Stored.key).Nodup
  hdb_saved : ∀ e ∈ disk.hdb, e.row.tpSeqNo ≤ disk.loadCheckpoint.seq e.table

theorem DiskSound.empty : DiskSound ({} : Disk δ) :=
  { nodup := List.nodup_nil, hdb_saved := fun _ he => absurd he List.not_mem_nil }

namespace WdbProcess

/-- The disk is sound, and the floor and the buffers know what is on it. -/
structure Sound (s : WdbProcess δ) : Prop extends Buffered s where
  disk : DiskSound s.disk
  saved_le : ∀ t, s.disk.loadCheckpoint.seq t ≤ s.lastTpSeqNo t
  tmp_le : ∀ e ∈ s.disk.tmp, e.row.tpSeqNo ≤ s.floor e.table
  buffer_new : ∀ t, ∀ r ∈ s.buffer t, (t, r.tpSeqNo) ∉ s.disk.stored.map Stored.key

namespace Sound

variable {s s' : WdbProcess δ}

theorem congr (h : Sound s) (hs : SameStore s s') : Sound s' := by
  have hfloor : s'.floor = s.floor := by
    funext t
    simp only [floor, hs.lastTpSeqNo, hs.bufMaxSeq]
  exact
    { ascending := hs.buffer ▸ h.ascending
      above := by
        rw [hs.buffer, hs.lastTpSeqNo]
        exact h.above
      le := by
        rw [hs.buffer, hs.bufMaxSeq]
        exact h.le
      disk := hs.disk ▸ h.disk
      saved_le := by
        rw [hs.disk, hs.lastTpSeqNo]
        exact h.saved_le
      tmp_le := by
        rw [hs.disk, hfloor]
        exact h.tmp_le
      buffer_new := by
        rw [hs.buffer, hs.disk]
        exact h.buffer_new }

/-- Nothing on disk is above the floor. -/
theorem stored_le (h : Sound s) {e : Stored δ} (he : e ∈ s.disk.stored) :
    e.row.tpSeqNo ≤ s.floor e.table := by
  obtain he | he := List.mem_append.mp he
  · exact h.tmp_le e he
  · calc e.row.tpSeqNo ≤ s.disk.loadCheckpoint.seq e.table := h.disk.hdb_saved e he
      _ ≤ s.lastTpSeqNo e.table := h.saved_le _
      _ ≤ s.floor e.table := le_max_left _ _

/-- A row above the floor is not on disk. -/
theorem fresh_key (h : Sound s) {t : WdbTable} {n : Nat} (hn : s.floor t < n) :
    (t, n) ∉ s.disk.stored.map Stored.key := by
  rintro hmem
  obtain ⟨e, he, hkey⟩ := List.mem_map.mp hmem
  obtain ⟨rfl, rfl⟩ := Prod.mk.inj hkey
  exact absurd (h.stored_le he) (not_le.mpr hn)

theorem takeRow (h : Sound s) {t : WdbTable} {row : Row δ} (hrow : s.floor t < row.tpSeqNo) :
    Sound (s.takeRow t row) := by
  refine
    { h.toBuffered.takeRow hrow with
      disk := h.disk, saved_le := h.saved_le, tmp_le := ?_, buffer_new := ?_ }
  · intro e he
    rw [takeRow_floor]
    have hle := h.tmp_le e he
    split_ifs with ht
    · exact (ht ▸ hle).trans (le_max_left _ _)
    · exact hle
  · intro x r hr
    simp only [WdbProcess.takeRow] at hr
    by_cases hx : x = t
    · subst hx
      rw [Function.update_self] at hr
      obtain hr | hr := List.mem_append.mp hr
      · exact h.buffer_new x r hr
      · rw [List.mem_singleton.mp hr]
        exact h.fresh_key hrow
    · rw [Function.update_of_ne hx] at hr
      exact h.buffer_new x r hr

theorem setBuffer_nil (h : Sound s) (t : WdbTable) : Sound (s.setBuffer t []) := by
  refine
    { h.toBuffered.setBuffer (List.nil_sublist _) with
      disk := h.disk, saved_le := h.saved_le, tmp_le := h.tmp_le, buffer_new := ?_ }
  intro x r hr
  simp only [WdbProcess.setBuffer] at hr
  by_cases hx : x = t
  · subst hx
    rw [Function.update_self] at hr
    exact absurd hr List.not_mem_nil
  · rw [Function.update_of_ne hx] at hr
    exact h.buffer_new x r hr

/-- The keys that a flush's writes add. -/
theorem keepWrites_keys (io : FlushIO) (t : WdbTable) (s : WdbProcess δ) :
    ((s.keepWrites t (s.runWrites io t)).disk.stored.map Stored.key).Perm
      ((s.runWrites io t).written.map (fun r => (t, r.tpSeqNo)) ++ s.disk.stored.map Stored.key) := by
  have htmp := (runWrites_spec io t s).tmp_eq
  simp only [Disk.stored, WdbProcess.keepWrites, htmp, List.map_append, List.map_map]
  rw [← List.append_assoc]
  exact List.Perm.append_right _ List.perm_append_comm

/-- Written rows are stored once and no longer buffered. -/
theorem keepWrites (h : Sound s) (io : FlushIO) (t : WdbTable) :
    Sound (s.keepWrites t (s.runWrites io t)) := by
  have hspec := runWrites_spec io t s
  have hkeys := keepWrites_keys io t s
  have hperm : ((s.runWrites io t).written ++ (s.runWrites io t).remaining).Perm (s.buffer t) :=
    h.toBuffered.flushRows_eq t ▸ hspec.perm
  have hnodup : (((s.runWrites io t).written ++ (s.runWrites io t).remaining).map
      fun r => r.tpSeqNo).Nodup := by
    apply (hperm.map _).nodup_iff.mpr
    exact List.pairwise_map.mpr ((h.ascending t).imp fun hlt => hlt.ne)
  rw [List.map_append] at hnodup
  obtain ⟨hw, -, hdisj⟩ := List.nodup_append.mp hnodup
  have hwritten : ∀ r ∈ (s.runWrites io t).written, r ∈ s.buffer t :=
    fun r hr => hperm.subset (List.mem_append_left _ hr)
  refine
    { h.toBuffered.keepWrites io t with
      disk := { nodup := ?_, hdb_saved := h.disk.hdb_saved }
      saved_le := h.saved_le, tmp_le := ?_, buffer_new := ?_ }
  · apply hkeys.nodup_iff.mpr
    apply List.nodup_append.mpr
    refine ⟨?_, h.disk.nodup, ?_⟩
    · have hpair := hw.map (f := Prod.mk t) fun a b hab => (Prod.mk.inj hab).2
      rw [List.map_map] at hpair
      exact hpair
    · rintro k hk k' hk' rfl
      obtain ⟨r, hr, rfl⟩ := List.mem_map.mp hk
      exact h.buffer_new t r (hwritten r hr) hk'
  · intro e he
    simp only [WdbProcess.keepWrites, hspec.tmp_eq] at he
    obtain he | he := List.mem_append.mp he
    · exact h.tmp_le e he
    · obtain ⟨r, hr, rfl⟩ := List.mem_map.mp he
      exact (h.le t r (hwritten r hr)).trans (le_max_right _ _)
  · intro x r hr hmem
    simp only [WdbProcess.keepWrites] at hr
    obtain hnew | hold := List.mem_append.mp (hkeys.subset hmem)
    · obtain ⟨r', hr', hkey⟩ := List.mem_map.mp hnew
      obtain ⟨rfl, hseq⟩ := Prod.mk.inj hkey
      rw [Function.update_self] at hr
      exact hdisj _ (List.mem_map_of_mem hr') _ (List.mem_map_of_mem hr) hseq
    · by_cases hx : x = t
      · subst hx
        rw [Function.update_self] at hr
        exact h.buffer_new x r (hperm.subset (List.mem_append_right _ hr)) hold
      · rw [Function.update_of_ne hx] at hr
        exact h.buffer_new x r hr hold

theorem setLast (h : Sound s) {t : WdbTable} {m : Nat} (hlt : s.lastTpSeqNo t < m)
    (hm : ∀ r ∈ s.buffer t, m < r.tpSeqNo) : Sound (s.setLast t m) := by
  have hle : ∀ x, s.lastTpSeqNo x ≤ (s.setLast t m).lastTpSeqNo x := by
    intro x
    simp only [WdbProcess.setLast]
    by_cases hx : x = t
    · subst hx
      rw [Function.update_self]
      exact hlt.le
    · rw [Function.update_of_ne hx]
  exact
    { h.toBuffered.setLast hm with
      disk := h.disk, saved_le := fun x => (h.saved_le x).trans (hle x)
      tmp_le := fun e he => (h.tmp_le e he).trans (max_le_max_right _ (hle _))
      buffer_new := h.buffer_new }

theorem saveCheckpoint (h : Sound s) (ok : Bool) (d : Option Date) :
    Sound (s.saveCheckpoint ok d).2 := by
  cases ok
  · exact h
  · exact
      { h.toBuffered.saveCheckpoint true d with
        disk :=
          { nodup := h.disk.nodup
            hdb_saved := fun e he => (h.disk.hdb_saved e he).trans (h.saved_le _) }
        saved_le := fun _ => le_rfl, tmp_le := h.tmp_le, buffer_new := h.buffer_new }

theorem flushTable (h : Sound s) (io : FlushIO) (t : WdbTable) :
    Sound (s.flushTable io t).2 := by
  obtain he | ⟨-, he⟩ | he | ⟨hrest, hlt, saves, d, he⟩ := flushTable_cases io t s
  · rwa [he]
  · rw [he]
    exact h.setBuffer_nil t
  · rw [he]
    exact h.keepWrites io t
  · rw [he]
    apply Sound.saveCheckpoint
    apply (h.keepWrites io t).setLast hlt
    intro r hr
    simp only [WdbProcess.keepWrites, Function.update_self] at hr
    exact hrest r hr

theorem flushAll (h : Sound s) (io : WdbTable → FlushIO) : Sound (s.flushAll io).2 :=
  flushAll_induction io (fun _ t hs => hs.flushTable (io t) t) h

/-- A directory whose rows are all checkpointed may move. -/
theorem moveDir (h : Sound s) {d : Date}
    (hsaved : ∀ e ∈ s.disk.tmp, e.dir = d → e.row.tpSeqNo ≤ s.disk.loadCheckpoint.seq e.table) :
    Sound (s.moveDir d) := by
  have hperm : (s.moveDir d).disk.stored.Perm s.disk.stored := by
    have hsplit : ((s.disk.tmp.filter fun e => decide (e.dir = d))
        ++ s.disk.tmp.filter fun e => decide (e.dir ≠ d)).Perm s.disk.tmp := by
      simpa using List.filter_append_perm (fun e : Stored δ => decide (e.dir = d)) s.disk.tmp
    simp only [Disk.stored, WdbProcess.moveDir]
    calc (s.disk.tmp.filter fun e => decide (e.dir ≠ d))
          ++ (s.disk.hdb ++ s.disk.tmp.filter fun e => decide (e.dir = d))
        |>.Perm ((s.disk.tmp.filter fun e => decide (e.dir = d))
          ++ ((s.disk.tmp.filter fun e => decide (e.dir ≠ d)) ++ s.disk.hdb)) := by
          rw [← List.append_assoc]
          exact List.perm_append_comm
      _ |>.Perm (s.disk.tmp ++ s.disk.hdb) := by
          rw [← List.append_assoc]
          exact hsplit.append_right _
  have hkeys := hperm.map Stored.key
  refine
    { ascending := h.ascending, above := h.above, le := h.le
      disk := { nodup := hkeys.nodup_iff.mpr h.disk.nodup, hdb_saved := ?_ }
      saved_le := h.saved_le, tmp_le := ?_, buffer_new := ?_ }
  · intro e he
    obtain he | he := List.mem_append.mp he
    · exact h.disk.hdb_saved e he
    · simp only [List.mem_filter, decide_eq_true_eq] at he
      exact hsaved e he.1 he.2
  · exact fun e he => h.tmp_le e (List.mem_of_mem_filter he)
  · exact fun t r hr hmem => h.buffer_new t r hr (hkeys.subset hmem)

end Sound

/-- The condition under which a roll keeps rows apart: no directory it moves holds a
row above the checkpoint on disk. -/
def RollsSaved (today : Date) (io : WdbTable → FlushIO) (moves : Date → Bool)
    (s : WdbProcess δ) : Prop :=
  let flushed := s.flushAll io
  s.halted = false → flushed.1 = true → ∀ e ∈ flushed.2.disk.tmp, e.dir < today →
    moves e.dir = true → flushed.2.disk.hasPartition e.dir = false →
    e.row.tpSeqNo ≤ flushed.2.disk.loadCheckpoint.seq e.table

/-- In the middle of a roll that began in `s`. -/
structure MovedFrom (s s' : WdbProcess δ) : Prop where
  sound : Sound s'
  tmp : s'.disk.tmp ⊆ s.disk.tmp
  hdb : s.disk.hdb ⊆ s'.disk.hdb
  checkpoint : s'.disk.checkpoint = s.disk.checkpoint

namespace Sound

variable {s : WdbProcess δ}

theorem roll (h : Sound s) {today : Date} {io : WdbTable → FlushIO} {moves : Date → Bool}
    (hsaved : RollsSaved today io moves s) : Sound (s.roll today io moves) := by
  have hflush := h.flushAll io
  simp only [WdbProcess.roll]
  split_ifs with hhalt hok
  · exact h
  · -- later moves see the rows and the checkpoint of the first one, and more partitions
    suffices hmoved : MovedFrom (s.flushAll io).2
        (rollDates moves ((s.flushAll io).2.disk.pendingTmpDates today) (s.flushAll io).2) from
      hmoved.sound
    refine rollDates_induction ?_ ⟨hflush, List.Subset.refl _, List.Subset.refl _, rfl⟩
    rintro s' d hd hmove hpart ⟨hs', htmp, hhdb, hcp⟩
    have hpast : d < today := by
      simp only [Disk.pendingTmpDates, List.mem_insertionSort, List.mem_filter,
        decide_eq_true_eq] at hd
      exact hd.2
    refine ⟨hs'.moveDir ?_, ?_, ?_, hcp⟩
    · intro e he hdir
      have hpart' : (s.flushAll io).2.disk.hasPartition e.dir = false := by
        rw [hdir]
        simp only [Disk.hasPartition, List.any_eq_false, decide_eq_true_eq] at hpart ⊢
        exact fun x hx => hpart x (hhdb hx)
      have hle := hsaved (by simpa using hhalt) hok e (htmp he) (hdir ▸ hpast) (hdir ▸ hmove) hpart'
      rwa [show s'.disk.loadCheckpoint = (s.flushAll io).2.disk.loadCheckpoint by
        simp only [Disk.loadCheckpoint, hcp]]
    · exact fun e he => htmp (List.mem_of_mem_filter he)
    · exact fun e he => List.mem_append_left _ (hhdb he)
  · exact hflush

theorem shutdown (h : Sound s) (io : WdbTable → FlushIO) : Sound (s.shutdown io) := by
  simp only [WdbProcess.shutdown]
  split_ifs
  · exact h
  · exact h.flushAll io

theorem ingest (h : Sound s) (maxRows : Nat) (io : FlushIO) (t : WdbTable) (row : Row δ) :
    Sound (s.ingest maxRows io t row) := by
  obtain ⟨-, he⟩ | ⟨hnew, he | he⟩ := ingest_cases maxRows io t row s
  · rwa [he]
  · rw [he]
    exact h.takeRow hnew
  · rw [he]
    exact (h.takeRow hnew).flushTable io t

theorem ingestAll (h : Sound s) (maxRows : Nat) (io : Nat → FlushIO) (t : WdbTable)
    (rows : List (Row δ)) : Sound (s.ingestAll maxRows io t rows) :=
  exec_invariant (fun _ row hs => hs.ingest maxRows (io row.tpSeqNo) t row) rows h

theorem mergeStaged (h : Sound s) (maxRows : Nat) (io : WdbTable → Nat → FlushIO)
    (stage : WdbTable → List (Row δ)) : Sound (s.mergeStaged maxRows io stage) :=
  exec_invariant (fun _ t hs => hs.ingestAll maxRows (io t) t (stage t)) tables h

theorem drainAll (h : Sound s) (maxRows : Nat) (io : WdbTable → Nat → FlushIO) :
    Sound (s.drainAll maxRows io) :=
  exec_invariant (fun _ t hs => (hs.ingestAll maxRows (io t) t _).congr ⟨rfl, rfl, rfl, rfl⟩)
    tables h

theorem completeReplay (h : Sound s) (maxRows : Nat) (io : WdbTable → Nat → FlushIO)
    (stage : WdbTable → List (Row δ)) : Sound (s.completeReplay maxRows io stage) := by
  have hdrain := (h.mergeStaged maxRows io stage).drainAll maxRows io
  simp only [WdbProcess.completeReplay]
  generalize (s.mergeStaged maxRows io stage).drainAll maxRows io = drained at hdrain ⊢
  exact hdrain.congr ⟨rfl, rfl, rfl, rfl⟩

theorem upd (h : Sound s) (maxRows : Nat) (io : FlushIO) (t : WdbTable) (row : Row δ) :
    Sound (s.upd maxRows io t row) := by
  simp only [WdbProcess.upd]
  split_ifs
  · exact h
  · exact h.congr ⟨rfl, rfl, rfl, rfl⟩
  · exact h.ingest maxRows io t row

/-- The floors a process starts with know every row on disk. -/
theorem start {disk : Disk δ} (h : DiskSound disk) (saves : Bool) :
    Sound (WdbProcess.start saves disk) := by
  simp only [WdbProcess.start, reconcileCheckpointWithDisk]
  split_ifs with hahead
  · exact
      { ascending := by simp, above := by simp, le := by simp, disk := h
        saved_le := fun _ => le_rfl
        tmp_le := fun e he => ((Disk.le_diskMaxSeq he).trans (hahead _ (mem_tables _))).trans
          (le_max_left _ _)
        buffer_new := by simp }
  · apply Sound.saveCheckpoint
    refine { ascending := by simp, above := by simp, le := by simp, disk := h, saved_le := ?_
             tmp_le := ?_, buffer_new := by simp }
    · intro t
      dsimp only
      split_ifs with hlt
      · exact hlt.le
      · exact le_rfl
    · intro e he
      apply (Disk.le_diskMaxSeq he).trans
      refine le_trans ?_ (le_max_left _ _)
      dsimp only
      split_ifs with hlt
      · exact le_rfl
      · exact not_lt.mp hlt

end Sound

end WdbProcess

/-! ## Runs -/

/-- The disk is sound, a running process knows it, and without one nothing is connected. -/
structure StoreInv (w : World δ) : Prop where
  disk : DiskSound w.wdb.disk
  process : w.running = true → w.wdb.Sound
  idle : w.running = false → w.wdb.conn = .disconnected ∧ w.wire = []

/-- Rolls move only what the checkpoint on disk covers. -/
def RollsCheckpointed (w : World δ) : Step δ → Prop
  | .roll today io moves => w.running = true → w.wdb.RollsSaved today io moves
  | _ => True

namespace StoreInv

variable {w w' : World δ}

theorem fresh : StoreInv (World.fresh : World δ) :=
  { disk := .empty
    process := fun h => absurd h Bool.false_ne_true
    idle := fun _ => ⟨rfl, rfl⟩ }

/-- A step that leaves the store of the process alone. -/
theorem congr (h : StoreInv w) (hs : WdbProcess.SameStore w.wdb w'.wdb)
    (hrun : w'.running = true → w.running = true)
    (hidle : w'.running = false → w'.wdb.conn = .disconnected ∧ w'.wire = []) : StoreInv w' :=
  { disk := hs.disk ▸ h.disk, process := fun hr => (h.process (hrun hr)).congr hs, idle := hidle }

theorem running_of_conn (h : StoreInv w) (hconn : w.wdb.conn ≠ .disconnected) :
    w.running = true := by
  by_contra hrun
  exact hconn (h.idle (by simpa using hrun)).1

theorem running_of_wire (h : StoreInv w) (hwire : w.wire ≠ []) : w.running = true := by
  by_contra hrun
  exact hwire (h.idle (by simpa using hrun)).2

/-- A running process in a sound state. -/
theorem withWdb {s : WdbProcess δ} (hs : s.Sound) (hw : w'.wdb = s) (hrun : w'.running = true) :
    StoreInv w' :=
  { disk := hw ▸ hs.disk, process := fun _ => hw ▸ hs
    idle := fun hdown => absurd (hrun.symm.trans hdown) (by simp) }

/-- Within an attempt of a running process nothing is stored. -/
theorem attempt (h : StoreInv w) (hrun : w.running = true)
    (hs : WdbProcess.SameStore w.wdb w'.wdb) (hsame : w'.running = w.running) : StoreInv w' :=
  h.congr hs (fun hr => hsame ▸ hr) fun hdown =>
    absurd ((hsame.trans hrun).symm.trans hdown) (by simp)

theorem own (h : StoreInv w) (op : WdbProcess δ → WdbProcess δ)
    (hop : w.running = true → w.wdb.Sound → (op w.wdb).Sound) : StoreInv (w.own op) := by
  simp only [World.own]
  split_ifs with hrun
  · exact withWdb (hop hrun (h.process hrun)) rfl hrun
  · exact h

theorem tpLog (h : StoreInv w) (cfg : WdbConfig) (t : WdbTable) (date : Date) (data : δ) :
    StoreInv (w.tpLog cfg t date data) := by
  simp only [World.tpLog]
  by_cases hup : w.tpUp = true
  · rw [if_pos hup]
    refine h.congr ⟨rfl, rfl, rfl, rfl⟩ id fun hdown => ?_
    have hidle := h.idle hdown
    simp only [hidle.1, Conn.subscribes, Bool.and_false, if_neg Bool.false_ne_true]
    exact ⟨trivial, hidle.2⟩
  · rwa [if_neg hup]

/-- Every step that rolls only checkpointed rows keeps every row stored at most once. -/
theorem step (h : StoreInv w) (cfg : WdbConfig) (i : Step δ) (hi : RollsCheckpointed w i) :
    StoreInv (w.step cfg i) := by
  cases i with
  | tpStart =>
      simp only [World.step, World.tpStart]
      split_ifs
      · exact h
      · exact h.congr ⟨rfl, rfl, rfl, rfl⟩ id h.idle
  | tpCrash | connLost =>
      exact h.congr ⟨rfl, rfl, rfl, rfl⟩ id fun hdown => ⟨(h.idle hdown).1, rfl⟩
  | tpLog t date data => exact h.tpLog cfg t date data
  | start saves =>
      simp only [World.step, World.start]
      split_ifs with hrun
      · exact h
      · exact withWdb (WdbProcess.Sound.start h.disk saves) rfl rfl
  | crash =>
      exact
        { disk := h.disk, process := fun hr => absurd hr Bool.false_ne_true
          idle := fun _ => ⟨rfl, rfl⟩ }
  | connect =>
      simp only [World.step, World.connect]
      split
      · split_ifs with hup
        · have hrun : w.running = true := (Bool.and_eq_true _ _ ▸ hup).1
          exact h.attempt hrun ⟨rfl, rfl, rfl, rfl⟩ rfl
        · exact h
      · exact h
  | subscribe replied =>
      simp only [World.step, World.subscribe]
      split
      · rename_i subscribed hconn
        have hrun := h.running_of_conn (by simp [hconn])
        split
        · split_ifs
          · exact h.attempt hrun ⟨rfl, rfl, rfl, rfl⟩ rfl
          · exact h.attempt hrun ⟨rfl, rfl, rfl, rfl⟩ rfl
        · exact h
      · exact h
  | replayInfo replied =>
      simp only [World.step, World.replayInfo]
      split
      · rename_i subscribed hconn
        have hrun := h.running_of_conn (by simp [hconn])
        split_ifs
        · refine h.attempt hrun ?_ rfl
          simp only [WdbProcess.beginReplay]
          split_ifs <;> exact ⟨rfl, rfl, rfl, rfl⟩
        · exact h.attempt hrun ⟨rfl, rfl, rfl, rfl⟩ rfl
        · exact h
      · exact h
  | readLogs stage io =>
      simp only [World.step, World.readLogs]
      split
      · rename_i stage hconn
        have hrun := h.running_of_conn (by simp [hconn])
        exact withWdb ((h.process hrun).completeReplay cfg.maxRows io stage) rfl hrun
      · rename_i hconn
        have hrun := h.running_of_conn (by simp [hconn])
        exact h.attempt hrun ⟨rfl, rfl, rfl, rfl⟩ rfl
      · exact h
  | deliver io =>
      simp only [World.step, World.deliver]
      split
      · exact h
      · rename_i t row rest hwire
        have hrun := h.running_of_wire (by simp [hwire])
        exact withWdb ((h.process hrun).upd cfg.maxRows io t row) rfl hrun
  | closed =>
      simp only [World.step, World.closed]
      split
      · rename_i hconn
        have hrun := h.running_of_conn (by simp [hconn])
        split_ifs
        · exact h
        · exact h.attempt hrun ⟨rfl, rfl, rfl, rfl⟩ rfl
      · exact h
  | flush io => exact h.own (fun s => (s.flushAll io).2) fun _ hs => hs.flushAll io
  | shutdown io => exact h.own _ fun _ hs => hs.shutdown io
  | roll today io moves => exact h.own _ fun hrun hs => hs.roll (hi hrun)

end StoreInv

/-- In every run in which rolls move only rows that the checkpoint file covers, no row of a
table is stored twice. -/
theorem stored_once (cfg : WdbConfig) {steps : List (Step δ)}
    (hrun : Admits (World.step cfg) RollsCheckpointed World.fresh steps) :
    ((exec (World.step cfg) World.fresh steps).wdb.disk.stored.map Stored.key).Nodup :=
  (hrun.invariant (fun _ i hw hi => hw.step cfg i hi) StoreInv.fresh).disk.nodup

section

/-- Everything succeeds. -/
private def good (today : Date) : FlushIO :=
  { today := today, writes := fun _ => true, saves := true }

/-- Rows are written, the checkpoint is not. -/
private def unsaved (today : Date) : FlushIO :=
  { today := today, writes := fun _ => true, saves := false }

/-- WDB connects to TP and replays `rows` of one table. -/
private def replayOf (rows : List (Row Unit)) : List (Step Unit) :=
  [.connect, .subscribe true, .subscribe true, .subscribe true, .subscribe true, .subscribe true,
    .replayInfo true, .readLogs (some (WdbProcess.only .tradeBinance rows)) fun _ _ => good 1]

/-- A row of day 0 is taken live; `flush` writes it; day 1's roll moves it; WDB crashes. -/
private def rolledOver (flush : FlushIO) : List (Step Unit) :=
  [.tpStart, .start true] ++ replayOf [] ++
    [.tpLog .tradeBinance 0 (), .deliver (good 0), .flush fun _ => flush,
      .roll 1 (fun _ => good 1) fun _ => true, .crash, .start true]

/-- The checkpoint save of the last flush before a roll fails and WDB crashes after the roll:
the row is replayed and stored again. -/
def storedTwiceSteps : List (Step Unit) :=
  rolledOver (unsaved 0) ++ replayOf [{ tpSeqNo := 1, date := 0, data := () }] ++
    [.flush fun _ => good 1]

theorem unsaved_roll_stores_twice :
    ¬ ((exec (World.step { maxRows := 10, seqReserve := 10 }) World.fresh
      storedTwiceSteps).wdb.disk.stored.map Stored.key).Nodup := by
  decide

/-- The same run with the checkpoint saved. -/
def storedOnceSteps : List (Step Unit) :=
  rolledOver (good 0) ++ replayOf [{ tpSeqNo := 1, date := 0, data := () }] ++
    [.flush fun _ => good 1]

theorem stored_once_sample :
    ((exec (World.step { maxRows := 10, seqReserve := 10 }) World.fresh
      storedOnceSteps).wdb.disk.stored.map Stored.key).Nodup := by
  refine stored_once { maxRows := 10, seqReserve := 10 } ?_
  refine ⟨?_, ?_, ?_, ?_, ?_, ?_, ?_, ?_, ?_, ?_, ?_, ?_, ?_, ?_, ?_, ?_, ?_, ?_, ?_, ?_, ?_, ?_,
    ?_, ?_, ?_, trivial⟩
  all_goals first | exact trivial | skip
  intro _ _ _ e he
  revert e
  decide

end

end TickToSignal.Wdb
