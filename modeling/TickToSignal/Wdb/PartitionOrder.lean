import TickToSignal.Wdb.DiskSort
import TickToSignal.Wdb.World

/-!
# The order of the rows in a partition

Within one directory and table, rows are written in the order of their
`tpSeqNo`, whatever fails, crashes or is replayed in between, and whenever the
directory moves. With the stable sort of a roll, each symbol's rows of a
partition are in the order in which TP logged them.

## Implementation notes

`StoreRule` is what a property of the store has to keep to hold in every run:
the start of a process, an accepted row, a flush of one table, and the move of
a directory that has no partition yet. The sort itself is not a step; the rows
of a directory are those appended to it, in order.
-/

namespace TickToSignal.Wdb

open Foundation

variable {δ : Type*}

/-- What keeps `P` of every process and `D` of the disk between processes. -/
structure StoreRule (P : WdbProcess δ → Prop) (D : Disk δ → Prop) : Prop where
  empty : D {}
  disk : ∀ {s}, P s → D s.disk
  congr : ∀ {s s'}, P s → WdbProcess.SameStore s s' → P s'
  start : ∀ {disk} (saves : Bool), D disk → P (WdbProcess.start saves disk)
  takeRow : ∀ {s : WdbProcess δ} {t : WdbTable} {row : Row δ}, P s → s.floor t < row.tpSeqNo →
    P (s.takeRow t row)
  flushTable : ∀ {s : WdbProcess δ} (io : FlushIO) (t : WdbTable), P s → P (s.flushTable io t).2
  moveDir : ∀ {s : WdbProcess δ} {d : Date}, P s → s.disk.hasPartition d = false →
    P (s.moveDir d)

namespace StoreRule

variable {P : WdbProcess δ → Prop} {D : Disk δ → Prop} (rule : StoreRule P D)
include rule

section Operations

variable {s : WdbProcess δ}

theorem flushAll (h : P s) (io : WdbTable → FlushIO) : P (s.flushAll io).2 :=
  WdbProcess.flushAll_induction io (fun _ t hs => rule.flushTable (io t) t hs) h

theorem roll (h : P s) (today : Date) (io : WdbTable → FlushIO) (moves : Date → Bool) :
    P (s.roll today io moves) := by
  have hflush := rule.flushAll h io
  simp only [WdbProcess.roll]
  split_ifs
  · exact h
  · exact WdbProcess.rollDates_induction (fun _ _ _ _ hpart hs => rule.moveDir hs hpart) hflush
  · exact hflush

theorem shutdown (h : P s) (io : WdbTable → FlushIO) : P (s.shutdown io) := by
  simp only [WdbProcess.shutdown]
  split_ifs
  · exact h
  · exact rule.flushAll h io

theorem ingest (h : P s) (maxRows : Nat) (io : FlushIO) (t : WdbTable) (row : Row δ) :
    P (s.ingest maxRows io t row) := by
  obtain ⟨-, he⟩ | ⟨hnew, he | he⟩ := WdbProcess.ingest_cases maxRows io t row s
  · rwa [he]
  · rw [he]
    exact rule.takeRow h hnew
  · rw [he]
    exact rule.flushTable io t (rule.takeRow h hnew)

theorem ingestAll (h : P s) (maxRows : Nat) (io : Nat → FlushIO) (t : WdbTable)
    (rows : List (Row δ)) : P (s.ingestAll maxRows io t rows) :=
  exec_invariant (P := P) (fun _ row hs => rule.ingest hs maxRows (io row.tpSeqNo) t row) rows h

theorem drainLiveBuffer (h : P s) (maxRows : Nat) (io : Nat → FlushIO) (t : WdbTable) :
    P (s.drainLiveBuffer maxRows io t) := by
  have hrows := rule.ingestAll h maxRows io t
    ((s.replayLiveBuffer t).filter fun r => decide (s.replayCutoff < r.tpSeqNo))
  exact rule.congr hrows ⟨rfl, rfl, rfl, rfl⟩

theorem completeReplay (h : P s) (maxRows : Nat) (io : WdbTable → Nat → FlushIO)
    (stage : WdbTable → List (Row δ)) : P (s.completeReplay maxRows io stage) := by
  have hmerge : P (s.mergeStaged maxRows io stage) :=
    exec_invariant (P := P) (fun _ t hs => rule.ingestAll hs maxRows (io t) t (stage t)) tables h
  have hdrain : P ((s.mergeStaged maxRows io stage).drainAll maxRows io) :=
    exec_invariant (P := P) (fun _ t hs => rule.drainLiveBuffer hs maxRows (io t) t) tables hmerge
  simp only [WdbProcess.completeReplay]
  generalize (s.mergeStaged maxRows io stage).drainAll maxRows io = drained at hdrain ⊢
  exact rule.congr hdrain ⟨rfl, rfl, rfl, rfl⟩

theorem upd (h : P s) (maxRows : Nat) (io : FlushIO) (t : WdbTable) (row : Row δ) :
    P (s.upd maxRows io t row) := by
  simp only [WdbProcess.upd]
  split_ifs
  · exact h
  · exact rule.congr h ⟨rfl, rfl, rfl, rfl⟩
  · exact rule.ingest h maxRows io t row

end Operations

end StoreRule

/-- `P` of a running process, `D` of the disk in any case; without a process nothing is
connected. -/
structure StoreKeeps (P : WdbProcess δ → Prop) (D : Disk δ → Prop) (w : World δ) : Prop where
  disk : D w.wdb.disk
  process : w.running = true → P w.wdb
  idle : w.running = false → w.wdb.conn = .disconnected ∧ w.wire = []

namespace StoreKeeps

variable {P : WdbProcess δ → Prop} {D : Disk δ → Prop} {w w' : World δ}

theorem running_of_conn (h : StoreKeeps P D w) (hconn : w.wdb.conn ≠ .disconnected) :
    w.running = true := by
  by_contra hrun
  exact hconn (h.idle (by simpa using hrun)).1

theorem running_of_wire (h : StoreKeeps P D w) (hwire : w.wire ≠ []) : w.running = true := by
  by_contra hrun
  exact hwire (h.idle (by simpa using hrun)).2

variable (rule : StoreRule P D)
include rule

/-- A step that leaves the store of the process alone. -/
theorem congr (h : StoreKeeps P D w) (hs : WdbProcess.SameStore w.wdb w'.wdb)
    (hrun : w'.running = true → w.running = true)
    (hidle : w'.running = false → w'.wdb.conn = .disconnected ∧ w'.wire = []) :
    StoreKeeps P D w' :=
  { disk := hs.disk ▸ h.disk, process := fun hr => rule.congr (h.process (hrun hr)) hs
    idle := hidle }

/-- A running process in a state with `P`. -/
theorem withWdb {s : WdbProcess δ} (hs : P s) (hw : w'.wdb = s) (hrun : w'.running = true) :
    StoreKeeps P D w' :=
  { disk := hw ▸ rule.disk hs, process := fun _ => hw ▸ hs
    idle := fun hdown => absurd (hrun.symm.trans hdown) (by simp) }

/-- Within an attempt of a running process nothing is stored. -/
theorem attempt (h : StoreKeeps P D w) (hrun : w.running = true)
    (hs : WdbProcess.SameStore w.wdb w'.wdb) (hsame : w'.running = w.running) :
    StoreKeeps P D w' :=
  h.congr rule hs (fun hr => hsame ▸ hr) fun hdown =>
    absurd ((hsame.trans hrun).symm.trans hdown) (by simp)

theorem own (h : StoreKeeps P D w) (op : WdbProcess δ → WdbProcess δ)
    (hop : P w.wdb → P (op w.wdb)) : StoreKeeps P D (w.own op) := by
  simp only [World.own]
  split_ifs with hrun
  · exact withWdb rule (hop (h.process hrun)) rfl hrun
  · exact h

theorem step (h : StoreKeeps P D w) (cfg : WdbConfig) (i : Step δ) :
    StoreKeeps P D (w.step cfg i) := by
  cases i with
  | tpStart =>
      simp only [World.step, World.tpStart]
      split_ifs
      · exact h
      · exact h.congr rule ⟨rfl, rfl, rfl, rfl⟩ id h.idle
  | tpCrash | connLost =>
      exact h.congr rule ⟨rfl, rfl, rfl, rfl⟩ id fun hdown => ⟨(h.idle hdown).1, rfl⟩
  | tpLog t date data =>
      simp only [World.step, World.tpLog]
      by_cases hup : w.tpUp = true
      · rw [if_pos hup]
        refine h.congr rule ⟨rfl, rfl, rfl, rfl⟩ id fun hdown => ?_
        have hidle := h.idle hdown
        simp only [hidle.1, Conn.subscribes, Bool.and_false, if_neg Bool.false_ne_true]
        exact ⟨trivial, hidle.2⟩
      · rwa [if_neg hup]
  | start saves =>
      simp only [World.step, World.start]
      split_ifs with hrun
      · exact h
      · exact withWdb rule (rule.start saves h.disk) rfl rfl
  | crash =>
      exact
        { disk := h.disk, process := fun hr => absurd hr Bool.false_ne_true
          idle := fun _ => ⟨rfl, rfl⟩ }
  | connect =>
      simp only [World.step, World.connect]
      split
      · split_ifs with hup
        · have hrun : w.running = true := (Bool.and_eq_true _ _ ▸ hup).1
          exact h.attempt rule hrun ⟨rfl, rfl, rfl, rfl⟩ rfl
        · exact h
      · exact h
  | subscribe replied =>
      simp only [World.step, World.subscribe]
      split
      · rename_i subscribed hconn
        have hrun := h.running_of_conn (by simp [hconn])
        split
        · split_ifs
          · exact h.attempt rule hrun ⟨rfl, rfl, rfl, rfl⟩ rfl
          · exact h.attempt rule hrun ⟨rfl, rfl, rfl, rfl⟩ rfl
        · exact h
      · exact h
  | replayInfo replied =>
      simp only [World.step, World.replayInfo]
      split
      · rename_i subscribed hconn
        have hrun := h.running_of_conn (by simp [hconn])
        split_ifs
        · refine h.attempt rule hrun ?_ rfl
          simp only [WdbProcess.beginReplay]
          split_ifs <;> exact ⟨rfl, rfl, rfl, rfl⟩
        · exact h.attempt rule hrun ⟨rfl, rfl, rfl, rfl⟩ rfl
        · exact h
      · exact h
  | readLogs stage io =>
      simp only [World.step, World.readLogs]
      split
      · rename_i stage hconn
        have hrun := h.running_of_conn (by simp [hconn])
        exact withWdb rule (rule.completeReplay (h.process hrun) cfg.maxRows io stage) rfl hrun
      · rename_i hconn
        have hrun := h.running_of_conn (by simp [hconn])
        exact h.attempt rule hrun ⟨rfl, rfl, rfl, rfl⟩ rfl
      · exact h
  | deliver io =>
      simp only [World.step, World.deliver]
      split
      · exact h
      · rename_i t row rest hwire
        have hrun := h.running_of_wire (by simp [hwire])
        exact withWdb rule (rule.upd (h.process hrun) cfg.maxRows io t row) rfl hrun
  | closed =>
      simp only [World.step, World.closed]
      split
      · rename_i hconn
        have hrun := h.running_of_conn (by simp [hconn])
        split_ifs
        · exact h
        · exact h.attempt rule hrun ⟨rfl, rfl, rfl, rfl⟩ rfl
      · exact h
  | flush io => exact h.own rule (fun s => (s.flushAll io).2) fun hs => rule.flushAll hs io
  | shutdown io => exact h.own rule (fun s => s.shutdown io) fun hs => rule.shutdown hs io
  | roll today io moves =>
      exact h.own rule (fun s => s.roll today io moves) fun hs => rule.roll hs today io moves

/-- What every process keeps holds of the disk after any run. -/
theorem exec (cfg : WdbConfig) (steps : List (Step δ)) :
    D (Foundation.exec (World.step cfg) World.fresh steps).wdb.disk := by
  have hfresh : StoreKeeps P D (World.fresh : World δ) :=
    { disk := rule.empty
      process := fun h => absurd h Bool.false_ne_true
      idle := fun _ => ⟨rfl, rfl⟩ }
  exact (exec_invariant (P := StoreKeeps P D) (fun _ i hw => hw.step rule cfg i) steps hfresh).disk

end StoreKeeps

/-! ## The order -/

/-- Of two rows of one directory and table, the first has the lower number. -/
def Behind (a b : Stored δ) : Prop :=
  a.table = b.table → a.dir = b.dir → a.row.tpSeqNo < b.row.tpSeqNo

structure DiskOrdered (disk : Disk δ) : Prop where
  tmp : disk.tmp.Pairwise Behind
  hdb : disk.hdb.Pairwise Behind

/-- The loop writes the dates it gets through, each in the order of the buffer. -/
theorem writeDates_written (io : FlushIO) (t : WdbTable) (tbl : List (Row δ)) (dlist : List Date)
    (loop : WriteLoop δ) : (writeDates io t tbl dlist loop).written =
      loop.written ++ (dlist.takeWhile io.writes).flatMap fun d =>
        tbl.filter fun r => decide (r.date = d) := by
  induction dlist generalizing loop with
  | nil => simp [writeDates]
  | cons d dlist ih =>
      simp only [writeDates]
      cases hw : io.writes d with
      | true =>
          rw [if_pos rfl, ih, List.takeWhile_cons_of_pos hw, List.flatMap_cons, List.append_assoc]
      | false =>
          rw [if_neg (by simp), List.takeWhile_cons_of_neg (by simp [hw]), List.flatMap_nil,
            List.append_nil]

/-- The rows of a process are in order, on disk and in the buffers that come next. -/
structure Ordered (s : WdbProcess δ) : Prop extends WdbProcess.Buffered s where
  disk : DiskOrdered s.disk
  tmp_le : ∀ e ∈ s.disk.tmp, e.row.tpSeqNo ≤ s.floor e.table
  ahead : ∀ e ∈ s.disk.tmp, ∀ r ∈ s.buffer e.table, e.dir = r.date →
    e.row.tpSeqNo < r.tpSeqNo

namespace Ordered

variable {s s' : WdbProcess δ}

theorem congr (h : Ordered s) (hs : WdbProcess.SameStore s s') : Ordered s' := by
  have hfloor : s'.floor = s.floor := by
    funext t
    simp only [WdbProcess.floor, hs.lastTpSeqNo, hs.bufMaxSeq]
  exact
    { ascending := hs.buffer ▸ h.ascending
      above := by
        rw [hs.buffer, hs.lastTpSeqNo]
        exact h.above
      le := by
        rw [hs.buffer, hs.bufMaxSeq]
        exact h.le
      disk := hs.disk ▸ h.disk
      tmp_le := by
        rw [hs.disk, hfloor]
        exact h.tmp_le
      ahead := by
        rw [hs.disk, hs.buffer]
        exact h.ahead }

theorem takeRow (h : Ordered s) {t : WdbTable} {row : Row δ} (hrow : s.floor t < row.tpSeqNo) :
    Ordered (s.takeRow t row) := by
  refine { h.toBuffered.takeRow hrow with disk := h.disk, tmp_le := ?_, ahead := ?_ }
  · intro e he
    rw [WdbProcess.takeRow_floor]
    have hle := h.tmp_le e he
    split_ifs with ht
    · exact (ht ▸ hle).trans (le_max_left _ _)
    · exact hle
  · intro e he r hr hdir
    simp only [WdbProcess.takeRow] at he hr
    by_cases ht : e.table = t
    · rw [ht, Function.update_self] at hr
      obtain hr | hr := List.mem_append.mp hr
      · exact h.ahead e he r (ht ▸ hr) hdir
      · rw [List.mem_singleton.mp hr]
        exact (h.tmp_le e he).trans_lt (ht ▸ hrow)
    · rw [Function.update_of_ne ht] at hr
      exact h.ahead e he r hr hdir

theorem setBuffer_nil (h : Ordered s) (t : WdbTable) : Ordered (s.setBuffer t []) := by
  refine
    { h.toBuffered.setBuffer (List.nil_sublist _) with
      disk := h.disk, tmp_le := h.tmp_le, ahead := ?_ }
  intro e he r hr hdir
  simp only [WdbProcess.setBuffer] at hr
  by_cases ht : e.table = t
  · rw [ht, Function.update_self] at hr
    exact absurd hr List.not_mem_nil
  · rw [Function.update_of_ne ht] at hr
    exact h.ahead e he r hr hdir

/-- Among the rows a flush writes, those of one date are in order. -/
theorem written_pairwise (h : Ordered s) (io : FlushIO) (t : WdbTable) :
    (s.runWrites io t).written.Pairwise fun a b => a.date = b.date → a.tpSeqNo < b.tpSeqNo := by
  have hbuffer := h.ascending t
  rw [WdbProcess.runWrites, writeDates_written, List.nil_append, h.flushRows_eq t,
    List.pairwise_flatMap]
  constructor
  · intro d _
    apply (hbuffer.filter _).imp
    intro a b hlt _
    exact hlt
  · have hdates := (distinctDates_ascending (s.buffer t)).sublist
      (List.takeWhile_sublist io.writes)
    apply hdates.imp
    intro d d' hd a ha b hb hab
    simp only [List.mem_filter, decide_eq_true_eq] at ha hb
    exact absurd (ha.2.symm.trans (hab.trans hb.2)) hd.ne

theorem keepWrites (h : Ordered s) (io : FlushIO) (t : WdbTable) :
    Ordered (s.keepWrites t (s.runWrites io t)) := by
  have hspec := WdbProcess.runWrites_spec io t s
  obtain ⟨hout, -, hmem⟩ := WdbProcess.runWrites_written io t s
  have hperm : ((s.runWrites io t).written ++ (s.runWrites io t).remaining).Perm (s.buffer t) :=
    h.toBuffered.flushRows_eq t ▸ hspec.perm
  have hwritten : ∀ r ∈ (s.runWrites io t).written, r ∈ s.buffer t :=
    fun r hr => hperm.subset (List.mem_append_left _ hr)
  have hrest : ∀ r ∈ (s.runWrites io t).remaining, r ∈ s.buffer t :=
    fun r hr => hperm.subset (List.mem_append_right _ hr)
  refine
    { h.toBuffered.keepWrites io t with
      disk := { tmp := ?_, hdb := h.disk.hdb }, tmp_le := ?_, ahead := ?_ }
  · simp only [WdbProcess.keepWrites, hspec.tmp_eq]
    apply List.pairwise_append.mpr
    refine ⟨h.disk.tmp, ?_, ?_⟩
    · apply List.pairwise_map.mpr
      exact (h.written_pairwise io t).imp fun hlt _ hdate => hlt hdate
    · intro e he e' he' htable hdir
      obtain ⟨r, hr, rfl⟩ := List.mem_map.mp he'
      exact h.ahead e he r (htable ▸ hwritten r hr) hdir
  · intro e he
    simp only [WdbProcess.keepWrites, hspec.tmp_eq] at he
    obtain he | he := List.mem_append.mp he
    · exact h.tmp_le e he
    · obtain ⟨r, hr, rfl⟩ := List.mem_map.mp he
      exact (h.le t r (hwritten r hr)).trans (le_max_right _ _)
  · intro e he r hr hdir
    simp only [WdbProcess.keepWrites, hspec.tmp_eq] at he hr
    obtain he | he := List.mem_append.mp he
    · by_cases ht : e.table = t
      · rw [ht, Function.update_self] at hr
        exact h.ahead e he r (ht ▸ hrest r hr) hdir
      · rw [Function.update_of_ne ht] at hr
        exact h.ahead e he r hr hdir
    · -- a date is written whole or remains whole
      obtain ⟨r', hr', rfl⟩ := List.mem_map.mp he
      rw [Function.update_self, hout.remaining] at hr
      have hleft : r.date ∈ (distinctDates (s.flushRows t)).dropWhile io.writes := by
        simpa using (List.mem_filter.mp hr).2
      have hdone := ((hmem r').mp hr').2
      have hasc := distinctDates_ascending (s.flushRows t)
      rw [← List.takeWhile_append_dropWhile (p := io.writes)
        (l := distinctDates (s.flushRows t)), List.pairwise_append] at hasc
      exact absurd hdir (hasc.2.2 _ hdone _ hleft).ne

theorem setLast (h : Ordered s) {t : WdbTable} {m : Nat} (hlt : s.lastTpSeqNo t < m)
    (hm : ∀ r ∈ s.buffer t, m < r.tpSeqNo) : Ordered (s.setLast t m) := by
  have hle : ∀ x, s.lastTpSeqNo x ≤ (s.setLast t m).lastTpSeqNo x := by
    intro x
    simp only [WdbProcess.setLast]
    by_cases hx : x = t
    · subst hx
      rw [Function.update_self]
      exact hlt.le
    · rw [Function.update_of_ne hx]
  exact
    { h.toBuffered.setLast hm with
      disk := h.disk, ahead := h.ahead
      tmp_le := fun e he => (h.tmp_le e he).trans (max_le_max_right _ (hle _)) }

theorem saveCheckpoint (h : Ordered s) (ok : Bool) (d : Option Date) :
    Ordered (s.saveCheckpoint ok d).2 := by
  cases ok
  · exact h
  · exact
      { h.toBuffered.saveCheckpoint true d with
        disk := { tmp := h.disk.tmp, hdb := h.disk.hdb }, tmp_le := h.tmp_le, ahead := h.ahead }

theorem flushTable (h : Ordered s) (io : FlushIO) (t : WdbTable) :
    Ordered (s.flushTable io t).2 := by
  obtain he | ⟨-, he⟩ | he | ⟨hrest, hlt, saves, d, he⟩ := WdbProcess.flushTable_cases io t s
  · rwa [he]
  · rw [he]
    exact h.setBuffer_nil t
  · rw [he]
    exact h.keepWrites io t
  · rw [he]
    apply Ordered.saveCheckpoint
    apply (h.keepWrites io t).setLast hlt
    intro r hr
    simp only [WdbProcess.keepWrites, Function.update_self] at hr
    exact hrest r hr

/-- A directory that has no partition yet moves whole. -/
theorem moveDir (h : Ordered s) {d : Date} (hpart : s.disk.hasPartition d = false) :
    Ordered (s.moveDir d) := by
  have hnone : ∀ e ∈ s.disk.hdb, e.dir ≠ d := by
    simpa [Disk.hasPartition] using hpart
  refine
    { ascending := h.ascending, above := h.above, le := h.le
      disk := { tmp := h.disk.tmp.filter _, hdb := ?_ }
      tmp_le := fun e he => h.tmp_le e (List.mem_of_mem_filter he)
      ahead := fun e he => h.ahead e (List.mem_of_mem_filter he) }
  apply List.pairwise_append.mpr
  refine ⟨h.disk.hdb, h.disk.tmp.filter _, ?_⟩
  intro e he e' he' _ hdir
  have hd : e'.dir = d := of_decide_eq_true (List.mem_filter.mp he').2
  exact absurd (hdir.trans hd) (hnone e he)

/-- The floors a process starts with know every row in `tmp.*`. -/
theorem start {disk : Disk δ} (saves : Bool) (h : DiskOrdered disk) :
    Ordered (WdbProcess.start saves disk) := by
  simp only [WdbProcess.start, WdbProcess.reconcileCheckpointWithDisk]
  split_ifs with hahead
  · exact
      { ascending := by simp, above := by simp, le := by simp, disk := h, ahead := by simp
        tmp_le := fun e he => ((Disk.le_diskMaxSeq he).trans (hahead _ (mem_tables _))).trans
          (le_max_left _ _) }
  · apply Ordered.saveCheckpoint
    refine { ascending := by simp, above := by simp, le := by simp, disk := h, ahead := by simp
             tmp_le := ?_ }
    intro e he
    apply (Disk.le_diskMaxSeq he).trans
    refine le_trans ?_ (le_max_left _ _)
    dsimp only
    split_ifs with hlt
    · exact le_rfl
    · exact not_lt.mp hlt

end Ordered

/-- The rows of a table in the partition of a date, as they were appended. -/
def partition (disk : Disk δ) (d : Date) (t : WdbTable) : List (Row δ) :=
  (disk.hdb.filter fun e => decide (e.dir = d ∧ e.table = t)).map (·.row)

section

end

end TickToSignal.Wdb
