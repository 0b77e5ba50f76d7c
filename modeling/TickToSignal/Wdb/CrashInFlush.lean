import TickToSignal.Wdb.StoredOnce

/-!
# A crash inside a flush

A flush writes date by date, and the floor after a restart is the highest
`tpSeqNo` found on disk. A row of a date that was not reached is safe exactly
if it is numbered above every row that is.
-/

namespace TickToSignal.Wdb

open Foundation

variable {δ : Type*}

/-- Where in `flushTable` the process dies: after so many of its dates, and whether the
save of the checkpoint was reached and done. -/
structure CrashPoint where
  today : Date
  dates : Nat
  saved : Bool

namespace WdbProcess

/-- The dates of a table's buffer that are written before the crash. -/
def datesWritten (c : CrashPoint) (t : WdbTable) (s : WdbProcess δ) : List Date :=
  (distinctDates (s.buffer t)).take c.dates

/-- The disk a crash inside the flush of a table leaves: what comes after the crash point
does not happen. -/
def diskAtCrash (c : CrashPoint) (t : WdbTable) (s : WdbProcess δ) : Disk δ :=
  (s.flushTable
    { today := c.today, writes := fun d => decide (d ∈ s.datesWritten c t), saves := c.saved }
    t).2.disk

/-- A complete replay of logs that hold `logged`. -/
def replayUpTo (maxRows : Nat) (io : WdbTable → Nat → FlushIO)
    (logged : WdbTable → List (Row δ)) (cutoff : Nat) (s : WdbProcess δ) : WdbProcess δ :=
  (s.beginReplay cutoff).completeReplay maxRows io fun t =>
    (logged t).filter fun r => decide (s.floor t < r.tpSeqNo ∧ r.tpSeqNo ≤ cutoff)

/-- Rows of the old buffer that the new floor refuses are on disk. -/
def FloorSound (t : WdbTable) (s s' : WdbProcess δ) : Prop :=
  ∀ r ∈ s.buffer t, r.tpSeqNo ≤ s'.floor t → ∃ e ∈ s'.disk.stored, e.table = t ∧ e.row = r

/-- A complete replay leaves each row of the old buffer on disk or in memory, once. -/
def ReplayRestores (t : WdbTable) (s s' : WdbProcess δ) : Prop :=
  ∀ maxRows io (logged : WdbTable → List (Row δ)) cutoff,
    (∀ x, (logged x).Pairwise fun a b => a.tpSeqNo < b.tpSeqNo) →
    (∀ r ∈ s.buffer t, r ∈ logged t ∧ r.tpSeqNo ≤ cutoff) →
    (∀ x, s'.lastTpSeqNo x ≤ cutoff) →
    ∀ r ∈ s.buffer t,
      ((s'.replayUpTo maxRows io logged cutoff).held t).filter
        (fun x => decide (x.tpSeqNo = r.tpSeqNo)) = [r]

/-- Every row of a date the flush did not reach is numbered above what it wrote and above
what was in `tmp.*` before. -/
def WrittenInOrder (c : CrashPoint) (t : WdbTable) (s : WdbProcess δ) : Prop :=
  ∀ r ∈ s.buffer t, r.date ∉ s.datesWritten c t →
    (∀ e ∈ s.disk.tmp, e.table = t → e.row.tpSeqNo < r.tpSeqNo) ∧
    ∀ x ∈ s.buffer t, x.date ∈ s.datesWritten c t → x.tpSeqNo < r.tpSeqNo

/-! ## The disk at the crash -/

theorem takeWhile_mem_take {l : List Date} (hl : l.Nodup) (n : Nat) :
    (l.takeWhile fun d => decide (d ∈ l.take n)) = l.take n := by
  have hsplit : l.take n ++ l.drop n = l := List.take_append_drop n l
  have hdisj := (List.nodup_append.mp (hsplit.symm ▸ hl)).2.2
  conv_lhs => arg 2; rw [← hsplit]
  rw [List.takeWhile_append_of_pos fun d hd => by simpa using hd]
  cases hrest : l.drop n with
  | nil => simp
  | cons d rest =>
      have hd : d ∉ l.take n := fun hmem => hdisj d hmem d (hrest ▸ List.mem_cons_self) rfl
      rw [List.takeWhile_cons_of_neg (by simpa using hd), List.append_nil]

/-- What a flush has written, and what it still buffers. -/
theorem flushTable_parts {s : WdbProcess δ} (h : Buffered s) (io : FlushIO) (t : WdbTable) :
    ∃ written : List (Row δ),
      (s.flushTable io t).2.disk.tmp
        = s.disk.tmp ++ written.map (fun r => { dir := r.date, table := t, row := r }) ∧
      (s.flushTable io t).2.disk.hdb = s.disk.hdb ∧
      (written ++ (s.flushTable io t).2.buffer t).Perm (s.buffer t) ∧
      ∀ r, r ∈ written ↔
        r ∈ s.buffer t ∧ r.date ∈ (distinctDates (s.buffer t)).takeWhile io.writes := by
  have hspec := runWrites_spec io t s
  have hrows := h.flushRows_eq t
  have hmem := hspec.mem_written
  have hperm := hspec.perm
  rw [hrows] at hmem hperm
  simp only [flushTable, hrows]
  by_cases hempty : s.buffer t = []
  · refine ⟨[], ?_⟩
    rw [if_pos hempty]
    simp [hempty]
  rw [if_neg hempty]
  by_cases hnone : (s.runWrites io t).written = []
  · refine ⟨[], ?_⟩
    rw [if_neg hempty, if_pos hnone]
    rw [hnone] at hmem
    exact ⟨by simp, rfl, List.Perm.refl _, hmem⟩
  · refine ⟨(s.runWrites io t).written, ?_⟩
    rw [if_neg hempty, if_neg hnone]
    have hbuffer : (s.keepWrites t (s.runWrites io t)).buffer t = (s.runWrites io t).remaining :=
      Function.update_self ..
    split_ifs with hadvance
    · cases hsaves : io.saves <;> exact ⟨hspec.tmp_eq, rfl, hbuffer ▸ hperm, hmem⟩
    · exact ⟨hspec.tmp_eq, rfl, hbuffer ▸ hperm, hmem⟩

/-! ## The floor after the restart -/

section

variable (saves : Bool) (disk : Disk δ)

theorem start_stored : (WdbProcess.start saves disk).disk.stored = disk.stored := by
  simp only [WdbProcess.start, reconcileCheckpointWithDisk, WdbProcess.saveCheckpoint]
  split_ifs <;> rfl

theorem start_floor (t : WdbTable) : (WdbProcess.start saves disk).floor t
    = max (disk.loadCheckpoint.seq t) (disk.diskMaxSeq t) := by
  simp only [WdbProcess.start, reconcileCheckpointWithDisk, WdbProcess.saveCheckpoint]
  split_ifs with hahead hsaves
  · have hle := hahead t (mem_tables t)
    simp only [floor] at hle ⊢
    omega
  · simp only [floor]
    split_ifs <;> omega
  · simp only [floor]
    split_ifs <;> omega

end

variable {s : WdbProcess δ} {c : CrashPoint} {t : WdbTable}

/-- The rows in `tmp.*` at the crash: those before the flush and those of the dates it
reached. -/
theorem mem_tmpAtCrash (h : Buffered s) {e : Stored δ} :
    e ∈ (s.diskAtCrash c t).tmp ↔ e ∈ s.disk.tmp ∨
      (e.table = t ∧ e.dir = e.row.date ∧ e.row ∈ s.buffer t ∧
        e.row.date ∈ s.datesWritten c t) := by
  obtain ⟨written, htmp, -, -, hmem⟩ := flushTable_parts h
    { today := c.today, writes := fun d => decide (d ∈ s.datesWritten c t), saves := c.saved } t
  have hnodup : (distinctDates (s.buffer t)).Nodup :=
    (distinctDates_ascending _).imp fun hlt => hlt.ne
  have hdates : ((distinctDates (s.buffer t)).takeWhile
      fun d => decide (d ∈ s.datesWritten c t)) = s.datesWritten c t :=
    takeWhile_mem_take hnodup c.dates
  rw [hdates] at hmem
  simp only [diskAtCrash, htmp, List.mem_append, List.mem_map]
  constructor
  · rintro (he | ⟨r, hr, rfl⟩)
    · exact Or.inl he
    · exact Or.inr ⟨rfl, rfl, ((hmem r).mp hr).1, ((hmem r).mp hr).2⟩
  · rintro (he | ⟨htable, hdir, hrow, hdate⟩)
    · exact Or.inl he
    · refine Or.inr ⟨e.row, (hmem e.row).mpr ⟨hrow, hdate⟩, ?_⟩
      rw [← htable, ← hdir]

theorem hdb_diskAtCrash (h : Buffered s) : (s.diskAtCrash c t).hdb = s.disk.hdb := by
  obtain ⟨-, -, hhdb, -, -⟩ := flushTable_parts h
    { today := c.today, writes := fun d => decide (d ∈ s.datesWritten c t), saves := c.saved } t
  exact hhdb

/-- A row of the buffer that the flush did not reach is not on disk. -/
theorem not_stored_of_unreached (h : s.Sound) {r : Row δ} (hr : r ∈ s.buffer t)
    (hdate : r.date ∉ s.datesWritten c t) {e : Stored δ} (he : e ∈ (s.diskAtCrash c t).stored)
    (htable : e.table = t) : e.row ≠ r := by
  rintro rfl
  have hbefore : e ∉ s.disk.stored := fun hold =>
    h.buffer_new t e.row hr (List.mem_map.mpr ⟨e, hold, by simp [Stored.key, htable]⟩)
  obtain he | he := List.mem_append.mp he
  · obtain hold | ⟨-, -, -, hreached⟩ := (mem_tmpAtCrash h.toBuffered).mp he
    · exact hbefore (List.mem_append_left _ hold)
    · exact hdate hreached
  · exact hbefore (List.mem_append_right _ (hdb_diskAtCrash h.toBuffered ▸ he))

/-- A row the flush did not reach is above the checkpoint on disk. -/
theorem unreached_above (h : s.Sound) {r : Row δ} (hr : r ∈ s.buffer t)
    (hdate : r.date ∉ s.datesWritten c t) :
    (s.diskAtCrash c t).loadCheckpoint.seq t < r.tpSeqNo := by
  have hflush := h.flushTable
    { today := c.today, writes := fun d => decide (d ∈ s.datesWritten c t), saves := c.saved } t
  obtain ⟨written, htmp, -, hperm, -⟩ := flushTable_parts h.toBuffered
    { today := c.today, writes := fun d => decide (d ∈ s.datesWritten c t), saves := c.saved } t
  apply (hflush.saved_le t).trans_lt
  apply hflush.above t r
  obtain hw | hb := List.mem_append.mp (hperm.symm.subset hr)
  · have hstored : ({ dir := r.date, table := t, row := r } : Stored δ)
        ∈ (s.diskAtCrash c t).stored := by
      apply List.mem_append_left
      simp only [diskAtCrash, htmp]
      exact List.mem_append_right _ (List.mem_map.mpr ⟨r, hw, rfl⟩)
    exact absurd rfl (not_stored_of_unreached h hr hdate hstored rfl)
  · exact hb

/-- The floor is sound after the restart exactly if what was written was in order. -/
theorem floorSound_iff (h : s.Sound) (saves : Bool) :
    FloorSound t s (.start saves (s.diskAtCrash c t)) ↔ WrittenInOrder c t s := by
  simp only [FloorSound, start_floor, start_stored]
  constructor
  · intro hsound r hr hdate
    -- a number on disk at or above the row's raises the floor over a row that is not there
    have hbelow : ∀ e ∈ (s.diskAtCrash c t).tmp, e.table = t → e.row.tpSeqNo < r.tpSeqNo := by
      intro e he htable
      by_contra hle
      obtain ⟨x, hx, hxt, hxr⟩ := hsound r hr
        ((not_lt.mp hle).trans ((htable ▸ Disk.le_diskMaxSeq he).trans (le_max_right _ _)))
      exact not_stored_of_unreached h hr hdate hx hxt hxr
    refine ⟨fun e he htable => hbelow e ?_ htable, fun x hx hxd => ?_⟩
    · exact (mem_tmpAtCrash h.toBuffered).mpr (Or.inl he)
    · exact hbelow { dir := x.date, table := t, row := x }
        ((mem_tmpAtCrash h.toBuffered).mpr (Or.inr ⟨rfl, rfl, hx, hxd⟩)) rfl
  · intro horder r hr hle
    by_cases hdate : r.date ∈ s.datesWritten c t
    · exact ⟨{ dir := r.date, table := t, row := r }, List.mem_append_left _
        ((mem_tmpAtCrash h.toBuffered).mpr (Or.inr ⟨rfl, rfl, hr, hdate⟩)), rfl, rfl⟩
    · obtain ⟨hold, hnew⟩ := horder r hr hdate
      exfalso
      obtain hcp | hdisk := le_max_iff.mp hle
      · exact absurd hcp (not_le.mpr (unreached_above h hr hdate))
      · obtain heq | ⟨e, he, heq⟩ := watermark_eq_or_mem
          (fun e : Stored δ => e.row.tpSeqNo) 0
          ((s.diskAtCrash c t).tmp.filter fun e => decide (e.table = t))
        · have hzero : (s.diskAtCrash c t).diskMaxSeq t = 0 := heq
          have hpos := h.above t r hr
          omega
        · simp only [List.mem_filter, decide_eq_true_eq] at he
          have hmax : (s.diskAtCrash c t).diskMaxSeq t = e.row.tpSeqNo := heq
          obtain he' | ⟨-, -, hx, hxd⟩ := (mem_tmpAtCrash h.toBuffered).mp he.1
          · have := hold e he' he.2
            omega
          · have := hnew e.row hx hxd
            omega

/-! ## The replay after the restart -/

/-- Stored and buffered rows of a table have different numbers. -/
theorem Sound.held_nodup (h : s.Sound) (t : WdbTable) :
    ((s.held t).map (·.tpSeqNo)).Nodup := by
  simp only [held, List.map_append, List.map_map]
  apply List.nodup_append.mpr
  refine ⟨?_, List.pairwise_map.mpr ((h.ascending t).imp fun hlt => hlt.ne), ?_⟩
  · have hkeys : ((s.disk.stored.filter fun e => decide (e.table = t)).map Stored.key).Nodup :=
      h.disk.nodup.sublist (List.filter_sublist.map _)
    rw [List.Nodup, List.pairwise_map] at hkeys ⊢
    refine hkeys.imp_of_mem ?_
    intro a b ha hb hne heq
    simp only [List.mem_filter, decide_eq_true_eq] at ha hb
    exact hne (Prod.ext (ha.2.trans hb.2.symm) heq)
  · rintro n hn n' hn' rfl
    obtain ⟨e, he, rfl⟩ := List.mem_map.mp hn
    obtain ⟨r, hr, heq⟩ := List.mem_map.mp hn'
    simp only [List.mem_filter, decide_eq_true_eq] at he
    apply h.buffer_new t r hr
    exact List.mem_map.mpr ⟨e, he.1, Prod.ext he.2 heq.symm⟩

/-- In a list without repeated numbers a number finds its row and no other. -/
theorem filter_tpSeqNo {rows : List (Row δ)} (hrows : (rows.map (·.tpSeqNo)).Nodup) {r : Row δ}
    (hr : r ∈ rows) : (rows.filter fun x => decide (x.tpSeqNo = r.tpSeqNo)) = [r] := by
  induction rows with
  | nil => exact absurd hr List.not_mem_nil
  | cons a rows ih =>
      obtain ⟨hnew, hrest⟩ := List.nodup_cons.mp hrows
      obtain rfl | hr := List.mem_cons.mp hr
      · rw [List.filter_cons_of_pos (by simp)]
        refine congrArg (r :: ·) (List.filter_eq_nil_iff.mpr ?_)
        intro x hx heq
        exact hnew (List.mem_map.mpr ⟨x, hx, by simpa using heq⟩)
      · have hne : a.tpSeqNo ≠ r.tpSeqNo := fun heq =>
          hnew (List.mem_map.mpr ⟨r, hr, heq.symm⟩)
        rw [List.filter_cons_of_neg (by simpa using hne)]
        exact ih hrest hr

theorem completeReplay_held (maxRows : Nat) (io : WdbTable → Nat → FlushIO)
    (stage : WdbTable → List (Row δ)) (s : WdbProcess δ) : (s.completeReplay maxRows io stage).held t
      = ((s.mergeStaged maxRows io stage).drainAll maxRows io).held t := by
  simp only [completeReplay, held]

theorem beginReplay_sameStore (cutoff : Nat) (s : WdbProcess δ) :
    SameStore s (s.beginReplay cutoff) := by
  simp only [beginReplay]
  split_ifs <;> exact ⟨rfl, rfl, rfl, rfl⟩

/-- A row on disk, buffered or staged is on disk or in memory after the replay. -/
theorem held_replayUpTo (h : s.Sound) {maxRows : Nat} {io : WdbTable → Nat → FlushIO}
    {logged : WdbTable → List (Row δ)} {cutoff : Nat}
    (hasc : ∀ x, (logged x).Pairwise fun a b => a.tpSeqNo < b.tpSeqNo) {r : Row δ}
    (hr : r ∈ s.held t ∨ (r ∈ logged t ∧ s.floor t < r.tpSeqNo ∧ r.tpSeqNo ≤ cutoff)) :
    r ∈ (s.replayUpTo maxRows io logged cutoff).held t := by
  have hsame := beginReplay_sameStore cutoff s
  have hbegin := h.congr hsame
  have hmerge := mergeStaged_took hbegin.toBuffered maxRows io fun t =>
    (logged t).filter fun r => decide (s.floor t < r.tpSeqNo ∧ r.tpSeqNo ≤ cutoff)
  have hdrain := drainAll_took hmerge.buffered maxRows io
  have hfloor : (s.beginReplay cutoff).floor t = s.floor t := by
    simp only [floor, hsame.lastTpSeqNo, hsame.bufMaxSeq]
  have hheld : (s.beginReplay cutoff).held t = s.held t := by
    simp only [held, hsame.disk, hsame.buffer]
  rw [replayUpTo, completeReplay_held]
  apply (hdrain.held t).symm.subset
  apply List.mem_append_left
  apply (hmerge.held t).symm.subset
  obtain hold | ⟨hlog, hnew, hcut⟩ := hr
  · exact List.mem_append_left _ (hheld ▸ hold)
  · apply List.mem_append_right
    rw [hfloor, admitted_eq_self ((hasc t).filter _) fun a ha => by
      simpa using (of_decide_eq_true (List.mem_filter.mp ha).2).1]
    exact List.mem_filter.mpr ⟨hlog, by simpa using ⟨hnew, hcut⟩⟩

theorem Sound.replayUpTo (h : s.Sound) (maxRows : Nat) (io : WdbTable → Nat → FlushIO)
    (logged : WdbTable → List (Row δ)) (cutoff : Nat) :
    (s.replayUpTo maxRows io logged cutoff).Sound :=
  (h.congr (beginReplay_sameStore cutoff s)).completeReplay maxRows io _

/-- With a sound floor a complete replay restores the buffer. -/
theorem FloorSound.restores {s' : WdbProcess δ} (hfloor : FloorSound t s s') (h' : s'.Sound) :
    ReplayRestores t s s' := by
  intro maxRows io logged cutoff hasc hlog _ r hr
  apply filter_tpSeqNo ((h'.replayUpTo maxRows io logged cutoff).held_nodup t)
  apply held_replayUpTo h' hasc
  by_cases hle : r.tpSeqNo ≤ s'.floor t
  · left
    obtain ⟨e, he, htable, rfl⟩ := hfloor r hr hle
    apply List.mem_append_left
    exact List.mem_map.mpr ⟨e, List.mem_filter.mpr ⟨he, by simpa using htable⟩, rfl⟩
  · exact Or.inr ⟨(hlog r hr).1, not_le.mp hle, (hlog r hr).2⟩

end WdbProcess

/-- A crash inside a flush and a restart leave a sound floor, and a complete replay then
each row of the buffer on disk or in memory once, exactly if every row that was not
written is numbered above every row that is on disk. -/
theorem crash_in_flush_safe_iff {s : WdbProcess δ} (h : s.Sound) (c : CrashPoint) (t : WdbTable)
    (saves : Bool) :
    let s' := WdbProcess.start saves (s.diskAtCrash c t)
    (s.FloorSound t s' ∧ s.ReplayRestores t s') ↔ s.WrittenInOrder c t := by
  have hdisk : DiskSound (s.diskAtCrash c t) := (h.flushTable _ t).disk
  constructor
  · rintro ⟨hfloor, -⟩
    exact (WdbProcess.floorSound_iff h saves).mp hfloor
  · intro horder
    have hfloor := (WdbProcess.floorSound_iff h saves).mpr horder
    exact ⟨hfloor, hfloor.restores (.start hdisk saves)⟩

section

/-- A row of day 1 with number 1, then a row of day 0 with number 2, as a backfill logs it. -/
def lateRowBuffered : WdbProcess Unit :=
  ((WdbProcess.start true {}).takeRow .tradeBinance { tpSeqNo := 1, date := 1, data := () }).takeRow
    .tradeBinance { tpSeqNo := 2, date := 0, data := () }

private theorem lateRowBuffered_sound : lateRowBuffered.Sound := by
  have hstart : (WdbProcess.start true ({} : Disk Unit)).Sound := .start .empty true
  exact (hstart.takeRow (by decide)).takeRow (by decide)

/-- The crash falls between the writes of day 0 and of day 1: row 1 is lost. -/
theorem crash_in_flush_loses :
    ¬ (let s' := WdbProcess.start true
        (lateRowBuffered.diskAtCrash { today := 1, dates := 1, saved := false } .tradeBinance)
      lateRowBuffered.FloorSound .tradeBinance s' ∧
        lateRowBuffered.ReplayRestores .tradeBinance s') := by
  rintro ⟨hfloor, -⟩
  obtain ⟨e, he, -, hrow⟩ := hfloor { tpSeqNo := 1, date := 1, data := () } (by decide) (by decide)
  revert e
  decide

/-- After both writes the same crash is harmless. -/
theorem crash_in_flush_safe_sample :
    let s' := WdbProcess.start true
      (lateRowBuffered.diskAtCrash { today := 1, dates := 2, saved := false } .tradeBinance)
    lateRowBuffered.FloorSound .tradeBinance s' ∧ lateRowBuffered.ReplayRestores .tradeBinance s' :=
  (crash_in_flush_safe_iff lateRowBuffered_sound { today := 1, dates := 2, saved := false }
    .tradeBinance true).mpr (by
      intro r hr hdate
      revert r
      decide)

end

end TickToSignal.Wdb
