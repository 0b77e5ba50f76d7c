import TickToSignal.Foundation.Neighbours
import TickToSignal.Wdb.Reconnect
import TickToSignal.Wdb.TpLogs

/-!
# Reading TP's logs

A replay starts at the lowest of the per-table starts, picks the logs from the
newest one that begins at or below it, and seeks in each with the index. A
table with a floor starts right above it; a table without one starts where TP
says it logged the table first today, and without such a hint it has no start.

## Implementation notes

`stageRow`'s check of the table and of the width never fails on a row TP
logged for one of these tables. Errors while a log is read are the `none` of
`World.readLogs`; here the only one is an empty log directory.
-/

namespace TickToSignal.Wdb

open Foundation

variable {δ : Type*}

/-- `.lr.seek`: the last index entry at or below `fromSeq`, or the start of the log. -/
def DailyLog.seek (fromSeq : Nat) (log : DailyLog δ) : Nat :=
  ((log.idx.filter fun e => decide (e.tpSeqNo ≤ fromSeq)).getLast?.map (·.chunk)).getD 0

/-- `.lr.replayFrom`: today's log is read as far as it was committed. -/
def DailyLog.replayFrom (info : ReplayInfo) (fromSeq : Nat) (log : DailyLog δ) :
    List (WdbTable × Row δ) :=
  let endOffset := if log.date = info.today then info.committed else log.rows.length
  (log.rows.take endOffset).drop (log.seek fromSeq)

/-- The newest log whose first number is at or below `startSeq`, else the oldest. -/
def startIdx (startSeq : Nat) (logs : List (DailyLog δ)) : Nat :=
  (((List.range logs.length).filter fun i =>
    (logs[i]?.bind (·.firstSeq)).any fun f => decide (f ≤ startSeq)).getLast?).getD 0

/-- `.wdb.stageRow` for the rows of all logs read. -/
def stageRows (floor : WdbTable → Nat) (cutoff : Nat) (rows : List (WdbTable × Row δ))
    (t : WdbTable) : List (Row δ) :=
  (rowsOf t rows).filter fun r => decide (floor t < r.tpSeqNo ∧ r.tpSeqNo ≤ cutoff)

namespace WdbProcess

/-- Where the scan for a table starts. -/
def startOf (firstTp : WdbTable → Option Nat) (s : WdbProcess δ) (t : WdbTable) : Option Nat :=
  if 0 < s.floor t then some (1 + s.floor t) else firstTp t

/-- `.wdb.readLogs`; `none` when it throws. -/
def readLogs (info : ReplayInfo) (logs : List (DailyLog δ)) (s : WdbProcess δ) :
    Option (WdbTable → List (Row δ)) :=
  match (tables.filterMap (s.startOf info.firstTp)).min? with
  | none => some fun _ => []
  | some startSeq =>
      if info.cutoff < startSeq then some fun _ => []
      else if logs.isEmpty then none
      else
        let toRead := logs.drop (startIdx startSeq logs)
        some (stageRows s.stageFloor s.stageCutoff (toRead.flatMap (·.replayFrom info startSeq)))

/-- `.wdb.runReplay`; a cutoff below a checkpoint halts instead. -/
def runReplay (maxRows : Nat) (io : WdbTable → Nat → FlushIO) (info : ReplayInfo)
    (logs : List (DailyLog δ)) (s : WdbProcess δ) : Bool × WdbProcess δ :=
  let begun := s.beginReplay info.cutoff
  if ∀ t ∈ tables, s.lastTpSeqNo t ≤ info.cutoff then
    match begun.readLogs info logs with
    | none => (false, begun.failReplay)
    | some stage => (true, begun.completeReplay maxRows io stage)
  else (true, begun)

/-- A row the replay has to deliver. -/
def Needed (info : ReplayInfo) (s : WdbProcess δ) (x : WdbTable × Row δ) : Prop :=
  s.floor x.1 < x.2.tpSeqNo ∧ x.2.tpSeqNo ≤ info.cutoff

/-- Between two states of a process a row was taken into its table's buffer. -/
def Merged (s s' : WdbProcess δ) (x : WdbTable × Row δ) : Prop :=
  ∃ rows, s'.received x.1 = s.received x.1 ++ rows ∧ x.2 ∈ rows

end WdbProcess

/-- A scan for `start` begins behind number `n` of `log`: at the beginning of a later log,
or at an index entry. -/
def Skips (logs : List (DailyLog δ)) (log : DailyLog δ) (start n : Nat) : Prop :=
  (∃ l ∈ logs, ∃ f, l.firstSeq = some f ∧ n < f ∧ f ≤ start) ∨
    ∃ e ∈ log.idx, n < e.tpSeqNo ∧ e.tpSeqNo ≤ start

/-- Some table's scan starts low enough for row `x`. -/
def Reached (info : ReplayInfo) (logs : List (DailyLog δ)) (s : WdbProcess δ)
    (x : WdbTable × Row δ) : Prop :=
  ∃ t, ∃ start, s.startOf info.firstTp t = some start ∧ start ≤ info.cutoff ∧
    ∃ log ∈ logs, x ∈ log.rows ∧ ¬ Skips logs log start x.2.tpSeqNo

/-- Today's log is read at least as far as the cutoff. -/
def Covers (info : ReplayInfo) (logs : List (DailyLog δ)) : Prop :=
  ∀ log ∈ logs, log.date = info.today → ∀ x ∈ log.rows.drop info.committed,
    info.cutoff < x.2.tpSeqNo

/-! ## One log -/

theorem IndexSound.mem_drop_chunk {log : DailyLog δ} (h : IndexSound log)
    {x : WdbTable × Row δ} {e : IndexEntry} (he : e ∈ log.idx) (hx : x ∈ log.rows) :
    x ∈ log.rows.drop e.chunk ↔ e.tpSeqNo ≤ x.2.tpSeqNo := by
  constructor
  · exact h.after e he x
  · intro hle
    obtain hb | ha := List.mem_append.mp ((List.take_append_drop e.chunk log.rows).symm ▸ hx)
    · exact absurd hle (not_le.mpr (h.before e he x hb))
    · exact ha

/-- What the scan of one log sees: everything that no entry it may seek to is above. -/
theorem mem_drop_seek {log : DailyLog δ} (h : IndexSound log) (fromSeq : Nat)
    {x : WdbTable × Row δ} (hx : x ∈ log.rows) :
    x ∈ log.rows.drop (log.seek fromSeq) ↔
      ∀ e ∈ log.idx, e.tpSeqNo ≤ fromSeq → e.tpSeqNo ≤ x.2.tpSeqNo := by
  simp only [DailyLog.seek]
  cases hlast : (log.idx.filter fun e => decide (e.tpSeqNo ≤ fromSeq)).getLast? with
  | none =>
      rw [List.getLast?_eq_none_iff, List.filter_eq_nil_iff] at hlast
      simp only [Option.map_none, Option.getD_none, List.drop_zero, hx, true_iff]
      exact fun e he hle => absurd (by simpa using hle) (hlast e he)
  | some last =>
      have hmem := List.mem_of_getLast? hlast
      simp only [List.mem_filter, decide_eq_true_eq] at hmem
      simp only [Option.map_some, Option.getD_some]
      rw [h.mem_drop_chunk hmem.1 hx]
      constructor
      · intro hle e he hfrom
        have hin : e ∈ log.idx.filter fun e => decide (e.tpSeqNo ≤ fromSeq) :=
          List.mem_filter.mpr ⟨he, by simpa using hfrom⟩
        have hasc := h.ascending.filter fun e => decide (e.tpSeqNo ≤ fromSeq)
        obtain rfl | hlt := eq_or_rel_getLast hasc hlast hin
        · exact hle
        · omega
      · exact fun hall => hall last hmem.1 hmem.2

/-! ## All logs -/

section

variable {startSeq : Nat} {logs : List (DailyLog δ)}

private theorem mem_candidates {i : Nat} :
    i ∈ ((List.range logs.length).filter fun i =>
      (logs[i]?.bind (·.firstSeq)).any fun f => decide (f ≤ startSeq)) ↔
    ∃ l f, logs[i]? = some l ∧ l.firstSeq = some f ∧ f ≤ startSeq := by
  simp only [List.mem_filter, List.mem_range, Option.any_eq_true, Option.bind_eq_some_iff,
    decide_eq_true_eq]
  constructor
  · rintro ⟨-, f, ⟨l, hl, hf⟩, hle⟩
    exact ⟨l, f, hl, hf, hle⟩
  · rintro ⟨l, f, hl, hf, hle⟩
    exact ⟨(List.getElem?_eq_some_iff.mp hl).1, f, ⟨l, hl, hf⟩, hle⟩

/-- No log after the one the scan starts with begins at or below the start. -/
theorem startIdx_last {i : Nat} {l : DailyLog δ} {f : Nat} (hl : logs[i]? = some l)
    (hf : l.firstSeq = some f) (hle : f ≤ startSeq) : i ≤ startIdx startSeq logs := by
  have hmem := mem_candidates.mpr ⟨l, f, hl, hf, hle⟩
  simp only [startIdx]
  cases hlast : ((List.range logs.length).filter fun i =>
      (logs[i]?.bind (·.firstSeq)).any fun f => decide (f ≤ startSeq)).getLast? with
  | none =>
      rw [List.getLast?_eq_none_iff] at hlast
      rw [hlast] at hmem
      exact absurd hmem List.not_mem_nil
  | some last =>
      have hasc : ((List.range logs.length).filter fun i =>
          (logs[i]?.bind (·.firstSeq)).any fun f => decide (f ≤ startSeq)).Pairwise (· < ·) :=
        List.pairwise_lt_range.filter _
      simp only [Option.getD_some]
      obtain rfl | hlt := eq_or_rel_getLast hasc hlast hmem
      · exact le_rfl
      · exact hlt.le

/-- The log the scan starts with begins at or below the start, or is the oldest. -/
theorem startIdx_candidate (startSeq : Nat) (logs : List (DailyLog δ)) :
    startIdx startSeq logs = 0 ∨ ∃ l f, logs[startIdx startSeq logs]? = some l ∧
      l.firstSeq = some f ∧ f ≤ startSeq := by
  simp only [startIdx]
  cases hlast : ((List.range logs.length).filter fun i =>
      (logs[i]?.bind (·.firstSeq)).any fun f => decide (f ≤ startSeq)).getLast? with
  | none => exact Or.inl rfl
  | some last => exact Or.inr (mem_candidates.mp (List.mem_of_getLast? hlast))

theorem LogsSound.ordered (h : LogsSound logs) :
    logs.Pairwise fun a b => ∀ x ∈ a.rows, ∀ y ∈ b.rows, x.2.tpSeqNo < y.2.tpSeqNo :=
  (List.pairwise_flatMap.mp h.rows).2

theorem LogsSound.rows_of_mem (h : LogsSound logs) {log : DailyLog δ} (hlog : log ∈ logs) :
    log.rows.Pairwise fun a b => a.2.tpSeqNo < b.2.tpSeqNo :=
  (List.pairwise_flatMap.mp h.rows).1 log hlog

/-- The first number of a log is the lowest of its rows. -/
theorem DailyLog.firstSeq_le {log : DailyLog δ}
    (hrows : log.rows.Pairwise fun a b => a.2.tpSeqNo < b.2.tpSeqNo) {f : Nat}
    (hf : log.firstSeq = some f) : (∃ x ∈ log.rows, x.2.tpSeqNo = f) ∧
      ∀ x ∈ log.rows, f ≤ x.2.tpSeqNo := by
  simp only [firstSeq] at hf
  cases hlog : log.rows with
  | nil => simp [hlog] at hf
  | cons y rest =>
      rw [hlog] at hf hrows
      obtain rfl : y.2.tpSeqNo = f := by simpa using hf
      refine ⟨⟨y, List.mem_cons_self, rfl⟩, fun x hx => ?_⟩
      obtain rfl | hx := List.mem_cons.mp hx
      · exact le_rfl
      · exact (List.rel_of_pairwise_cons hrows hx).le

/-- A log is read exactly if no log that begins above its row is a candidate. -/
theorem mem_drop_startIdx (h : LogsSound logs) {log : DailyLog δ} (hlog : log ∈ logs)
    {x : WdbTable × Row δ} (hx : x ∈ log.rows) :
    log ∈ logs.drop (startIdx startSeq logs) ↔
      ∀ l ∈ logs, ∀ f, l.firstSeq = some f → f ≤ startSeq → f ≤ x.2.tpSeqNo := by
  have hord := h.ordered
  constructor
  · intro hdrop l hl f hf hle
    obtain ⟨i, hi⟩ := List.mem_iff_getElem?.mp hl
    obtain ⟨j, hj⟩ := List.mem_iff_getElem?.mp hdrop
    rw [List.getElem?_drop] at hj
    have hij := startIdx_last hi hf hle
    have hfirst := DailyLog.firstSeq_le (h.rows_of_mem hl) hf
    obtain hlt | heq := (Nat.le_add_right_of_le (k := j) hij).lt_or_eq
    · obtain ⟨y, hy, rfl⟩ := hfirst.1
      obtain ⟨hi', rfl⟩ := List.getElem?_eq_some_iff.mp hi
      obtain ⟨hj', rfl⟩ := List.getElem?_eq_some_iff.mp hj
      exact (List.pairwise_iff_getElem.mp hord i _ hi' hj' hlt y hy x hx).le
    · rw [heq, hj] at hi
      obtain rfl := Option.some.inj hi
      exact hfirst.2 x hx
  · intro hall
    obtain ⟨i, hi⟩ := List.mem_iff_getElem?.mp hlog
    by_contra hdrop
    have hlt : i < startIdx startSeq logs := by
      by_contra hge
      apply hdrop
      apply List.mem_iff_getElem?.mpr
      refine ⟨i - startIdx startSeq logs, ?_⟩
      rw [List.getElem?_drop, ← hi]
      congr 1
      omega
    obtain h0 | ⟨l, f, hl, hf, hle⟩ := startIdx_candidate startSeq logs
    · omega
    · have hl' := List.mem_of_getElem? hl
      obtain ⟨y, hy, rfl⟩ := (DailyLog.firstSeq_le (h.rows_of_mem hl') hf).1
      have hbelow := hall l hl' _ hf hle
      obtain ⟨hi', rfl⟩ := List.getElem?_eq_some_iff.mp hi
      obtain ⟨hk', rfl⟩ := List.getElem?_eq_some_iff.mp hl
      exact absurd hbelow (not_le.mpr (List.pairwise_iff_getElem.mp hord i _ hi' hk' hlt x hx y hy))

/-- Of the rows up to the cutoff the committed length cuts off none. -/
theorem mem_replayFrom {log : DailyLog δ} {info : ReplayInfo}
    (hcov : log.date = info.today → ∀ y ∈ log.rows.drop info.committed,
      info.cutoff < y.2.tpSeqNo)
    {x : WdbTable × Row δ} (hcut : x.2.tpSeqNo ≤ info.cutoff) (fromSeq : Nat) :
    x ∈ log.replayFrom info fromSeq ↔ x ∈ log.rows.drop (log.seek fromSeq) := by
  simp only [DailyLog.replayFrom]
  split_ifs with hday
  · constructor
    · exact fun h => ((List.take_sublist info.committed log.rows).drop _).subset h
    · intro h
      rw [← List.take_append_drop info.committed log.rows, List.drop_append] at h
      obtain h | h := List.mem_append.mp h
      · exact h
      · exact absurd hcut (not_le.mpr (hcov hday x (List.mem_of_mem_drop h)))
  · rw [List.take_length]

/-- What a scan from `startSeq` hands to `stageRow` of the rows up to the cutoff. -/
theorem mem_scan (h : LogsSound logs) {info : ReplayInfo} (hcov : Covers info logs)
    {x : WdbTable × Row δ} (hcut : x.2.tpSeqNo ≤ info.cutoff) :
    x ∈ (logs.drop (startIdx startSeq logs)).flatMap (·.replayFrom info startSeq) ↔
      ∃ log ∈ logs, x ∈ log.rows ∧ ¬ Skips logs log startSeq x.2.tpSeqNo := by
  have hskips : ∀ log, ¬ Skips logs log startSeq x.2.tpSeqNo ↔
      (∀ l ∈ logs, ∀ f, l.firstSeq = some f → f ≤ startSeq → f ≤ x.2.tpSeqNo) ∧
        ∀ e ∈ log.idx, e.tpSeqNo ≤ startSeq → e.tpSeqNo ≤ x.2.tpSeqNo := by
    intro log
    simp only [Skips]
    push Not
    exact and_congr
      ⟨fun h l hl f hf hle => not_lt.mp fun hlt => absurd hle (not_le.mpr (h l hl f hf hlt)),
        fun h l hl f hf hlt => not_le.mp fun hle => absurd (h l hl f hf hle) (not_le.mpr hlt)⟩
      ⟨fun h e he hle => not_lt.mp fun hlt => absurd hle (not_le.mpr (h e he hlt)),
        fun h e he hlt => not_le.mp fun hle => absurd (h e he hle) (not_le.mpr hlt)⟩
  simp only [List.mem_flatMap]
  constructor
  · rintro ⟨log, hdrop, hx⟩
    have hlog := List.mem_of_mem_drop hdrop
    rw [mem_replayFrom (hcov log hlog) hcut] at hx
    have hrow := List.mem_of_mem_drop hx
    exact ⟨log, hlog, hrow, (hskips log).mpr
      ⟨(mem_drop_startIdx h hlog hrow).mp hdrop, (mem_drop_seek (h.index log hlog) _ hrow).mp hx⟩⟩
  · rintro ⟨log, hlog, hrow, hno⟩
    obtain ⟨hfirst, hidx⟩ := (hskips log).mp hno
    refine ⟨log, (mem_drop_startIdx h hlog hrow).mpr hfirst, ?_⟩
    rw [mem_replayFrom (hcov log hlog) hcut]
    exact (mem_drop_seek (h.index log hlog) _ hrow).mpr hidx

end

/-! ## What is staged and merged -/

theorem Skips.mono {logs : List (DailyLog δ)} {log : DailyLog δ} {start start' n : Nat}
    (hle : start ≤ start') (h : Skips logs log start n) : Skips logs log start' n := by
  obtain ⟨l, hl, f, hf, hlt, hfs⟩ | ⟨e, he, hlt, hes⟩ := h
  · exact Or.inl ⟨l, hl, f, hf, hlt, hfs.trans hle⟩
  · exact Or.inr ⟨e, he, hlt, hes.trans hle⟩

/-- A scan that starts at or below a row does not miss it. -/
theorem not_skips_of_le {logs : List (DailyLog δ)} {log : DailyLog δ} {start n : Nat}
    (hle : start ≤ n) : ¬ Skips logs log start n := by
  rintro (⟨l, -, f, -, hlt, hfs⟩ | ⟨e, -, hlt, hes⟩)
  · omega
  · omega

theorem mem_stageRows {floor : WdbTable → Nat} {cutoff : Nat} {rows : List (WdbTable × Row δ)}
    {x : WdbTable × Row δ} : x.2 ∈ stageRows floor cutoff rows x.1 ↔
      x ∈ rows ∧ floor x.1 < x.2.tpSeqNo ∧ x.2.tpSeqNo ≤ cutoff := by
  simp only [stageRows, rowsOf, List.mem_filter, List.mem_map, decide_eq_true_eq]
  constructor
  · rintro ⟨⟨y, ⟨hy, ht⟩, hr⟩, hbound⟩
    exact ⟨(Prod.ext ht hr : y = x) ▸ hy, hbound⟩
  · rintro ⟨hx, hbound⟩
    exact ⟨⟨x, ⟨hx, rfl⟩, rfl⟩, hbound⟩

/-- What the logs hand over is in order. -/
theorem scan_ascending {logs : List (DailyLog δ)} (h : LogsSound logs) (info : ReplayInfo)
    (startSeq i : Nat) : ((logs.drop i).flatMap (·.replayFrom info startSeq)).Pairwise
      fun a b => a.2.tpSeqNo < b.2.tpSeqNo := by
  have hread : ∀ log : DailyLog δ, (log.replayFrom info startSeq).Sublist log.rows := fun log =>
    (List.drop_sublist _ _).trans (List.take_sublist _ _)
  have hsplit : logs.flatMap (·.rows)
      = (logs.take i).flatMap (·.rows) ++ (logs.drop i).flatMap (·.rows) := by
    rw [← List.flatMap_append, List.take_append_drop]
  have hsub : ((logs.drop i).flatMap (·.replayFrom info startSeq)).Sublist
      ((logs.drop i).flatMap (·.rows)) := by
    induction logs.drop i with
    | nil => exact List.Sublist.refl _
    | cons log rest ih => exact (hread log).append ih
  exact (hsplit ▸ h.rows).sublist (hsub.trans (List.sublist_append_right _ _))

namespace WdbProcess

variable {info : ReplayInfo} {logs : List (DailyLog δ)} {s : WdbProcess δ}
  {stage : WdbTable → List (Row δ)}

/-- The staged rows of a table are in order and between its floor and the cutoff. -/
theorem readLogs_ascending (h : LogsSound logs) (hread : s.readLogs info logs = some stage)
    (t : WdbTable) : (stage t).Pairwise fun a b => a.tpSeqNo < b.tpSeqNo := by
  simp only [readLogs] at hread
  split at hread
  · cases hread
    exact List.Pairwise.nil
  · split_ifs at hread
    · cases hread
      exact List.Pairwise.nil
    · cases hread
      apply List.Pairwise.filter
      apply List.Pairwise.map _ _ ((scan_ascending h info _ _).filter _)
      exact fun a b hab => hab

/-- A row is staged if the lowest of the starts reaches it. -/
theorem mem_readLogs (h : LogsSound logs) (hcov : Covers info logs)
    (hcutoff : s.stageCutoff = info.cutoff) (hread : s.readLogs info logs = some stage)
    (x : WdbTable × Row δ) : x.2 ∈ stage x.1 ↔
      (s.stageFloor x.1 < x.2.tpSeqNo ∧ x.2.tpSeqNo ≤ info.cutoff) ∧ Reached info logs s x := by
  have hstart : ∀ t start, s.startOf info.firstTp t = some start ↔
      start ∈ tables.filterMap (s.startOf info.firstTp) ∧ s.startOf info.firstTp t = some start :=
    fun t start =>
      ⟨fun ht => ⟨List.mem_filterMap.mpr ⟨t, mem_tables t, ht⟩, ht⟩, And.right⟩
  simp only [readLogs] at hread
  split at hread
  case h_1 hmin =>
    cases hread
    rw [List.min?_eq_none_iff] at hmin
    refine iff_of_false List.not_mem_nil ?_
    rintro ⟨-, t, start, ht, -⟩
    exact List.not_mem_nil (hmin ▸ ((hstart t start).mp ht).1)
  case h_2 startSeq hmin =>
    obtain ⟨hmem, hle⟩ := List.min?_eq_some_iff.mp hmin
    obtain ⟨t₀, -, ht₀⟩ := List.mem_filterMap.mp hmem
    split_ifs at hread with hlate
    · cases hread
      refine iff_of_false List.not_mem_nil ?_
      rintro ⟨-, t, start, ht, hcut, -⟩
      exact absurd (hlate.trans_le (hle start ((hstart t start).mp ht).1)) (not_lt.mpr hcut)
    · cases hread
      rw [mem_stageRows, hcutoff]
      constructor
      · rintro ⟨hscan, hbound⟩
        rw [mem_scan h hcov hbound.2] at hscan
        exact ⟨hbound, t₀, startSeq, ht₀, not_lt.mp hlate, hscan⟩
      · rintro ⟨hbound, t, start, ht, -, log, hlog, hx, hno⟩
        refine ⟨?_, hbound⟩
        rw [mem_scan h hcov hbound.2]
        exact ⟨log, hlog, hx, fun hskip => hno (hskip.mono (hle start ((hstart t start).mp ht).1))⟩

/-- Of the rows up to the cutoff a replay merges what it staged. -/
theorem merged_iff (hbuf : s.Buffered) (maxRows : Nat) (io : WdbTable → Nat → FlushIO)
    (hasc : ∀ t, (stage t).Pairwise fun a b => a.tpSeqNo < b.tpSeqNo)
    (habove : ∀ t, ∀ r ∈ stage t, s.floor t < r.tpSeqNo) {x : WdbTable × Row δ}
    (hcut : x.2.tpSeqNo ≤ s.replayCutoff) :
    Merged s (s.completeReplay maxRows io stage) x ↔ x.2 ∈ stage x.1 := by
  have hmerge := mergeStaged_took hbuf maxRows io stage
  have hdrain := drainAll_took hmerge.buffered maxRows io
  have hreceived : (s.completeReplay maxRows io stage).received x.1
      = s.received x.1 ++ (stage x.1 ++ admitted (·.tpSeqNo)
          ((s.mergeStaged maxRows io stage).floor x.1)
          ((s.mergeStaged maxRows io stage).newLive x.1)) := by
    rw [completeReplay_received, hdrain.received, hmerge.received,
      admitted_eq_self (hasc x.1) (habove x.1), List.append_assoc]
  have hlive : x.2 ∉ admitted (·.tpSeqNo) ((s.mergeStaged maxRows io stage).floor x.1)
      ((s.mergeStaged maxRows io stage).newLive x.1) := by
    intro hx
    have hnew := (admitted_sublist _).subset hx
    simp only [newLive, List.mem_filter, decide_eq_true_eq, hmerge.replayCutoff] at hnew
    exact absurd hcut (not_le.mpr hnew.2)
  simp only [Merged, hreceived]
  constructor
  · rintro ⟨rows, hrows, hx⟩
    rw [← List.append_cancel_left hrows] at hx
    exact (List.mem_append.mp hx).resolve_right hlive
  · exact fun hx => ⟨_, rfl, List.mem_append_left _ hx⟩

end WdbProcess

end TickToSignal.Wdb
