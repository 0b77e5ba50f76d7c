import TickToSignal.Wdb.Store

/-!
# The flush path and the roll

`flushTable` is the only writer of `tmp.<date>`: it writes a table's buffer
date by date in ascending order, stops at the first failure, and advances the
checkpoint if no unwritten row has a lower `tpSeqNo` than a written one.
-/

namespace TickToSignal.Wdb

open Foundation

variable {δ : Type*}

/-- What the clock and the file system answer during one flush. A failed write
writes nothing. -/
structure FlushIO where
  today : Date
  writes : Date → Bool
  saves : Bool

/-- The variables of the write loop. -/
structure WriteLoop (δ : Type*) where
  tmp : List (Stored δ)
  written : List (Row δ)
  remaining : List (Row δ)
  ok : Bool

/-- `asc distinct dates`. -/
def distinctDates (tbl : List (Row δ)) : List Date :=
  ((tbl.map (·.date)).dedup.insertionSort (· ≤ ·))

/-- The write loop of `flushTable` with `writeRows` inside. -/
def writeDates (io : FlushIO) (t : WdbTable) (tbl : List (Row δ)) :
    List Date → WriteLoop δ → WriteLoop δ
  | [], loop => loop
  | d :: dlist, loop =>
      let rows := tbl.filter fun r => decide (r.date = d)
      if io.writes d then
        writeDates io t tbl dlist
          { tmp := loop.tmp ++ rows.map fun r => { dir := d, table := t, row := r }
            written := loop.written ++ rows
            remaining := tbl.filter fun r => decide (d < r.date)
            ok := true }
      else { loop with ok := false }

namespace WdbProcess

/-- The rows of a buffer that the defensive dedupe of a flush keeps. -/
def flushRows (t : WdbTable) (s : WdbProcess δ) : List (Row δ) :=
  (s.buffer t).filter fun r => decide (s.lastTpSeqNo t < r.tpSeqNo)

/-- The write loop as a flush starts it. -/
def runWrites (io : FlushIO) (t : WdbTable) (s : WdbProcess δ) : WriteLoop δ :=
  writeDates io t (s.flushRows t) (distinctDates (s.flushRows t))
    { tmp := s.disk.tmp, written := [], remaining := s.flushRows t, ok := true }

def setBuffer (t : WdbTable) (rows : List (Row δ)) (s : WdbProcess δ) : WdbProcess δ :=
  { s with buffer := Function.update s.buffer t rows }

/-- The state once the written rows are on disk and out of the buffer. -/
def keepWrites (t : WdbTable) (loop : WriteLoop δ) (s : WdbProcess δ) : WdbProcess δ :=
  { s with
    disk := { s.disk with tmp := loop.tmp }
    buffer := Function.update s.buffer t loop.remaining }

def setLast (t : WdbTable) (seq : Nat) (s : WdbProcess δ) : WdbProcess δ :=
  { s with lastTpSeqNo := Function.update s.lastTpSeqNo t seq }

/-- `.wdb.flushTable`: whether the whole buffer was written and the checkpoint saved. -/
def flushTable (io : FlushIO) (t : WdbTable) (s : WdbProcess δ) : Bool × WdbProcess δ :=
  if s.buffer t = [] then (true, s)
  else if s.flushRows t = [] then (true, s.setBuffer t [])
  else
    let loop := s.runWrites io t
    if loop.written = [] then (false, s)
    else
      let s := s.keepWrites t loop
      let maxWritten := watermark (·.tpSeqNo) 0 loop.written
      -- an empty rest passes the comparison with its minimum
      if (∀ r ∈ loop.remaining, maxWritten < r.tpSeqNo) ∧ s.lastTpSeqNo t < maxWritten then
        let (saved, s) := (s.setLast t maxWritten).saveCheckpoint io.saves (some io.today)
        (loop.ok && saved, s)
      else (loop.ok, s)

/-- `.wdb.flushAll`: every table is flushed, whatever the others return. -/
def flushAll (io : WdbTable → FlushIO) (s : WdbProcess δ) : Bool × WdbProcess δ :=
  tables.foldl (fun acc t =>
    let (ok, s) := acc.2.flushTable (io t) t
    (acc.1 && ok, s)) (true, s)

/-- The directory of date `d` moves into the HDB. -/
def moveDir (d : Date) (s : WdbProcess δ) : WdbProcess δ :=
  { s with
    disk :=
      { s.disk with
        tmp := s.disk.tmp.filter fun e => decide (e.dir ≠ d)
        hdb := s.disk.hdb ++ s.disk.tmp.filter fun e => decide (e.dir = d) } }

/-- `.wdb.rollDate`; `moves` says whether the sorts and the `mv` succeed. An
existing partition is never merged into. -/
def rollDate (moves : Bool) (d : Date) (s : WdbProcess δ) : Bool × WdbProcess δ :=
  if s.disk.hasPartition d then (false, s)
  else if moves then (true, s.moveDir d)
  else (false, s)

def rollDates (moves : Date → Bool) : List Date → WdbProcess δ → WdbProcess δ
  | [], s => s
  | d :: ds, s => rollDates moves ds (s.rollDate (moves d) d).2

/-- `.wdb.roll`: nothing moves unless every flush succeeded. -/
def roll (today : Date) (io : WdbTable → FlushIO) (moves : Date → Bool) (s : WdbProcess δ) :
    WdbProcess δ :=
  if s.halted then s
  else
    let (flushOk, s) := s.flushAll io
    if flushOk then rollDates moves (s.disk.pendingTmpDates today) s else s

/-- `.wdb.shutdown`. -/
def shutdown (io : WdbTable → FlushIO) (s : WdbProcess δ) : WdbProcess δ :=
  if s.halted then s else (s.flushAll io).2

end WdbProcess

/-! ## The write loop -/

theorem mem_distinctDates {tbl : List (Row δ)} {d : Date} :
    d ∈ distinctDates tbl ↔ ∃ r ∈ tbl, r.date = d := by
  simp [distinctDates]

theorem distinctDates_ascending (tbl : List (Row δ)) : (distinctDates tbl).Pairwise (· < ·) := by
  have hsorted : (distinctDates tbl).Pairwise (· ≤ ·) := List.pairwise_insertionSort (· ≤ ·) _
  have hnodup : (distinctDates tbl).Nodup :=
    (List.perm_insertionSort (· ≤ ·) _).nodup_iff.mpr (List.nodup_dedup _)
  exact hsorted.and hnodup |>.imp fun h => lt_of_le_of_ne h.1 h.2

/-- Before the loop reaches the dates `dlist`: what is written and what remains
make up the table, and what remains is what `dlist` is about. -/
structure Written (t : WdbTable) (tmp : List (Stored δ)) (tbl : List (Row δ)) (dlist : List Date)
    (loop : WriteLoop δ) : Prop where
  tmp_eq : loop.tmp = tmp ++ loop.written.map fun r => { dir := r.date, table := t, row := r }
  perm : (loop.written ++ loop.remaining).Perm tbl
  remaining : loop.remaining = tbl.filter fun r => decide (r.date ∈ dlist)

/-- Writing the next date keeps the account. -/
theorem Written.next {t : WdbTable} {tmp : List (Stored δ)} {tbl : List (Row δ)} {d : Date}
    {dlist : List Date} {loop : WriteLoop δ} (h : Written t tmp tbl (d :: dlist) loop)
    (hasc : (d :: dlist).Pairwise (· < ·)) (hall : ∀ r ∈ tbl, d < r.date → r.date ∈ dlist) :
    Written t tmp tbl dlist
      { tmp := loop.tmp ++ (tbl.filter fun r => decide (r.date = d)).map fun r =>
          { dir := d, table := t, row := r }
        written := loop.written ++ tbl.filter fun r => decide (r.date = d)
        remaining := tbl.filter fun r => decide (d < r.date)
        ok := true } := by
  have hrest : (tbl.filter fun r => decide (d < r.date))
      = tbl.filter fun r => decide (r.date ∈ dlist) := by
    apply List.filter_congr
    intro r hr
    exact decide_eq_decide.mpr ⟨hall r hr, fun hd => List.rel_of_pairwise_cons hasc hd⟩
  have hsplit : (tbl.filter fun r => decide (r.date ∈ d :: dlist)).Perm
      ((tbl.filter fun r => decide (r.date = d)) ++ tbl.filter fun r => decide (r.date ∈ dlist)) := by
    have hd : d ∉ dlist := fun hd => lt_irrefl d (List.rel_of_pairwise_cons hasc hd)
    have hp := List.filter_append_perm (fun r => decide (r.date = d))
      (tbl.filter fun r => decide (r.date ∈ d :: dlist))
    refine hp.symm.trans (List.Perm.of_eq ?_)
    rw [List.filter_filter, List.filter_filter]
    congr 1
    · apply List.filter_congr
      intro r _
      by_cases hr : r.date = d <;> simp [hr]
    · apply List.filter_congr
      intro r _
      by_cases hr : r.date = d
      · simp [hr, hd]
      · simp [hr]
  refine { tmp_eq := ?_, perm := ?_, remaining := hrest }
  · have hdir : ((tbl.filter fun r => decide (r.date = d)).map fun r =>
          ({ dir := d, table := t, row := r } : Stored δ))
        = (tbl.filter fun r => decide (r.date = d)).map fun r =>
          { dir := r.date, table := t, row := r } := by
      apply List.map_congr_left
      intro r hr
      simp only [List.mem_filter, decide_eq_true_eq] at hr
      rw [hr.2]
    simp only [h.tmp_eq, List.map_append, List.append_assoc, hdir]
  · rw [hrest, List.append_assoc]
    refine (List.Perm.append_left _ hsplit.symm).trans ?_
    rw [← h.remaining]
    exact h.perm

/-- What the loop leaves behind, and which rows it wrote. -/
theorem writeDates_spec (io : FlushIO) {t : WdbTable} {tmp : List (Stored δ)} {tbl : List (Row δ)}
    {dlist : List Date} {loop : WriteLoop δ} (h : Written t tmp tbl dlist loop)
    (hasc : dlist.Pairwise (· < ·))
    (hall : ∀ r ∈ tbl, r.date ∈ dlist ∨ ∀ d ∈ dlist, r.date < d) :
    let out := writeDates io t tbl dlist loop
    Written t tmp tbl (dlist.dropWhile io.writes) out ∧
      (out.ok = true → out.remaining = []) ∧
      ∀ r, r ∈ out.written ↔
        r ∈ loop.written ∨ (r ∈ tbl ∧ r.date ∈ dlist.takeWhile io.writes) := by
  induction dlist generalizing loop with
  | nil =>
      refine ⟨h, fun _ => ?_, fun r => by simp [writeDates]⟩
      have hnone := h.remaining
      simpa [writeDates] using hnone
  | cons d dlist ih =>
      simp only [writeDates]
      have habove : ∀ r ∈ tbl, d < r.date → r.date ∈ dlist := by
        intro r hr hd
        obtain hm | hm := hall r hr
        · exact (List.mem_cons.mp hm).resolve_left hd.ne'
        · exact absurd (hm d List.mem_cons_self) hd.not_gt
      have hrest : ∀ r ∈ tbl, r.date ∈ dlist ∨ ∀ x ∈ dlist, r.date < x := by
        intro r hr
        obtain hm | hm := hall r hr
        · obtain hd | hm := List.mem_cons.mp hm
          · exact Or.inr fun x hx => hd ▸ List.rel_of_pairwise_cons hasc hx
          · exact Or.inl hm
        · exact Or.inr fun x hx => hm x (List.mem_cons_of_mem d hx)
      cases hw : io.writes d with
      | true =>
          obtain ⟨hout, hdone, hmem⟩ := ih (h.next hasc habove) hasc.of_cons hrest
          rw [if_pos rfl, List.dropWhile_cons_of_pos hw, List.takeWhile_cons_of_pos hw]
          refine ⟨hout, hdone, fun r => (hmem r).trans ?_⟩
          simp only [List.mem_append, List.mem_filter, decide_eq_true_eq, List.mem_cons]
          constructor
          · rintro ((hr | ⟨hr, hd⟩) | ⟨hr, hd⟩)
            · exact Or.inl hr
            · exact Or.inr ⟨hr, Or.inl hd⟩
            · exact Or.inr ⟨hr, Or.inr hd⟩
          · rintro (hr | ⟨hr, hd | hd⟩)
            · exact Or.inl (Or.inl hr)
            · exact Or.inl (Or.inr ⟨hr, hd⟩)
            · exact Or.inr ⟨hr, hd⟩
      | false =>
          rw [if_neg (by simp), List.dropWhile_cons_of_neg (by simp [hw]),
            List.takeWhile_cons_of_neg (by simp [hw])]
          refine ⟨{ h with }, by simp, by simp⟩

namespace WdbProcess

/-- What a flush's loop did to the rows it was given. -/
structure LoopSpec (io : FlushIO) (t : WdbTable) (s : WdbProcess δ) (out : WriteLoop δ) :
    Prop where
  tmp_eq : out.tmp =
    s.disk.tmp ++ out.written.map fun r => { dir := r.date, table := t, row := r }
  perm : (out.written ++ out.remaining).Perm (s.flushRows t)
  remaining_sublist : out.remaining.Sublist (s.flushRows t)
  ok : out.ok = true → out.remaining = []
  mem_written : ∀ r, r ∈ out.written ↔
    r ∈ s.flushRows t ∧ r.date ∈ (distinctDates (s.flushRows t)).takeWhile io.writes

/-- The loop of a flush stops with the account of `writeDates_spec`. -/
theorem runWrites_written (io : FlushIO) (t : WdbTable) (s : WdbProcess δ) :
    Written t s.disk.tmp (s.flushRows t) ((distinctDates (s.flushRows t)).dropWhile io.writes)
        (s.runWrites io t) ∧
      ((s.runWrites io t).ok = true → (s.runWrites io t).remaining = []) ∧
      ∀ r, r ∈ (s.runWrites io t).written ↔
        r ∈ s.flushRows t ∧ r.date ∈ (distinctDates (s.flushRows t)).takeWhile io.writes := by
  have hdates : ∀ r ∈ s.flushRows t, r.date ∈ distinctDates (s.flushRows t) :=
    fun r hr => mem_distinctDates.mpr ⟨r, hr, rfl⟩
  have hstart : Written t s.disk.tmp (s.flushRows t) (distinctDates (s.flushRows t))
      { tmp := s.disk.tmp, written := [], remaining := s.flushRows t, ok := true } :=
    { tmp_eq := by simp
      perm := by simp
      remaining := (List.filter_eq_self.mpr fun r hr => by simpa using hdates r hr).symm }
  obtain ⟨hout, hdone, hmem⟩ := writeDates_spec io hstart (distinctDates_ascending _)
    fun r hr => Or.inl (hdates r hr)
  exact ⟨hout, hdone, fun r => (hmem r).trans (by simp)⟩

theorem runWrites_spec (io : FlushIO) (t : WdbTable) (s : WdbProcess δ) :
    LoopSpec io t s (s.runWrites io t) := by
  obtain ⟨hout, hdone, hmem⟩ := runWrites_written io t s
  exact
    { tmp_eq := hout.tmp_eq
      perm := hout.perm
      remaining_sublist := by
        rw [hout.remaining]
        exact List.filter_sublist
      ok := hdone
      mem_written := hmem }

/-- A date is written whole or remains whole. -/
theorem runWrites_apart (io : FlushIO) (t : WdbTable) (s : WdbProcess δ) {r : Row δ}
    (hr : r ∈ (s.runWrites io t).written) : r ∉ (s.runWrites io t).remaining := by
  obtain ⟨hout, -, hmem⟩ := runWrites_written io t s
  have hdone := ((hmem r).mp hr).2
  rw [hout.remaining]
  intro hrest
  have hleft : r.date ∈ (distinctDates (s.flushRows t)).dropWhile io.writes := by
    simpa using (List.mem_filter.mp hrest).2
  have hasc := distinctDates_ascending (s.flushRows t)
  rw [← List.takeWhile_append_dropWhile (p := io.writes) (l := distinctDates (s.flushRows t)),
    List.pairwise_append] at hasc
  exact lt_irrefl _ (hasc.2.2 _ hdone _ hleft)

/-! ## What a flush can do -/

/-- A flush does nothing, or drops a buffer of old rows, or writes; a write may
advance the checkpoint, and an advance may be saved. -/
theorem flushTable_cases (io : FlushIO) (t : WdbTable) (s : WdbProcess δ) :
    let loop := s.runWrites io t
    let m := watermark (·.tpSeqNo) 0 loop.written
    let s' := (s.flushTable io t).2
    s' = s ∨ (s.flushRows t = [] ∧ s' = s.setBuffer t []) ∨ s' = s.keepWrites t loop ∨
      ((∀ r ∈ loop.remaining, m < r.tpSeqNo) ∧ s.lastTpSeqNo t < m ∧
        ∃ saves d, s' = (((s.keepWrites t loop).setLast t m).saveCheckpoint saves d).2) := by
  simp only [flushTable]
  split_ifs with hempty hold hnone hadvance
  · exact Or.inl rfl
  · exact Or.inr (Or.inl ⟨hold, rfl⟩)
  · exact Or.inl rfl
  · exact Or.inr (Or.inr (Or.inr ⟨hadvance.1, hadvance.2, _, _, rfl⟩))
  · exact Or.inr (Or.inr (Or.inl rfl))

theorem flushTable_last_le (io : FlushIO) (t x : WdbTable) (s : WdbProcess δ) :
    s.lastTpSeqNo x ≤ (s.flushTable io t).2.lastTpSeqNo x := by
  obtain h | ⟨-, h⟩ | h | ⟨-, hlt, saves, d, h⟩ := flushTable_cases io t s
  · rw [h]
  · rw [h]
    exact le_rfl
  · rw [h]
    exact le_rfl
  · have hlast : (s.flushTable io t).2.lastTpSeqNo x
        = Function.update s.lastTpSeqNo t (watermark (·.tpSeqNo) 0 (s.runWrites io t).written) x := by
      rw [h]
      cases saves <;> rfl
    rw [hlast]
    by_cases hx : x = t
    · subst hx
      rw [Function.update_self]
      exact hlt.le
    · rw [Function.update_of_ne hx]

/-- The state of the connection and of the replay, which no row touches; the
checkpoint in memory only moves up. -/
structure SessionFrame (s s' : WdbProcess δ) : Prop where
  halted : s'.halted = s.halted
  replayMode : s'.replayMode = s.replayMode
  replayCutoff : s'.replayCutoff = s.replayCutoff
  stageFloor : s'.stageFloor = s.stageFloor
  stageCutoff : s'.stageCutoff = s.stageCutoff
  conn : s'.conn = s.conn
  last_le : ∀ t, s.lastTpSeqNo t ≤ s'.lastTpSeqNo t

theorem SessionFrame.refl (s : WdbProcess δ) : SessionFrame s s :=
  ⟨rfl, rfl, rfl, rfl, rfl, rfl, fun _ => le_rfl⟩

theorem SessionFrame.trans {s s' s'' : WdbProcess δ} (h : SessionFrame s s')
    (h' : SessionFrame s' s'') : SessionFrame s s'' :=
  { halted := h'.halted.trans h.halted
    replayMode := h'.replayMode.trans h.replayMode
    replayCutoff := h'.replayCutoff.trans h.replayCutoff
    stageFloor := h'.stageFloor.trans h.stageFloor
    stageCutoff := h'.stageCutoff.trans h.stageCutoff
    conn := h'.conn.trans h.conn
    last_le := fun t => (h.last_le t).trans (h'.last_le t) }

/-- The part of a process no flush and no roll touches. -/
structure Frame (s s' : WdbProcess δ) : Prop extends SessionFrame s s' where
  bufMaxSeq : s'.bufMaxSeq = s.bufMaxSeq
  received : s'.received = s.received
  replayLiveBuffer : s'.replayLiveBuffer = s.replayLiveBuffer

theorem Frame.refl (s : WdbProcess δ) : Frame s s :=
  { SessionFrame.refl s with bufMaxSeq := rfl, received := rfl, replayLiveBuffer := rfl }

theorem Frame.trans {s s' s'' : WdbProcess δ} (h : Frame s s') (h' : Frame s' s'') :
    Frame s s'' :=
  { h.toSessionFrame.trans h'.toSessionFrame with
    bufMaxSeq := h'.bufMaxSeq.trans h.bufMaxSeq
    received := h'.received.trans h.received
    replayLiveBuffer := h'.replayLiveBuffer.trans h.replayLiveBuffer }

theorem flushTable_frame (io : FlushIO) (t : WdbTable) (s : WdbProcess δ) :
    Frame s (s.flushTable io t).2 := by
  have hlast := fun x => flushTable_last_le io t x s
  obtain h | ⟨-, h⟩ | h | ⟨-, -, saves, d, h⟩ := flushTable_cases io t s
  · rw [h]
    exact Frame.refl s
  · rw [h] at hlast ⊢
    exact ⟨⟨rfl, rfl, rfl, rfl, rfl, rfl, hlast⟩, rfl, rfl, rfl⟩
  · rw [h] at hlast ⊢
    exact ⟨⟨rfl, rfl, rfl, rfl, rfl, rfl, hlast⟩, rfl, rfl, rfl⟩
  · rw [h] at hlast ⊢
    cases saves <;> exact ⟨⟨rfl, rfl, rfl, rfl, rfl, rfl, hlast⟩, rfl, rfl, rfl⟩

/-- A property that a flush of one table keeps is kept by `flushAll`. -/
theorem flushAll_induction {P : WdbProcess δ → Prop} (io : WdbTable → FlushIO)
    (hstep : ∀ s t, P s → P (s.flushTable (io t) t).2) {s : WdbProcess δ} (hs : P s) :
    P (s.flushAll io).2 := by
  suffices h : ∀ (ts : List WdbTable) (acc : Bool × WdbProcess δ), P acc.2 →
      P (ts.foldl (fun acc t => ((acc.1 && (acc.2.flushTable (io t) t).1),
        (acc.2.flushTable (io t) t).2)) acc).2 from h tables (true, s) hs
  intro ts
  induction ts with
  | nil => exact fun acc h => h
  | cons t ts ih => exact fun acc h => ih _ (hstep acc.2 t h)

/-- A property that one move keeps is kept by the loop over the dates. -/
theorem rollDates_induction {P : WdbProcess δ → Prop} {moves : Date → Bool} {ds : List Date}
    (hstep : ∀ s, ∀ d ∈ ds, moves d = true → s.disk.hasPartition d = false → P s →
      P (s.moveDir d)) {s : WdbProcess δ} (hs : P s) : P (rollDates moves ds s) := by
  induction ds generalizing s with
  | nil => exact hs
  | cons d ds ih =>
      apply ih fun s x hx => hstep s x (List.mem_cons_of_mem d hx)
      simp only [rollDate]
      split_ifs with hpart hmove
      · exact hs
      · exact hstep s d List.mem_cons_self hmove (by simpa using hpart) hs
      · exact hs

theorem flushAll_frame (io : WdbTable → FlushIO) (s : WdbProcess δ) :
    Frame s (s.flushAll io).2 :=
  flushAll_induction io (fun s' t h => h.trans (flushTable_frame (io t) t s')) (Frame.refl s)

theorem rollDates_frame (moves : Date → Bool) (ds : List Date) (s : WdbProcess δ) :
    Frame s (rollDates moves ds s) :=
  rollDates_induction
    (fun _ _ _ _ _ h => h.trans ⟨⟨rfl, rfl, rfl, rfl, rfl, rfl, fun _ => le_rfl⟩, rfl, rfl, rfl⟩) (Frame.refl s)

theorem roll_frame (today : Date) (io : WdbTable → FlushIO) (moves : Date → Bool)
    (s : WdbProcess δ) : Frame s (s.roll today io moves) := by
  simp only [roll]
  split_ifs
  · exact Frame.refl s
  · exact (flushAll_frame io s).trans (rollDates_frame moves _ _)
  · exact flushAll_frame io s

/-! ## The buffers -/

/-- Buffered rows are ascending, above the checkpoint and at or below the buffer's mark. -/
structure Buffered (s : WdbProcess δ) : Prop where
  ascending : ∀ t, (s.buffer t).Pairwise fun a b => a.tpSeqNo < b.tpSeqNo
  above : ∀ t, ∀ r ∈ s.buffer t, s.lastTpSeqNo t < r.tpSeqNo
  le : ∀ t, ∀ r ∈ s.buffer t, r.tpSeqNo ≤ s.bufMaxSeq t

/-- The defensive dedupe of a flush never drops a row. -/
theorem Buffered.flushRows_eq {s : WdbProcess δ} (h : Buffered s) (t : WdbTable) :
    s.flushRows t = s.buffer t :=
  List.filter_eq_self.mpr fun r hr => by simpa using h.above t r hr

theorem Buffered.setBuffer {s : WdbProcess δ} (h : Buffered s) {t : WdbTable}
    {rows : List (Row δ)} (hrows : rows.Sublist (s.buffer t)) : Buffered (s.setBuffer t rows) := by
  have hmem : ∀ x, ∀ r ∈ (s.setBuffer t rows).buffer x, r ∈ s.buffer x := by
    intro x r hr
    simp only [WdbProcess.setBuffer] at hr
    by_cases hx : x = t
    · subst hx
      rw [Function.update_self] at hr
      exact hrows.subset hr
    · rwa [Function.update_of_ne hx] at hr
  refine { ascending := ?_, above := ?_, le := ?_ }
  · intro x
    simp only [WdbProcess.setBuffer]
    by_cases hx : x = t
    · subst hx
      rw [Function.update_self]
      exact (h.ascending x).sublist hrows
    · rw [Function.update_of_ne hx]
      exact h.ascending x
  · exact fun x r hr => h.above x r (hmem x r hr)
  · exact fun x r hr => h.le x r (hmem x r hr)

theorem Buffered.keepWrites {s : WdbProcess δ} (h : Buffered s) (io : FlushIO) (t : WdbTable) :
    Buffered (s.keepWrites t (s.runWrites io t)) := by
  have hspec := runWrites_spec io t s
  have hset := h.setBuffer (h.flushRows_eq t ▸ hspec.remaining_sublist)
  exact { ascending := hset.ascending, above := hset.above, le := hset.le }

/-- The checkpoint may pass what is written as long as it stays below what remains. -/
theorem Buffered.setLast {s : WdbProcess δ} (h : Buffered s) {t : WdbTable} {m : Nat}
    (hm : ∀ r ∈ s.buffer t, m < r.tpSeqNo) : Buffered (s.setLast t m) := by
  refine { ascending := h.ascending, above := ?_, le := h.le }
  intro x r hr
  simp only [WdbProcess.setLast]
  by_cases hx : x = t
  · subst hx
    rw [Function.update_self]
    exact hm r hr
  · rw [Function.update_of_ne hx]
    exact h.above x r hr

theorem Buffered.saveCheckpoint {s : WdbProcess δ} (h : Buffered s) (ok : Bool) (d : Option Date) :
    Buffered (s.saveCheckpoint ok d).2 := by
  cases ok
  · exact h
  · exact { ascending := h.ascending, above := h.above, le := h.le }

theorem Buffered.flushTable {s : WdbProcess δ} (h : Buffered s) (io : FlushIO) (t : WdbTable) :
    Buffered (s.flushTable io t).2 := by
  obtain he | ⟨-, he⟩ | he | ⟨hrest, -, saves, d, he⟩ := flushTable_cases io t s
  · rwa [he]
  · rw [he]
    exact h.setBuffer (List.nil_sublist _)
  · rw [he]
    exact h.keepWrites io t
  · rw [he]
    apply Buffered.saveCheckpoint
    apply (h.keepWrites io t).setLast
    intro r hr
    simp only [WdbProcess.keepWrites, Function.update_self] at hr
    exact hrest r hr

/-- A flush moves rows to disk; the dedupe floor stays where it is. -/
theorem Buffered.flushTable_floor {s : WdbProcess δ} (h : Buffered s) (io : FlushIO)
    (t x : WdbTable) : (s.flushTable io t).2.floor x = s.floor x := by
  obtain he | ⟨-, he⟩ | he | ⟨-, hlt, saves, d, he⟩ := flushTable_cases io t s
  · rw [he]
  · rw [he]
    rfl
  · rw [he]
    rfl
  · have hspec := runWrites_spec io t s
    have hle : watermark (·.tpSeqNo) 0 (s.runWrites io t).written ≤ s.bufMaxSeq t := by
      apply watermark_le_iff.mpr
      refine ⟨Nat.zero_le _, fun r hr => ?_⟩
      have hr' : r ∈ s.flushRows t := hspec.perm.subset (List.mem_append_left _ hr)
      exact h.le t r (h.flushRows_eq t ▸ hr')
    have hsave : (s.flushTable io t).2.floor x
        = ((s.keepWrites t (s.runWrites io t)).setLast t
            (watermark (·.tpSeqNo) 0 (s.runWrites io t).written)).floor x := by
      rw [he]
      cases saves <;> rfl
    rw [hsave]
    simp only [floor, WdbProcess.setLast, WdbProcess.keepWrites]
    by_cases hx : x = t
    · subst hx
      rw [Function.update_self]
      omega
    · rw [Function.update_of_ne hx]

theorem saveCheckpoint_held (ok : Bool) (d : Option Date) (s : WdbProcess δ) (x : WdbTable) :
    (s.saveCheckpoint ok d).2.held x = s.held x := by
  cases ok <;> rfl

/-- Written rows go from the buffer to the disk. -/
theorem Buffered.keepWrites_held {s : WdbProcess δ} (h : Buffered s) (io : FlushIO)
    (t x : WdbTable) : ((s.keepWrites t (s.runWrites io t)).held x).Perm (s.held x) := by
  have hspec := runWrites_spec io t s
  have hperm : ((s.runWrites io t).written ++ (s.runWrites io t).remaining).Perm (s.buffer t) :=
    h.flushRows_eq t ▸ hspec.perm
  simp only [held, Disk.stored, WdbProcess.keepWrites, hspec.tmp_eq, List.filter_append,
    List.map_append, List.filter_map, List.map_map]
  by_cases hx : x = t
  · subst hx
    have hall : ((s.runWrites io x).written.filter ((fun e : Stored δ => decide (e.table = x))
        ∘ fun r => { dir := r.date, table := x, row := r })) = (s.runWrites io x).written :=
      List.filter_eq_self.mpr fun r _ => by simp
    have hrow : ((fun e : Stored δ => e.row) ∘ fun r : Row δ => { dir := r.date, table := x, row := r })
        = id := rfl
    rw [hall, hrow, List.map_id, Function.update_self]
    simp only [List.append_assoc]
    apply List.Perm.append_left
    refine (List.perm_append_comm_assoc _ _ _).trans ?_
    exact List.Perm.append_left _ hperm
  · have hnone : ((s.runWrites io t).written.filter ((fun e : Stored δ => decide (e.table = x))
        ∘ fun r => { dir := r.date, table := t, row := r })) = [] :=
      List.filter_eq_nil_iff.mpr fun r _ => by simp [Ne.symm hx]
    rw [hnone, List.map_nil, List.append_nil, Function.update_of_ne hx]

/-- A flush keeps every row, on disk or in the buffer. -/
theorem Buffered.flushTable_held {s : WdbProcess δ} (h : Buffered s) (io : FlushIO)
    (t x : WdbTable) : ((s.flushTable io t).2.held x).Perm (s.held x) := by
  obtain he | ⟨hold, he⟩ | he | ⟨-, -, saves, d, he⟩ := flushTable_cases io t s
  · rw [he]
  · have hempty : s.buffer t = [] := h.flushRows_eq t ▸ hold
    rw [he]
    apply List.Perm.of_eq
    simp only [held, WdbProcess.setBuffer]
    by_cases hx : x = t
    · subst hx
      rw [Function.update_self, hempty]
    · rw [Function.update_of_ne hx]
  · rw [he]
    exact h.keepWrites_held io t x
  · rw [he, saveCheckpoint_held]
    exact h.keepWrites_held io t x

/-- The buffers stay in order and the floor where it is. -/
def KeepsFloor (s s' : WdbProcess δ) : Prop := Buffered s' ∧ ∀ t, s'.floor t = s.floor t

theorem Buffered.flushAll {s : WdbProcess δ} (h : Buffered s) (io : WdbTable → FlushIO) :
    KeepsFloor s (s.flushAll io).2 :=
  flushAll_induction io
    (fun _ t hs => ⟨hs.1.flushTable (io t) t,
      fun x => (hs.1.flushTable_floor (io t) t x).trans (hs.2 x)⟩)
    ⟨h, fun _ => rfl⟩

theorem Buffered.roll {s : WdbProcess δ} (h : Buffered s) (today : Date)
    (io : WdbTable → FlushIO) (moves : Date → Bool) : KeepsFloor s (s.roll today io moves) := by
  simp only [WdbProcess.roll]
  split_ifs
  · exact ⟨h, fun _ => rfl⟩
  · refine rollDates_induction ?_ (h.flushAll io)
    rintro _ d - - - ⟨hbuf, hfloor⟩
    exact ⟨{ ascending := hbuf.ascending, above := hbuf.above, le := hbuf.le }, hfloor⟩
  · exact h.flushAll io

end WdbProcess

end TickToSignal.Wdb
