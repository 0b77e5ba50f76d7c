import TickToSignal.Wdb.Flush

/-!
# Taking rows in

Every row, live or replayed, passes `ingest`. To the outside a table of WDB is
a receiver with a watermark, the floor: flushing never moves it.
-/

namespace TickToSignal.Wdb

open Foundation

variable {δ : Type*}

namespace WdbProcess

/-- `.wdb.ingest`: accept, buffer, and flush once the buffer is over `maxRows`. -/
def ingest (maxRows : Nat) (io : FlushIO) (t : WdbTable) (row : Row δ) (s : WdbProcess δ) :
    WdbProcess δ :=
  let (accepted, s) := s.acceptRow t row
  if accepted then
    let s :=
      { s with
        received := Function.update s.received t (s.received t ++ [row])
        buffer := Function.update s.buffer t (s.buffer t ++ [row]) }
    if maxRows < (s.buffer t).length then (s.flushTable io t).2 else s
  else s

def ingestAll (maxRows : Nat) (io : Nat → FlushIO) (t : WdbTable) (rows : List (Row δ))
    (s : WdbProcess δ) : WdbProcess δ :=
  rows.foldl (fun s row => s.ingest maxRows (io row.tpSeqNo) t row) s

/-- `upd`: dropped while halted, kept aside while a replay runs. -/
def upd (maxRows : Nat) (io : FlushIO) (t : WdbTable) (row : Row δ) (s : WdbProcess δ) :
    WdbProcess δ :=
  if s.halted then s
  else if s.replayMode then
    { s with
      replayLiveBuffer :=
        Function.update s.replayLiveBuffer t (s.replayLiveBuffer t ++ [row]) }
  else s.ingest maxRows io t row

/-- The merge of the staged rows, table after table. -/
def mergeStaged (maxRows : Nat) (io : WdbTable → Nat → FlushIO)
    (stage : WdbTable → List (Row δ)) (s : WdbProcess δ) : WdbProcess δ :=
  tables.foldl (fun s t => s.ingestAll maxRows (io t) t (stage t)) s

/-- `.wdb.drainLiveBuffer`: rows at or below the cutoff came with the replay. -/
def drainLiveBuffer (maxRows : Nat) (io : Nat → FlushIO) (t : WdbTable) (s : WdbProcess δ) :
    WdbProcess δ :=
  let newRows := (s.replayLiveBuffer t).filter fun r => decide (s.replayCutoff < r.tpSeqNo)
  let s := s.ingestAll maxRows io t newRows
  { s with replayLiveBuffer := Function.update s.replayLiveBuffer t [] }

def drainAll (maxRows : Nat) (io : WdbTable → Nat → FlushIO) (s : WdbProcess δ) : WdbProcess δ :=
  tables.foldl (fun s t => s.drainLiveBuffer maxRows (io t) t) s

/-! ## One row -/

/-- An accepted row in its buffer. -/
def takeRow (t : WdbTable) (row : Row δ) (s : WdbProcess δ) : WdbProcess δ :=
  { s with
    bufMaxSeq := Function.update s.bufMaxSeq t (max (s.bufMaxSeq t) row.tpSeqNo)
    received := Function.update s.received t (s.received t ++ [row])
    buffer := Function.update s.buffer t (s.buffer t ++ [row]) }

/-- A row is a duplicate, or it is taken and a flush may follow. -/
theorem ingest_cases (maxRows : Nat) (io : FlushIO) (t : WdbTable) (row : Row δ)
    (s : WdbProcess δ) :
    (row.tpSeqNo ≤ s.floor t ∧ s.ingest maxRows io t row = s) ∨
      (s.floor t < row.tpSeqNo ∧
        (s.ingest maxRows io t row = s.takeRow t row ∨
          s.ingest maxRows io t row = ((s.takeRow t row).flushTable io t).2)) := by
  simp only [ingest, acceptRow]
  by_cases h : row.tpSeqNo ≤ s.floor t
  · exact Or.inl ⟨h, by simp [h]⟩
  · refine Or.inr ⟨not_le.mp h, ?_⟩
    simp only [if_neg h, if_true]
    split_ifs
    · exact Or.inr rfl
    · exact Or.inl rfl

theorem Buffered.takeRow {s : WdbProcess δ} (h : Buffered s) {t : WdbTable} {row : Row δ}
    (hrow : s.floor t < row.tpSeqNo) : Buffered (s.takeRow t row) := by
  simp only [floor] at hrow
  refine { ascending := ?_, above := ?_, le := ?_ }
  · intro x
    simp only [WdbProcess.takeRow]
    by_cases hx : x = t
    · subst hx
      rw [Function.update_self]
      apply List.pairwise_append.mpr
      refine ⟨h.ascending x, List.pairwise_singleton _ _, ?_⟩
      intro a ha b hb
      have hle := h.le x a ha
      rw [List.mem_singleton.mp hb]
      omega
    · rw [Function.update_of_ne hx]
      exact h.ascending x
  · intro x r hr
    simp only [WdbProcess.takeRow] at hr
    by_cases hx : x = t
    · subst hx
      rw [Function.update_self] at hr
      obtain hr | hr := List.mem_append.mp hr
      · exact h.above x r hr
      · rw [List.mem_singleton.mp hr]
        exact lt_of_le_of_lt (le_max_left _ _) hrow
    · rw [Function.update_of_ne hx] at hr
      exact h.above x r hr
  · intro x r hr
    simp only [WdbProcess.takeRow] at hr ⊢
    by_cases hx : x = t
    · subst hx
      rw [Function.update_self] at hr ⊢
      obtain hr | hr := List.mem_append.mp hr
      · exact le_trans (h.le x r hr) (le_max_left _ _)
      · rw [List.mem_singleton.mp hr]
        exact le_max_right _ _
    · rw [Function.update_of_ne hx] at hr ⊢
      exact h.le x r hr

theorem takeRow_floor (s : WdbProcess δ) (t x : WdbTable) (row : Row δ) :
    (s.takeRow t row).floor x
      = if x = t then max (s.floor t) row.tpSeqNo else s.floor x := by
  simp only [floor, takeRow]
  split_ifs with hx
  · subst hx
    rw [Function.update_self, max_assoc]
  · rw [Function.update_of_ne hx]

/-- Rows of one table. -/
def only (t : WdbTable) (rows : List (Row δ)) : WdbTable → List (Row δ) :=
  Function.update (fun _ => []) t rows

@[simp] theorem only_self (t : WdbTable) (rows : List (Row δ)) : only t rows t = rows :=
  Function.update_self ..

@[simp] theorem only_of_ne {t x : WdbTable} (h : x ≠ t) (rows : List (Row δ)) :
    only t rows x = [] :=
  Function.update_of_ne h ..

/-- Each table took `rows` as a receiver with its floor as watermark takes them. -/
structure Took (rows : WdbTable → List (Row δ)) (s s' : WdbProcess δ) : Prop
    extends SessionFrame s s' where
  buffered : Buffered s'
  floor : ∀ x, s'.floor x = watermark (·.tpSeqNo) (s.floor x) (rows x)
  received : ∀ x, s'.received x = s.received x ++ admitted (·.tpSeqNo) (s.floor x) (rows x)
  held : ∀ x, (s'.held x).Perm (s.held x ++ admitted (·.tpSeqNo) (s.floor x) (rows x))

theorem Took.refl {s : WdbProcess δ} (h : Buffered s) : Took (fun _ => []) s s :=
  { SessionFrame.refl s with
    buffered := h, floor := fun _ => rfl, received := fun x => by simp [admitted]
    held := fun x => by simp [admitted] }

theorem Took.trans {rows rows' : WdbTable → List (Row δ)} {s s' s'' : WdbProcess δ}
    (h : Took rows s s') (h' : Took rows' s' s'') :
    Took (fun x => rows x ++ rows' x) s s'' := by
  refine
    { h.toSessionFrame.trans h'.toSessionFrame with
      buffered := h'.buffered, floor := ?_, received := ?_, held := ?_ }
  · intro x
    rw [h'.floor, h.floor, watermark_append]
  · intro x
    rw [h'.received, h.received, h.floor, admitted_append, List.append_assoc]
  · intro x
    rw [admitted_append, ← List.append_assoc, ← h.floor]
    exact (h'.held x).trans ((h.held x).append_right _)

theorem Took.congr {rows rows' : WdbTable → List (Row δ)} {s s' : WdbProcess δ}
    (h : Took rows s s') (hrows : ∀ x, rows x = rows' x) : Took rows' s s' :=
  funext hrows ▸ h

theorem Buffered.takeRow_took {s : WdbProcess δ} (h : Buffered s) {t : WdbTable} {row : Row δ}
    (hnew : s.floor t < row.tpSeqNo) : Took (only t [row]) s (s.takeRow t row) := by
  refine
    { SessionFrame.refl s with
      buffered := h.takeRow hnew, floor := ?_, received := ?_, held := ?_ }
  · intro x
    rw [takeRow_floor]
    by_cases hx : x = t
    · simp [hx]
    · simp [hx]
  · intro x
    by_cases hx : x = t
    · subst hx
      simp [WdbProcess.takeRow, admitted, not_le.mpr hnew]
    · simp [WdbProcess.takeRow, admitted, hx]
  · intro x
    apply List.Perm.of_eq
    by_cases hx : x = t
    · subst hx
      simp [WdbProcess.held, WdbProcess.takeRow, admitted, not_le.mpr hnew]
    · simp [WdbProcess.held, WdbProcess.takeRow, admitted, hx]

theorem Took.flushTable {rows : WdbTable → List (Row δ)} {s s' : WdbProcess δ}
    (h : Took rows s s') (io : FlushIO) (t : WdbTable) : Took rows s (s'.flushTable io t).2 := by
  have hframe := flushTable_frame io t s'
  exact
    { h.toSessionFrame.trans hframe.toSessionFrame with
      buffered := h.buffered.flushTable io t
      floor := fun x => (h.buffered.flushTable_floor io t x).trans (h.floor x)
      received := fun x => (congrFun hframe.received x).trans (h.received x)
      held := fun x => (h.buffered.flushTable_held io t x).trans (h.held x) }

theorem ingest_took {s : WdbProcess δ} (h : Buffered s) (maxRows : Nat) (io : FlushIO)
    (t : WdbTable) (row : Row δ) : Took (only t [row]) s (s.ingest maxRows io t row) := by
  obtain ⟨hdup, he⟩ | ⟨hnew, he | he⟩ := ingest_cases maxRows io t row s
  · rw [he]
    have hnone : ∀ x, admitted (·.tpSeqNo) (s.floor x) (only t [row] x) = [] := by
      intro x
      by_cases hx : x = t
      · subst hx
        simp [admitted, hdup]
      · simp [hx, admitted]
    refine
      { SessionFrame.refl s with
        buffered := h, floor := ?_, received := fun x => by simp [hnone]
        held := fun x => by simp [hnone] }
    intro x
    by_cases hx : x = t
    · subst hx
      simp [hdup]
    · simp [hx]
  · rw [he]
    exact h.takeRow_took hnew
  · rw [he]
    exact (h.takeRow_took hnew).flushTable io t

/-- A row touches nothing of the connection. -/
theorem ingest_frame (maxRows : Nat) (io : FlushIO) (t : WdbTable) (row : Row δ)
    (s : WdbProcess δ) : SessionFrame s (s.ingest maxRows io t row) := by
  obtain ⟨-, he⟩ | ⟨-, he | he⟩ := ingest_cases maxRows io t row s
  · rw [he]
    exact SessionFrame.refl s
  · rw [he]
    exact { SessionFrame.refl s with }
  · rw [he]
    exact { (flushTable_frame io t (s.takeRow t row)).toSessionFrame with }

theorem ingest_live (maxRows : Nat) (io : FlushIO) (t : WdbTable) (row : Row δ)
    (s : WdbProcess δ) : (s.ingest maxRows io t row).replayLiveBuffer = s.replayLiveBuffer := by
  obtain ⟨-, he⟩ | ⟨-, he | he⟩ := ingest_cases maxRows io t row s
  · rw [he]
  · rw [he]
    rfl
  · rw [he]
    exact (flushTable_frame io t _).replayLiveBuffer

/-! ## Many rows -/

theorem ingestAll_took {s : WdbProcess δ} (h : Buffered s) (maxRows : Nat) (io : Nat → FlushIO)
    (t : WdbTable) (rows : List (Row δ)) :
    Took (only t rows) s (s.ingestAll maxRows io t rows) := by
  induction rows generalizing s with
  | nil =>
      apply (Took.refl h).congr
      intro x
      by_cases hx : x = t <;> simp [hx]
  | cons row rows ih =>
      have hrow := ingest_took h maxRows (io row.tpSeqNo) t row
      apply (hrow.trans (ih hrow.buffered)).congr
      intro x
      by_cases hx : x = t <;> simp [hx]

theorem ingestAll_frame (maxRows : Nat) (io : Nat → FlushIO) (t : WdbTable) (rows : List (Row δ))
    (s : WdbProcess δ) : SessionFrame s (s.ingestAll maxRows io t rows) := by
  induction rows generalizing s with
  | nil => exact SessionFrame.refl s
  | cons row rows ih => exact (ingest_frame maxRows (io row.tpSeqNo) t row s).trans (ih _)

theorem ingestAll_live (maxRows : Nat) (io : Nat → FlushIO) (t : WdbTable) (rows : List (Row δ))
    (s : WdbProcess δ) :
    (s.ingestAll maxRows io t rows).replayLiveBuffer = s.replayLiveBuffer := by
  induction rows generalizing s with
  | nil => rfl
  | cons row rows ih => exact (ih _).trans (ingest_live ..)

/-- A relation that composes over the rows taken holds of a pass over the tables, if it
holds of each table and its rows, and no table changes what the others are to take. -/
theorem foldTables {R : (WdbTable → List (Row δ)) → WdbProcess δ → WdbProcess δ → Prop}
    {op : WdbTable → WdbProcess δ → WdbProcess δ}
    {f : WdbProcess δ → WdbTable → List (Row δ)} (hrefl : ∀ s, R (fun _ => []) s s)
    (htrans : ∀ {rows rows' s s' s''}, R rows s s' → R rows' s' s'' →
      R (fun x => rows x ++ rows' x) s s'')
    (hop : ∀ t s, R (only t (f s t)) s (op t s))
    (hkeep : ∀ t s x, x ≠ t → f (op t s) x = f s x) (s : WdbProcess δ) :
    R (f s) s (tables.foldl (fun s t => op t s) s) := by
  suffices hfold : ∀ (ts : List WdbTable) (s : WdbProcess δ), ts.Nodup →
      R (fun x => if x ∈ ts then f s x else []) s (ts.foldl (fun s t => op t s) s) by
    simpa using hfold tables s (by decide)
  intro ts
  induction ts with
  | nil => exact fun s _ => by simpa using hrefl s
  | cons t ts ih =>
      intro s hnodup
      obtain ⟨hnot, hnodup⟩ := List.nodup_cons.mp hnodup
      have hrows : (fun x => if x ∈ t :: ts then f s x else []) =
          fun x => only t (f s t) x ++ if x ∈ ts then f (op t s) x else [] := by
        funext x
        by_cases hx : x = t
        · subst hx
          simp [hnot]
        · simp [hx, hkeep t s x hx]
      rw [hrows]
      exact htrans (hop t s) (ih _ hnodup)

theorem mergeStaged_took {s : WdbProcess δ} (h : Buffered s) (maxRows : Nat)
    (io : WdbTable → Nat → FlushIO) (stage : WdbTable → List (Row δ)) :
    Took stage s (s.mergeStaged maxRows io stage) :=
  foldTables (R := fun rows s s' => Buffered s → Took rows s s') (fun _ => Took.refl)
    (fun h h' hs => (h hs).trans (h' (h hs).buffered))
    (fun t _ hs => ingestAll_took hs maxRows (io t) t (stage t)) (fun _ _ _ _ => rfl) s h

theorem mergeStaged_frame (maxRows : Nat) (io : WdbTable → Nat → FlushIO)
    (stage : WdbTable → List (Row δ)) (s : WdbProcess δ) :
    SessionFrame s (s.mergeStaged maxRows io stage) :=
  foldTables (R := fun _ => SessionFrame) (f := fun _ => stage) SessionFrame.refl
    SessionFrame.trans (fun t s => ingestAll_frame maxRows (io t) t (stage t) s)
    (fun _ _ _ _ => rfl) s

theorem mergeStaged_live (maxRows : Nat) (io : WdbTable → Nat → FlushIO)
    (stage : WdbTable → List (Row δ)) (s : WdbProcess δ) :
    (s.mergeStaged maxRows io stage).replayLiveBuffer = s.replayLiveBuffer := by
  simp only [mergeStaged, tables, List.foldl_cons, List.foldl_nil, ingestAll_live]

/-- The rows of the live buffer that a drain lets through. -/
def newLive (t : WdbTable) (s : WdbProcess δ) : List (Row δ) :=
  (s.replayLiveBuffer t).filter fun r => decide (s.replayCutoff < r.tpSeqNo)

theorem drainLiveBuffer_took {s : WdbProcess δ} (h : Buffered s) (maxRows : Nat)
    (io : Nat → FlushIO) (t : WdbTable) :
    Took (only t (s.newLive t)) s (s.drainLiveBuffer maxRows io t) := by
  have hall := ingestAll_took h maxRows io t (s.newLive t)
  exact
    { hall.toSessionFrame with
      buffered :=
        { ascending := hall.buffered.ascending, above := hall.buffered.above
          le := hall.buffered.le }
      floor := hall.floor
      received := hall.received
      held := hall.held }

theorem drainLiveBuffer_live (maxRows : Nat) (io : Nat → FlushIO) (t : WdbTable)
    (s : WdbProcess δ) :
    (s.drainLiveBuffer maxRows io t).replayLiveBuffer
      = Function.update s.replayLiveBuffer t [] := by
  simp only [drainLiveBuffer, ingestAll_live]

theorem drainLiveBuffer_frame (maxRows : Nat) (io : Nat → FlushIO) (t : WdbTable)
    (s : WdbProcess δ) : SessionFrame s (s.drainLiveBuffer maxRows io t) :=
  { ingestAll_frame maxRows io t (s.newLive t) s with }

theorem newLive_drainLiveBuffer (maxRows : Nat) (io : Nat → FlushIO) (t : WdbTable)
    (s : WdbProcess δ) {x : WdbTable} (hx : x ≠ t) :
    (s.drainLiveBuffer maxRows io t).newLive x = s.newLive x := by
  rw [newLive, drainLiveBuffer_live, (drainLiveBuffer_frame maxRows io t s).replayCutoff,
    Function.update_of_ne hx, newLive]

theorem drainAll_took {s : WdbProcess δ} (h : Buffered s) (maxRows : Nat)
    (io : WdbTable → Nat → FlushIO) :
    Took (fun t => s.newLive t) s (s.drainAll maxRows io) :=
  foldTables (R := fun rows s s' => Buffered s → Took rows s s')
    (f := fun s t => s.newLive t) (fun _ => Took.refl)
    (fun h h' hs => (h hs).trans (h' (h hs).buffered))
    (fun t _ hs => drainLiveBuffer_took hs maxRows (io t) t)
    (fun t s _ hx => newLive_drainLiveBuffer maxRows (io t) t s hx) s h

theorem drainAll_frame (maxRows : Nat) (io : WdbTable → Nat → FlushIO) (s : WdbProcess δ) :
    SessionFrame s (s.drainAll maxRows io) :=
  foldTables (R := fun _ => SessionFrame) (f := fun s t => s.newLive t) SessionFrame.refl
    SessionFrame.trans
    (fun t s => drainLiveBuffer_frame maxRows (io t) t s)
    (fun t s _ hx => newLive_drainLiveBuffer maxRows (io t) t s hx) s

theorem drainAll_live (maxRows : Nat) (io : WdbTable → Nat → FlushIO) (s : WdbProcess δ)
    (t : WdbTable) : (s.drainAll maxRows io).replayLiveBuffer t = [] := by
  simp only [drainAll, tables, List.foldl_cons, List.foldl_nil, drainLiveBuffer_live]
  cases t <;> simp

end WdbProcess

end TickToSignal.Wdb
