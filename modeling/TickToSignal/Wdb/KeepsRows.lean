import TickToSignal.Wdb.Flush

/-!
# A flush keeps every row

Of the rows above the checkpoint, a flush moves whole dates to disk and leaves
the others where they are, so every row is in exactly one of the two places.
The checkpoint passes a written row only if it stays below every row left.

## Implementation notes

Nothing is assumed of the buffer: its rows may come in any order, repeat, and
lie at or below the checkpoint. Rows of the last kind are no part of the account.
-/

namespace TickToSignal.Wdb

variable {δ : Type*}

namespace WdbProcess

/-- The rows of the buffer above a checkpoint. -/
def bufferAbove (seq : Nat) (t : WdbTable) (s : WdbProcess δ) : List (Row δ) :=
  (s.buffer t).filter fun r => decide (seq < r.tpSeqNo)

/-- What a flush of `t` does when it writes the rows `written`. -/
structure FlushKeeps (t : WdbTable) (written : List (Row δ)) (s s' : WdbProcess δ) : Prop where
  /-- each written row goes to the directory of its own date, and nothing else is stored -/
  tmp_eq : s'.disk.tmp =
    s.disk.tmp ++ written.map fun r => { dir := r.date, table := t, row := r }
  hdb_eq : s'.disk.hdb = s.disk.hdb
  /-- no row above the checkpoint is lost and none is there twice -/
  perm : (written ++ s'.bufferAbove (s.lastTpSeqNo t) t).Perm (s.bufferAbove (s.lastTpSeqNo t) t)
  apart : ∀ r ∈ written, r ∉ s'.buffer t
  others : ∀ x, x ≠ t → s'.buffer x = s.buffer x
  last_le : ∀ x, s.lastTpSeqNo x ≤ s'.lastTpSeqNo x
  last_lt : ∀ r ∈ s'.bufferAbove (s.lastTpSeqNo t) t, s'.lastTpSeqNo t < r.tpSeqNo
  /-- the checkpoint file is the old one or the checkpoint in memory -/
  saved : s'.disk.checkpoint = s.disk.checkpoint ∨
    ∃ d, s'.disk.checkpoint = some { seq := s'.lastTpSeqNo, date := d }

/-- A flush that writes nothing. -/
theorem FlushKeeps.refl (t : WdbTable) (s : WdbProcess δ) : FlushKeeps t [] s s where
  tmp_eq := by simp
  hdb_eq := rfl
  perm := List.Perm.refl _
  apart := by simp
  others := fun _ _ => rfl
  last_le := fun _ => Nat.le_refl _
  last_lt := fun r hr => of_decide_eq_true (List.mem_filter.mp hr).2
  saved := Or.inl rfl

/-- A buffer without a row above the checkpoint is emptied. -/
theorem FlushKeeps.drop {t : WdbTable} {s : WdbProcess δ} (hold : s.flushRows t = []) :
    FlushKeeps t [] s (s.setBuffer t []) where
  tmp_eq := by simp [setBuffer]
  hdb_eq := rfl
  perm := by
    have hnone : s.bufferAbove (s.lastTpSeqNo t) t = [] := hold
    rw [hnone]
    simp [bufferAbove, setBuffer]
  apart := by simp
  others := fun x hx => Function.update_of_ne hx _ _
  last_le := fun _ => Nat.le_refl _
  last_lt := by simp [bufferAbove, setBuffer]
  saved := Or.inl rfl

/-- What is left in the buffer is above the old checkpoint. -/
theorem bufferAbove_keepWrites (io : FlushIO) (t : WdbTable) (s : WdbProcess δ) :
    (s.keepWrites t (s.runWrites io t)).bufferAbove (s.lastTpSeqNo t) t
      = (s.runWrites io t).remaining := by
  simp only [bufferAbove, keepWrites, Function.update_self]
  apply List.filter_eq_self.mpr
  intro r hr
  exact (List.mem_filter.mp ((runWrites_spec io t s).remaining_sublist.subset hr)).2

/-- The written dates are on disk, the others in the buffer. -/
theorem FlushKeeps.keepWrites (io : FlushIO) (t : WdbTable) (s : WdbProcess δ) :
    FlushKeeps t (s.runWrites io t).written s (s.keepWrites t (s.runWrites io t)) where
  tmp_eq := (runWrites_spec io t s).tmp_eq
  hdb_eq := rfl
  perm := by
    rw [bufferAbove_keepWrites]
    exact (runWrites_spec io t s).perm
  apart := by
    intro r hr
    simp only [WdbProcess.keepWrites, Function.update_self]
    exact runWrites_apart io t s hr
  others := fun x hx => Function.update_of_ne hx _ _
  last_le := fun _ => Nat.le_refl _
  last_lt := fun r hr => of_decide_eq_true (List.mem_filter.mp hr).2
  saved := Or.inl rfl

/-- The checkpoint may advance as long as it stays below what is left; saving it may fail. -/
theorem FlushKeeps.advance {t : WdbTable} {written : List (Row δ)} {s s' : WdbProcess δ}
    (h : FlushKeeps t written s s') {m : Nat} (hlt : s.lastTpSeqNo t < m)
    (hsame : s'.lastTpSeqNo = s.lastTpSeqNo) (hfile : s'.disk.checkpoint = s.disk.checkpoint)
    (hrest : ∀ r ∈ s'.buffer t, m < r.tpSeqNo)
    (saves : Bool) (d : Option Date) :
    FlushKeeps t written s ((s'.setLast t m).saveCheckpoint saves d).2 := by
  have hlast : ∀ x, s.lastTpSeqNo x ≤ (s'.setLast t m).lastTpSeqNo x := by
    intro x
    simp only [setLast, hsame]
    by_cases hx : x = t
    · subst hx
      rw [Function.update_self]
      exact hlt.le
    · rw [Function.update_of_ne hx]
  have hbelow : ∀ r ∈ s'.bufferAbove (s.lastTpSeqNo t) t,
      (s'.setLast t m).lastTpSeqNo t < r.tpSeqNo := by
    intro r hr
    simp only [setLast, Function.update_self]
    exact hrest r (List.mem_filter.mp hr).1
  cases saves with
  | false =>
      exact
        { tmp_eq := h.tmp_eq, hdb_eq := h.hdb_eq, perm := h.perm, apart := h.apart
          others := h.others, last_le := hlast, last_lt := hbelow
          saved := Or.inl hfile }
  | true =>
      exact
        { tmp_eq := h.tmp_eq, hdb_eq := h.hdb_eq, perm := h.perm, apart := h.apart
          others := h.others, last_le := hlast, last_lt := hbelow
          saved := Or.inr ⟨d, rfl⟩ }

/-- Whatever the buffer holds and whichever writes and saves fail, a flush keeps
every row above the checkpoint, in its date's directory or in the buffer. -/
theorem flushTable_keeps_rows (io : FlushIO) (t : WdbTable) (s : WdbProcess δ) :
    ∃ written, FlushKeeps t written s (s.flushTable io t).2 := by
  obtain h | ⟨hold, h⟩ | h | ⟨hrest, hlt, saves, d, h⟩ := flushTable_cases io t s
  · rw [h]
    exact ⟨[], FlushKeeps.refl t s⟩
  · rw [h]
    exact ⟨[], FlushKeeps.drop hold⟩
  · rw [h]
    exact ⟨_, FlushKeeps.keepWrites io t s⟩
  · rw [h]
    refine ⟨_, (FlushKeeps.keepWrites io t s).advance hlt rfl rfl ?_ saves d⟩
    intro r hr
    simp only [WdbProcess.keepWrites, Function.update_self] at hr
    exact hrest r hr

end WdbProcess

end TickToSignal.Wdb
