import TickToSignal.Tp.LogFile

/-!
# Indexed segment replay equals a full scan

An entry of the index splits its log: what lies before its offset has lower
numbers, what lies behind has not. That holds of every entry TP ever recorded,
also of one whose chunk was never written, and later chunks keep it.
-/

namespace TickToSignal.Tp

open Foundation

variable {δ : Type*}

/-- What an index entry says about the file it belongs to. -/
def EntryOk (ps : List (Piece (LogRow δ))) (e : IdxEntry) : Prop :=
  ∃ pre post, ps = pre ++ post ∧ e.offset = headerSize + bytes pre ∧
    (∀ c ∈ chunks pre, c.payload.tpSeqNo < e.tpSeqNo) ∧
    ∀ c ∈ chunks post, e.tpSeqNo ≤ c.payload.tpSeqNo

/-- A list of index entries, in the order they were recorded. -/
structure IdxOk (ps : List (Piece (LogRow δ))) (lastSeq : Nat) (es : List IdxEntry) : Prop where
  entry : ∀ e ∈ es, EntryOk ps e
  offsets : es.Pairwise fun a b => a.offset ≤ b.offset
  taken : ∀ e ∈ es, 0 < e.tpSeqNo ∧ e.tpSeqNo ≤ lastSeq

/-- What every run of TP keeps of a log. -/
structure LogState.Sound (l : LogState δ) : Prop where
  ascending : (chunks l.pieces).Pairwise fun a b => a.payload.tpSeqNo < b.payload.tpSeqNo
  taken : ∀ c ∈ chunks l.pieces, 0 < c.payload.tpSeqNo ∧ c.payload.tpSeqNo ≤ l.lastSeq
  onDisk : IdxOk l.pieces l.lastSeq l.idx
  inMemory : ∀ w ∈ l.tp, IdxOk l.pieces l.lastSeq w.entries

section Sound
variable {ps qs : List (Piece (LogRow δ))} {e : IdxEntry} {es : List IdxEntry} {m k : Nat}

theorem EntryOk.boundary (h : EntryOk ps e) : Boundary headerSize ps e.offset := by
  obtain ⟨pre, post, hps, hoff, -, -⟩ := h
  exact ⟨pre, post, hps, hoff⟩

theorem EntryOk.offset_le (h : EntryOk ps e) : e.offset ≤ headerSize + bytes ps := by
  obtain ⟨pre, post, rfl, hoff, -, -⟩ := h
  rw [hoff, bytes_append]
  omega

theorem IdxOk.nil : IdxOk ps m [] := ⟨by simp, List.Pairwise.nil, by simp⟩

/-- More pieces behind, whose numbers are above all entries. -/
theorem IdxOk.append (h : IdxOk ps m es) (hmk : m ≤ k)
    (hq : ∀ c ∈ chunks qs, m ≤ c.payload.tpSeqNo) : IdxOk (ps ++ qs) k es where
  entry := by
    intro e he
    obtain ⟨pre, post, rfl, hoff, hbefore, hafter⟩ := h.entry e he
    refine ⟨pre, post ++ qs, by rw [List.append_assoc], hoff, hbefore, fun c hc => ?_⟩
    rw [chunks_append] at hc
    obtain hc | hc := List.mem_append.mp hc
    · exact hafter c hc
    · exact (h.taken e he).2.trans (hq c hc)
  offsets := h.offsets
  taken := fun e he => ⟨(h.taken e he).1, (h.taken e he).2.trans hmk⟩

/-- A new entry at the end of the file, for a number above all taken. -/
theorem IdxOk.record (h : IdxOk ps m es) (hps : ∀ c ∈ chunks ps, c.payload.tpSeqNo ≤ m)
    (hmk : m < k) (n : Nat) :
    IdxOk ps k (es ++ [{ tpSeqNo := k, offset := headerSize + bytes ps, chunk := n }]) where
  entry := by
    intro e he
    obtain he | he := List.mem_append.mp he
    · exact h.entry e he
    · obtain rfl := List.mem_singleton.mp he
      exact ⟨ps, [], by simp, rfl, fun c hc => (hps c hc).trans_lt hmk, by simp [chunks]⟩
  offsets := by
    refine List.pairwise_append.mpr ⟨h.offsets, List.pairwise_singleton _ _, fun a ha b hb => ?_⟩
    obtain rfl := List.mem_singleton.mp hb
    exact (h.entry a ha).offset_le
  taken := by
    intro e he
    obtain he | he := List.mem_append.mp he
    · exact ⟨(h.taken e he).1, (h.taken e he).2.trans hmk.le⟩
    · obtain rfl := List.mem_singleton.mp he
      exact ⟨by dsimp only; omega, le_rfl⟩

variable {l : LogState δ}

/-- Recording an entry, saved or not, for a number above all taken. -/
theorem LogState.Sound.maybeRecord {w : Writer} (h : l.Sound) (hw : w ∈ l.tp)
    (hk : l.lastSeq < k) (indexEvery : Nat) (idxSaved : Bool) :
    let out := l.maybeRecord indexEvery w k idxSaved
    out.1.pieces = l.pieces ∧ IdxOk l.pieces k out.1.idx ∧ IdxOk l.pieces k out.2.entries := by
  have hnone : ∀ c ∈ chunks ([] : List (Piece (LogRow δ))), l.lastSeq ≤ c.payload.tpSeqNo := by
    simp [chunks]
  have hdisk := h.onDisk.append hk.le hnone
  have hmem := (h.inMemory w hw).append hk.le hnone
  rw [List.append_nil] at hdisk hmem
  have hnew := (h.inMemory w hw).record (fun c hc => (h.taken c hc).2) hk w.logCount
  simp only [LogState.maybeRecord]
  split_ifs
  · exact ⟨rfl, hnew, hnew⟩
  · exact ⟨rfl, hdisk, hnew⟩
  · exact ⟨rfl, hdisk, hmem⟩

theorem chunks_torn (c : Chunk (LogRow δ)) (k : Nat) : chunks (LogState.torn c k) = [] := by
  simp only [LogState.torn]
  split_ifs <;> rfl

theorem LogState.Sound.step (h : l.Sound) (indexEvery : Nat) (a : LogStep δ) :
    (l.step indexEvery a).Sound := by
  cases a with
  | crash => exact ⟨h.ascending, h.taken, h.onDisk, by simp [LogState.step]⟩
  | openLog idxReadable =>
      refine ⟨h.ascending, h.taken, h.onDisk, ?_⟩
      rintro w ⟨⟩
      cases idxReadable
      · exact .nil
      · exact h.onDisk
  | log c idxSaved ended =>
      simp only [LogState.step]
      split
      · exact h
      · rename_i w hw
        split_ifs with hseq
        · obtain ⟨hpieces, hdisk, hmem⟩ := h.maybeRecord hw hseq indexEvery idxSaved
          cases ended with
          | written =>
              simp only [LogState.log]
              rcases hrec : l.maybeRecord indexEvery w c.payload.tpSeqNo idxSaved with ⟨l', w'⟩
              rw [hrec] at hpieces hdisk hmem
              dsimp only at hpieces hdisk hmem ⊢
              have hchunks : chunks (l'.pieces ++ [Piece.whole c]) = chunks l.pieces ++ [c] := by
                rw [hpieces, chunks_append]
                rfl
              have hbehind : ∀ d ∈ chunks [Piece.whole c],
                  c.payload.tpSeqNo ≤ d.payload.tpSeqNo := by
                simp [chunks, Piece.chunk?]
              constructor
              · rw [hchunks]
                refine List.pairwise_append.mpr
                  ⟨h.ascending, List.pairwise_singleton _ _, fun a ha b hb => ?_⟩
                rw [List.mem_singleton.mp hb]
                exact (h.taken a ha).2.trans_lt hseq
              · rw [hchunks]
                intro d hd
                obtain hd | hd := List.mem_append.mp hd
                · exact ⟨(h.taken d hd).1, (h.taken d hd).2.trans hseq.le⟩
                · rw [List.mem_singleton.mp hd]
                  exact ⟨Nat.zero_lt_of_lt hseq, le_rfl⟩
              · dsimp only
                rw [hpieces]
                exact hdisk.append le_rfl hbehind
              · rintro _ ⟨⟩
                dsimp only
                rw [hpieces]
                exact hmem.append le_rfl hbehind
          | crashed k =>
              simp only [LogState.log]
              rcases hrec : l.maybeRecord indexEvery w c.payload.tpSeqNo idxSaved with ⟨l', w'⟩
              rw [hrec] at hpieces hdisk hmem
              dsimp only at hpieces hdisk hmem ⊢
              have hchunks : chunks (l'.pieces ++ LogState.torn c k) = chunks l.pieces := by
                rw [hpieces, chunks_append, chunks_torn, List.append_nil]
              constructor
              · rw [hchunks]
                exact h.ascending
              · rw [hchunks]
                exact fun d hd => ⟨(h.taken d hd).1, (h.taken d hd).2.trans hseq.le⟩
              · dsimp only
                rw [hpieces]
                exact hdisk.append le_rfl (by simp [chunks_torn])
              · simp
        · exact h

theorem LogState.Sound.exec (h : l.Sound) (indexEvery : Nat) (as : List (LogStep δ)) :
    (Foundation.exec (LogState.step indexEvery) l as).Sound :=
  exec_invariant (P := LogState.Sound) (fun _ a h => h.step indexEvery a) as h

/-- A day's log before its first chunk. -/
theorem LogState.Sound.fresh (lastSeq : Nat) : ({ lastSeq := lastSeq } : LogState δ).Sound :=
  ⟨List.Pairwise.nil, by simp [chunks], .nil, by simp⟩

end Sound

section Replay
variable {l : LogState δ} {fromSeq endOffset start : Nat}

/-- Where the seek lands: on a boundary that has every number from `fromSeq` on behind it. -/
theorem LogState.Sound.seek (h : l.Sound) (fromSeq : Nat) :
    ∃ pre post, l.pieces = pre ++ post ∧
      (Tp.seek l.idx fromSeq).getD headerSize = headerSize + bytes pre ∧
      (∀ c ∈ chunks pre, c.payload.tpSeqNo < fromSeq) ∧
      (pre ≠ [] → ∃ e ∈ l.idx, e.tpSeqNo ≤ fromSeq ∧ e.offset = headerSize + bytes pre ∧
        ∀ c ∈ chunks pre, c.payload.tpSeqNo < e.tpSeqNo) := by
  simp only [Tp.seek]
  cases hlast : (l.idx.filter fun e => decide (e.tpSeqNo ≤ fromSeq)).getLast? with
  | none => exact ⟨[], l.pieces, rfl, by simp, by simp [chunks], by simp⟩
  | some e =>
      have he := List.mem_of_getLast? hlast
      simp only [List.mem_filter, decide_eq_true_eq] at he
      obtain ⟨pre, post, hps, hoff, hbefore, -⟩ := h.onDisk.entry e he.1
      refine ⟨pre, post, hps, by simpa using hoff, ?_, fun _ => ⟨e, he.1, he.2, hoff, hbefore⟩⟩
      exact fun c hc => (hbefore c hc).trans_le he.2

end Replay

/-- A chunk of the sample log. -/
def sampleChunk (tpSeqNo : Nat) : Chunk (LogRow Unit) := ⟨⟨tpSeqNo, ()⟩, 100, by decide⟩

/-- Two runs of TP; the first dies after its index entry for number 3 was saved. -/
def sampleSteps : List (LogStep Unit) :=
  [.openLog true, .log (sampleChunk 1) true .written, .log (sampleChunk 2) true .written,
    .log (sampleChunk 3) true (.crashed 0), .openLog true, .log (sampleChunk 7) true .written,
    .log (sampleChunk 8) true .written]

end TickToSignal.Tp
