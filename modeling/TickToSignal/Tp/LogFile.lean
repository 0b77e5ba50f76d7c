import TickToSignal.Foundation.Framing
import TickToSignal.Foundation.Machine
import Mathlib.Data.List.Dedup
import Mathlib.Data.List.Sort

/-!
# The bytes of one daily log, and its index

TP appends serialized chunks to a log file without a length prefix, and records
in an index file where some of them begin. A reader seeks with the index and
reads the log in segments that are cut at index offsets; each segment has to
validate as a log file of its own.

## Implementation notes

Validation (`-11!(-2;f)`) accepts exactly the ranges that are whole chunks. A
write that TP did not survive leaves some of the chunk's bytes, or none; the
index entry it recorded is there if its save came through. Numbers are taken by
`.tp.nextSeqNo`: each step's number is above all numbers taken before, and a
step with another number is not a step of TP.
-/

namespace TickToSignal.Tp

open Foundation

/-- Bytes of the header that every log begins with. -/
def headerSize : Nat := 8

/-- A row as TP logs it: its number, and the rest. -/
structure LogRow (δ : Type*) where
  tpSeqNo : Nat
  data : δ
  deriving DecidableEq, Repr

/-- Where the chunk with number `tpSeqNo` begins. -/
structure IdxEntry where
  tpSeqNo : Nat
  offset : Nat
  chunk : Nat
  deriving DecidableEq, Repr

/-- What TP holds of the log it writes. -/
structure Writer where
  entries : List IdxEntry
  forceNext : Bool := true
  logCount : Nat
  deriving DecidableEq, Repr

/-- One log and its index on disk, the running TP, and the highest number taken. -/
structure LogState (δ : Type*) where
  pieces : List (Piece (LogRow δ)) := []
  idx : List IdxEntry := []
  tp : Option Writer := none
  lastSeq : Nat := 0
  deriving DecidableEq, Repr

/-- How far TP got with a chunk. -/
inductive WriteEnd
  | written
  | crashed (bytes : Nat)
  deriving DecidableEq, Repr

inductive LogStep (δ : Type*)
  | openLog (idxReadable : Bool)
  | log (c : Chunk (LogRow δ)) (idxSaved : Bool) (ended : WriteEnd)
  | crash
  deriving DecidableEq, Repr

namespace LogState

variable {δ : Type*}

/-- `hcount` of the log. -/
def hcount (l : LogState δ) : Nat := headerSize + bytes l.pieces

/-- `-11!(-2;f)`, first part: the good chunks at the beginning. -/
def goodChunks (l : LogState δ) : Nat := (l.pieces.takeWhile Piece.isWhole).length

/-- `.tp.openLog`: the log is opened for appending behind whatever it ends with. -/
def openLog (l : LogState δ) (idxReadable : Bool) : LogState δ :=
  { l with
    tp := some { entries := if idxReadable then l.idx else [], logCount := l.goodChunks } }

/-- `.tp.idx.maybeRecord`; `idxSaved` says whether the rewritten index file came through. -/
def maybeRecord (indexEvery : Nat) (l : LogState δ) (w : Writer) (seq : Nat) (idxSaved : Bool) :
    LogState δ × Writer :=
  if w.forceNext ∨ w.logCount % indexEvery = 0 then
    let entries := w.entries ++ [{ tpSeqNo := seq, offset := l.hcount, chunk := w.logCount }]
    ({ l with idx := if idxSaved then entries else l.idx },
      { w with forceNext := false, entries := entries })
  else (l, w)

/-- What a write that TP did not survive left behind. -/
def torn (c : Chunk (LogRow δ)) (bytes : Nat) : List (Piece (LogRow δ)) :=
  if h : 0 < bytes ∧ bytes < c.size then [.torn bytes h.1] else []

/-- `.tp.log`. -/
def log (indexEvery : Nat) (l : LogState δ) (w : Writer) (c : Chunk (LogRow δ)) (idxSaved : Bool) :
    WriteEnd → LogState δ
  | .written =>
      let (l, w) := l.maybeRecord indexEvery w c.payload.tpSeqNo idxSaved
      { l with
        pieces := l.pieces ++ [.whole c], tp := some { w with logCount := w.logCount + 1 }
        lastSeq := c.payload.tpSeqNo }
  | .crashed bytes =>
      let (l, _) := l.maybeRecord indexEvery w c.payload.tpSeqNo idxSaved
      { l with
        pieces := l.pieces ++ torn c bytes, tp := none, lastSeq := c.payload.tpSeqNo }

def step (indexEvery : Nat) (l : LogState δ) : LogStep δ → LogState δ
  | .openLog idxReadable => l.openLog idxReadable
  | .log c idxSaved ended =>
      match l.tp with
      | none => l
      | some w => if l.lastSeq < c.payload.tpSeqNo then l.log indexEvery w c idxSaved ended else l
  | .crash => { l with tp := none }

end LogState

/-! ## The reader -/

/-- `.lr.seek`: the offset of the last entry at or below `fromSeq`. -/
def seek (idx : List IdxEntry) (fromSeq : Nat) : Option Nat :=
  (idx.filter fun e => decide (e.tpSeqNo ≤ fromSeq)).getLast?.map (·.offset)

/-- `.lr.replaySegment`; `none` when it throws. -/
def replaySegment {α : Type*} (ps : List (Piece α)) (startOffset endOffset : Nat) :
    Option (List (Chunk α)) :=
  if endOffset < startOffset then none
  else if endOffset = startOffset then some []
  else readRange headerSize ps startOffset endOffset

/-- The ends of the segments, in order. -/
def segmentEnds (idx : List IdxEntry) (startOffset endOffset : Nat) : List Nat :=
  (((idx.map (·.offset)).filter fun o => decide (startOffset < o ∧ o < endOffset)) ++
    [endOffset]).dedup.insertionSort (· ≤ ·)

/-- `.lr.replayFrom`: the chunks that reach the callback; `none` when it throws. -/
def replayFrom {α : Type*} (ps : List (Piece α)) (idx : List IdxEntry) (fromSeq endOffset : Nat) :
    Option (List (Chunk α)) :=
  let startOffset := (seek idx fromSeq).getD headerSize
  walk (replaySegment ps) startOffset (segmentEnds idx startOffset endOffset)

section Reader
variable {α : Type*} {ps : List (Piece α)} {cs : List (Chunk α)} {idx : List IdxEntry}
  {s e fromSeq : Nat}

theorem mem_segmentEnds {b : Nat} :
    b ∈ segmentEnds idx s e ↔ ((∃ i ∈ idx, i.offset = b) ∧ s < b ∧ b < e) ∨ b = e := by
  simp [segmentEnds, List.mem_insertionSort, List.mem_dedup]

theorem segmentEnds_ascending : (segmentEnds idx s e).Pairwise (· < ·) := by
  have hsorted := List.pairwise_insertionSort (· ≤ ·)
    (((idx.map (·.offset)).filter fun o => decide (s < o ∧ o < e)) ++ [e]).dedup
  have hnodup : (segmentEnds idx s e).Nodup :=
    (List.perm_insertionSort _ _).nodup_iff.mpr (List.nodup_dedup _)
  exact (hsorted.and hnodup).imp fun h => lt_of_le_of_ne h.1 h.2

theorem replaySegment_eq_some_iff (hse : s < e) :
    replaySegment ps s e = some cs ↔ Spans headerSize ps s e cs := by
  rw [replaySegment, if_neg (not_lt.mpr hse.le), if_neg hse.ne', readRange_eq_some_iff]

/-- Segments cut at boundaries give what the whole range holds. -/
theorem replayFrom_eq_of_spans (hseek : (seek idx fromSeq).getD headerSize = s)
    (hidx : ∀ i ∈ idx, Boundary headerSize ps i.offset) (h : Spans headerSize ps s e cs) :
    replayFrom ps idx fromSeq e = some cs := by
  rw [replayFrom, hseek]
  obtain hse | rfl := h.le.lt_or_eq
  · refine h.walk_eq (fun _ _ _ hlt hspan => (replaySegment_eq_some_iff hlt).mpr hspan)
      segmentEnds_ascending (fun b hb => ?_) (mem_segmentEnds.mpr (.inr rfl))
    obtain ⟨⟨i, hi, rfl⟩, hsb, hbe⟩ | rfl := mem_segmentEnds.mp hb
    · exact ⟨hsb, hbe.le, hidx i hi⟩
    · exact ⟨hse, le_rfl, h.stop⟩
  · have hends : segmentEnds idx s s = [s] := by
      have hfilter : (idx.map (·.offset)).filter (fun o => decide (s < o ∧ o < s)) = [] := by
        simp only [List.filter_eq_nil_iff, decide_eq_true_eq]
        exact fun o _ ho => absurd (ho.1.trans ho.2) (lt_irrefl s)
      rw [segmentEnds, hfilter]
      rfl
    obtain rfl : cs = [] := h.eq_nil
    simp [hends, walk, replaySegment]

/-- What `replayFrom` returns spans the range it read. -/
theorem replayFrom_spans (hseek : (seek idx fromSeq).getD headerSize = s) (hse : s < e)
    (h : replayFrom ps idx fromSeq e = some cs) : Spans headerSize ps s e cs := by
  rw [replayFrom, hseek] at h
  refine walk_spans (fun _ _ _ hlt hread => (replaySegment_eq_some_iff hlt).mp hread)
    segmentEnds_ascending (fun b hb => ?_) (mem_segmentEnds.mpr (.inr rfl)) h
  obtain ⟨-, hsb, hbe⟩ | rfl := mem_segmentEnds.mp hb
  · exact ⟨hsb, hbe.le⟩
  · exact ⟨hse, le_rfl⟩

end Reader

end TickToSignal.Tp
