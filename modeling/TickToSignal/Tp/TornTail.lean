import TickToSignal.Foundation.Neighbours
import TickToSignal.Tp.IndexedReplay

/-!
# What a torn log tail costs

TP killed inside a write leaves part of a chunk, and the next start appends
behind it. Every segment that crosses those bytes fails validation, so a replay
works only if its seek lands behind them: at an entry recorded after the
restart. The first chunk after an open always records one, so that is the case
exactly for replays that start at or above a number logged after the restart.
-/

namespace TickToSignal.Tp

open Foundation

variable {δ : Type*}

/-- A step that leaves a torn chunk in the log. -/
def LogStep.Tears : LogStep δ → Prop
  | .log c _ (.crashed k) => 0 < k ∧ k < c.size
  | _ => False

/-- Every whole row above `floor` comes out of a replay of the log as it stands. -/
def Delivered (l : LogState δ) (floor : Nat) : Prop :=
  ∀ c ∈ chunks l.pieces, floor < c.payload.tpSeqNo →
    ∃ rows, replayFrom l.pieces l.idx (floor + 1) l.hcount = some rows ∧ c ∈ rows

section Steps
variable {l : LogState δ} {fromSeq : Nat}

/-- A step that tears nothing appends whole chunks only. -/
theorem LogState.step_whole (indexEvery : Nat) {a : LogStep δ} (ha : ¬a.Tears) :
    ∃ more, (l.step indexEvery a).pieces = l.pieces ++ more ∧ ∀ p ∈ more, p.isWhole = true := by
  cases a with
  | crash => exact ⟨[], by simp [LogState.step], by simp⟩
  | openLog idxReadable => exact ⟨[], by simp [LogState.step, LogState.openLog], by simp⟩
  | log c idxSaved ended =>
      simp only [LogState.step]
      split
      · exact ⟨[], by simp, by simp⟩
      · rename_i w hw
        have hrec : (l.maybeRecord indexEvery w c.payload.tpSeqNo idxSaved).1.pieces = l.pieces := by
          simp only [LogState.maybeRecord]
          split_ifs <;> rfl
        split_ifs
        · cases ended with
          | written =>
              exact ⟨[.whole c], by simp [LogState.log, hrec], by simp [Piece.isWhole]⟩
          | crashed k =>
              have hnone : LogState.torn c k = [] := dif_neg ha
              exact ⟨[], by simp [LogState.log, hrec, hnone], by simp⟩
        · exact ⟨[], by simp, by simp⟩

theorem LogState.exec_whole (indexEvery : Nat) {as : List (LogStep δ)}
    (has : ∀ a ∈ as, ¬a.Tears) :
    ∃ more, (exec (LogState.step indexEvery) l as).pieces = l.pieces ++ more ∧
      ∀ p ∈ more, p.isWhole = true := by
  induction as generalizing l with
  | nil => exact ⟨[], by simp, by simp⟩
  | cons a as ih =>
      obtain ⟨more, hmore, hwhole⟩ := l.step_whole indexEvery (has a List.mem_cons_self)
      obtain ⟨rest, hrest, hwhole'⟩ :=
        ih (l := l.step indexEvery a) fun b hb => has b (List.mem_cons_of_mem a hb)
      refine ⟨more ++ rest, by rw [exec_cons, hrest, hmore, List.append_assoc], fun p hp => ?_⟩
      exact (List.mem_append.mp hp).elim (hwhole p) (hwhole' p)

/-- What a kill inside a write leaves. -/
theorem LogState.step_torn (indexEvery : Nat) {w : Writer} (hw : l.tp = some w)
    {c : Chunk (LogRow δ)} (hseq : l.lastSeq < c.payload.tpSeqNo) {k : Nat} (hk : 0 < k)
    (hc : k < c.size) (idxSaved : Bool) :
    (l.step indexEvery (.log c idxSaved (.crashed k))).pieces = l.pieces ++ [.torn k hk] := by
  have hrec : (l.maybeRecord indexEvery w c.payload.tpSeqNo idxSaved).1.pieces = l.pieces := by
    simp only [LogState.maybeRecord]
    split_ifs <;> rfl
  have htorn : LogState.torn c k = [.torn k hk] := dif_pos ⟨hk, hc⟩
  simp [LogState.step, hw, hseq, LogState.log, hrec, htorn]

/-- The seek goes at least as far as every entry it may use. -/
theorem LogState.Sound.offset_le_seek (h : l.Sound) {e : IdxEntry} (he : e ∈ l.idx)
    (hle : e.tpSeqNo ≤ fromSeq) : e.offset ≤ (Tp.seek l.idx fromSeq).getD headerSize := by
  have hmem : e ∈ l.idx.filter fun e => decide (e.tpSeqNo ≤ fromSeq) :=
    List.mem_filter.mpr ⟨he, by simpa using hle⟩
  have hoff := h.onDisk.offsets.filter fun e => decide (e.tpSeqNo ≤ fromSeq)
  simp only [Tp.seek]
  cases hlast : (l.idx.filter fun e => decide (e.tpSeqNo ≤ fromSeq)).getLast? with
  | none =>
      rw [List.getLast?_eq_none_iff.mp hlast] at hmem
      simp at hmem
  | some last =>
      obtain rfl | hle := eq_or_rel_getLast hoff hlast hmem
      · rfl
      · exact hle

/-- A range that begins before the end of a torn piece and goes to the end of the
file cannot be read. -/
theorem not_spans_torn {ps before after : List (Piece (LogRow δ))} {k s : Nat} {hk : 0 < k}
    {cs : List (Chunk (LogRow δ))} (hps : ps = before ++ [Piece.torn k hk] ++ after)
    (hs : s < headerSize + bytes (before ++ [Piece.torn k hk])) :
    ¬Spans headerSize ps s (headerSize + bytes ps) cs := by
  rintro ⟨pre, post, hps', rfl, hend⟩
  obtain ⟨mid, hmid, hrest⟩ := split_le (hps'.symm.trans hps) (by omega)
  have hpost : post = [] := by
    apply bytes_eq_zero
    have hlen := congrArg bytes hps'
    simp only [bytes_append] at hlen
    omega
  obtain rfl | ⟨mid', p, rfl⟩ := List.eq_nil_or_concat mid
  · rw [List.append_nil] at hmid
    rw [hmid] at hs
    omega
  · rw [List.concat_eq_append, ← List.append_assoc] at hmid
    obtain ⟨-, hlast⟩ := List.append_inj' hmid rfl
    obtain rfl := List.singleton_inj.mp hlast
    rw [hpost, List.append_nil] at hrest
    have hmem : Piece.torn k hk ∈ cs.map Piece.whole := by
      rw [hrest]
      simp
    obtain ⟨c, -, hc⟩ := List.mem_map.mp hmem
    cases hc

end Steps

section Torn
variable {l : LogState δ} {before after : List (Piece (LogRow δ))} {k floor : Nat} {hk : 0 < k}

/-- A replay that delivers anything starts behind the torn bytes, at an entry. -/
theorem LogState.Sound.entry_of_delivered (h : l.Sound)
    (hps : l.pieces = before ++ [Piece.torn k hk] ++ after) (hdel : Delivered l floor)
    {d : Chunk (LogRow δ)} (hd : d ∈ chunks l.pieces) (hfloor : floor < d.payload.tpSeqNo) :
    ∃ e ∈ l.idx, headerSize + bytes (before ++ [Piece.torn k hk]) ≤ e.offset ∧
      e.tpSeqNo ≤ floor + 1 := by
  obtain ⟨pre, post, hsplit, hstart, -, hentry⟩ := h.seek (floor + 1)
  obtain ⟨rows, hrows, -⟩ := hdel d hd hfloor
  have hbehind : headerSize + bytes (before ++ [Piece.torn k hk]) ≤ headerSize + bytes pre := by
    by_contra hcrosses
    rw [not_le] at hcrosses
    have hend : l.hcount = headerSize + bytes l.pieces := rfl
    have hle : headerSize + bytes (before ++ [Piece.torn k hk]) ≤ l.hcount := by
      rw [hend, hps, bytes_append (before ++ [Piece.torn k hk])]
      exact Nat.add_le_add_left (Nat.le_add_right _ _) _
    have hspan : Spans headerSize l.pieces (headerSize + bytes pre) l.hcount rows :=
      replayFrom_spans hstart (hcrosses.trans_le hle) hrows
    exact not_spans_torn hps hcrosses hspan
  have hpre : pre ≠ [] := by
    rintro rfl
    simp only [bytes_append, bytes_cons, bytes_nil, Piece.size] at hbehind
    omega
  obtain ⟨e, he, hle, hoff, -⟩ := hentry hpre
  exact ⟨e, he, hoff ▸ hbehind, hle⟩

/-- From an entry behind the torn bytes only whole pieces are read. -/
theorem LogState.Sound.delivered_of_entry (h : l.Sound)
    (hps : l.pieces = before ++ [Piece.torn k hk] ++ after)
    (hwhole : ∀ p ∈ after, p.isWhole = true) {e : IdxEntry} (he : e ∈ l.idx)
    (hoff : headerSize + bytes (before ++ [Piece.torn k hk]) ≤ e.offset)
    (hle : e.tpSeqNo ≤ floor + 1) : Delivered l floor := by
  obtain ⟨pre, post, hsplit, hstart, hbelow, -⟩ := h.seek (floor + 1)
  have hbehind := h.offset_le_seek he hle
  rw [hstart] at hbehind
  obtain ⟨mid, -, hrest⟩ := split_le (hps.symm.trans hsplit) (by omega)
  have hpost : post = (chunks post).map Piece.whole := by
    apply eq_map_whole
    intro p hp
    exact hwhole p (hrest ▸ List.mem_append_right _ hp)
  have hend : l.hcount = headerSize + bytes l.pieces := rfl
  have hspan : Spans headerSize l.pieces (headerSize + bytes pre) l.hcount (chunks post) := by
    refine ⟨pre, [], ?_, rfl, ?_⟩
    · rw [List.append_nil, ← hpost]
      exact hsplit
    · rw [← hpost, hend, hsplit, bytes_append, Nat.add_assoc]
  intro d hd hfloor
  refine ⟨chunks post, replayFrom_eq_of_spans hstart
    (fun i hi => (h.onDisk.entry i hi).boundary) hspan, ?_⟩
  rw [hsplit, chunks_append] at hd
  obtain hd | hd := List.mem_append.mp hd
  · exact absurd (hbelow d hd) (by omega)
  · exact hd

end Torn

/-- When a torn tail costs no more than the torn row: exactly if the index has
an entry recorded behind the torn bytes that is no higher than the start of the
replay, or nothing above the floor is in the log. -/
theorem torn_tail_delivered_iff (indexEvery lastSeq : Nat) (as bs : List (LogStep δ))
    (c : Chunk (LogRow δ)) (idxSaved idxReadable : Bool) (k floor : Nat) :
    let l := exec (LogState.step indexEvery) { lastSeq := lastSeq } as
    let killed := l.step indexEvery (.log c idxSaved (.crashed k))
    let l' := exec (LogState.step indexEvery) killed (.openLog idxReadable :: bs)
    (∀ p ∈ l.pieces, p.isWhole = true) → l.tp.isSome → l.lastSeq < c.payload.tpSeqNo →
    0 < k → k < c.size → (∀ b ∈ bs, ¬b.Tears) →
    (Delivered l' floor ↔
      (∃ e ∈ l'.idx, killed.hcount ≤ e.offset ∧ e.tpSeqNo ≤ floor + 1) ∨
        ∀ d ∈ chunks l'.pieces, d.payload.tpSeqNo ≤ floor) := by
  intro l killed l' hwhole hup hseq hk hc hbs
  obtain ⟨w, hw⟩ := Option.isSome_iff_exists.mp hup
  have hkilled : killed.pieces = l.pieces ++ [.torn k hk] :=
    LogState.step_torn indexEvery hw hseq hk hc idxSaved
  have hsound : l'.Sound :=
    ((LogState.Sound.fresh lastSeq).exec indexEvery as).step indexEvery _ |>.exec indexEvery _
  obtain ⟨more, hmore, hmore'⟩ : ∃ more, l'.pieces = killed.pieces ++ more ∧
      ∀ p ∈ more, p.isWhole = true := by
    apply LogState.exec_whole indexEvery
    intro b hb
    obtain rfl | hb := List.mem_cons.mp hb
    · exact fun h => h
    · exact hbs b hb
  have hcut : l'.pieces = l.pieces ++ [Piece.torn k hk] ++ more := by rw [hmore, hkilled]
  have hstart : killed.hcount = headerSize + bytes (l.pieces ++ [Piece.torn k hk]) := by
    rw [← hkilled]
    rfl
  rw [hstart]
  constructor
  · intro hdel
    by_cases hnone : ∀ d ∈ chunks l'.pieces, d.payload.tpSeqNo ≤ floor
    · exact Or.inr hnone
    · push Not at hnone
      obtain ⟨d, hd, hfloor⟩ := hnone
      exact Or.inl (hsound.entry_of_delivered hcut hdel hd hfloor)
  · rintro (⟨e, he, hoff, hle⟩ | hnone)
    · exact hsound.delivered_of_entry hcut hmore' he hoff hle
    · intro d hd hfloor
      exact absurd (hnone d hd) (not_le.mpr hfloor)

/-- TP has logged numbers 1 and 2 and is killed 40 bytes into number 3; the next run
logs number 10. -/
def tornSteps : List (LogStep Unit) :=
  [.openLog true, .log (sampleChunk 1) true .written, .log (sampleChunk 2) true .written,
    .log (sampleChunk 3) true (.crashed 40), .openLog true, .log (sampleChunk 10) true .written]

/-- A replay from below the restart delivers nothing, neither the rows before the
tear nor the one after it. -/
theorem torn_tail_blocks_replay :
    let l := exec (LogState.step 1000) { lastSeq := 0 } tornSteps
    ((chunks l.pieces).map (·.payload.tpSeqNo) = [1, 2, 10]) ∧
      replayFrom l.pieces l.idx 1 l.hcount = none ∧ ¬Delivered l 0 := by
  intro l
  have hthrows : replayFrom l.pieces l.idx 1 l.hcount = none := by decide
  refine ⟨by decide, hthrows, fun hdel => ?_⟩
  obtain ⟨rows, hrows, -⟩ := hdel (sampleChunk 1) (by decide) (by decide)
  rw [hthrows] at hrows
  cases hrows

/-- A replay that starts at the number logged after the restart delivers it. -/
theorem torn_tail_delivered_sample :
    Delivered (exec (LogState.step 1000) { lastSeq := 0 } tornSteps) 9 := by
  refine (torn_tail_delivered_iff 1000 0 (tornSteps.take 3) (tornSteps.drop 5) (sampleChunk 3)
    true true 40 9 (by decide) (by decide) (by decide) (by decide) (by decide) ?_).mpr (.inl ?_)
  · simp [tornSteps, LogStep.Tears]
  · exact ⟨⟨10, 248, 2⟩, by decide, by decide, by decide⟩

end TickToSignal.Tp
