import TickToSignal.Wdb.World
import Mathlib.Data.List.TakeWhile

/-!
# A halted WDB

The flag is tested by `upd`, by the roll and by the shutdown, not by the write
path. A manual flush writes what was buffered when the flag was set; a
reconnect that finds TP's counter past the checkpoints again merges a replay,
and a buffer that grows over `maxRows` is flushed.
-/

namespace TickToSignal.Wdb

open Foundation

variable {δ : Type*}

namespace WdbProcess

/-- No row that a table would take leaves its buffer over `maxRows`. -/
def Fits (maxRows : Nat) (rows : WdbTable → List (Row δ)) (s : WdbProcess δ) : Prop :=
  ∀ t, admitted (·.tpSeqNo) (s.floor t) (rows t) = [] ∨
    (s.buffer t).length + (admitted (·.tpSeqNo) (s.floor t) (rows t)).length ≤ maxRows

/-- Each table took `rows` into its buffer, and nothing was written. -/
structure Kept (rows : WdbTable → List (Row δ)) (s s' : WdbProcess δ) : Prop
    extends SessionFrame s s' where
  disk : s'.disk = s.disk
  floor : ∀ t, s'.floor t = watermark (·.tpSeqNo) (s.floor t) (rows t)
  buffer : ∀ t, s'.buffer t = s.buffer t ++ admitted (·.tpSeqNo) (s.floor t) (rows t)

/-- Rows are kept in memory as long as they fit, and a write that does not fail follows
when they do not. -/
structure Outcome (works : Prop) (maxRows : Nat) (rows : WdbTable → List (Row δ))
    (s s' : WdbProcess δ) : Prop where
  fits : Fits maxRows rows s → Kept rows s s'
  grows : s.disk.tmp.length ≤ s'.disk.tmp.length
  writes : works → ¬ Fits maxRows rows s → s.disk.tmp.length < s'.disk.tmp.length

section
variable {works : Prop} {maxRows : Nat} {rows rows' : WdbTable → List (Row δ)}
  {s s' s'' : WdbProcess δ} {t : WdbTable}

theorem Kept.refl (s : WdbProcess δ) : Kept (fun _ => []) s s :=
  { SessionFrame.refl s with
    disk := rfl, floor := fun _ => rfl, buffer := fun t => by simp [admitted] }

theorem Kept.trans (h : Kept rows s s') (h' : Kept rows' s' s'') :
    Kept (fun t => rows t ++ rows' t) s s'' := by
  refine
    { h.toSessionFrame.trans h'.toSessionFrame with
      disk := h'.disk.trans h.disk, floor := ?_, buffer := ?_ }
  · intro t
    rw [h'.floor, h.floor, watermark_append]
  · intro t
    rw [h'.buffer, h.buffer, h.floor, admitted_append, List.append_assoc]

/-- Rows fit one batch after the other. -/
theorem Kept.fits_append (h : Kept rows s s') (hfits : Fits maxRows rows s) :
    Fits maxRows (fun t => rows t ++ rows' t) s ↔ Fits maxRows rows' s' := by
  refine forall_congr' fun t => ?_
  rw [admitted_append, List.append_eq_nil_iff, List.length_append, h.buffer, h.floor,
    List.length_append, Nat.add_assoc]
  constructor
  · rintro (⟨-, hnone⟩ | hle)
    · exact Or.inl hnone
    · exact Or.inr hle
  · rintro (hnone | hle)
    · rw [hnone, List.length_nil, Nat.add_zero]
      exact (hfits t).imp_left fun h => ⟨h, rfl⟩
    · exact Or.inr hle

theorem Fits.of_append (h : Fits maxRows (fun t => rows t ++ rows' t) s) :
    Fits maxRows rows s := by
  intro t
  have ht := h t
  rw [admitted_append, List.append_eq_nil_iff, List.length_append] at ht
  obtain ⟨hnone, -⟩ | hle := ht
  · exact Or.inl hnone
  · exact Or.inr (by omega)

theorem Outcome.refl (works : Prop) (maxRows : Nat) (s : WdbProcess δ) :
    Outcome works maxRows (fun _ => []) s s :=
  { fits := fun _ => Kept.refl s, grows := Nat.le_refl _
    writes := fun _ hover => absurd (fun _ => Or.inl rfl) hover }

theorem Outcome.trans (h : Outcome works maxRows rows s s')
    (h' : Outcome works maxRows rows' s' s'') :
    Outcome works maxRows (fun t => rows t ++ rows' t) s s'' := by
  refine { fits := ?_, grows := Nat.le_trans h.grows h'.grows, writes := ?_ }
  · intro hfits
    have hkept := h.fits hfits.of_append
    exact hkept.trans (h'.fits ((hkept.fits_append hfits.of_append).mp hfits))
  · intro hworks hover
    by_cases hfits : Fits maxRows rows s
    · have hkept := h.fits hfits
      refine Nat.lt_of_le_of_lt h.grows (h'.writes hworks fun hrest => hover ?_)
      exact (hkept.fits_append hfits).mpr hrest
    · exact Nat.lt_of_lt_of_le (h.writes hworks hfits) h'.grows

theorem Outcome.congr (h : Outcome works maxRows rows s s') (hrows : ∀ t, rows t = rows' t) :
    Outcome works maxRows rows' s s' :=
  funext hrows ▸ h

theorem Outcome.imp {works' : Prop} (h : Outcome works maxRows rows s s') (hworks : works' → works) :
    Outcome works' maxRows rows s s' :=
  { h with writes := fun hworks' => h.writes (hworks hworks') }

/-! ## A flush -/

theorem flushTable_grows (io : FlushIO) (t : WdbTable) (s : WdbProcess δ) :
    s.disk.tmp.length ≤ (s.flushTable io t).2.disk.tmp.length := by
  have hloop : s.disk.tmp.length ≤ (s.runWrites io t).tmp.length := by
    rw [(runWrites_spec io t s).tmp_eq, List.length_append]
    omega
  obtain h | ⟨-, h⟩ | h | ⟨-, -, saves, d, h⟩ := flushTable_cases io t s
  · rw [h]
  · rw [h]
    exact Nat.le_refl _
  · rw [h]
    exact hloop
  · rw [h]
    cases saves <;> exact hloop

/-- A flush that has something to write, on a file system that works, writes. -/
theorem flushTable_writes {io : FlushIO} (hworks : ∀ d, io.writes d = true)
    (hrows : s.flushRows t ≠ []) :
    s.disk.tmp.length < (s.flushTable io t).2.disk.tmp.length := by
  have hspec := runWrites_spec io t s
  have hwritten : (s.runWrites io t).written ≠ [] := by
    obtain ⟨r, hr⟩ := List.exists_mem_of_ne_nil _ hrows
    refine List.ne_nil_of_mem ((hspec.mem_written r).mpr ⟨hr, ?_⟩)
    rw [List.takeWhile_eq_self_iff.mpr fun d _ => hworks d]
    exact mem_distinctDates.mpr ⟨r, hr, rfl⟩
  have hloop : s.disk.tmp.length < (s.runWrites io t).tmp.length := by
    have hpos := List.length_pos_iff.mpr hwritten
    rw [hspec.tmp_eq, List.length_append, List.length_map]
    omega
  have hbuffer : s.buffer t ≠ [] := by
    intro hnone
    simp [flushRows, hnone] at hrows
  simp only [flushTable, if_neg hbuffer, if_neg hrows, if_neg hwritten]
  split_ifs
  · cases io.saves <;> exact hloop
  · exact hloop

theorem flushTable_old (io : FlushIO) (hold : s.flushRows t = []) :
    (s.flushTable io t).2.disk = s.disk := by
  simp only [flushTable]
  split_ifs
  · rfl
  · rfl

/-- What a flush of one table leaves to flush in the others. -/
theorem flushTable_flushRows (io : FlushIO) {x : WdbTable} (hx : x ≠ t) (s : WdbProcess δ) :
    (s.flushTable io t).2.flushRows x = s.flushRows x := by
  have hsame : (s.flushTable io t).2.buffer x = s.buffer x ∧
      (s.flushTable io t).2.lastTpSeqNo x = s.lastTpSeqNo x := by
    obtain h | ⟨-, h⟩ | h | ⟨-, -, saves, d, h⟩ := flushTable_cases io t s
    · rw [h]
      exact ⟨rfl, rfl⟩
    · rw [h]
      exact ⟨Function.update_of_ne hx _ _, rfl⟩
    · rw [h]
      exact ⟨Function.update_of_ne hx _ _, rfl⟩
    · rw [h]
      cases saves <;> exact ⟨Function.update_of_ne hx _ _, Function.update_of_ne hx _ _⟩
  rw [flushRows, flushRows, hsame.1, hsame.2]

theorem flushAll_snd (io : WdbTable → FlushIO) (s : WdbProcess δ) :
    (s.flushAll io).2 = tables.foldl (fun s t => (s.flushTable (io t) t).2) s := rfl

/-- A flush of all tables writes nothing if there is nothing to write, and on a file system
that works only then. -/
theorem flushAll_disk (io : WdbTable → FlushIO) (s : WdbProcess δ) :
    ((∀ t, s.flushRows t = []) → (s.flushAll io).2.disk = s.disk) ∧
      ((∀ t d, (io t).writes d = true) → (s.flushAll io).2.disk = s.disk →
        ∀ t, s.flushRows t = []) := by
  suffices hfold : ∀ (ts : List WdbTable) (s : WdbProcess δ), ts.Nodup →
      s.disk.tmp.length ≤ (ts.foldl (fun s t => (s.flushTable (io t) t).2) s).disk.tmp.length ∧
      ((∀ t ∈ ts, s.flushRows t = []) →
        (ts.foldl (fun s t => (s.flushTable (io t) t).2) s).disk = s.disk) ∧
      ((∀ t d, (io t).writes d = true) →
        (ts.foldl (fun s t => (s.flushTable (io t) t).2) s).disk = s.disk →
          ∀ t ∈ ts, s.flushRows t = []) by
    simpa [flushAll_snd] using (hfold tables s (by decide)).2
  intro ts
  induction ts with
  | nil => exact fun s _ => ⟨Nat.le_refl _, fun _ => rfl, by simp⟩
  | cons t ts ih =>
      intro s hnodup
      obtain ⟨hnot, hnodup⟩ := List.nodup_cons.mp hnodup
      rw [List.foldl_cons, List.forall_mem_cons]
      obtain ⟨hgrows, hold, hnew⟩ := ih (s.flushTable (io t) t).2 hnodup
      have hone := flushTable_grows (io t) t s
      have hrest : ∀ x ∈ ts, (s.flushTable (io t) t).2.flushRows x = s.flushRows x := by
        intro x hx
        have hne : x ≠ t := by
          rintro rfl
          exact hnot hx
        exact flushTable_flushRows (io t) hne s
      refine ⟨Nat.le_trans hone hgrows, ?_, ?_⟩
      · rintro ⟨ht, hts⟩
        have hsame := hold fun x hx => (hrest x hx).trans (hts x hx)
        exact hsame.trans (flushTable_old (io t) ht)
      · intro hworks hsame
        have ht : s.flushRows t = [] := by
          by_contra hrows
          have hlt := flushTable_writes (hworks t) hrows
          have hlen := congrArg (·.tmp.length) hsame
          omega
        have hts := hnew hworks (hsame.trans (flushTable_old (io t) ht).symm)
        exact ⟨ht, fun x hx => (hrest x hx).symm.trans (hts x hx)⟩

/-! ## A replay -/

theorem takeRow_kept {row : Row δ} (hnew : s.floor t < row.tpSeqNo) :
    Kept (only t [row]) s (s.takeRow t row) := by
  refine { SessionFrame.refl s with disk := rfl, floor := ?_, buffer := ?_ }
  · intro x
    rw [takeRow_floor]
    by_cases hx : x = t
    · simp [hx]
    · simp [hx]
  · intro x
    by_cases hx : x = t
    · subst hx
      simp [WdbProcess.takeRow, admitted, Nat.not_le.mpr hnew]
    · simp [WdbProcess.takeRow, admitted, hx]

/-- One row. -/
theorem ingest_outcome (maxRows : Nat) (io : FlushIO) (t : WdbTable) (row : Row δ)
    (s : WdbProcess δ) :
    Outcome (∀ d, io.writes d = true) maxRows (only t [row]) s (s.ingest maxRows io t row) := by
  by_cases hdup : row.tpSeqNo ≤ s.floor t
  · have hnone : ∀ x, admitted (·.tpSeqNo) (s.floor x) (only t [row] x) = [] := by
      intro x
      by_cases hx : x = t
      · subst hx
        simp [admitted, hdup]
      · simp [hx, admitted]
    have hsame : s.ingest maxRows io t row = s := by
      simp [ingest, acceptRow, hdup]
    rw [hsame]
    refine
      { fits := fun _ => ?_, grows := Nat.le_refl _
        writes := fun _ hover => absurd (fun x => Or.inl (hnone x)) hover }
    refine { SessionFrame.refl s with disk := rfl, floor := ?_, buffer := fun x => by simp [hnone] }
    intro x
    by_cases hx : x = t
    · subst hx
      simp [hdup]
    · simp [hx]
  · have hnew := Nat.not_le.mp hdup
    have hfits : Fits maxRows (only t [row]) s ↔ ((s.takeRow t row).buffer t).length ≤ maxRows := by
      constructor
      · intro hfits
        simpa [admitted, hdup, WdbProcess.takeRow] using hfits t
      · intro hle x
        by_cases hx : x = t
        · subst hx
          simpa [admitted, hdup, WdbProcess.takeRow] using hle
        · simp [hx, admitted]
    have hkept := takeRow_kept hnew
    have hingest : s.ingest maxRows io t row =
        if maxRows < ((s.takeRow t row).buffer t).length then
          ((s.takeRow t row).flushTable io t).2
        else s.takeRow t row := by
      simp [ingest, acceptRow, hdup, WdbProcess.takeRow]
    rw [hingest]
    split_ifs with hover
    · refine { fits := fun h => absurd (hfits.mp h) (Nat.not_le.mpr hover), grows := ?_, writes := ?_ }
      · exact flushTable_grows io t (s.takeRow t row)
      · intro hworks _
        refine flushTable_writes (s := s.takeRow t row) hworks (List.ne_nil_of_mem (a := row) ?_)
        have hlast : s.lastTpSeqNo t < row.tpSeqNo :=
          Nat.lt_of_le_of_lt (Nat.le_max_left _ _) hnew
        simp [flushRows, WdbProcess.takeRow, hlast]
    · exact
        { fits := fun _ => hkept, grows := Nat.le_refl _
          writes := fun _ h => absurd (hfits.mpr (Nat.not_lt.mp hover)) h }

theorem ingestAll_outcome (maxRows : Nat) (io : Nat → FlushIO) (t : WdbTable)
    (rows : List (Row δ)) (s : WdbProcess δ) :
    Outcome (∀ n d, (io n).writes d = true) maxRows (only t rows) s
      (s.ingestAll maxRows io t rows) := by
  induction rows generalizing s with
  | nil =>
      apply (Outcome.refl _ maxRows s).congr
      intro x
      by_cases hx : x = t <;> simp [hx]
  | cons row rows ih =>
      have hrow := ingest_outcome maxRows (io row.tpSeqNo) t row s
      apply ((hrow.imp fun hworks => hworks row.tpSeqNo).trans (ih _)).congr
      intro x
      by_cases hx : x = t <;> simp [hx]

theorem mergeStaged_outcome (maxRows : Nat) (io : WdbTable → Nat → FlushIO)
    (stage : WdbTable → List (Row δ)) (s : WdbProcess δ) :
    Outcome (∀ t n d, (io t n).writes d = true) maxRows stage s (s.mergeStaged maxRows io stage) :=
  foldTables (R := Outcome (∀ t n d, (io t n).writes d = true) maxRows)
    (Outcome.refl _ maxRows) Outcome.trans
    (fun t s => (ingestAll_outcome maxRows (io t) t (stage t) s).imp fun hworks => hworks t)
    (fun _ _ _ _ => rfl) s

theorem drainLiveBuffer_outcome (maxRows : Nat) (io : Nat → FlushIO) (t : WdbTable)
    (s : WdbProcess δ) :
    Outcome (∀ n d, (io n).writes d = true) maxRows (only t (s.newLive t)) s
      (s.drainLiveBuffer maxRows io t) := by
  have hall := ingestAll_outcome maxRows io t (s.newLive t) s
  exact
    { fits := fun hfits => { hall.fits hfits with }
      grows := hall.grows
      writes := hall.writes }

theorem drainAll_outcome (maxRows : Nat) (io : WdbTable → Nat → FlushIO) (s : WdbProcess δ) :
    Outcome (∀ t n d, (io t n).writes d = true) maxRows (fun t => s.newLive t) s
      (s.drainAll maxRows io) :=
  foldTables (R := Outcome (∀ t n d, (io t n).writes d = true) maxRows)
    (f := fun s t => s.newLive t) (Outcome.refl _ maxRows) Outcome.trans
    (fun t s => (drainLiveBuffer_outcome maxRows (io t) t s).imp fun hworks => hworks t)
    (fun t s _ hx => newLive_drainLiveBuffer maxRows (io t) t s hx) s

/-- What arrived during a replay is taken after what it staged. -/
theorem completeReplay_outcome (maxRows : Nat) (io : WdbTable → Nat → FlushIO)
    (stage : WdbTable → List (Row δ)) (s : WdbProcess δ) :
    Outcome (∀ t n d, (io t n).writes d = true) maxRows (fun t => stage t ++ s.newLive t) s
      ((s.mergeStaged maxRows io stage).drainAll maxRows io) := by
  have hmerge := mergeStaged_outcome maxRows io stage s
  have hdrain := drainAll_outcome maxRows io (s.mergeStaged maxRows io stage)
  apply (hmerge.trans hdrain).congr
  intro t
  rw [newLive, mergeStaged_live, (mergeStaged_frame maxRows io stage s).replayCutoff, newLive]

theorem completeReplay_after (maxRows : Nat) (io : WdbTable → Nat → FlushIO)
    (stage : WdbTable → List (Row δ)) (s : WdbProcess δ) :
    (s.completeReplay maxRows io stage).disk =
        ((s.mergeStaged maxRows io stage).drainAll maxRows io).disk ∧
      (s.completeReplay maxRows io stage).halted = s.halted := by
  have hframe := (mergeStaged_frame maxRows io stage s).trans (drainAll_frame maxRows io _)
  simp only [completeReplay]
  exact ⟨trivial, hframe.halted⟩

end

end WdbProcess

/-! ## Every step -/

/-- The steps in which the process goes on. -/
def Step.goesOn : Step δ → Bool
  | .crash => false
  | .tpStart | .tpCrash | .tpLog _ _ _ | .start _ | .connect | .subscribe _ | .replayInfo _
  | .readLogs _ _ | .deliver _ | .connLost | .closed | .flush _ | .shutdown _ | .roll _ _ _ => true

/-- A manual flush finds nothing above the checkpoints in the buffers, and a replay that is
merged fits into them. -/
def Quiet (cfg : WdbConfig) (w : World δ) : Step δ → Prop
  | .flush _ => ∀ t, w.wdb.flushRows t = []
  | .readLogs (some stage) _ => w.wdb.conn = .replaying →
      w.wdb.Fits cfg.maxRows fun t => stage t ++ w.wdb.newLive t
  | _ => True

/-- The writes of a step succeed. -/
def Works : Step δ → Prop
  | .flush io => ∀ t d, (io t).writes d = true
  | .readLogs _ io => ∀ t n d, (io t n).writes d = true
  | _ => True

/-- A process that has halted and has not ended. -/
def World.haltedNow (w : World δ) : Bool := w.running && w.wdb.halted

section
variable {cfg : WdbConfig} {w : World δ}

/-- A step leaves the process halted, and writes only if it is not quiet. -/
structure Halts (cfg : WdbConfig) (w : World δ) (s : Step δ) (w' : World δ) : Prop where
  halted : w'.haltedNow = true
  quiet : Quiet cfg w s → w'.wdb.disk = w.wdb.disk
  writes : Works s → w'.wdb.disk = w.wdb.disk → Quiet cfg w s

theorem Halts.same {w' : World δ} {s : Step δ} (h : w.haltedNow = true)
    (hrun : w'.running = w.running) (hhalt : w'.wdb.halted = w.wdb.halted ∨ w'.wdb.halted = true)
    (hdisk : w'.wdb.disk = w.wdb.disk) (hquiet : Quiet cfg w s) : Halts cfg w s w' := by
  simp only [World.haltedNow, Bool.and_eq_true] at h
  refine { halted := ?_, quiet := fun _ => hdisk, writes := fun _ _ => hquiet }
  obtain hsame | hset := hhalt
  · simp [World.haltedNow, hrun, hsame, h]
  · simp [World.haltedNow, hrun, hset, h]

theorem halts_completeReplay (h : w.haltedNow = true) (stage : WdbTable → List (Row δ))
    (io : WdbTable → Nat → FlushIO) (hconn : w.wdb.conn = .replaying) :
    Halts cfg w (.readLogs (some stage) io)
      { w with wdb := w.wdb.completeReplay cfg.maxRows io stage } := by
  have hout := w.wdb.completeReplay_outcome cfg.maxRows io stage
  obtain ⟨hdisk, hhalted⟩ := w.wdb.completeReplay_after cfg.maxRows io stage
  refine { halted := ?_, quiet := ?_, writes := ?_ }
  · rw [World.haltedNow, hhalted]
    exact h
  · intro hquiet
    exact hdisk.trans (hout.fits (hquiet hconn)).disk
  · intro hworks hsame _
    by_contra hover
    have hlt := hout.writes hworks hover
    rw [← hdisk, hsame] at hlt
    exact Nat.lt_irrefl _ hlt

theorem halts_readLogs (h : w.haltedNow = true) (stage : Option (WdbTable → List (Row δ)))
    (io : WdbTable → Nat → FlushIO) :
    Halts cfg w (.readLogs stage io) (w.readLogs cfg stage io) := by
  cases stage with
  | none =>
      cases hconn : w.wdb.conn <;> simp only [World.readLogs, hconn] <;>
        exact Halts.same h rfl (Or.inl rfl) rfl trivial
  | some stage =>
      cases hconn : w.wdb.conn <;> simp only [World.readLogs, hconn]
      case replaying => exact halts_completeReplay h stage io hconn
      all_goals exact Halts.same h rfl (Or.inl rfl) rfl fun hreplay => by simp [hconn] at hreplay

theorem halts_step (h : w.haltedNow = true) (s : Step δ) (hs : s.goesOn = true) :
    Halts cfg w s (w.step cfg s) := by
  have hboth := h
  simp only [World.haltedNow, Bool.and_eq_true] at hboth
  cases s with
  | crash => simp [Step.goesOn] at hs
  | tpStart =>
      simp only [World.step, World.tpStart]
      split_ifs <;> exact Halts.same h rfl (Or.inl rfl) rfl trivial
  | tpCrash => exact Halts.same h rfl (Or.inl rfl) rfl trivial
  | tpLog t date data =>
      simp only [World.step, World.tpLog]
      split_ifs <;> exact Halts.same h rfl (Or.inl rfl) rfl trivial
  | start saves =>
      simp only [World.step, World.start, hboth.1, if_true]
      exact Halts.same h rfl (Or.inl rfl) rfl trivial
  | connect =>
      simp only [World.step, World.connect]
      split
      · split_ifs <;> exact Halts.same h rfl (Or.inl rfl) rfl trivial
      · exact Halts.same h rfl (Or.inl rfl) rfl trivial
  | subscribe replied =>
      simp only [World.step, World.subscribe]
      split
      · split
        · split_ifs <;> exact Halts.same h rfl (Or.inl rfl) rfl trivial
        · exact Halts.same h rfl (Or.inl rfl) rfl trivial
      · exact Halts.same h rfl (Or.inl rfl) rfl trivial
  | replayInfo replied =>
      simp only [World.step, World.replayInfo]
      split
      · split_ifs
        · simp only [WdbProcess.beginReplay]
          split_ifs
          · exact Halts.same h rfl (Or.inl rfl) rfl trivial
          · exact Halts.same h rfl (Or.inr rfl) rfl trivial
        · exact Halts.same h rfl (Or.inl rfl) rfl trivial
        · exact Halts.same h rfl (Or.inl rfl) rfl trivial
      · exact Halts.same h rfl (Or.inl rfl) rfl trivial
  | readLogs stage io => exact halts_readLogs h stage io
  | deliver io =>
      simp only [World.step, World.deliver]
      split
      · exact Halts.same h rfl (Or.inl rfl) rfl trivial
      · simp only [WdbProcess.upd, hboth.2, if_true]
        exact Halts.same h rfl (Or.inl rfl) rfl trivial
  | connLost => exact Halts.same h rfl (Or.inl rfl) rfl trivial
  | closed =>
      simp only [World.step, World.closed]
      split
      · split_ifs <;> exact Halts.same h rfl (Or.inl rfl) rfl trivial
      · exact Halts.same h rfl (Or.inl rfl) rfl trivial
  | flush io =>
      simp only [World.step, World.own, hboth.1, if_true]
      obtain ⟨hquiet, hwrites⟩ := w.wdb.flushAll_disk io
      have hframe := w.wdb.flushAll_frame io
      refine { halted := ?_, quiet := hquiet, writes := hwrites }
      simp [World.haltedNow, hframe.halted, hboth.2]
  | shutdown io =>
      simp only [World.step, World.own, if_pos hboth.1, WdbProcess.shutdown, if_pos hboth.2]
      exact Halts.same h rfl (Or.inl rfl) rfl trivial
  | roll today io moves =>
      simp only [World.step, World.own, if_pos hboth.1, WdbProcess.roll, if_pos hboth.2]
      exact Halts.same h rfl (Or.inl rfl) rfl trivial

end

/-- A halted WDB writes nothing until it ends, in every run in which each manual flush finds
nothing above the checkpoints, and each replay that is merged fits into the buffers. -/
theorem halted_writes_nothing (cfg : WdbConfig) {w : World δ} (h : w.haltedNow = true)
    {steps : List (Step δ)}
    (hrun : Admits (World.step cfg) (fun w s => s.goesOn = true ∧ Quiet cfg w s) w steps) :
    (exec (World.step cfg) w steps).haltedNow = true ∧
      (exec (World.step cfg) w steps).wdb.disk = w.wdb.disk := by
  refine hrun.invariant (P := fun w' => w'.haltedNow = true ∧ w'.wdb.disk = w.wdb.disk) ?_ ⟨h, rfl⟩
  rintro w' s ⟨h', hdisk⟩ ⟨hs, hquiet⟩
  have hstep : Halts cfg w' s (w'.step cfg s) := halts_step h' s hs
  exact ⟨hstep.halted, (hstep.quiet hquiet).trans hdisk⟩

/-- A WDB that lost its connection with row 6 in the buffer, and a TP that counts from 0 again. -/
def startedOver : World Unit :=
  { running := true
    tpUp := true
    wdb :=
      { disk := { checkpoint := some { seq := fun _ => 5, date := some 0 } }
        lastTpSeqNo := fun _ => 5
        checkpointDate := some 0
        bufMaxSeq := Function.update (fun _ => 0) .tradeGap 6
        buffer := WdbProcess.only .tradeGap [{ tpSeqNo := 6, date := 0, data := () }] } }

/-- A connection up to TP's reply to `.tp.replayInfo`. -/
def toReplayInfo : List (Step Unit) :=
  [.connect, .subscribe true, .subscribe true, .subscribe true, .subscribe true, .subscribe true,
    .replayInfo true]

def sampleIO : FlushIO := { today := 0, writes := fun _ => true, saves := true }

theorem halted_writes_nothing_sample :
    let cfg : WdbConfig := { maxRows := 1, seqReserve := 10 }
    let w := exec (World.step cfg) startedOver toReplayInfo
    w.haltedNow = true ∧
      (exec (World.step cfg) w [.tpLog .tradeGap 0 (), .deliver sampleIO, .roll 1 (fun _ => sampleIO)
        fun _ => true, .shutdown fun _ => sampleIO]).wdb.disk = w.wdb.disk :=
  ⟨by decide, (halted_writes_nothing { maxRows := 1, seqReserve := 10 } (by decide)
    (by exact ⟨⟨rfl, trivial⟩, ⟨rfl, trivial⟩, ⟨rfl, trivial⟩, ⟨rfl, trivial⟩, trivial⟩)).2⟩

/-- The manual flush writes the row that was buffered. So does a replay once TP has counted
past the checkpoints again. -/
theorem halted_writes :
    let cfg : WdbConfig := { maxRows := 1, seqReserve := 10 }
    let row (n : Nat) : Row Unit := { tpSeqNo := n, date := 0, data := () }
    let stored (n : Nat) : Stored Unit := { dir := 0, table := .tradeGap, row := row n }
    let w := exec (World.step cfg) startedOver toReplayInfo
    let later := exec (World.step cfg) w
      (.connLost :: .closed :: List.replicate 7 (.tpLog .tradeGap 0 ()) ++ toReplayInfo)
    let replay : Step Unit := .readLogs (some (WdbProcess.only .tradeGap [row 7])) fun _ _ => sampleIO
    w.haltedNow = true ∧ w.wdb.disk.tmp = [] ∧
      (w.step cfg (.flush fun _ => sampleIO)).wdb.disk.tmp = [stored 6] ∧
      later.haltedNow = true ∧ later.wdb.disk.tmp = [] ∧
      (later.step cfg replay).wdb.disk.tmp = [stored 6, stored 7] := by
  decide

end TickToSignal.Wdb
