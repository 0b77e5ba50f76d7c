import TickToSignal.Utils.TradePartitions
import Mathlib.Algebra.BigOperators.Group.List.Basic
import Mathlib.Algebra.Ring.Nat

/-!
# A range of days, and running it again

Each day of a range is skipped, loaded or failed, by what was there before and
by whether all its downloads arrive. So a range that is run again, any number of
times, ends with every day that was ever fetched, with the same rows whichever
run fetched it.

## Implementation notes

The symbols of a range are different, and the extraction of an archive that
arrived does not break off; otherwise the loader stops in the middle.
-/

namespace TickToSignal.Utils.TradeLoader

open Foundation

variable {F : Type*}

section Range
variable {src : Source F} {c : Session} {f : Files F} {ds : List Date} {d : Date} {s : LoadState F}

/-- The range can go on whatever arrives. -/
structure Session.Smooth (c : Session) : Prop where
  nonempty : c.syms ≠ []
  nodup : c.syms.Nodup
  whole : ∀ sym dt, c.breaksAt sym dt = none

theorem Session.Smooth.extracts (h : c.Smooth) : c.Extracts := fun _ => h.whole

theorem final_loadOneDate (hsyms : c.syms ≠ []) (hready : Ready src c d s) :
    (loadOneDate src c d).final s =
      { s with
        hdb := Function.update s.hdb (c.ldr, d) (some (.saved (src.partition c.ldr c.syms d))) } := by
  rw [loadOneDate, Trail.final_read, if_neg (by simp [hready.not_missing]), if_neg hsyms,
    Trail.final_seq, hready.rowsFound_eq]
  simp [setPartition]

theorem final_deleteCsvs_left (syms : List String) :
    ((Trail.each (fun sym => deleteCsv c sym d) syms).final s).left = s.left := by
  induction syms generalizing s with
  | nil => rfl
  | cons sym syms ih =>
      rw [Trail.final_each_cons]
      exact ih

/-- Where a range stands after some of its days. -/
structure RangeDone (src : Source F) (c : Session) (f : Files F) (ds : List Date)
    (s : LoadState F) : Prop where
  goes : s.left = false
  skipped : s.skipped = ds.filter fun d => (f.hdb (c.ldr, d)).isSome
  loaded : s.loaded = ds.filter fun d => (f.hdb (c.ldr, d)).isNone && downloads src c d
  failed : s.failed = ds.filter fun d => (f.hdb (c.ldr, d)).isNone && !downloads src c d
  totalRows : s.totalRows = (s.loaded.map fun d => (src.partition c.ldr c.syms d).length).sum
  hdb : ∀ ldr d, s.hdb (ldr, d) =
    if ldr = c.ldr ∧ d ∈ s.loaded then some (.saved (src.partition ldr c.syms d))
    else f.hdb (ldr, d)

theorem RangeDone.exists_iff (h : RangeDone src c f ds s) (hd : d ∉ ds) :
    partitionExists c s d = (f.hdb (c.ldr, d)).isSome := by
  have hnew : d ∉ s.loaded := by
    rw [h.loaded]
    exact fun hmem => hd (List.mem_of_mem_filter hmem)
  rw [partitionExists, h.hdb, if_neg fun hboth => hnew hboth.2]

/-- A day that is there is skipped. -/
theorem RangeDone.skip (h : RangeDone src c f ds s) (hexists : (f.hdb (c.ldr, d)).isSome) :
    RangeDone src c f (ds ++ [d]) { s with skipped := s.skipped ++ [d] } where
  goes := h.goes
  skipped := by simp [h.skipped, List.filter_append, hexists]
  loaded := by simp [h.loaded, List.filter_append, Option.isNone_eq_false_iff.mpr hexists]
  failed := by simp [h.failed, List.filter_append, Option.isNone_eq_false_iff.mpr hexists]
  totalRows := h.totalRows
  hdb := h.hdb

/-- A day of which a download fails. -/
theorem RangeDone.fail (h : RangeDone src c f ds s) (hnone : f.hdb (c.ldr, d) = none)
    (hfails : downloads src c d = false) {t : LoadState F} (hsame : SameResult s t)
    (hgoes : t.left = false) :
    RangeDone src c f (ds ++ [d]) { t with failed := t.failed ++ [d] } where
  goes := hgoes
  skipped := by simp [hsame.skipped, h.skipped, List.filter_append, hnone]
  loaded := by simp [hsame.loaded, h.loaded, List.filter_append, hnone, hfails]
  failed := by simp [hsame.failed, h.failed, List.filter_append, hnone, hfails]
  totalRows := by
    change t.totalRows = (t.loaded.map _).sum
    rw [hsame.totalRows, hsame.loaded, h.totalRows]
  hdb := by
    change ∀ ldr d, t.hdb (ldr, d) = if ldr = c.ldr ∧ d ∈ t.loaded then _ else _
    rw [hsame.hdb, hsame.loaded]
    exact h.hdb

/-- A day that is loaded. -/
theorem RangeDone.load (h : RangeDone src c f ds s) (hnone : f.hdb (c.ldr, d) = none)
    (hall : downloads src c d = true) {t : LoadState F} (hsame : SameResult s t)
    (hgoes : t.left = false) :
    RangeDone src c f (ds ++ [d])
      { t with
        hdb := Function.update t.hdb (c.ldr, d) (some (.saved (src.partition c.ldr c.syms d)))
        loaded := t.loaded ++ [d]
        totalRows := t.totalRows + (src.partition c.ldr c.syms d).length } where
  goes := hgoes
  skipped := by simp [hsame.skipped, h.skipped, List.filter_append, hnone]
  loaded := by simp [hsame.loaded, h.loaded, List.filter_append, hnone, hall]
  failed := by simp [hsame.failed, h.failed, List.filter_append, hnone, hall]
  totalRows := by simp [hsame.totalRows, hsame.loaded, h.totalRows]
  hdb := by
    intro ldr d'
    change Function.update t.hdb (c.ldr, d) _ (ldr, d') =
      if ldr = c.ldr ∧ d' ∈ t.loaded ++ [d] then _ else _
    rw [hsame.hdb, hsame.loaded, Function.update_apply, h.hdb]
    by_cases hkey : (ldr, d') = (c.ldr, d)
    · cases hkey
      simp
    · have hother : (ldr = c.ldr ∧ d' ∈ s.loaded ++ [d]) ↔ ldr = c.ldr ∧ d' ∈ s.loaded := by
        rw [Prod.mk.injEq] at hkey
        rw [List.mem_append, List.mem_singleton]
        tauto
      rw [if_neg hkey]
      simp only [hother]

/-- One round of the loop. -/
theorem RangeDone.step (h : RangeDone src c f ds s) (hsmooth : c.Smooth) (hd : d ∉ ds) :
    RangeDone src c f (ds ++ [d]) ((rangeDate src c true d).final s) := by
  rw [rangeDate, final_unlessLeft, h.goes, if_neg Bool.false_ne_true, Trail.final_read,
    h.exists_iff hd]
  cases hexists : f.hdb (c.ldr, d) with
  | some p =>
      apply h.skip
      rw [hexists]
      rfl
  | none =>
      rw [if_neg (by simp), Trail.final_seq, Trail.final_seq, final_unlessLeft]
      set s₁ := (Trail.each (fun sym => deleteCsv c sym d) c.syms).final s
      have hcleaned : s₁.left = false := (final_deleteCsvs_left c.syms).trans h.goes
      have hgoes : ((fetchOneDate src c d).final s₁).left = false :=
        fetchOneDate_goes hsmooth.nodup (fun sym => hsmooth.whole sym d) hcleaned
      have hsame := ((quiet_deleteCsvs c d).final s).trans
        ((quiet_fetchOneDate src c d).final s₁)
      rw [hgoes, if_neg Bool.false_ne_true, loadFetched]
      cases hall : downloads src c d with
      | false =>
          rw [if_neg Bool.false_ne_true]
          exact h.fail hexists hall hsame hgoes
      | true =>
          have hready := ready_of_fetch hsmooth.extracts hall hgoes
          rw [if_pos rfl, Trail.final_read, if_neg (by simp [hready.not_missing]),
            Trail.final_seq, final_loadOneDate hsmooth.nonempty hready, final_unlessLeft,
            if_neg (by simp [hgoes]), hready.rowsFound_eq]
          exact h.load hexists hall hsame hgoes

theorem RangeDone.each (hsmooth : c.Smooth) {ds' : List Date} (h : RangeDone src c f ds s)
    (hnodup : (ds ++ ds').Nodup) :
    RangeDone src c f (ds ++ ds') ((Trail.each (rangeDate src c true) ds').final s) := by
  induction ds' generalizing ds s with
  | nil =>
      rw [List.append_nil]
      exact h
  | cons d ds' ih =>
      rw [List.append_cons] at hnodup ⊢
      have hd : d ∉ ds := by
        have hinit := (List.nodup_append.mp hnodup).1
        exact fun hmem => (List.nodup_append.mp hinit).2.2 d hmem d (List.mem_singleton_self d) rfl
      rw [Trail.final_each_cons]
      exact ih (h.step hsmooth hd) hnodup

theorem dates_ascending (startDt endDt : ℤ) : (dates startDt endDt).Pairwise (· < ·) := by
  apply List.pairwise_map.mpr
  apply List.pairwise_lt_range.imp
  intro i j hij
  omega

theorem mem_dates {startDt endDt d : ℤ} : d ∈ dates startDt endDt ↔ startDt ≤ d ∧ d ≤ endDt := by
  rw [dates, List.mem_map]
  constructor
  · rintro ⟨i, hi, rfl⟩
    have := List.mem_range.mp hi
    omega
  · rintro ⟨hstart, hend⟩
    exact ⟨(d - startDt).toNat, List.mem_range.mpr (by omega), by omega⟩

theorem rangeDone_range (hsmooth : c.Smooth) {startDt endDt : Date} (hle : startDt ≤ endDt) :
    RangeDone src c f (dates startDt endDt)
      ((range src c startDt endDt true).final { toFiles := f }) := by
  have hstart : RangeDone src c f [] ({ toFiles := f } : LoadState F) :=
    ⟨rfl, rfl, rfl, rfl, rfl, fun ldr d => (if_neg fun h => absurd h.2 List.not_mem_nil).symm⟩
  rw [range, if_neg (not_lt.mpr hle)]
  exact hstart.each hsmooth (dates_ascending startDt endDt).nodup

end Range

/-! ## Runs of the same range -/

/-- What a run of a range leaves. -/
def runRange (src : Source F) (startDt endDt : Date) (f : Files F) (c : Session) : Files F :=
  ((range src c startDt endDt true).final { toFiles := f }).toFiles

/-- A range that is run any number of times leaves what was there before, and each further day of
which in some run all downloads arrived: the archives of its symbols, sorted by symbol and time,
whichever run that was. -/
theorem reruns_converge (src : Source F) (ldr : Loader) (syms : List String) {startDt endDt : Date}
    (hle : startDt ≤ endDt) (f : Files F) {cs : List Session}
    (hcs : ∀ c ∈ cs, c.ldr = ldr ∧ c.syms = syms ∧ c.Smooth) (ldr' : Loader) (d : Date) :
    (exec (runRange src startDt endDt) f cs).hdb (ldr', d) =
      if ldr' = ldr ∧ d ∈ dates startDt endDt ∧ f.hdb (ldr, d) = none ∧
          ∃ c ∈ cs, downloads src c d = true then
        some (.saved (src.partition ldr syms d))
      else f.hdb (ldr', d) := by
  induction cs generalizing f with
  | nil => simp
  | cons c cs ih =>
      obtain ⟨hldr, hsyms, hsmooth⟩ := hcs c List.mem_cons_self
      have hdone : RangeDone src c f (dates startDt endDt)
          ((range src c startDt endDt true).final { toFiles := f }) := rangeDone_range hsmooth hle
      have hrun : ∀ l d, (runRange src startDt endDt f c).hdb (l, d) =
          if l = ldr ∧ d ∈ dates startDt endDt ∧ f.hdb (ldr, d) = none ∧
              downloads src c d = true then
            some (.saved (src.partition ldr syms d))
          else f.hdb (l, d) := by
        intro l d
        rw [runRange, hdone.hdb, hdone.loaded, hldr, hsyms]
        by_cases hl : l = ldr
        · subst hl
          simp [List.mem_filter]
        · simp [hl]
      rw [exec_cons, ih _ fun c' hc' => hcs c' (List.mem_cons_of_mem c hc'), hrun, hrun]
      by_cases hl : ldr' = ldr
      · subst hl
        by_cases hday : d ∈ dates startDt endDt ∧ f.hdb (ldr', d) = none
        · obtain ⟨hday, hnone⟩ := hday
          cases hall : downloads src c d <;> simp [hday, hnone, hall]
        · have hold : ∀ P, ¬(d ∈ dates startDt endDt ∧ f.hdb (ldr', d) = none ∧ P) :=
            fun P h => hday ⟨h.1, h.2.1⟩
          simp [hold]
      · simp [hl]

/-- The first time nothing arrives, the second time everything that is published. -/
def secondTime : List Session :=
  [{ oneSymbol .trade (.range 0 1 true) with arrives := fun _ _ => false },
    oneSymbol .trade (.range 0 1 true)]

theorem reruns_converge_second_time :
    (exec (runRange twoTrades 0 1) Files.empty secondTime).hdb (.trade, 0) =
      if Loader.trade = .trade ∧ 0 ∈ dates 0 1 ∧ (Files.empty : Files ℤ).hdb (.trade, 0) = none ∧
          ∃ c ∈ secondTime, downloads twoTrades c 0 = true then
        some (.saved (twoTrades.partition .trade ["BTCUSDT"] 0))
      else Files.empty.hdb (.trade, 0) :=
  reruns_converge twoTrades .trade ["BTCUSDT"] (by decide) Files.empty (by
    intro c hc
    rcases List.mem_cons.mp hc with rfl | hc
    · exact ⟨rfl, rfl, List.cons_ne_nil _ _, List.nodup_singleton _, fun _ _ => rfl⟩
    · obtain rfl := List.mem_singleton.mp hc
      exact ⟨rfl, rfl, List.cons_ne_nil _ _, List.nodup_singleton _, fun _ _ => rfl⟩) .trade 0

end TickToSignal.Utils.TradeLoader
