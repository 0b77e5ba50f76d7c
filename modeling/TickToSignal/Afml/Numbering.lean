import TickToSignal.Afml.Conservation
import TickToSignal.Foundation.Stairs

/-!
# Bar numbers over days

The warm-up numbers a tick after the step of its scan, the adaptive pass before
it. Both record bars with consecutive numbers that end right below the counter
the state keeps, so a run numbers its bars without a hole and without a repeat.
The first number is 1 if the very first tick completes a bar, and 0 otherwise.
-/

namespace TickToSignal.Afml

open Foundation

variable {S K : Type*} [Ring K] [LinearOrder K]

/-! ## The scans climb -/

theorem climbs_scn (acc : K → K → K) (th : K) : Climbs (scn acc th) ScnState.bn := by
  intro st tr
  by_cases h : th ≤ |acc st.theta tr.sd|
  · exact .inr (by rw [scn_of_reaches h])
  · exact .inl (by rw [scn_of_below h])

theorem climbs_scnrw (th : K) : Climbs (scnrw th) ScnRwState.bn := by
  intro st tr
  by_cases h : th ≤ |accdib st.theta tr.sd|
  · exact .inr (by rw [scnrw_of_reaches h])
  · exact .inl (by rw [scnrw_of_below h])

theorem climbs_procScn (ops : Ops K) (mode : Mode) (alpha : K) :
    Climbs (procScn ops mode alpha) ScnaState.bn := by
  rw [procScn_eq]
  intro st tr
  by_cases h : st.exp.th ≤ |accOf mode st.theta tr.sd|
  · exact .inr (by rw [scna_of_reaches h])
  · exact .inl (by rw [scna_of_below h])

theorem climbs_scnrwdiba (ops : Ops K) (alpha kappa : K) :
    Climbs (scnrwdiba ops alpha kappa) ScnrwaState.bn := by
  intro st tr
  by_cases h : st.th ≤ |accdib st.theta tr.sd|
  · exact .inr (by rw [scnrwdiba_of_reaches h])
  · exact .inl (by rw [scnrwdiba_of_below h])

/-! ## One pass -/

/-- Consecutive numbers that end right below `next`. -/
def EndsBelow (next : Nat) (numbers : List Nat) : Prop :=
  ∃ first, first ≤ next ∧ numbers = List.range' first (next - first)

section Completed
variable {σ : Type*} {f : σ → Tr K → σ} {number out : σ → Nat}

omit [LinearOrder K] in
theorem length_numbers (f : σ → Tr K → σ) (out : σ → Nat) (st0 : σ) (t : List (Tick S K)) :
    ((scan f st0 (t.map Tick.tr)).map out).length ≤ t.zipIdx.length := by
  simp

omit [LinearOrder K] in
/-- Numbered before the step: from the number of the open bar on. -/
theorem keys_before (h : Climbs f number) (hout : ∀ st tr, out (f st tr) = number st) (st0 : σ)
    (t : List (Tick S K)) :
    (completed out number st0 (scan f st0 (t.map Tick.tr)) t).map Prod.fst =
      List.range' (number st0)
        (number ((scan f st0 (t.map Tick.tr)).getLastD st0) - number st0) := by
  refine keys_groupsIn fun k => ?_
  constructor
  · rintro ⟨⟨hhi, hlo⟩, -⟩
    exact ⟨hlo, hhi⟩
  · rintro ⟨hlo, hhi⟩
    refine ⟨⟨hhi, hlo⟩, exists_mem_rowsOf_zip (length_numbers f out st0 t) ?_⟩
    exact h.mem_before hout hlo hhi

omit [LinearOrder K] in
/-- Numbered after the step: the first number has no tick if the first tick completes a bar. -/
theorem keys_after (h : Climbs f number) (st0 : σ) (t : List (Tick S K)) :
    EndsBelow (number ((scan f st0 (t.map Tick.tr)).getLastD st0))
      ((completed number number st0 (scan f st0 (t.map Tick.tr)) t).map Prod.fst) := by
  have hle := h.le_last st0 (t.map Tick.tr)
  have hsome : ∀ k, number st0 < k → k < number ((scan f st0 (t.map Tick.tr)).getLastD st0) →
      rowsOf k (((scan f st0 (t.map Tick.tr)).map number).zip t.zipIdx) ≠ [] := by
    intro k hlo hhi
    exact exists_mem_rowsOf_zip (length_numbers f number st0 t) (h.mem_after hlo hhi.le)
  by_cases hfirst : rowsOf (number st0)
      (((scan f st0 (t.map Tick.tr)).map number).zip t.zipIdx) = []
  · refine ⟨min (number st0 + 1) (number ((scan f st0 (t.map Tick.tr)).getLastD st0)),
      Nat.min_le_right _ _, keys_groupsIn fun k => ?_⟩
    constructor
    · rintro ⟨⟨hhi, hlo⟩, hne⟩
      have hk : k ≠ number st0 := fun heq => hne (heq ▸ hfirst)
      omega
    · rintro ⟨hlo, hhi⟩
      exact ⟨by omega, hsome k (by omega) hhi⟩
  · refine ⟨number st0, hle, keys_groupsIn fun k => ?_⟩
    constructor
    · rintro ⟨⟨hhi, hlo⟩, -⟩
      exact ⟨hlo, hhi⟩
    · rintro ⟨hlo, hhi⟩
      refine ⟨⟨hhi, hlo⟩, ?_⟩
      obtain rfl | hlt := hlo.eq_or_lt
      · exact hfirst
      · exact hsome k hlt hhi

end Completed

section Passes
variable {ops : Ops K} {mode : Mode} {dt : Int} {t : List (Tick S K)} {bars : List (Bar S K)}
  {row : StateRow S K}

/-- The counter that a pass keeps is that of its last scan state. -/
theorem last_of_getLast {σ : Type*} {sts : List σ} {lst : σ} (h : sts.getLast? = some lst)
    (st0 : σ) : sts.getLastD st0 = lst := by
  rw [List.getLastD_eq_getLast?, h, Option.getD_some]

theorem Pass.numbers_warmup {target : Nat} {s : S}
    (h : (Pass.warmup target s).run ops mode dt t = some (bars, row)) :
    EndsBelow row.bn (((Pass.warmup target s).recorded ops mode t).map Prod.fst) := by
  simp only [Pass.run, Pass.recorded] at h ⊢
  split_ifs at h ⊢
  · obtain ⟨lst, hlst, heq⟩ := Option.map_eq_some_iff.mp h
    obtain ⟨-, rfl⟩ := Prod.mk.inj heq
    have hkeys := keys_after (climbs_scnrw (warmrwTh ops target t)) warmrwSt0 t
    rw [warmrwSts] at hlst
    rwa [last_of_getLast hlst] at hkeys
  · obtain ⟨lst, hlst, heq⟩ := Option.map_eq_some_iff.mp h
    obtain ⟨-, rfl⟩ := Prod.mk.inj heq
    have hclimbs : Climbs (warmScn mode (warmExpect ops target mode t).th) ScnState.bn := by
      rw [warmScn_eq]
      exact climbs_scn _ _
    have hkeys := keys_after hclimbs warmSt0 t
    rw [warmSts] at hlst
    rwa [last_of_getLast hlst] at hkeys

theorem Pass.numbers_adaptive {alpha kappa : K} {sprev : StateRow S K}
    (h : (Pass.adaptive alpha kappa sprev).run ops mode dt t = some (bars, row)) :
    sprev.bn ≤ row.bn ∧ ((Pass.adaptive alpha kappa sprev).recorded ops mode t).map Prod.fst =
      List.range' sprev.bn (row.bn - sprev.bn) := by
  simp only [Pass.run, Pass.recorded] at h ⊢
  split_ifs at h ⊢
  · obtain ⟨lst, hlst, heq⟩ := Option.map_eq_some_iff.mp h
    obtain ⟨-, rfl⟩ := Prod.mk.inj heq
    have hclimbs : Climbs (scnrwdiba ops alpha kappa) ScnrwaState.bn := climbs_scnrwdiba _ _ _
    have hle := hclimbs.le_last (procrwSt0 ops sprev t) (t.map Tick.tr)
    have hkeys := keys_before hclimbs scnrwdiba_bnout (procrwSt0 ops sprev t) t
    rw [procrwSts] at hlst
    rw [last_of_getLast hlst] at hle hkeys
    exact ⟨hle, hkeys⟩
  · obtain ⟨lst, hlst, heq⟩ := Option.map_eq_some_iff.mp h
    obtain ⟨-, rfl⟩ := Prod.mk.inj heq
    have hclimbs : Climbs (procScn ops mode alpha) ScnaState.bn := climbs_procScn _ _ _
    have hle := hclimbs.le_last (procSt0 sprev) (t.map Tick.tr)
    have hkeys := keys_before hclimbs procScn_bnout (procSt0 sprev) t
    rw [procSts] at hlst
    rw [last_of_getLast hlst] at hle hkeys
    exact ⟨hle, hkeys⟩

/-- A recorded group has a tick. -/
theorem Pass.recorded_ne_nil {pass : Pass S K} {g : Nat × List (Row S K)}
    (hg : g ∈ pass.recorded ops mode t) : g.2 ≠ [] := by
  have hgroup : ∃ lo hi l, g ∈ groupsIn lo hi l := by
    cases pass with
    | warmup target s =>
        simp only [Pass.recorded] at hg
        split_ifs at hg <;> exact ⟨_, _, _, hg⟩
    | adaptive alpha kappa sprev =>
        simp only [Pass.recorded] at hg
        split_ifs at hg <;> exact ⟨_, _, _, hg⟩
  obtain ⟨lo, hi, l, hin⟩ := hgroup
  exact (mem_groupsIn.mp hin).2.2

/-- The bars of a pass have the numbers of its recorded groups, and ticks. -/
theorem Pass.bars_numbers {pass : Pass S K} (h : pass.run ops mode dt t = some (bars, row)) :
    bars.map Bar.bn = (pass.recorded ops mode t).map Prod.fst ∧ ∀ b ∈ bars, 0 < b.ticks := by
  obtain ⟨s, e, theta, th, warmup, rfl⟩ := Pass.run_bars h
  refine ⟨by rw [List.map_map]; rfl, fun b hb => ?_⟩
  obtain ⟨g, hg, rfl⟩ := List.mem_map.mp hb
  change 0 < (g.2.map Prod.fst).length
  rw [List.length_map]
  exact List.length_pos_iff.mpr (Pass.recorded_ne_nil hg)

end Passes

/-! ## Runs -/

/-- The recorded bars of a run have ticks and consecutive numbers, the state the next one. -/
structure Numbered (db : Tables S K) : Prop where
  contiguous : (db.bars.map Bar.bn).IsChain fun a b => b = a + 1
  ticked : ∀ b ∈ db.bars, 0 < b.ticks
  next : ∀ b ∈ db.bars.getLast?, db.state.bn = b.bn + 1

/-- What a day preserves. -/
structure Counted (db : Tables S K) : Prop where
  numbers : EndsBelow db.state.bn (db.bars.map Bar.bn)
  ticked : ∀ b ∈ db.bars, 0 < b.ticks

section Runs
variable {ops : Ops K} {mode : Mode} {target : Nat} {kappa : K} {s : S} {w : Day S K}
  {ds : List (ProcDay S K)} {db db' : Tables S K}

theorem Counted.warmup (h : warmup ops mode target s w = some db) : Counted db := by
  obtain ⟨⟨bars, row⟩, hrun, rfl⟩ := Option.map_eq_some_iff.mp h
  obtain ⟨hnumbers, hticked⟩ := Pass.bars_numbers hrun
  refine ⟨?_, hticked⟩
  rw [hnumbers]
  exact Pass.numbers_warmup hrun

/-- A day goes on with the number the state keeps. -/
theorem Counted.proc {d : ProcDay S K} (hc : Counted db)
    (h : proc ops mode kappa db d = some db') : Counted db' := by
  obtain ⟨⟨bars, row⟩, hrun, rfl⟩ := Option.map_eq_some_iff.mp h
  obtain ⟨hnumbers, hticked⟩ := Pass.bars_numbers hrun
  obtain ⟨hle, hkeys⟩ := Pass.numbers_adaptive hrun
  obtain ⟨first, hfirst, hbefore⟩ := hc.numbers
  refine ⟨⟨first, hfirst.trans hle, ?_⟩, ?_⟩
  · calc
      (db.bars ++ bars).map Bar.bn
          = List.range' first (db.state.bn - first) ++
              List.range' db.state.bn (row.bn - db.state.bn) := by
        rw [List.map_append, hbefore, hnumbers]
        exact congrArg _ hkeys
      _ = List.range' first (db.state.bn - first) ++
            List.range' (first + (db.state.bn - first)) (row.bn - db.state.bn) := by
        rw [Nat.add_sub_cancel' hfirst]
      _ = List.range' first (row.bn - first) := by
        rw [List.range'_append_1]
        congr 1
        omega
  · intro b hb
    exact (List.mem_append.mp hb).elim (hc.ticked b) (hticked b)

theorem Counted.foldlM (hc : Counted db) (h : ds.foldlM (Afml.proc ops mode kappa) db = some db') :
    Counted db' := by
  induction ds generalizing db with
  | nil =>
      obtain rfl := Option.some.inj h
      exact hc
  | cons d ds ih =>
      rw [List.foldlM_cons] at h
      obtain ⟨next, hproc, hrest⟩ := Option.bind_eq_some_iff.mp h
      exact ih (hc.proc hproc) hrest

theorem Counted.run (h : Afml.run ops mode target kappa s w ds = some db) : Counted db := by
  obtain ⟨start, hwarm, hdays⟩ := Option.bind_eq_some_iff.mp h
  exact (Counted.warmup hwarm).foldlM hdays

omit [Ring K] [LinearOrder K] in
theorem Counted.numbered (h : Counted db) : Numbered db := by
  obtain ⟨first, hle, hnumbers⟩ := h.numbers
  refine ⟨?_, h.ticked, fun b hb => ?_⟩
  · rw [hnumbers]
    exact List.isChain_range' _ _ _
  · have hlast : (db.bars.map Bar.bn).getLast? = some b.bn := by
      rw [List.getLast?_map, hb, Option.map_some]
    rw [hnumbers, List.getLast?_range'] at hlast
    split_ifs at hlast with hnone
    have hbn := Option.some.inj hlast
    omega

end Runs

/-- In every mode and after every day of a run: the recorded numbers go up by one from each bar
to the next, every recorded bar has a tick, and the state has the number after the last one. -/
theorem bars_numbered (ops : Ops K) (mode : Mode) (target : Nat) (kappa : K) (s : S) (w : Day S K)
    (ds : List (ProcDay S K)) :
    ∃ db, run ops mode target kappa s w ds = some db ∧ Numbered db := by
  obtain ⟨db, hrun⟩ := exists_run ops mode target kappa s w ds
  exact ⟨db, hrun, (Counted.run hrun).numbered⟩

end TickToSignal.Afml
