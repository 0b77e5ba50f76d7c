import TickToSignal.Afml.Bars
import Mathlib.Algebra.Field.Rat
import Mathlib.Algebra.Order.Ring.Rat
import Mathlib.Data.List.Sigma

/-!
# Where imbalance bars close

By definition a bar consists of the ticks after the closing tick of the bar
before, up to and including the first one at which the accumulated imbalance
reaches the threshold in force. The adaptive pass records these bars. The
warm-up numbers a tick by the bar that is open after it, so each bar it records
starts with the closing tick of the bar before and lacks its own.

## Implementation notes

The open bar of the state before the day belongs to the first bar: its
accumulated values are what the first mark starts from.
-/

namespace TickToSignal.Afml

open Foundation

variable {S K : Type*} [Ring K] [LinearOrder K]

/-! ## The definition of a bar -/

/-- How the mode accumulates. -/
def accOf : Mode → K → K → K
  | .drb => accdrb
  | _ => accdib

/-- The imbalance accumulated over rows. -/
def thetaOf (acc : K → K → K) (theta : K) (rows : List (Row S K)) : K :=
  rows.foldl (fun theta r => acc theta r.1.sd) theta

/-- Bars under one threshold. -/
def warmCutter (acc : K → K → K) : Cutter K (Row S K) where
  reaches th rows := th ≤ |thetaOf acc 0 rows|
  next th _ := th

/-- What a bar starts from: values carried over by the open bar, and the expectations with
the threshold in force. -/
structure Mark (K : Type*) where
  theta : K
  tib : Nat
  bib : Nat
  dib : K
  exp : Expect K

def buysOf (rows : List (Row S K)) : Nat := rows.countP fun r => r.1.tr.isbuy

def dvolOf (rows : List (Row S K)) : K := (rows.map fun r => r.1.dvol).sum

/-- Bars whose close updates the expectations. -/
def procCutter (ops : Ops K) (mode : Mode) (alpha : K) : Cutter (Mark K) (Row S K) where
  reaches m rows := m.exp.th ≤ |thetaOf (accOf mode) m.theta rows|
  next m rows :=
    { theta := 0, tib := 0, bib := 0, dib := 0
      exp := m.exp.update ops (threshOf mode) alpha (m.tib + rows.length) (m.bib + buysOf rows)
        (m.dib + dvolOf rows) }

/-- The same for the random-walk threshold. -/
structure RwMark (K : Type*) where
  theta : K
  tib : Nat
  et : K
  th : K

def procrwCutter (ops : Ops K) (alpha kappa anchor : K) : Cutter (RwMark K) (Row S K) where
  reaches m rows := m.th ≤ |thetaOf accdib m.theta rows|
  next m rows :=
    let net := rwEt alpha m.et (m.tib + rows.length)
    { theta := 0, tib := 0, et := net, th := rwTh ops kappa m.th net m.et anchor }

/-- The warm-up's threshold in the mode. -/
def warmTh (ops : Ops K) (target : Nat) (mode : Mode) (t : List (Tick S K)) : K :=
  if mode = .rwdib then warmrwTh ops target t else (warmExpect ops target mode t).th

/-- The completed bars of a pass, as the definition has them. -/
def Pass.Completes (ops : Ops K) (mode : Mode) (t : List (Tick S K)) (bars : List (List (Row S K))) :
    Pass S K → Prop
  | .warmup target _ => (warmCutter (accOf mode)).Cuts (warmTh ops target mode t) t.zipIdx bars
  | .adaptive alpha kappa sprev =>
      if mode = .rwdib then
        (procrwCutter ops alpha kappa (adjanchor ops sprev t)).Cuts
          { theta := sprev.theta, tib := sprev.tib, et := sprev.exp.et, th := sprev.exp.th }
          t.zipIdx bars
      else
        (procCutter ops mode alpha).Cuts
          { theta := sprev.theta, tib := sprev.tib, bib := sprev.bib, dib := sprev.dib
            exp := sprev.exp }
          t.zipIdx bars

/-- The first ticks reach the threshold alone, and the others never do. -/
def ClosesAlone (acc : K → K → K) (th : K) (sds : List K) : Prop :=
  ∃ k, (∀ sd ∈ sds.take k, th ≤ |acc 0 sd|) ∧
    ∀ r, r <+: sds.drop k → r ≠ [] → |r.foldl acc 0| < th

/-! ## The scans follow the open bar -/

section Scans
variable {acc : K → K → K} {th theta : K} {rows : List (Row S K)} {r : Row S K}

omit [LinearOrder K] in
@[simp] theorem tr_sd (t : Tick S K) : t.tr.sd = t.sd := rfl

omit [LinearOrder K] in
@[simp] theorem tr_dvol (t : Tick S K) : t.tr.dvol = t.dvol := rfl

omit [LinearOrder K] in
theorem thetaOf_append : thetaOf acc theta (rows ++ [r]) = acc (thetaOf acc theta rows) r.1.sd := by
  simp [thetaOf]

omit [LinearOrder K] in
theorem buysOf_append : buysOf (rows ++ [r]) = buysOf rows + r.1.tr.isbuy.toNat := by
  simp only [buysOf, List.countP_append, List.countP_singleton]
  cases r.1.tr.isbuy <;> rfl

omit [LinearOrder K] in
theorem dvolOf_append : dvolOf (rows ++ [r]) = dvolOf rows + r.1.dvol := by
  simp [dvolOf]

/-- The state of a scan with one threshold. -/
def WarmOpen (th : K) (acc : K → K → K) (theta : K) (s : K × List (Row S K)) : Prop :=
  s.1 = th ∧ theta = thetaOf acc 0 s.2

theorem follows_scn (acc : K → K → K) (th : K) :
    (warmCutter acc).Follows (fun st (r : Row S K) => scn acc th st r.1.tr) ScnState.bn
      fun st => WarmOpen th acc st.theta := by
  refine Cutter.Follows.of_cases ?_ ?_
  · rintro st p rows r ⟨hp, htheta⟩ h
    have hreaches : th ≤ |acc st.theta r.1.sd| := by
      simpa [warmCutter, thetaOf_append, htheta, ← hp] using h
    rw [scn_of_reaches hreaches]
    exact ⟨⟨hp, rfl⟩, rfl⟩
  · rintro st p rows r ⟨hp, htheta⟩ h
    have hbelow : ¬ th ≤ |acc st.theta r.1.sd| := by
      simpa [warmCutter, thetaOf_append, htheta, ← hp] using h
    rw [scn_of_below hbelow]
    exact ⟨⟨hp, by rw [thetaOf_append, ← htheta, tr_sd]⟩, rfl⟩

/-- The random-walk warm-up scan carries the same open bar without its buys. -/
theorem follows_scnrw (th : K) :
    (warmCutter accdib).Follows (fun st (r : Row S K) => scnrw th st r.1.tr) ScnRwState.bn
      fun st => WarmOpen th accdib st.theta := by
  refine Cutter.Follows.of_cases ?_ ?_
  · rintro st p rows r ⟨hp, htheta⟩ h
    have hreaches : th ≤ |accdib st.theta r.1.sd| := by
      simpa [warmCutter, thetaOf_append, htheta, ← hp] using h
    rw [scnrw_of_reaches hreaches]
    exact ⟨⟨hp, rfl⟩, rfl⟩
  · rintro st p rows r ⟨hp, htheta⟩ h
    have hbelow : ¬ th ≤ |accdib st.theta r.1.sd| := by
      simpa [warmCutter, thetaOf_append, htheta, ← hp] using h
    rw [scnrw_of_below hbelow]
    exact ⟨⟨hp, by rw [thetaOf_append, ← htheta, tr_sd]⟩, rfl⟩

/-- The state of an adaptive scan. -/
structure ProcOpen (mode : Mode) (st : ScnaState K) (m : Mark K) (rows : List (Row S K)) :
    Prop where
  theta : st.theta = thetaOf (accOf mode) m.theta rows
  exp : st.exp = m.exp
  tib : st.tib = m.tib + rows.length
  bib : st.bib = m.bib + buysOf rows
  dib : st.dib = m.dib + dvolOf rows

theorem procScn_eq (ops : Ops K) (mode : Mode) (alpha : K) :
    procScn ops mode alpha = scna ops (accOf mode) (threshOf mode) alpha := by
  cases mode <;> rfl

theorem follows_procScn (ops : Ops K) (mode : Mode) (alpha : K) :
    (procCutter ops mode alpha).Follows
      (fun st (r : Row S K) => procScn ops mode alpha st r.1.tr) ScnaState.bn
      fun st s => ProcOpen mode st s.1 s.2 := by
  rw [procScn_eq]
  refine Cutter.Follows.of_cases ?_ ?_
  · rintro st m rows r ⟨htheta, hexp, htib, hbib, hdib⟩ h
    have hreaches : st.exp.th ≤ |accOf mode st.theta r.1.sd| := by
      simpa [procCutter, thetaOf_append, htheta, hexp] using h
    have hopen : m.tib + (rows ++ [r]).length = st.tib + 1 ∧
        m.bib + buysOf (rows ++ [r]) = st.bib + r.1.tr.isbuy.toNat ∧
        m.dib + dvolOf (rows ++ [r]) = st.dib + r.1.dvol := by
      simp [htib, hbib, hdib, buysOf_append, dvolOf_append, add_assoc]
    rw [scna_of_reaches hreaches]
    refine ⟨⟨rfl, ?_, rfl, rfl, ?_⟩, rfl⟩
    · simp only [procCutter, hopen, hexp, tr_dvol]
    · simp [procCutter, dvolOf]
  · rintro st m rows r ⟨htheta, hexp, htib, hbib, hdib⟩ h
    have hbelow : ¬ st.exp.th ≤ |accOf mode st.theta r.1.sd| := by
      simpa [procCutter, thetaOf_append, htheta, hexp] using h
    rw [scna_of_below hbelow]
    refine ⟨⟨?_, hexp, ?_, ?_, ?_⟩, rfl⟩
    · rw [thetaOf_append, ← htheta, tr_sd]
    · simp [htib, Nat.add_assoc]
    · simp [hbib, buysOf_append, Nat.add_assoc]
    · simp [hdib, dvolOf_append, add_assoc]

/-- The state of the adaptive random-walk scan. -/
structure ProcrwOpen (anchor : K) (st : ScnrwaState K) (m : RwMark K) (rows : List (Row S K)) :
    Prop where
  theta : st.theta = thetaOf accdib m.theta rows
  et : st.et = m.et
  th : st.th = m.th
  anchor : st.anchor = anchor
  tib : st.tib = m.tib + rows.length

theorem follows_scnrwdiba (ops : Ops K) (alpha kappa anchor : K) :
    (procrwCutter ops alpha kappa anchor).Follows
      (fun st (r : Row S K) => scnrwdiba ops alpha kappa st r.1.tr) ScnrwaState.bn
      fun st s => ProcrwOpen anchor st s.1 s.2 := by
  refine Cutter.Follows.of_cases ?_ ?_
  · rintro st m rows r ⟨htheta, het, hth, hanchor, htib⟩ h
    have hreaches : st.th ≤ |accdib st.theta r.1.sd| := by
      simpa [procrwCutter, thetaOf_append, htheta, hth] using h
    have hopen : m.tib + (rows ++ [r]).length = st.tib + 1 := by
      simp [htib, Nat.add_assoc]
    rw [scnrwdiba_of_reaches hreaches]
    refine ⟨⟨rfl, ?_, ?_, hanchor, rfl⟩, rfl⟩
    · simp only [procrwCutter, hopen, het]
    · simp only [procrwCutter, hopen, het, hth, hanchor]
  · rintro st m rows r ⟨htheta, het, hth, hanchor, htib⟩ h
    have hbelow : ¬ st.th ≤ |accdib st.theta r.1.sd| := by
      simpa [procrwCutter, thetaOf_append, htheta, hth] using h
    rw [scnrwdiba_of_below hbelow]
    refine ⟨⟨?_, het, hth, hanchor, ?_⟩, rfl⟩
    · rw [thetaOf_append, ← htheta, tr_sd]
    · simp [htib, Nat.add_assoc]

end Scans

theorem procScn_bnout {ops : Ops K} {mode : Mode} {alpha : K} (st : ScnaState K) (tr : Tr K) :
    (procScn ops mode alpha st tr).bnout = st.bn := by
  rw [procScn_eq]
  by_cases h : st.exp.th ≤ |accOf mode st.theta tr.sd|
  · rw [scna_of_reaches h]
  · rw [scna_of_below h]

theorem scnrwdiba_bnout {ops : Ops K} {alpha kappa : K} (st : ScnrwaState K) (tr : Tr K) :
    (scnrwdiba ops alpha kappa st tr).bnout = st.bn := by
  by_cases h : st.th ≤ |accdib st.theta tr.sd|
  · rw [scnrwdiba_of_reaches h]
  · rw [scnrwdiba_of_below h]

/-! ## What is recorded -/

section Recorded
variable {P σ : Type*} {c : Cutter P (Row S K)} {f : σ → Tr K → σ} {number out : σ → Nat}
  {R : σ → P × List (Row S K) → Prop} {st0 : σ} {p : P} {bars : List (List (Row S K))}
  {t : List (Tick S K)}

omit [LinearOrder K] in
theorem scan_tr (f : σ → Tr K → σ) (st0 : σ) (t : List (Tick S K)) :
    scan f st0 (t.map Tick.tr) = scan (fun st (r : Row S K) => f st r.1.tr) st0 t.zipIdx := by
  have hrows : t.map Tick.tr = t.zipIdx.map fun r => r.1.tr := by
    conv_lhs => rw [← List.zipIdx_map_fst 0 t, List.map_map]
    rfl
  rw [hrows, scan_map]

omit [Ring K] [LinearOrder K] in
theorem nodup_zipIdx (t : List (Tick S K)) : t.zipIdx.Nodup :=
  (List.nodup_zipIdx_map_snd t).of_map

omit [LinearOrder K] in
/-- Numbers put out from before each step give the bars. -/
theorem completed_before (h : c.Follows (fun st (r : Row S K) => f st r.1.tr) number R)
    (hout : ∀ st r, out (f st r) = number st) (hst : R st0 (p, []))
    (hbars : c.Cuts p t.zipIdx bars) :
    ∀ group ∈ completed out number st0 (scan f st0 (t.map Tick.tr)) t, group.2 ∈ bars := by
  intro group hgroup
  rw [scan_tr, completed, h.zip_before (fun st r => hout st r.1.tr) hst, h.number_last hst] at hgroup
  exact hbars.groups_before hgroup

omit [LinearOrder K] in
/-- Numbers from after each step give bars only if every bar is a single tick. -/
theorem completed_after_iff (h : c.Follows (fun st (r : Row S K) => f st r.1.tr) number R)
    (hst : R st0 (p, [])) (hbars : c.Cuts p t.zipIdx bars) :
    (∀ group ∈ completed number number st0 (scan f st0 (t.map Tick.tr)) t, group.2 ∈ bars) ↔
      ∀ bar ∈ bars, bar.length = 1 := by
  rw [scan_tr, completed, h.zip_after hst, h.number_last hst]
  exact hbars.groups_after_iff (nodup_zipIdx t)

end Recorded

/-! ## Bars of a single tick -/

section ClosesAlone
variable {acc : K → K → K} {th sd : K} {sds : List K}

/-- A tick that reaches the threshold alone is passed over. -/
theorem closesAlone_cons_iff (h : th ≤ |acc 0 sd|) :
    ClosesAlone acc th (sd :: sds) ↔ ClosesAlone acc th sds := by
  constructor
  · rintro ⟨k, halone, hnever⟩
    cases k with
    | zero => exact absurd h (not_le.mpr (hnever [sd] (by simp) (by simp)))
    | succ k => exact ⟨k, fun x hx => halone x (List.mem_cons_of_mem sd hx), hnever⟩
  · rintro ⟨k, halone, hnever⟩
    exact ⟨k + 1, List.forall_mem_cons.mpr ⟨h, halone⟩, hnever⟩

/-- A bar of several ticks rules it out. -/
theorem not_closesAlone {q : List K} (hfirst : |acc 0 sd| < th)
    (hreaches : th ≤ |(sd :: q).foldl acc 0|) : ¬ ClosesAlone acc th (sd :: q ++ sds) := by
  rintro ⟨k, halone, hnever⟩
  cases k with
  | zero =>
      have := hnever (sd :: q) (by simp) (by simp)
      exact absurd hreaches (not_le.mpr this)
  | succ k => exact absurd (halone sd List.mem_cons_self) (not_le.mpr hfirst)

omit [LinearOrder K] in
theorem thetaOf_eq_foldl (acc : K → K → K) (theta : K) (rows : List (Row S K)) :
    thetaOf acc theta rows = (rows.map fun r => r.1.sd).foldl acc theta := by
  rw [thetaOf, List.foldl_map]

theorem warmCutter_reaches_iff {rows : List (Row S K)} :
    (warmCutter acc).reaches th rows = true ↔
      th ≤ |(rows.map fun r => r.1.sd).foldl acc 0| := by
  rw [← thetaOf_eq_foldl]
  exact decide_eq_true_iff

theorem warmCutter_below_iff {rows : List (Row S K)} :
    (warmCutter acc).reaches th rows = false ↔
      |(rows.map fun r => r.1.sd).foldl acc 0| < th := by
  rw [← Bool.not_eq_true, warmCutter_reaches_iff, not_le]

/-- The bars under one threshold are single ticks exactly when the first ticks close alone. -/
theorem cuts_single_iff {rows : List (Row S K)} {bars : List (List (Row S K))}
    (h : (warmCutter acc).Cuts th rows bars) :
    (∀ bar ∈ bars, bar.length = 1) ↔ ClosesAlone acc th (rows.map fun r => r.1.sd) := by
  induction h with
  | @rest th rows hbelow =>
      refine ⟨fun _ => ⟨0, by simp, fun r hr hne => ?_⟩, by simp⟩
      obtain ⟨q, hq, rfl⟩ := List.prefix_map_iff.mp hr
      exact warmCutter_below_iff.mp (hbelow q hq (by rintro rfl; simp at hne))
  | @piece th q y rows bars hq hy _ ih =>
      rw [List.forall_mem_cons, ih]
      cases q with
      | nil =>
          have halone : th ≤ |acc 0 y.1.sd| := warmCutter_reaches_iff.mp hy
          simpa [warmCutter] using (closesAlone_cons_iff halone).symm
      | cons x q =>
          have hfirst : |acc 0 x.1.sd| < th :=
            warmCutter_below_iff.mp (hq [x] (by simp) (by simp))
          have hreaches := warmCutter_reaches_iff.mp hy
          have hnot : ¬ ClosesAlone acc th
              (((x :: q ++ [y]).map fun r => r.1.sd) ++ rows.map fun r => r.1.sd) :=
            not_closesAlone hfirst hreaches
          constructor
          · rintro ⟨hsingle, -⟩
            simp at hsingle
          · intro hclosed
            exact absurd (by simpa using hclosed) hnot

end ClosesAlone

/-! ## The passes -/

/-- When the pass records bars of the definition. -/
def Pass.ClosesRight (ops : Ops K) (mode : Mode) (t : List (Tick S K)) : Pass S K → Prop
  | .warmup target _ => ClosesAlone (accOf mode) (warmTh ops target mode t) (t.map Tick.sd)
  | .adaptive _ _ _ => True

theorem warmScn_eq (mode : Mode) (th : K) : warmScn mode th = scn (accOf mode) th := by
  cases mode <;> rfl

theorem accOf_eq_accdib {mode : Mode} (h : mode = .rwdib) : (accOf mode : K → K → K) = accdib := by
  subst h
  rfl

/-- The warm-up records bars of the definition exactly when the first ticks each reach the
threshold alone and the others never do. -/
theorem recorded_warmup_iff (ops : Ops K) (mode : Mode) (t : List (Tick S K)) (target : Nat) (s : S)
    {bars : List (List (Row S K))} (hbars : Pass.Completes ops mode t bars (.warmup target s)) :
    (∀ group ∈ Pass.recorded ops mode t (.warmup target s), group.2 ∈ bars) ↔
      ClosesAlone (accOf mode) (warmTh ops target mode t) (t.map Tick.sd) := by
  have hrows : t.zipIdx.map (fun r => r.1.sd) = t.map Tick.sd := by
    conv_rhs => rw [← List.zipIdx_map_fst 0 t, List.map_map]
    rfl
  rw [← hrows, ← cuts_single_iff hbars]
  by_cases hmode : mode = .rwdib
  · simp only [Pass.recorded, if_pos hmode]
    simp only [Pass.Completes, warmTh, if_pos hmode, accOf_eq_accdib hmode] at hbars
    exact completed_after_iff (follows_scnrw _) ⟨rfl, rfl⟩ hbars
  · simp only [Pass.recorded, if_neg hmode]
    simp only [Pass.Completes, warmTh, if_neg hmode] at hbars
    rw [warmRows, warmSts, warmScn_eq]
    exact completed_after_iff (follows_scn _ _) ⟨rfl, rfl⟩ hbars

/-- The adaptive pass records bars of the definition. -/
theorem recorded_adaptive (ops : Ops K) (mode : Mode) (t : List (Tick S K)) (alpha kappa : K)
    (sprev : StateRow S K) {bars : List (List (Row S K))}
    (hbars : Pass.Completes ops mode t bars (.adaptive alpha kappa sprev)) :
    ∀ group ∈ Pass.recorded ops mode t (.adaptive alpha kappa sprev), group.2 ∈ bars := by
  by_cases hmode : mode = .rwdib
  · simp only [Pass.recorded, if_pos hmode]
    simp only [Pass.Completes, if_pos hmode] at hbars
    exact completed_before (follows_scnrwdiba ops alpha kappa _) scnrwdiba_bnout
      ⟨rfl, rfl, rfl, rfl, rfl⟩ hbars
  · simp only [Pass.recorded, if_neg hmode]
    simp only [Pass.Completes, if_neg hmode] at hbars
    refine completed_before (follows_procScn ops mode alpha) procScn_bnout ?_ hbars
    exact ⟨rfl, rfl, rfl, rfl, by simp [procSt0, dvolOf]⟩

/-- Every day can be cut into the bars of the definition. -/
theorem exists_completes (ops : Ops K) (mode : Mode) (t : List (Tick S K)) (pass : Pass S K) :
    ∃ bars, pass.Completes ops mode t bars := by
  cases pass with
  | warmup target s => exact Cutter.exists_cuts _ _
  | adaptive alpha kappa sprev =>
      simp only [Pass.Completes]
      split_ifs
      · exact Cutter.exists_cuts _ _
      · exact Cutter.exists_cuts _ _

/-- In every mode: the bars that a pass records are bars of the definition always in the
adaptive pass, and in the warm-up exactly when the first ticks each reach the threshold
alone and the others never do. -/
theorem recorded_bars_iff (ops : Ops K) (mode : Mode) (t : List (Tick S K)) (pass : Pass S K) :
    (∃ bars, pass.Completes ops mode t bars ∧
      ∀ group ∈ pass.recorded ops mode t, group.2 ∈ bars) ↔ pass.ClosesRight ops mode t := by
  have hiff : ∀ bars, pass.Completes ops mode t bars →
      ((∀ group ∈ pass.recorded ops mode t, group.2 ∈ bars) ↔ pass.ClosesRight ops mode t) := by
    intro bars hbars
    cases pass with
    | warmup target s => exact recorded_warmup_iff ops mode t target s hbars
    | adaptive alpha kappa sprev =>
        exact iff_true_intro (recorded_adaptive ops mode t alpha kappa sprev hbars)
  constructor
  · rintro ⟨bars, hbars, hall⟩
    exact (hiff bars hbars).mp hall
  · intro hright
    obtain ⟨bars, hbars⟩ := exists_completes ops mode t pass
    exact ⟨bars, hbars, (hiff bars hbars).mpr hright⟩

/-- Two buys of 100 dollars and a target of one bar: the second closes the bar, and what is
recorded is a bar of the first alone. -/
theorem warmup_bar_lacks_closing_tick :
    let ops : Ops ℚ := { div := fun x y => x / y, sqrt := id }
    let buy : Tick String ℚ :=
      { sym := "BTCUSDT", exchTradeTs := 10, price := 100, qty := 1, buyerIsMaker := false }
    let pass : Pass String ℚ := .warmup 1 "BTCUSDT"
    (pass.recorded ops .dib [buy, buy]).map (fun group => group.2.map Prod.snd) = [[0]] ∧
      ¬ ∃ bars, pass.Completes ops .dib [buy, buy] bars ∧
        ∀ group ∈ pass.recorded ops .dib [buy, buy], group.2 ∈ bars := by
  intro ops buy pass
  refine ⟨by decide +kernel, ?_⟩
  rintro ⟨bars, hbars, hall⟩
  obtain ⟨k, halone, hnever⟩ := (recorded_warmup_iff ops .dib [buy, buy] 1 "BTCUSDT" hbars).mp hall
  cases k with
  | zero =>
      have hbelow := hnever [buy.sd, buy.sd] (by simp) (by simp)
      exact absurd hbelow (by decide +kernel)
  | succ k =>
      have hfirst := halone buy.sd List.mem_cons_self
      exact absurd hfirst (by decide +kernel)

end TickToSignal.Afml
