import TickToSignal.Afml.Run

/-!
# Ticks that no bar holds

A run conserves ticks if those of the recorded bars and of the open bar make up
all that were processed. It does so exactly as long as no bar is completed. The
warm-up records no bar with the last tick that closed one, and the adaptive pass
builds its bars from the ticks of the day alone, so that the bar which a day
completes lacks the ticks carried over from the days before.
-/

namespace TickToSignal.Afml

open Foundation

variable {S K : Type*} [Ring K] [LinearOrder K]

/-! ## Staying below the threshold -/

/-- No beginning of the ticks brings the accumulated imbalance to the threshold. -/
def StaysBelow (acc : K → K → K) (th theta : K) (sds : List K) : Prop :=
  ∀ r, r <+: sds → r ≠ [] → |r.foldl acc theta| < th

section StaysBelow
variable {acc : K → K → K} {th theta sd : K} {sds sds' : List K}

@[simp] theorem staysBelow_nil : StaysBelow acc th theta [] := by
  intro r hr hne
  exact absurd (List.prefix_nil.mp hr) hne

theorem staysBelow_cons_iff : StaysBelow acc th theta (sd :: sds) ↔
    |acc theta sd| < th ∧ StaysBelow acc th (acc theta sd) sds := by
  constructor
  · intro h
    refine ⟨h [sd] (by simp) (by simp), fun r hr _ => ?_⟩
    exact h (sd :: r) (by simpa using hr) (by simp)
  · rintro ⟨hsd, hsds⟩ r hr hne
    cases r with
    | nil => exact absurd rfl hne
    | cons x r =>
        obtain ⟨rfl, hrest⟩ := List.cons_prefix_cons.mp hr
        by_cases hnil : r = []
        · subst hnil
          exact hsd
        · exact hsds r hrest hnil

theorem staysBelow_append_iff : StaysBelow acc th theta (sds ++ sds') ↔
    StaysBelow acc th theta sds ∧ StaysBelow acc th (sds.foldl acc theta) sds' := by
  induction sds generalizing theta with
  | nil => simp
  | cons sd sds ih =>
      rw [List.cons_append, staysBelow_cons_iff, ih, staysBelow_cons_iff, and_assoc,
        List.foldl_cons]

end StaysBelow

/-! ## Scans by the threshold in force -/

/-- The bar that is open: its number, the imbalance so far with the threshold it is held
against, and the ticks and the dollar volume it has. -/
structure OpenBar (K : Type*) where
  bn : Nat
  theta : K
  th : K
  held : Nat × K

/-- A scan that closes the bar when the accumulated imbalance reaches the threshold. -/
structure Accumulates {σ : Type*} (acc : K → K → K) (f : σ → Tr K → σ) (view : σ → OpenBar K) :
    Prop where
  reaches : ∀ {st tr}, (view st).th ≤ |acc (view st).theta tr.sd| →
    (view (f st tr)).bn = (view st).bn + 1 ∧ (view (f st tr)).held = 0
  below : ∀ {st tr}, ¬ (view st).th ≤ |acc (view st).theta tr.sd| →
    view (f st tr) =
      { view st with theta := acc (view st).theta tr.sd, held := (view st).held + tr.amount }

def ScnState.openBar (th : K) (st : ScnState K) : OpenBar K :=
  { bn := st.bn, theta := st.theta, th := th, held := (st.tib, st.dib) }

def ScnRwState.openBar (th : K) (st : ScnRwState K) : OpenBar K :=
  { bn := st.bn, theta := st.theta, th := th, held := (st.tib, st.dib) }

def ScnaState.openBar (st : ScnaState K) : OpenBar K :=
  { bn := st.bn, theta := st.theta, th := st.exp.th, held := (st.tib, st.dib) }

def ScnrwaState.openBar (st : ScnrwaState K) : OpenBar K :=
  { bn := st.bn, theta := st.theta, th := st.th, held := (st.tib, st.dib) }

def StateRow.openBar (row : StateRow S K) : OpenBar K :=
  { bn := row.bn, theta := row.theta, th := row.exp.th, held := row.amount }

theorem accumulates_scn (acc : K → K → K) (th : K) :
    Accumulates acc (scn acc th) (ScnState.openBar th) where
  reaches {st tr} h := by
    have hst : th ≤ |acc st.theta tr.sd| := h
    rw [scn_of_reaches hst]
    exact ⟨rfl, rfl⟩
  below {st tr} h := by
    have hst : ¬ th ≤ |acc st.theta tr.sd| := h
    rw [scn_of_below hst]
    rfl

theorem accumulates_scnrw (th : K) : Accumulates accdib (scnrw th) (ScnRwState.openBar th) where
  reaches {st tr} h := by
    have hst : th ≤ |accdib st.theta tr.sd| := h
    rw [scnrw_of_reaches hst]
    exact ⟨rfl, rfl⟩
  below {st tr} h := by
    have hst : ¬ th ≤ |accdib st.theta tr.sd| := h
    rw [scnrw_of_below hst]
    rfl

theorem accumulates_procScn (ops : Ops K) (mode : Mode) (alpha : K) :
    Accumulates (accOf mode) (procScn ops mode alpha) ScnaState.openBar where
  reaches {st tr} h := by
    have hst : st.exp.th ≤ |accOf mode st.theta tr.sd| := h
    rw [procScn_eq, scna_of_reaches hst]
    exact ⟨rfl, rfl⟩
  below {st tr} h := by
    have hst : ¬ st.exp.th ≤ |accOf mode st.theta tr.sd| := h
    rw [procScn_eq, scna_of_below hst]
    rfl

theorem accumulates_scnrwdiba (ops : Ops K) (alpha kappa : K) :
    Accumulates accdib (scnrwdiba ops alpha kappa) ScnrwaState.openBar where
  reaches {st tr} h := by
    have hst : st.th ≤ |accdib st.theta tr.sd| := h
    rw [scnrwdiba_of_reaches hst]
    exact ⟨rfl, rfl⟩
  below {st tr} h := by
    have hst : ¬ st.th ≤ |accdib st.theta tr.sd| := h
    rw [scnrwdiba_of_below hst]
    rfl

/-- What a day does to the open bar: either it closes none and all ticks are held, or the
groups and the bar open in the end make up the day's ticks but for a missing part. -/
inductive Account (acc : K → K → K) (missing : Nat × K → Prop) (t : List (Tick S K))
    (bar : OpenBar K) (groups : List (Nat × List (Row S K))) (last : OpenBar K) : Prop
  | stays : StaysBelow acc bar.th bar.theta (t.map Tick.sd) → groups = [] →
      last = { bar with theta := (t.map Tick.sd).foldl acc bar.theta
                        held := bar.held + amountOf t } →
      Account acc missing t bar groups last
  | closes (lost : Nat × K) : ¬ StaysBelow acc bar.th bar.theta (t.map Tick.sd) → missing lost →
      (groups.map fun g => (g.2.map fun r => r.1.tr.amount).sum).sum + lost + last.held =
        amountOf t →
      Account acc missing t bar groups last

namespace Accumulates

variable {σ : Type*} {acc : K → K → K} {f : σ → Tr K → σ} {view : σ → OpenBar K} {out : σ → Nat}
  {st lst : σ} {t : List (Tick S K)}

theorem tallies (h : Accumulates acc f view) :
    Tallies (fun st (r : Row S K) => f st r.1.tr) (fun st => (view st).bn)
      (fun st => (view st).held) fun r => r.1.tr.amount where
  step st r := by
    by_cases hr : (view st).th ≤ |acc (view st).theta r.1.tr.sd|
    · exact Or.inr (h.reaches hr)
    · rw [h.below hr]
      exact Or.inl ⟨rfl, rfl⟩

/-- The scan closes no bar exactly when the imbalance stays below; then all ticks are held. -/
theorem foldl_spec (h : Accumulates acc f view) (t : List (Tick S K)) (st : σ) :
    StaysBelow acc (view st).th (view st).theta (t.map Tick.sd) ∧
        view ((t.map Tick.tr).foldl f st) =
          { view st with theta := (t.map Tick.sd).foldl acc (view st).theta
                         held := (view st).held + amountOf t } ∨
      ¬ StaysBelow acc (view st).th (view st).theta (t.map Tick.sd) ∧
        (view st).bn < (view ((t.map Tick.tr).foldl f st)).bn := by
  induction t generalizing st with
  | nil => exact Or.inl ⟨staysBelow_nil, by simp [amountOf]⟩
  | cons x t ih =>
      rw [List.map_cons, List.map_cons, List.foldl_cons, staysBelow_cons_iff, List.foldl_cons]
      have hrest := ih (f st x.tr)
      by_cases hx : (view st).th ≤ |acc (view st).theta x.tr.sd|
      · have hle : (view (f st x.tr)).bn ≤ (view ((t.map Tick.tr).foldl f (f st x.tr))).bn := by
          obtain ⟨-, hlast⟩ | ⟨-, hlt⟩ := hrest
          · rw [hlast]
          · exact hlt.le
        refine Or.inr ⟨fun hbelow => absurd hbelow.1 (not_lt.mpr hx), ?_⟩
        have := (h.reaches hx).1
        omega
      · have hlt : |acc (view st).theta x.sd| < (view st).th := not_le.mp hx
        rw [h.below hx] at hrest
        obtain ⟨hstays, hlast⟩ | ⟨hnot, hlast⟩ := hrest
        · refine Or.inl ⟨⟨hlt, hstays⟩, ?_⟩
          rw [hlast, add_assoc]
          rfl
        · exact Or.inr ⟨fun hbelow => hnot hbelow.2, hlast⟩

omit [LinearOrder K] in
theorem sum_rows (t : List (Tick S K)) :
    (t.zipIdx.map fun r => r.1.tr.amount).sum = amountOf t := by
  rw [amountOf]
  conv_rhs => rw [← List.zipIdx_map_fst 0 t, List.map_map]
  rfl

omit [LinearOrder K] in
theorem foldl_rows (f : σ → Tr K → σ) (st : σ) (t : List (Tick S K)) :
    t.zipIdx.foldl (fun st r => f st r.1.tr) st = (t.map Tick.tr).foldl f st := by
  conv_rhs => rw [← List.zipIdx_map_fst 0 t, List.map_map, List.foldl_map]
  rfl

/-- What the groups of the scan hold is the sum over the ticks that are done. -/
theorem sum_completed (h : Accumulates acc f view)
    (hout : ∀ st tr, (view st).bn ≤ out (f st tr)) :
    ((completed out (fun st => (view st).bn) st (scan f st (t.map Tick.tr)) t).map fun g =>
        (g.2.map fun r => r.1.tr.amount).sum).sum =
      Tallies.doneSum (fun st (r : Row S K) => f st r.1.tr) out (fun r => r.1.tr.amount)
        (view ((t.map Tick.tr).foldl f st)).bn st t.zipIdx := by
  rw [completed, getLastD_scan, scan_tr]
  apply sum_groupsIn
  intro r hr
  exact h.tallies.le_of_mem_zip (fun st r => hout st r.1.tr) hr

/-- The account of a scan, given how the done ticks and the bar open in the end make up the
day if the scan closes a bar. -/
theorem account (h : Accumulates acc f view) (hout : ∀ st tr, (view st).bn ≤ out (f st tr))
    {missing : Nat × K → Prop}
    (hclosed : (view st).bn < (view ((t.map Tick.tr).foldl f st)).bn →
      ∃ lost, missing lost ∧
        Tallies.doneSum (fun st (r : Row S K) => f st r.1.tr) out (fun r => r.1.tr.amount)
            (view ((t.map Tick.tr).foldl f st)).bn st t.zipIdx +
          lost + (view ((t.map Tick.tr).foldl f st)).held = amountOf t)
    (hlst : (scan f st (t.map Tick.tr)).getLast? = some lst) :
    Account acc missing t (view st)
      (completed out (fun st => (view st).bn) st (scan f st (t.map Tick.tr)) t) (view lst) := by
  have hlast : (t.map Tick.tr).foldl f st = lst := by
    rw [← getLastD_scan, List.getLastD_eq_getLast?, hlst]
    rfl
  obtain ⟨hstays, hview⟩ | ⟨hnot, hlt⟩ := h.foldl_spec t st
  · refine .stays hstays ?_ (hlast ▸ hview)
    rw [completed, getLastD_scan, hview, groupsIn_self]
  · obtain ⟨lost, hlost, hsum⟩ := hclosed hlt
    refine .closes lost hnot hlost ?_
    rw [h.sum_completed hout, ← hlast]
    exact hsum

/-- With the numbers from before each step nothing of the day is missing. -/
theorem account_before (h : Accumulates acc f view) (hout : ∀ st tr, out (f st tr) = (view st).bn)
    (hlst : (scan f st (t.map Tick.tr)).getLast? = some lst) :
    Account acc (fun lost => lost = 0) t (view st)
      (completed out (fun st => (view st).bn) st (scan f st (t.map Tick.tr)) t) (view lst) := by
  refine h.account (fun st tr => (hout st tr).ge) (fun hlt => ⟨0, rfl, ?_⟩) hlst
  rw [← foldl_rows] at hlt ⊢
  rw [add_zero, ← sum_rows]
  exact h.tallies.done_before (fun st r => hout st r.1.tr) hlt

/-- With the numbers from after each step the last tick that closed a bar is missing. -/
theorem account_after (h : Accumulates acc f view)
    (hlst : (scan f st (t.map Tick.tr)).getLast? = some lst) :
    Account acc (fun lost => ∃ x ∈ t, lost = x.tr.amount) t (view st)
      (completed (fun st => (view st).bn) (fun st => (view st).bn) st
        (scan f st (t.map Tick.tr)) t) (view lst) := by
  have hmono : ∀ st tr, (view st).bn ≤ (view (f st tr)).bn := by
    intro st tr
    by_cases hr : (view st).th ≤ |acc (view st).theta tr.sd|
    · exact (h.reaches hr).1 ▸ Nat.le_succ _
    · rw [h.below hr]
  refine h.account hmono (fun hlt => ?_) hlst
  rw [← foldl_rows] at hlt ⊢
  obtain ⟨r, hr, hsum⟩ := h.tallies.done_after hlt
  refine ⟨r.1.tr.amount, ⟨r.1, List.fst_mem_of_mem_zipIdx hr, rfl⟩, ?_⟩
  rw [← sum_rows]
  exact hsum

end Accumulates

/-! ## One day -/

/-- The open bar that a pass starts from. -/
def Pass.openBar (ops : Ops K) (mode : Mode) (t : List (Tick S K)) : Pass S K → OpenBar K
  | .warmup target _ => { bn := 0, theta := 0, th := warmTh ops target mode t, held := 0 }
  | .adaptive _ _ sprev => sprev.openBar

/-- What the bars that a pass completes may lack of the day's ticks. -/
def Pass.Misses (t : List (Tick S K)) : Pass S K → Nat × K → Prop
  | .warmup _ _ => fun lost => ∃ x ∈ t, lost = x.tr.amount
  | .adaptive _ _ _ => fun lost => lost = 0

/-- The account of a day. -/
theorem Pass.account {ops : Ops K} {mode : Mode} {dt : Int} {t : List (Tick S K)}
    {pass : Pass S K} {bars : List (Bar S K)} {row : StateRow S K}
    (h : pass.run ops mode dt t = some (bars, row)) :
    Account (accOf mode) (pass.Misses t) t (pass.openBar ops mode t) (pass.recorded ops mode t)
      row.openBar := by
  cases pass with
  | warmup target s =>
      simp only [run, recorded, openBar, warmTh] at h ⊢
      split_ifs at h ⊢ with hmode
      · obtain ⟨lst, hlst, heq⟩ := Option.map_eq_some_iff.mp h
        obtain ⟨-, rfl⟩ := Prod.mk.inj heq
        rw [accOf_eq_accdib hmode]
        exact (accumulates_scnrw _).account_after hlst
      · obtain ⟨lst, hlst, heq⟩ := Option.map_eq_some_iff.mp h
        obtain ⟨-, rfl⟩ := Prod.mk.inj heq
        rw [warmSts, warmScn_eq] at hlst
        rw [warmRows, warmSts, warmScn_eq]
        exact (accumulates_scn (accOf mode) _).account_after hlst
  | adaptive alpha kappa sprev =>
      simp only [run, recorded, openBar] at h ⊢
      split_ifs at h ⊢ with hmode
      · obtain ⟨lst, hlst, heq⟩ := Option.map_eq_some_iff.mp h
        obtain ⟨-, rfl⟩ := Prod.mk.inj heq
        rw [accOf_eq_accdib hmode]
        exact (accumulates_scnrwdiba ops alpha kappa).account_before scnrwdiba_bnout hlst
      · obtain ⟨lst, hlst, heq⟩ := Option.map_eq_some_iff.mp h
        obtain ⟨-, rfl⟩ := Prod.mk.inj heq
        exact (accumulates_procScn ops mode alpha).account_before procScn_bnout hlst

/-! ## Runs -/

section Runs
variable {ops : Ops K} {mode : Mode} {target : Nat} {kappa : K} {s : S} {w : Day S K}
  {ds : List (ProcDay S K)} {db db' : Tables S K} {t : List (Tick S K)} {th : K}

/-- All ticks and their dollar volume are in the recorded bars or in the open one. -/
structure Conserves (t : List (Tick S K)) (db : Tables S K) : Prop where
  ticks : (db.bars.map Bar.ticks).sum + db.state.tib = t.length
  dqty : (db.bars.map Bar.dqty).sum + db.state.dib = (t.map Tick.dvol).sum

/-- The bar that was open when a day began, if the day completes it, has what was carried
over and the day's ticks up to its close. -/
def SpansDays (ops : Ops K) (mode : Mode) (target : Nat) (kappa : K) (s : S) (w : Day S K)
    (ds : List (ProcDay S K)) : Prop :=
  ∀ before d after, ds = before ++ d :: after →
    ∀ db, run ops mode target kappa s w before = some db →
    ∀ bars row, (procPass ops kappa db d).run ops mode d.dt d.ticks = some (bars, row) →
    ∀ piece pieces, (procPass ops kappa db d).Completes ops mode d.ticks (piece :: pieces) →
    ∀ bar ∈ bars, bar.bn = db.state.bn →
      bar.ticks = db.state.tib + piece.length ∧ bar.dqty = db.state.dib + dvolOf piece

/-- The run's ticks never bring the imbalance to the threshold of the warm-up. -/
def NeverCloses (ops : Ops K) (mode : Mode) (target : Nat) (w : Day S K)
    (ds : List (ProcDay S K)) : Prop :=
  StaysBelow (accOf mode) (warmTh ops target mode w.ticks) 0 ((processed w ds).map Tick.sd)

/-- A run after the ticks `t`: no bar was completed and all ticks are held by the open one, or
one was and ticks are missing. -/
inductive Ledger (mode : Mode) (th : K) (t : List (Tick S K)) (db : Tables S K) : Prop
  | complete : StaysBelow (accOf mode) th 0 (t.map Tick.sd) → db.bars = [] →
      db.state.openBar = { bn := 0, theta := (t.map Tick.sd).foldl (accOf mode) 0, th := th
                           held := amountOf t } → Ledger mode th t db
  | short : ¬ StaysBelow (accOf mode) th 0 (t.map Tick.sd) →
      (db.bars.map Bar.ticks).sum + db.state.tib < t.length → Ledger mode th t db

omit [LinearOrder K] in
theorem ticks_amount (bars : List (Bar S K)) :
    (bars.map Bar.amount).sum.1 = (bars.map Bar.ticks).sum := by
  rw [sum_amount_eq]

omit [LinearOrder K] in
theorem ticks_amountOf (t : List (Tick S K)) : (amountOf t).1 = t.length := by
  rw [amountOf_eq]

/-- The bars of a day that closes none. -/
theorem Pass.bars_eq_nil {pass : Pass S K} {dt : Int} {bars : List (Bar S K)}
    {row : StateRow S K} (h : pass.run ops mode dt t = some (bars, row))
    (hnone : pass.recorded ops mode t = []) : bars = [] := by
  obtain ⟨_, _, _, _, _, rfl⟩ := Pass.run_bars h
  rw [hnone, List.map_nil]

/-- The ticks of a day that closes a bar. -/
theorem Pass.ticks_of_closes {pass : Pass S K} {dt : Int} {bars : List (Bar S K)}
    {row : StateRow S K} {lost : Nat × K} (h : pass.run ops mode dt t = some (bars, row))
    (hsum : ((pass.recorded ops mode t).map fun g => (g.2.map fun r => r.1.tr.amount).sum).sum +
      lost + row.openBar.held = amountOf t) :
    (bars.map Bar.ticks).sum + lost.1 + row.tib = t.length := by
  rw [← Pass.run_amount h] at hsum
  have hticks := congrArg Prod.fst hsum
  rw [Prod.fst_add, Prod.fst_add, ticks_amount, ticks_amountOf] at hticks
  exact hticks

theorem Ledger.warmup (h : warmup ops mode target s w = some db) :
    Ledger mode (warmTh ops target mode w.ticks) w.ticks db := by
  obtain ⟨⟨bars, row⟩, hrun, rfl⟩ := Option.map_eq_some_iff.mp h
  cases Pass.account hrun with
  | stays hstays hnone hlast =>
      refine .complete hstays (Pass.bars_eq_nil hrun hnone) ?_
      rw [hlast]
      simp [Pass.openBar]
  | closes lost hnot hlost hsum =>
      refine .short hnot ?_
      obtain ⟨x, -, rfl⟩ := hlost
      have hticks : (bars.map Bar.ticks).sum + 1 + row.tib = w.ticks.length :=
        Pass.ticks_of_closes hrun hsum
      change (bars.map Bar.ticks).sum + row.tib < w.ticks.length
      omega

/-- What a day does to the ledger. -/
theorem Ledger.proc {d : ProcDay S K} (hl : Ledger mode th t db) (hne : t ≠ [])
    (h : proc ops mode kappa db d = some db') : Ledger mode th (t ++ d.ticks) db' := by
  obtain ⟨⟨bars, row⟩, hrun, rfl⟩ := Option.map_eq_some_iff.mp h
  have hpos : 0 < t.length := List.length_pos_iff.mpr hne
  cases hl with
  | complete hstays hnil hopen =>
      have hbar : (procPass ops kappa db d).openBar ops mode d.ticks = db.state.openBar := rfl
      have hday := Pass.account hrun
      rw [hbar, hopen] at hday
      cases hday with
      | stays hbelow hnone hlast =>
          refine .complete ?_ ?_ ?_
          · rw [List.map_append, staysBelow_append_iff]
            exact ⟨hstays, hbelow⟩
          · rw [hnil, Pass.bars_eq_nil hrun hnone, List.append_nil]
          · rw [hlast, List.map_append, List.foldl_append, amountOf_append]
      | closes lost hnot hlost hsum =>
          refine .short ?_ ?_
          · rw [List.map_append, staysBelow_append_iff]
            exact fun hbelow => hnot hbelow.2
          · -- the ticks carried into the day are in no bar
            have hticks := Pass.ticks_of_closes hrun hsum
            simp only [hnil, List.nil_append, List.length_append]
            omega
  | short hnot hlt =>
      refine .short ?_ ?_
      · rw [List.map_append, staysBelow_append_iff]
        exact fun hbelow => hnot hbelow.1
      · simp only [List.map_append, List.sum_append, List.length_append]
        cases Pass.account hrun with
        | stays hbelow hnone hlast =>
            have hticks : row.tib = db.state.tib + d.ticks.length := by
              rw [← ticks_amountOf d.ticks]
              exact congrArg (fun bar => bar.held.1) hlast
            rw [Pass.bars_eq_nil hrun hnone, List.map_nil, List.sum_nil]
            omega
        | closes lost hclosed hlost hsum =>
            have hticks := Pass.ticks_of_closes hrun hsum
            omega

theorem Ledger.foldlM (hl : Ledger mode th t db) (hne : t ≠ [])
    (h : ds.foldlM (Afml.proc ops mode kappa) db = some db') :
    Ledger mode th (t ++ ds.flatMap fun d => d.ticks) db' := by
  induction ds generalizing t db with
  | nil =>
      obtain rfl := Option.some.inj h
      rw [List.flatMap_nil, List.append_nil]
      exact hl
  | cons d ds ih =>
      rw [List.foldlM_cons] at h
      obtain ⟨next, hproc, hrest⟩ := Option.bind_eq_some_iff.mp h
      rw [List.flatMap_cons, ← List.append_assoc]
      exact ih (hl.proc hne hproc) (List.append_ne_nil_of_left_ne_nil hne _) hrest

theorem Ledger.run (h : Afml.run ops mode target kappa s w ds = some db) :
    Ledger mode (warmTh ops target mode w.ticks) (processed w ds) db := by
  obtain ⟨start, hwarm, hdays⟩ := Option.bind_eq_some_iff.mp h
  exact (Ledger.warmup hwarm).foldlM w.nonempty hdays

/-- A run of days with ticks goes through. -/
theorem Pass.exists_run (ops : Ops K) (mode : Mode) (dt : Int) (pass : Pass S K) (hne : t ≠ []) :
    ∃ res, pass.run ops mode dt t = some res := by
  have hlast : ∀ {σ : Type _} (f : σ → Tr K → σ) (st : σ),
      ((scan f st (t.map Tick.tr)).getLast?).isSome := by
    intro σ f st
    rw [List.getLast?_isSome, ← List.length_pos_iff, length_scan, List.length_map]
    exact List.length_pos_iff.mpr hne
  cases pass with
  | warmup target s =>
      simp only [run]
      split_ifs
      · exact Option.isSome_iff_exists.mp (by rw [warmuprw, Option.isSome_map]; exact hlast _ _)
      · exact Option.isSome_iff_exists.mp (by rw [warmupafml, Option.isSome_map]; exact hlast _ _)
  | adaptive alpha kappa sprev =>
      simp only [run]
      split_ifs
      · exact Option.isSome_iff_exists.mp (by rw [procrw, Option.isSome_map]; exact hlast _ _)
      · exact Option.isSome_iff_exists.mp (by rw [procafml, Option.isSome_map]; exact hlast _ _)

theorem exists_foldlM_proc (ops : Ops K) (mode : Mode) (kappa : K) (db : Tables S K)
    (ds : List (ProcDay S K)) : ∃ db', ds.foldlM (proc ops mode kappa) db = some db' := by
  induction ds generalizing db with
  | nil => exact ⟨db, rfl⟩
  | cons d ds ih =>
      obtain ⟨res, hres⟩ := Pass.exists_run ops mode d.dt (procPass ops kappa db d) d.nonempty
      obtain ⟨db', hrest⟩ := ih { bars := db.bars ++ res.1, state := res.2 }
      refine ⟨db', ?_⟩
      rw [List.foldlM_cons, proc, hres]
      exact hrest

theorem exists_run (ops : Ops K) (mode : Mode) (target : Nat) (kappa : K) (s : S) (w : Day S K)
    (ds : List (ProcDay S K)) : ∃ db, run ops mode target kappa s w ds = some db := by
  obtain ⟨res, hres⟩ := Pass.exists_run ops mode w.dt (.warmup target s) w.nonempty
  obtain ⟨db, hdays⟩ := exists_foldlM_proc ops mode kappa { bars := res.1, state := res.2 } ds
  refine ⟨db, ?_⟩
  rw [run, warmup, hres]
  exact hdays

theorem run_snoc (before : List (ProcDay S K)) (d : ProcDay S K) {bars : List (Bar S K)}
    {row : StateRow S K} (h : run ops mode target kappa s w before = some db)
    (hday : (procPass ops kappa db d).run ops mode d.dt d.ticks = some (bars, row)) :
    run ops mode target kappa s w (before ++ [d]) =
      some { bars := db.bars ++ bars, state := row } := by
  obtain ⟨start, hwarm, hdays⟩ := Option.bind_eq_some_iff.mp h
  rw [run, hwarm, Option.bind_some, List.foldlM_append, hdays]
  change proc ops mode kappa db d >>= pure = _
  rw [bind_pure, proc, hday]
  rfl

omit [Ring K] [LinearOrder K] in
theorem processed_append (before after : List (ProcDay S K)) :
    processed w (before ++ after) =
      processed w before ++ after.flatMap fun d => d.ticks := by
  rw [processed, List.flatMap_append, ← List.append_assoc]
  rfl

/-- As long as no bar is completed, no day completes the bar carried into it. -/
theorem NeverCloses.spansDays (h : NeverCloses ops mode target w ds) :
    SpansDays ops mode target kappa s w ds := by
  rintro before d after rfl db hrun bars row hday piece pieces - bar hbar -
  have hcut : before ++ d :: after = (before ++ [d]) ++ after := by simp
  rw [NeverCloses, hcut, processed_append, List.map_append, staysBelow_append_iff] at h
  cases Ledger.run (run_snoc before d hrun hday) with
  | complete _ hnil _ =>
      obtain ⟨-, rfl⟩ := List.append_eq_nil_iff.mp hnil
      exact absurd hbar List.not_mem_nil
  | short hnot _ => exact absurd h.1 hnot

/-- A run goes through for every sequence of days with ticks, and it conserves them, also over
the day boundaries, if and only if it never completes a bar. -/
theorem run_conserves_iff (ops : Ops K) (mode : Mode) (target : Nat) (kappa : K) (s : S)
    (w : Day S K) (ds : List (ProcDay S K)) :
    ∃ db, run ops mode target kappa s w ds = some db ∧
      (Conserves (processed w ds) db ∧ SpansDays ops mode target kappa s w ds ↔
        NeverCloses ops mode target w ds) := by
  obtain ⟨db, hrun⟩ := exists_run ops mode target kappa s w ds
  refine ⟨db, hrun, ?_⟩
  have hledger := Ledger.run hrun
  constructor
  · rintro ⟨hconserves, -⟩
    cases hledger with
    | complete hstays _ _ => exact hstays
    | short _ hlt => exact absurd hconserves.ticks hlt.ne
  · intro hnever
    refine ⟨?_, hnever.spansDays⟩
    cases hledger with
    | complete _ hnil hopen =>
        have hheld : db.state.amount = amountOf (processed w ds) := congrArg OpenBar.held hopen
        rw [amountOf_eq] at hheld
        obtain ⟨htib, hdib⟩ := Prod.mk.inj hheld
        refine ⟨?_, ?_⟩
        · rw [hnil, htib, List.map_nil, List.sum_nil, zero_add]
        · rw [hnil, hdib, List.map_nil, List.sum_nil, zero_add]
    | short hnot _ => exact absurd hnever hnot

end Runs

/-- Four ticks of 100, -200, 100 and 100 dollars on the first day complete no bar under the
threshold of 250. A buy of 200 dollars on the next day does, and the bar recorded has one tick. -/
theorem carried_ticks_are_lost :
    let ops : Ops ℚ := { div := fun x y => x / y, sqrt := id }
    let tick (ts : Int) (qty : ℚ) (sell : Bool) : Tick String ℚ :=
      { sym := "BTCUSDT", exchTradeTs := ts, price := 100, qty := qty, buyerIsMaker := sell }
    let w : Day String ℚ :=
      { dt := 14, ticks := [tick 1 1 false, tick 2 2 true, tick 3 1 false, tick 4 1 false]
        nonempty := List.cons_ne_nil _ _ }
    let d : ProcDay String ℚ :=
      { dt := 15, ticks := [tick 5 2 false], nonempty := List.cons_ne_nil _ _, span := 100 }
    ∃ db, run ops .dib 1 0 "BTCUSDT" w [d] = some db ∧
      db.bars.map Bar.ticks = [1] ∧ db.state.tib = 0 ∧ (processed w [d]).length = 5 ∧
      ¬ Conserves (processed w [d]) db := by
  intro ops tick w d
  obtain ⟨db, hrun⟩ := exists_run ops .dib 1 0 "BTCUSDT" w [d]
  have hview : (run ops .dib 1 0 "BTCUSDT" w [d]).map
      (fun db => (db.bars.map Bar.ticks, db.state.tib)) = some ([1], 0) := by
    decide +kernel
  rw [hrun] at hview
  obtain ⟨hticks, htib⟩ := Prod.mk.inj (Option.some.inj hview)
  refine ⟨db, hrun, hticks, htib, rfl, fun hconserves => ?_⟩
  have hsum := hconserves.ticks
  rw [hticks, htib] at hsum
  exact absurd hsum (by decide)

end TickToSignal.Afml
