import TickToSignal.Afml.Scan

/-!
# Imbalance bars of one symbol and day

The warm-up calibrates one threshold from the day's ticks and scans them from an
empty open bar. The adaptive pass scans the next days from the state kept after
the day before. Both number the ticks by a column of the scan, record the groups
with a number below the last one, and keep the open bar in the state.

## Implementation notes

A row is a tick with its position in the day's table. Both passes are given the
ticks of one symbol; a day without ticks gives `none`, where the source fills a
state row with nulls. An aggregate of no rows is `none`.
-/

namespace TickToSignal.Afml

open Foundation

variable {S K : Type*} [Ring K] [LinearOrder K]

/-- A recorded bar. -/
structure Bar (S K : Type*) where
  sym : S
  bn : Nat
  barstart : Option Int
  barend : Option Int
  opened : Option K
  high : Option K
  low : Option K
  close : Option K
  qty : K
  dqty : K
  ticks : Nat
  buys : Nat
  bqty : K
  sqty : K
  vwap : K
  theta : Option K
  et : K
  pb : K
  ed : K
  th : Option K
  warmup : Bool

/-- What is kept of a symbol from one day to the next. -/
structure StateRow (S K : Type*) where
  sym : S
  date : Int
  bn : Nat
  theta : K
  exp : Expect K
  tib : Nat
  bib : Nat
  dib : K
  sigma : K
  anchor : K
  anchorprice : K

/-- A tick and its position in the day's table. -/
abbrev Row (S K : Type*) := Tick S K × Nat

/-- The columns of a bar that both passes aggregate alike. -/
def aggregate (ops : Ops K) (s : S) (bn : Nat) (rows : List (Row S K)) (theta : Option K)
    (e : Expect K) (th : Option K) (warmup : Bool) : Bar S K :=
  let ticks := rows.map Prod.fst
  let buys := ticks.filter fun t => bt t.buyerIsMaker = 1
  let sells := ticks.filter fun t => bt t.buyerIsMaker = -1
  { sym := s
    bn := bn
    barstart := ticks.head?.map Tick.exchTradeTs
    barend := ticks.getLast?.map Tick.exchTradeTs
    opened := ticks.head?.map Tick.price
    high := (ticks.map Tick.price).max?
    low := (ticks.map Tick.price).min?
    close := ticks.getLast?.map Tick.price
    qty := (ticks.map Tick.qty).sum
    dqty := (ticks.map Tick.dvol).sum
    ticks := ticks.length
    buys := buys.length
    bqty := (buys.map Tick.qty).sum
    sqty := (sells.map Tick.qty).sum
    vwap := ops.div (ticks.map fun t => t.qty * t.price).sum (ticks.map Tick.qty).sum
    theta := theta
    et := e.et
    pb := e.pb
    ed := e.ed
    th := th
    warmup := warmup }

/-- The rows of the completed bars, by the number each row got from its scan state. -/
def completed {σ : Type*} (number bn : σ → Nat) (st0 : σ) (sts : List σ) (t : List (Tick S K)) :
    List (Nat × List (Row S K)) :=
  groupsIn (bn st0) (bn (sts.getLastD st0)) ((sts.map number).zip t.zipIdx)

variable (ops : Ops K)

/-! ## Warm-up -/

def threshOf : Mode → K → K → K → K
  | .drb => threshdrb
  | _ => threshdib

/-- The initial expectations of `dib` and `drb`. -/
def warmExpect (target : Nat) (mode : Mode) (t : List (Tick S K)) : Expect K :=
  let et := ops.div (t.length : K) (target : K)
  let pb := avg ops (t.map fun x => 1 - (x.buyerIsMaker.toNat : K))
  let ed := avg ops (t.map Tick.dvol)
  { et := et, pb := pb, ed := ed, th := threshOf mode et pb ed }

def warmScn : Mode → K → ScnState K → Tr K → ScnState K
  | .drb => scndrb
  | _ => scndib

def warmSt0 : ScnState K := { theta := 0, bn := 0, tib := 0, bib := 0, dib := 0 }

def warmSts (target : Nat) (mode : Mode) (t : List (Tick S K)) : List (ScnState K) :=
  scan (warmScn mode (warmExpect ops target mode t).th) warmSt0 (t.map Tick.tr)

/-- What the warm-up of `dib` and `drb` records: rows numbered after the scan's step. -/
def warmRows (target : Nat) (mode : Mode) (t : List (Tick S K)) : List (Nat × List (Row S K)) :=
  completed ScnState.bn ScnState.bn warmSt0 (warmSts ops target mode t) t

/-- Warm-up of `dib` and `drb`. -/
def warmupafml (target : Nat) (dt : Int) (mode : Mode) (s : S) (t : List (Tick S K)) :
    Option (List (Bar S K) × StateRow S K) :=
  let e := warmExpect ops target mode t
  (warmSts ops target mode t).getLast?.map fun lst =>
    let bars := (warmRows ops target mode t).map fun (bn, rows) =>
      aggregate ops s bn rows (some (rows.map fun r => r.1.sd).sum) e (some e.th) true
    (bars,
      { sym := s, date := dt, bn := lst.bn, theta := lst.theta, exp := e
        tib := lst.tib, bib := lst.bib, dib := lst.dib
        sigma := 0, anchor := 0, anchorprice := 0 })

def warmrwSt0 : ScnRwState K := { theta := 0, bn := 0, tib := 0, dib := 0 }

/-- The threshold of the final scan: the first estimate, adjusted by the number of bars
that it gives. -/
def warmrwTh (target : Nat) (t : List (Tick S K)) : K :=
  let et := ops.div (t.length : K) (target : K)
  let sigma := dev ops (t.map Tick.sd)
  let th1 := threshrw ops sigma et
  let sts1 := scan (scnrw th1) warmrwSt0 (t.map Tick.tr)
  let pass1bars := (sts1.getLastD warmrwSt0).bn
  let adjfactor := ops.sqrt (ops.div (pass1bars : K) (target : K))
  threshrw ops sigma et * adjfactor

def warmrwSts (target : Nat) (t : List (Tick S K)) : List (ScnRwState K) :=
  scan (scnrw (warmrwTh ops target t)) warmrwSt0 (t.map Tick.tr)

def warmrwRows (target : Nat) (t : List (Tick S K)) : List (Nat × List (Row S K)) :=
  completed ScnRwState.bn ScnRwState.bn warmrwSt0 (warmrwSts ops target t) t

/-- Warm-up of `rwdib`. -/
def warmuprw (target : Nat) (dt : Int) (s : S) (t : List (Tick S K)) :
    Option (List (Bar S K) × StateRow S K) :=
  let sigma := dev ops (t.map Tick.sd)
  let avgprice := avg ops (t.map Tick.price)
  let th := warmrwTh ops target t
  (warmrwSts ops target t).getLast?.map fun lst =>
    let finalET := ops.div (t.length : K) ((max 1 lst.bn : Nat) : K)
    let e : Expect K := { et := finalET, pb := 0, ed := 0, th := th }
    let bars := (warmrwRows ops target t).map fun (bn, rows) =>
      aggregate ops s bn rows (some (rows.map fun r => r.1.sd).sum) e (some th) true
    (bars,
      { sym := s, date := dt, bn := lst.bn, theta := lst.theta, exp := e
        tib := lst.tib, bib := 0, dib := lst.dib
        sigma := sigma, anchor := th, anchorprice := avgprice })

/-! ## Adaptive processing -/

/-- The row's value of a column put out by the scan. -/
def column {σ : Type*} (out : σ → K) (sts : List σ) (r : Row S K) : Option K :=
  sts[r.2]?.map out

def procScn : Mode → K → ScnaState K → Tr K → ScnaState K
  | .drb => scndrba ops
  | _ => scndiba ops

def procSt0 (sprev : StateRow S K) : ScnaState K :=
  { theta := sprev.theta, bn := sprev.bn, exp := sprev.exp
    tib := sprev.tib, bib := sprev.bib, dib := sprev.dib
    bnout := sprev.bn, thout := sprev.exp.th, thetaout := sprev.theta }

def procSts (alpha : K) (mode : Mode) (sprev : StateRow S K) (t : List (Tick S K)) :
    List (ScnaState K) :=
  scan (procScn ops mode alpha) (procSt0 sprev) (t.map Tick.tr)

/-- What the adaptive pass of `dib` and `drb` records: rows with the number put out. -/
def procRows (alpha : K) (mode : Mode) (sprev : StateRow S K) (t : List (Tick S K)) :
    List (Nat × List (Row S K)) :=
  completed ScnaState.bnout ScnaState.bn (procSt0 sprev) (procSts ops alpha mode sprev t) t

/-- Adaptive processing of `dib` and `drb`. -/
def procafml (alpha : K) (dt : Int) (mode : Mode) (sprev : StateRow S K) (t : List (Tick S K)) :
    Option (List (Bar S K) × StateRow S K) :=
  let sts := procSts ops alpha mode sprev t
  sts.getLast?.map fun lst =>
    let bars := (procRows ops alpha mode sprev t).map fun (bn, rows) =>
      aggregate ops sprev.sym bn rows (rows.getLast?.bind (column ScnaState.thetaout sts)) lst.exp
        (rows.head?.bind (column ScnaState.thout sts)) false
    (bars,
      { sym := sprev.sym, date := dt, bn := lst.bn, theta := lst.theta, exp := lst.exp
        tib := lst.tib, bib := lst.bib, dib := lst.dib
        sigma := 0, anchor := 0, anchorprice := 0 })

/-- The anchor scaled by today's price. -/
def adjanchor (sprev : StateRow S K) (t : List (Tick S K)) : K :=
  let todayprice := avg ops (t.map Tick.price)
  let pratio := ops.div todayprice sprev.anchorprice
  sprev.anchor * pratio

def procrwSt0 (sprev : StateRow S K) (t : List (Tick S K)) : ScnrwaState K :=
  { theta := sprev.theta, bn := sprev.bn, et := sprev.exp.et, sigma := sprev.sigma
    th := sprev.exp.th, anchor := adjanchor ops sprev t, tib := sprev.tib, dib := sprev.dib
    bnout := sprev.bn, thout := sprev.exp.th, thetaout := sprev.theta }

def procrwSts (alpha kappa : K) (sprev : StateRow S K) (t : List (Tick S K)) :
    List (ScnrwaState K) :=
  scan (scnrwdiba ops alpha kappa) (procrwSt0 ops sprev t) (t.map Tick.tr)

def procrwRows (alpha kappa : K) (sprev : StateRow S K) (t : List (Tick S K)) :
    List (Nat × List (Row S K)) :=
  completed ScnrwaState.bnout ScnrwaState.bn (procrwSt0 ops sprev t)
    (procrwSts ops alpha kappa sprev t) t

/-- Adaptive processing of `rwdib`. -/
def procrw (alpha kappa : K) (dt : Int) (sprev : StateRow S K) (t : List (Tick S K)) :
    Option (List (Bar S K) × StateRow S K) :=
  let sts := procrwSts ops alpha kappa sprev t
  sts.getLast?.map fun lst =>
    let e : Expect K := { et := lst.et, pb := 0, ed := 0, th := lst.th }
    let bars := (procrwRows ops alpha kappa sprev t).map fun (bn, rows) =>
      aggregate ops sprev.sym bn rows (rows.getLast?.bind (column ScnrwaState.thetaout sts)) e
        (rows.head?.bind (column ScnrwaState.thout sts)) false
    (bars,
      { sym := sprev.sym, date := dt, bn := lst.bn, theta := lst.theta, exp := e
        tib := lst.tib, bib := 0, dib := lst.dib
        sigma := sprev.sigma, anchor := sprev.anchor, anchorprice := sprev.anchorprice })

/-! ## Passes -/

/-- A warm-up, or an adaptive pass from the state kept. -/
inductive Pass (S K : Type*)
  | warmup (target : Nat) (s : S)
  | adaptive (alpha kappa : K) (sprev : StateRow S K)

/-- Process one day by the functions of the mode. -/
def Pass.run (mode : Mode) (dt : Int) (t : List (Tick S K)) :
    Pass S K → Option (List (Bar S K) × StateRow S K)
  | .warmup target s =>
      if mode = .rwdib then warmuprw ops target dt s t else warmupafml ops target dt mode s t
  | .adaptive alpha kappa sprev =>
      if mode = .rwdib then procrw ops alpha kappa dt sprev t
      else procafml ops alpha dt mode sprev t

/-- The rows of the bars that the pass records. -/
def Pass.recorded (mode : Mode) (t : List (Tick S K)) : Pass S K → List (Nat × List (Row S K))
  | .warmup target _ =>
      if mode = .rwdib then warmrwRows ops target t else warmRows ops target mode t
  | .adaptive alpha kappa sprev =>
      if mode = .rwdib then procrwRows ops alpha kappa sprev t
      else procRows ops alpha mode sprev t

/-- The bars a pass puts out aggregate the recorded rows, group by group. -/
theorem Pass.run_bars {ops : Ops K} {mode : Mode} {dt : Int} {t : List (Tick S K)}
    {pass : Pass S K} {bars : List (Bar S K)} {row : StateRow S K}
    (h : pass.run ops mode dt t = some (bars, row)) :
    ∃ (s : S) (e : Expect K) (theta th : List (Row S K) → Option K) (warmup : Bool),
      bars = (pass.recorded ops mode t).map fun group =>
        aggregate ops s group.1 group.2 (theta group.2) e (th group.2) warmup := by
  cases pass with
  | warmup target s =>
      simp only [run, recorded] at h ⊢
      split_ifs at h ⊢
      all_goals
        obtain ⟨lst, -, heq⟩ := Option.map_eq_some_iff.mp h
        obtain ⟨rfl, -⟩ := Prod.mk.inj heq
        exact ⟨s, _, fun rows => some (rows.map fun r => r.1.sd).sum, fun _ => some _, true, rfl⟩
  | adaptive alpha kappa sprev =>
      simp only [run, recorded] at h ⊢
      split_ifs at h ⊢
      · obtain ⟨lst, -, heq⟩ := Option.map_eq_some_iff.mp h
        obtain ⟨rfl, -⟩ := Prod.mk.inj heq
        exact ⟨sprev.sym, _, fun rows => rows.getLast?.bind (column ScnrwaState.thetaout _),
          fun rows => rows.head?.bind (column ScnrwaState.thout _), false, rfl⟩
      · obtain ⟨lst, -, heq⟩ := Option.map_eq_some_iff.mp h
        obtain ⟨rfl, -⟩ := Prod.mk.inj heq
        exact ⟨sprev.sym, _, fun rows => rows.getLast?.bind (column ScnaState.thetaout _),
          fun rows => rows.head?.bind (column ScnaState.thout _), false, rfl⟩

end TickToSignal.Afml
