import TickToSignal.Afml.Closing
import TickToSignal.Foundation.Tally

/-!
# Runs over days

A run warms up on one day and then processes the days after it, each from the
state row that the day before left. Bars are appended to one table.

## Implementation notes

The tables are those of one symbol, and a day is given by its ticks of that
symbol. A day may be processed with a span of its own; a run of the source uses
one span for all of them.
-/

namespace TickToSignal.Afml

open Foundation

variable {S K : Type*} [Ring K] [LinearOrder K]

/-- A day of ticks; there is at least one. -/
structure Day (S K : Type*) where
  dt : Int
  ticks : List (Tick S K)
  nonempty : ticks ≠ []

/-- A day of the adaptive phase. -/
structure ProcDay (S K : Type*) extends Day S K where
  span : Int

/-- `.afml.bars` and the row of `.afml.state`. -/
structure Tables (S K : Type*) where
  bars : List (Bar S K)
  state : StateRow S K

variable (ops : Ops K) (mode : Mode)

/-- The weight of the last bar in the moving expectations. -/
def alphaOf (span : Int) : K := ops.div ((2 : Nat) : K) ((span + 1 : Int) : K)

/-- `.afml.warmup`, into empty tables. -/
def warmup (target : Nat) (s : S) (d : Day S K) : Option (Tables S K) :=
  ((Pass.warmup target s).run ops mode d.dt d.ticks).map fun res =>
    { bars := res.1, state := res.2 }

/-- The pass over a day, from the state row kept. -/
def procPass (kappa : K) (db : Tables S K) (d : ProcDay S K) : Pass S K :=
  .adaptive (alphaOf ops d.span) kappa db.state

/-- `.afml.proc`. -/
def proc (kappa : K) (db : Tables S K) (d : ProcDay S K) : Option (Tables S K) :=
  ((procPass ops kappa db d).run ops mode d.dt d.ticks).map fun res =>
    { bars := db.bars ++ res.1, state := res.2 }

/-- `.afml.run`: the warm-up and then the days in order. -/
def run (target : Nat) (kappa : K) (s : S) (w : Day S K) (ds : List (ProcDay S K)) :
    Option (Tables S K) :=
  (warmup ops mode target s w).bind fun db => ds.foldlM (proc ops mode kappa) db

/-- The ticks that a run has processed. -/
def processed (w : Day S K) (ds : List (ProcDay S K)) : List (Tick S K) :=
  w.ticks ++ ds.flatMap fun d => d.ticks

/-! ## Amounts -/

/-- A tick counts once, and by its dollar volume. -/
def Tr.amount (tr : Tr K) : Nat × K := (1, tr.dvol)

def amountOf (t : List (Tick S K)) : Nat × K := (t.map fun x => x.tr.amount).sum

def Bar.amount (b : Bar S K) : Nat × K := (b.ticks, b.dqty)

/-- What the open bar holds. -/
def StateRow.amount (row : StateRow S K) : Nat × K := (row.tib, row.dib)

omit [LinearOrder K] in
theorem amountOf_append (t t' : List (Tick S K)) :
    amountOf (t ++ t') = amountOf t + amountOf t' := by
  rw [amountOf, List.map_append, List.sum_append]
  rfl

omit [LinearOrder K] in
theorem amountOf_eq (t : List (Tick S K)) : amountOf t = (t.length, (t.map Tick.dvol).sum) := by
  induction t with
  | nil => rfl
  | cons x t ih =>
      rw [amountOf, List.map_cons, List.sum_cons, ← amountOf, ih]
      ext
      · simp [Tr.amount, Nat.add_comm]
      · simp [Tr.amount]

omit [LinearOrder K] in
theorem sum_amount_eq (bars : List (Bar S K)) :
    (bars.map Bar.amount).sum = ((bars.map Bar.ticks).sum, (bars.map Bar.dqty).sum) := by
  induction bars with
  | nil => rfl
  | cons b bars ih =>
      rw [List.map_cons, List.sum_cons, ih]
      rfl

theorem aggregate_amount (ops : Ops K) (s : S) (bn : Nat) (rows : List (Row S K))
    (theta : Option K) (e : Expect K) (th : Option K) (warmup : Bool) :
    (aggregate ops s bn rows theta e th warmup).amount =
      (rows.map fun r => r.1.tr.amount).sum := by
  calc
    (aggregate ops s bn rows theta e th warmup).amount
        = ((rows.map Prod.fst).length, ((rows.map Prod.fst).map Tick.dvol).sum) := rfl
    _ = amountOf (rows.map Prod.fst) := (amountOf_eq _).symm
    _ = (rows.map fun r => r.1.tr.amount).sum := by
      rw [amountOf, List.map_map]
      rfl

/-- The bars of a pass hold what its recorded rows hold. -/
theorem Pass.run_amount {ops : Ops K} {mode : Mode} {dt : Int} {t : List (Tick S K)}
    {pass : Pass S K} {bars : List (Bar S K)} {row : StateRow S K}
    (h : pass.run ops mode dt t = some (bars, row)) :
    (bars.map Bar.amount).sum =
      ((pass.recorded ops mode t).map fun g => (g.2.map fun r => r.1.tr.amount).sum).sum := by
  obtain ⟨s, e, theta, th, warmup, rfl⟩ := Pass.run_bars h
  rw [List.map_map]
  congr 2
  funext g
  exact aggregate_amount ops s g.1 g.2 (theta g.2) e (th g.2) warmup

end TickToSignal.Afml
