import Mathlib.Data.List.Basic

/-!
# Machines that consume a list of inputs

A machine is a total step function; an input that is not enabled leaves the
state as it is. `Admits` says that every input was consumed in a state that
satisfies a guard, so a property that only holds of guarded runs is stated
over the same step function as one that holds of all runs.
-/

namespace TickToSignal.Foundation

variable {σ ι : Type*}

/-- The state reached from `s` by consuming the inputs in order. -/
def exec (step : σ → ι → σ) (s : σ) (is : List ι) : σ :=
  is.foldl step s

@[simp] theorem exec_nil (step : σ → ι → σ) (s : σ) : exec step s [] = s := rfl

@[simp] theorem exec_cons (step : σ → ι → σ) (s : σ) (i : ι) (is : List ι) :
    exec step s (i :: is) = exec step (step s i) is := rfl

theorem exec_append (step : σ → ι → σ) (s : σ) (is js : List ι) :
    exec step s (is ++ js) = exec step (exec step s is) js := by
  simp [exec, List.foldl_append]

/-- Every input is consumed in a state in which the guard allows it. -/
def Admits (step : σ → ι → σ) (guard : σ → ι → Prop) : σ → List ι → Prop
  | _, [] => True
  | s, i :: is => guard s i ∧ Admits step guard (step s i) is

instance Admits.decidable (step : σ → ι → σ) (guard : σ → ι → Prop)
    [∀ s i, Decidable (guard s i)] : ∀ s is, Decidable (Admits step guard s is)
  | _, [] => inferInstanceAs (Decidable True)
  | s, i :: is =>
      have := Admits.decidable step guard (step s i) is
      inferInstanceAs (Decidable (guard s i ∧ Admits step guard (step s i) is))

theorem admits_append (step : σ → ι → σ) (guard : σ → ι → Prop) (s : σ) (is js : List ι) :
    Admits step guard s (is ++ js) ↔
      Admits step guard s is ∧ Admits step guard (exec step s is) js := by
  induction is generalizing s with
  | nil => simp [Admits]
  | cons i is ih => simp [Admits, ih, and_assoc]

/-- A property that every allowed step preserves holds at the end of an allowed run. -/
theorem Admits.invariant {step : σ → ι → σ} {guard : σ → ι → Prop} {P : σ → Prop}
    (hstep : ∀ s i, P s → guard s i → P (step s i)) {s : σ} {is : List ι}
    (hrun : Admits step guard s is) (hs : P s) : P (exec step s is) := by
  induction is generalizing s with
  | nil => exact hs
  | cons i is ih => exact ih hrun.2 (hstep s i hs hrun.1)

/-- A property that every step preserves holds at the end of every run. -/
theorem exec_invariant {step : σ → ι → σ} {P : σ → Prop}
    (hstep : ∀ s i, P s → P (step s i)) {s : σ} (is : List ι) (hs : P s) :
    P (exec step s is) := by
  induction is generalizing s with
  | nil => exact hs
  | cons i is ih => exact ih (hstep s i hs)

/-- The same when the inputs come from a set the step is known to respect. -/
theorem exec_invariant_of_mem {step : σ → ι → σ} {P : σ → Prop} {is : List ι}
    (hstep : ∀ s, ∀ i ∈ is, P s → P (step s i)) {s : σ} (hs : P s) :
    P (exec step s is) := by
  induction is generalizing s with
  | nil => exact hs
  | cons i is ih =>
      exact ih (fun s j hj => hstep s j (List.mem_cons_of_mem i hj))
        (hstep s i List.mem_cons_self hs)

/-- What consuming an input establishes for it, and no input undoes, holds of
every consumed input. -/
theorem exec_establishes {step : σ → ι → σ} {P : ι → σ → Prop}
    (hkeep : ∀ s i j, P j s → P j (step s i)) (hmake : ∀ s i, P i (step s i)) {s : σ}
    {is : List ι} : ∀ i ∈ is, P i (exec step s is) := by
  induction is generalizing s with
  | nil => simp
  | cons j js ih =>
      intro i hi
      rcases List.mem_cons.mp hi with rfl | hi
      · exact exec_invariant (fun s j => hkeep s j i) js (hmake s i)
      · exact ih i hi

end TickToSignal.Foundation
