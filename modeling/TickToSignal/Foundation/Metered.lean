import TickToSignal.Foundation.Machine
import Mathlib.Algebra.Order.Monoid.Defs

/-!
# What a run of a machine costs

Every input has a cost that depends on the state it is consumed in. A
potential pays for a run if no step of it costs more than the potential falls.
-/

namespace TickToSignal.Foundation

variable {σ ι κ : Type*}

/-- The cost of the inputs, each in the state that consumes it. -/
def spent [Add κ] [Zero κ] (step : σ → ι → σ) (cost : σ → ι → κ) : σ → List ι → κ
  | _, [] => 0
  | s, i :: is => cost s i + spent step cost (step s i) is

/-- The potential method, for an invariant that the steps of the run keep. -/
theorem spent_add_potential_le [AddCommMonoid κ] [PartialOrder κ] [IsOrderedAddMonoid κ]
    {step : σ → ι → σ} {cost : σ → ι → κ} (potential : σ → κ) (Inv : σ → Prop) {is : List ι}
    (hkeep : ∀ s, ∀ i ∈ is, Inv s → Inv (step s i))
    (hpay : ∀ s, ∀ i ∈ is, Inv s → cost s i + potential (step s i) ≤ potential s) {s : σ}
    (hs : Inv s) : spent step cost s is + potential (exec step s is) ≤ potential s := by
  induction is generalizing s with
  | nil => simp [spent]
  | cons i is ih =>
      have hrest : spent step cost (step s i) is + potential (exec step (step s i) is)
          ≤ potential (step s i) :=
        ih (fun s j hj => hkeep s j (List.mem_cons_of_mem i hj))
          (fun s j hj => hpay s j (List.mem_cons_of_mem i hj))
          (hkeep s i List.mem_cons_self hs)
      calc
        spent step cost s (i :: is) + potential (exec step s (i :: is))
            = cost s i + (spent step cost (step s i) is
                + potential (exec step (step s i) is)) := add_assoc _ _ _
        _ ≤ cost s i + potential (step s i) := add_le_add_right hrest _
        _ ≤ potential s := hpay s i List.mem_cons_self hs

end TickToSignal.Foundation
