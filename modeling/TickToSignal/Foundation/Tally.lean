import TickToSignal.Foundation.Cuts
import Mathlib.Algebra.BigOperators.Group.Finset.Piecewise

/-!
# Amounts held by a scan and by its groups

A scan counts pieces and holds the amount of the open one: an element is added
to it, or closes the piece and leaves nothing. The groups of the elements,
numbered by the piece they fall into, hold what was held at the last close; numbered by
the piece open after them, they lack the last element that closed one.
-/

namespace TickToSignal.Foundation

variable {α σ M : Type*} [AddCommMonoid M] {w : α → M}

/-! ## Sums over groups -/

theorem sum_rowsOf_cons (w : α → M) (k : Nat) (r : Nat × α) (l : List (Nat × α)) :
    ((rowsOf k (r :: l)).map w).sum =
      (if r.1 = k then w r.2 else 0) + ((rowsOf k l).map w).sum := by
  rw [rowsOf_cons]
  split_ifs <;> simp

/-- Keys without repetition split a sum into their rows. -/
theorem sum_rowsOf (w : α → M) {keys : List Nat} (hnodup : keys.Nodup) {l : List (Nat × α)}
    (hcovered : ∀ r ∈ l, r.1 ∈ keys) :
    (keys.map fun k => ((rowsOf k l).map w).sum).sum = (l.map fun r => w r.2).sum := by
  induction l with
  | nil => simp
  | cons r l ih =>
      obtain ⟨hr, hl⟩ := List.forall_mem_cons.mp hcovered
      have hone : (keys.map fun k => if r.1 = k then w r.2 else 0).sum = w r.2 := by
        rw [← List.sum_toFinset _ hnodup, Finset.sum_ite_eq, if_pos (List.mem_toFinset.mpr hr)]
      calc
        (keys.map fun k => ((rowsOf k (r :: l)).map w).sum).sum
            = (keys.map fun k => (if r.1 = k then w r.2 else 0) + ((rowsOf k l).map w).sum).sum := by
          simp only [sum_rowsOf_cons]
        _ = w r.2 + (l.map fun r => w r.2).sum := by
          rw [List.sum_map_add, hone, ih hl]
        _ = ((r :: l).map fun r => w r.2).sum := by
          rw [List.map_cons, List.sum_cons]

theorem sum_byNumber (w : α → M) (l : List (Nat × α)) :
    ((byNumber l).map fun g => (g.2.map w).sum).sum = (l.map fun r => w r.2).sum := by
  have hsorted := List.mergeSort_perm (l.map Prod.fst).dedup (· ≤ ·)
  rw [byNumber, List.map_map]
  apply sum_rowsOf w (hsorted.nodup_iff.mpr (List.nodup_dedup _))
  intro r hr
  rw [hsorted.mem_iff, List.mem_dedup]
  exact List.mem_map_of_mem hr

@[simp] theorem groupsIn_self (n : Nat) (l : List (Nat × α)) : groupsIn n n l = [] := by
  have hnone : (l.filter fun r => decide (r.1 < n ∧ r.1 ≥ n)) = [] := by
    apply List.filter_eq_nil_iff.mpr
    intro r _
    simp
  rw [groupsIn, hnone]
  simp [byNumber]

/-- Groups of numbers that start at `lo`. -/
theorem sum_groupsIn (w : α → M) {lo hi : Nat} {l : List (Nat × α)} (hlo : ∀ r ∈ l, lo ≤ r.1) :
    ((groupsIn lo hi l).map fun g => (g.2.map w).sum).sum =
      (l.map fun r => if r.1 < hi then w r.2 else 0).sum := by
  have hfilter : (l.filter fun r => decide (r.1 < hi ∧ r.1 ≥ lo)) =
      l.filter fun r => decide (r.1 < hi) := by
    apply List.filter_congr
    intro r hr
    simp [hlo r hr]
  rw [groupsIn, hfilter, sum_byNumber, List.sum_map_ite]
  simp

/-! ## Scans -/

theorem getLastD_scan (f : σ → α → σ) (st : σ) (xs : List α) :
    (scan f st xs).getLastD st = xs.foldl f st := by
  induction xs generalizing st with
  | nil => rfl
  | cons x xs ih => rw [scan, List.getLastD_cons, ih, List.foldl_cons]

/-- An element adds to the open piece, or closes it. -/
structure Tallies (f : σ → α → σ) (number : σ → Nat) (held : σ → M) (w : α → M) : Prop where
  step : ∀ st x, number (f st x) = number st ∧ held (f st x) = held st + w x ∨
    number (f st x) = number st + 1 ∧ held (f st x) = 0

namespace Tallies

variable {f : σ → α → σ} {number out : σ → Nat} {held : σ → M} {st : σ}

theorem le_step (h : Tallies f number held w) (st : σ) (x : α) : number st ≤ number (f st x) := by
  obtain ⟨hkept, -⟩ | ⟨hclosed, -⟩ := h.step st x
  · exact hkept.ge
  · omega

theorem le_foldl (h : Tallies f number held w) (st : σ) (xs : List α) :
    number st ≤ number (xs.foldl f st) := by
  induction xs generalizing st with
  | nil => exact le_rfl
  | cons x xs ih => exact (h.le_step st x).trans (ih (f st x))

/-- While no piece closes, all elements are held. -/
theorem held_of_open (h : Tallies f number held w) {xs : List α}
    (hopen : number (xs.foldl f st) = number st) :
    held (xs.foldl f st) = held st + (xs.map w).sum := by
  induction xs generalizing st with
  | nil => simp
  | cons x xs ih =>
      have hle := h.le_foldl (f st x) xs
      rw [List.foldl_cons] at hopen ⊢
      obtain ⟨hkept, hheld⟩ | ⟨hclosed, -⟩ := h.step st x
      · rw [ih (hopen.trans hkept.symm), hheld, List.map_cons, List.sum_cons, add_assoc]
      · omega

theorem le_of_mem_zip (h : Tallies f number held w) (hout : ∀ st x, number st ≤ out (f st x))
    {xs : List α} {r : Nat × α} (hr : r ∈ ((scan f st xs).map out).zip xs) : number st ≤ r.1 := by
  induction xs generalizing st with
  | nil => simp [scan] at hr
  | cons x xs ih =>
      simp only [scan, List.map_cons, List.zip_cons_cons, List.mem_cons] at hr
      obtain rfl | hr := hr
      · exact hout st x
      · exact (h.le_step st x).trans (ih hr)

/-- The sum over elements with a number below that of the last state. -/
def doneSum (f : σ → α → σ) (out : σ → Nat) (w : α → M) (hi : Nat) (st : σ) (xs : List α) : M :=
  ((((scan f st xs).map out).zip xs).map fun r => if r.1 < hi then w r.2 else 0).sum

theorem doneSum_cons (hi : Nat) (x : α) (xs : List α) :
    doneSum f out w hi st (x :: xs) =
      (if out (f st x) < hi then w x else 0) + doneSum f out w hi (f st x) xs := by
  simp [doneSum, scan]

/-- Numbered from `hi` on, no element is done. -/
theorem doneSum_of_le (h : Tallies f number held w) (hout : ∀ st x, number st ≤ out (f st x))
    {hi : Nat} (hle : hi ≤ number st) (xs : List α) : doneSum f out w hi st xs = 0 := by
  apply List.sum_eq_zero
  intro v hv
  obtain ⟨r, hr, rfl⟩ := List.mem_map.mp hv
  have := h.le_of_mem_zip hout hr
  exact if_neg (by omega)

/-- Numbers from before each step: the elements done and the amount held make up everything. -/
theorem done_before (h : Tallies f number held w) (hout : ∀ st x, out (f st x) = number st)
    {xs : List α} (hclosed : number st < number (xs.foldl f st)) :
    doneSum f out w (number (xs.foldl f st)) st xs + held (xs.foldl f st) = (xs.map w).sum := by
  induction xs generalizing st with
  | nil => exact absurd hclosed (lt_irrefl _)
  | cons x xs ih =>
      rw [List.foldl_cons] at hclosed ⊢
      rw [doneSum_cons, hout, if_pos hclosed, List.map_cons, List.sum_cons, add_assoc]
      congr 1
      obtain heq | hlt := (h.le_foldl (f st x) xs).eq_or_lt
      · -- the element closed the last piece that closes
        have hempty : held (f st x) = 0 := by
          obtain ⟨hkept, -⟩ | ⟨-, hempty⟩ := h.step st x
          · omega
          · exact hempty
        rw [h.doneSum_of_le (fun st x => (hout st x).ge) heq.ge, h.held_of_open heq.symm, hempty,
          zero_add, zero_add]
      · exact ih hlt

/-- Numbers from after each step: an element that closed a piece is missing. -/
theorem done_after (h : Tallies f number held w) {xs : List α}
    (hclosed : number st < number (xs.foldl f st)) :
    ∃ x ∈ xs, doneSum f number w (number (xs.foldl f st)) st xs + w x + held (xs.foldl f st) =
      (xs.map w).sum := by
  induction xs generalizing st with
  | nil => exact absurd hclosed (lt_irrefl _)
  | cons x xs ih =>
      rw [List.foldl_cons] at hclosed ⊢
      rw [doneSum_cons, List.map_cons, List.sum_cons]
      obtain heq | hlt := (h.le_foldl (f st x) xs).eq_or_lt
      · have hempty : held (f st x) = 0 := by
          obtain ⟨hkept, -⟩ | ⟨-, hempty⟩ := h.step st x
          · omega
          · exact hempty
        refine ⟨x, List.mem_cons_self, ?_⟩
        rw [if_neg heq.ge.not_gt, h.doneSum_of_le (fun st x => h.le_step st x) heq.ge,
          h.held_of_open heq.symm, hempty]
        simp
      · obtain ⟨y, hy, hsum⟩ := ih hlt
        refine ⟨y, List.mem_cons_of_mem x hy, ?_⟩
        rw [if_pos hlt, ← hsum, add_assoc, add_assoc, add_assoc]

end Tallies

end TickToSignal.Foundation
