import TickToSignal.Foundation.Cuts
import Mathlib.Data.List.Range

/-!
# Counters that climb one at a time

The counter of a scan that goes up by at most one with each element takes every
value on its way. Elements grouped by such a counter give groups with
consecutive numbers: all of them up to the last value if an element is numbered
before its step, and all but perhaps the first if it is numbered after it.
-/

namespace TickToSignal.Foundation

variable {α σ : Type*}

/-! ## Numbers of groups -/

theorem exists_mem_rowsOf_zip {k : Nat} {nums : List Nat} {xs : List α}
    (hlen : nums.length ≤ xs.length) (hk : k ∈ nums) : rowsOf k (nums.zip xs) ≠ [] := by
  obtain ⟨i, hi, rfl⟩ := List.getElem_of_mem hk
  have hpair : (nums[i], xs[i]) ∈ nums.zip xs := by
    rw [← List.getElem_zip (h := by rw [List.length_zip]; omega)]
    exact List.getElem_mem _
  exact List.ne_nil_of_mem (mem_rowsOf.mpr hpair)

theorem mem_keys_groupsIn {lo hi k : Nat} {l : List (Nat × α)} :
    k ∈ (groupsIn lo hi l).map Prod.fst ↔ (k < hi ∧ k ≥ lo) ∧ rowsOf k l ≠ [] := by
  rw [List.mem_map]
  constructor
  · rintro ⟨⟨_, g⟩, hg, rfl⟩
    obtain ⟨hin, rfl, hne⟩ := mem_groupsIn.mp hg
    exact ⟨hin, hne⟩
  · rintro ⟨hin, hne⟩
    exact ⟨(k, rowsOf k l), mem_groupsIn.mpr ⟨hin, rfl, hne⟩, rfl⟩

theorem keys_byNumber_sorted (l : List (Nat × α)) :
    ((byNumber l).map Prod.fst).Pairwise (· < ·) := by
  have hkeys : (byNumber l).map Prod.fst = (l.map Prod.fst).dedup.mergeSort (· ≤ ·) := by
    simp [byNumber, Function.comp_def]
  have hnodup : ((l.map Prod.fst).dedup.mergeSort (· ≤ ·)).Nodup :=
    (List.mergeSort_perm _ _).nodup_iff.mpr (List.nodup_dedup _)
  have hsorted : ((l.map Prod.fst).dedup.mergeSort (· ≤ ·)).Pairwise (· ≤ ·) :=
    List.pairwise_mergeSort' _ _
  rw [hkeys]
  exact (hsorted.and hnodup).imp fun h => lt_of_le_of_ne h.1 h.2

/-- Groups with all numbers from `first` on are numbered consecutively. -/
theorem keys_groupsIn {lo first hi : Nat} {l : List (Nat × α)}
    (hiff : ∀ k, (k < hi ∧ k ≥ lo) ∧ rowsOf k l ≠ [] ↔ first ≤ k ∧ k < hi) :
    (groupsIn lo hi l).map Prod.fst = List.range' first (hi - first) := by
  have hsorted : ((groupsIn lo hi l).map Prod.fst).Pairwise (· < ·) := keys_byNumber_sorted _
  have hrange : (List.range' first (hi - first)).Pairwise (· < ·) := List.pairwise_lt_range'
  have hperm : ((groupsIn lo hi l).map Prod.fst).Perm (List.range' first (hi - first)) := by
    refine (List.perm_ext_iff_of_nodup (hsorted.imp Nat.ne_of_lt) (hrange.imp Nat.ne_of_lt)).mpr
      fun k => ?_
    rw [mem_keys_groupsIn, hiff, List.mem_range'_1]
    omega
  exact hperm.eq_of_pairwise (fun a b _ _ hab hba => absurd hba (Nat.lt_asymm hab)) hsorted hrange

/-! ## Climbing -/

/-- The counter goes up by at most one with an element. -/
def Climbs (f : σ → α → σ) (number : σ → Nat) : Prop :=
  ∀ st x, number (f st x) = number st ∨ number (f st x) = number st + 1

namespace Climbs

variable {f : σ → α → σ} {number out : σ → Nat} {st : σ} {xs : List α} {k : Nat}

theorem le_last (h : Climbs f number) (st : σ) (xs : List α) :
    number st ≤ number ((scan f st xs).getLastD st) := by
  induction xs generalizing st with
  | nil => exact le_rfl
  | cons x xs ih =>
      rw [scan, List.getLastD_cons]
      have hlast := ih (f st x)
      have hstep := h st x
      omega

/-- Numbered after its step: every value past the first one is that of an element. -/
theorem mem_after (h : Climbs f number) (hlo : number st < k)
    (hhi : k ≤ number ((scan f st xs).getLastD st)) : k ∈ (scan f st xs).map number := by
  induction xs generalizing st with
  | nil => exact absurd hhi (Nat.not_le.mpr hlo)
  | cons x xs ih =>
      rw [scan, List.getLastD_cons] at hhi
      rw [scan, List.map_cons, List.mem_cons]
      have hstep := h st x
      obtain heq | hlt : k = number (f st x) ∨ number (f st x) < k := by omega
      · exact .inl heq
      · exact .inr (ih hlt hhi)

/-- Numbered before its step: every value short of the last one is. -/
theorem mem_before (h : Climbs f number) (hout : ∀ st x, out (f st x) = number st)
    (hlo : number st ≤ k) (hhi : k < number ((scan f st xs).getLastD st)) :
    k ∈ (scan f st xs).map out := by
  induction xs generalizing st with
  | nil => exact absurd hhi (Nat.not_lt.mpr hlo)
  | cons x xs ih =>
      rw [scan, List.getLastD_cons] at hhi
      rw [scan, List.map_cons, List.mem_cons, hout]
      have hstep := h st x
      obtain heq | hle : k = number st ∨ number (f st x) ≤ k := by omega
      · exact .inl heq
      · exact .inr (ih hle hhi)

end Climbs

end TickToSignal.Foundation
