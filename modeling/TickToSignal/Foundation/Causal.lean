import Mathlib.Data.List.Basic
import TickToSignal.Foundation.Cuts

/-!
# Columns that do not look ahead

A column is computed from a table of rows. It is causal from `m` rows on if it
has a value for each row and if the values of the first `k` rows are the same
whether or not more rows follow. Causal columns are closed under composition,
row-wise operations, scans, shifts and moving windows.
-/

namespace TickToSignal.Foundation

variable {α β γ δ σ : Type*} {m : ℕ}

/-- A value for each row, of which later rows change nothing, once there are `m` rows. -/
structure Causal (m : ℕ) (f : List α → List β) : Prop where
  length_eq : ∀ xs, m ≤ xs.length → (f xs).length = xs.length
  take_eq : ∀ xs k, m ≤ k → k ≤ xs.length → f (xs.take k) = (f xs).take k

namespace Causal

variable {f : List α → List β} {g : List α → List γ}

theorem mono (hf : Causal m f) {n : ℕ} (hmn : m ≤ n) : Causal n f where
  length_eq xs hn := hf.length_eq xs (hmn.trans hn)
  take_eq xs k hn hk := hf.take_eq xs k (hmn.trans hn) hk

theorem map (g : α → β) : Causal m (List.map g) where
  length_eq _ _ := List.length_map g
  take_eq _ _ _ _ := List.map_take

/-- A causal column of a causal column. -/
theorem comp {g : List β → List γ} (hg : Causal m g) (hf : Causal m f) :
    Causal m fun xs => g (f xs) where
  length_eq xs hm := by
    have hlen := hf.length_eq xs hm
    exact (hg.length_eq (f xs) (hlen.symm ▸ hm)).trans hlen
  take_eq xs k hm hk := by
    have hlen := hf.length_eq xs (hm.trans hk)
    calc g (f (xs.take k)) = g ((f xs).take k) := congrArg g (hf.take_eq xs k hm hk)
      _ = (g (f xs)).take k := hg.take_eq (f xs) k hm (hlen.symm ▸ hk)

/-- Two columns of one table, row by row. -/
theorem zipWith (op : β → γ → δ) (hf : Causal m f) (hg : Causal m g) :
    Causal m fun xs => List.zipWith op (f xs) (g xs) where
  length_eq xs hm := by
    rw [List.length_zipWith, hf.length_eq xs hm, hg.length_eq xs hm, min_self]
  take_eq xs k hm hk := by
    rw [hf.take_eq xs k hm hk, hg.take_eq xs k hm hk, List.take_zipWith]

theorem zipWith_previous_take (op : α → α → β) (x : α) (xs : List α) (k : ℕ) :
    List.zipWith op (xs.take k) (x :: xs.take k) = (List.zipWith op xs (x :: xs)).take k := by
  induction k generalizing x xs with
  | zero => rfl
  | succ k ih =>
      cases xs with
      | nil => rfl
      | cons y ys => simp only [List.take_succ_cons, List.zipWith_cons_cons, ih]

/-- A row and the one before it; the first row has a value of its own. -/
theorem pairs (first : β) (op : α → α → β) :
    Causal 1 fun xs => first :: List.zipWith op xs.tail xs where
  length_eq xs h := by
    rw [List.length_cons, List.length_zipWith, List.length_tail]
    omega
  take_eq xs k h hk := by
    obtain ⟨j, rfl⟩ : ∃ j, k = j + 1 := ⟨k - 1, by omega⟩
    cases xs with
    | nil => simp
    | cons x xs =>
        simp only [List.take_succ_cons, List.tail_cons, zipWith_previous_take]

theorem scan_take (f : σ → α → σ) (s : σ) (xs : List α) (k : ℕ) :
    Foundation.scan f s (xs.take k) = (Foundation.scan f s xs).take k := by
  induction xs generalizing s k with
  | nil => simp [Foundation.scan]
  | cons x xs ih =>
      cases k with
      | zero => rfl
      | succ k =>
          simp only [List.take_succ_cons, Foundation.scan, ih]

/-- A running fold. -/
theorem scan (f : σ → α → σ) (s : σ) : Causal m (Foundation.scan f s) where
  length_eq xs _ := length_scan f s xs
  take_eq xs k _ _ := scan_take f s xs k

/-- A running fold that starts from the first row. -/
theorem scan_first (f : σ → α → σ) (start : Option α → σ) :
    Causal m fun xs => Foundation.scan f (start xs.head?) xs where
  length_eq xs _ := length_scan f _ xs
  take_eq xs k _ _ := by
    cases k with
    | zero => simp [Foundation.scan]
    | succ k =>
        rw [List.head?_take, if_neg k.succ_ne_zero]
        exact scan_take f _ xs (k + 1)

/-- What stood some rows earlier. -/
theorem shift (n : ℕ) (d : α) :
    Causal m fun xs => (List.replicate n d ++ xs).take xs.length where
  length_eq xs _ := by
    rw [List.length_take, List.length_append, List.length_replicate]
    omega
  take_eq xs k _ hk := by
    rw [List.length_take, min_eq_left hk, List.take_take, min_eq_left hk, List.take_append,
      List.take_append, List.length_replicate, List.take_take, min_eq_left (Nat.sub_le k n)]

/-- A value computed from each row and all rows before it. -/
theorem upTo (g : List α → β) :
    Causal m fun xs => (List.range xs.length).map fun i => g (xs.take (i + 1)) where
  length_eq xs _ := by rw [List.length_map, List.length_range]
  take_eq xs k _ hk := by
    rw [List.length_take, min_eq_left hk, ← List.map_take, List.take_range, min_eq_left hk]
    refine List.map_congr_left fun i hi => ?_
    have hik : i + 1 ≤ k := List.mem_range.mp hi
    rw [List.take_take, min_eq_left hik]

/-- The first `m` rows give the first `m` values, a running fold from them on the rest. -/
theorem warmup (pad : List β) (start : List α → β) (f : β → α → β) (hpad : pad.length + 1 = m) :
    Causal m fun xs =>
      pad ++ start (xs.take m) :: Foundation.scan f (start (xs.take m)) (xs.drop m) where
  length_eq xs hm := by
    rw [List.length_append, List.length_cons, length_scan, List.length_drop]
    omega
  take_eq xs k hm _ := by
    have hsplit : k - pad.length = (k - m) + 1 := by omega
    rw [List.take_take, min_eq_left hm, List.drop_take, scan_take, List.take_append, hsplit,
      List.take_succ_cons, List.take_of_length_le (by omega : pad.length ≤ k)]

end Causal

end TickToSignal.Foundation
