import Mathlib.Data.List.Induction
import Mathlib.Order.Basic
import Mathlib.Order.Lattice

/-!
# Logs that are cut back to their newest entries

A log takes entries at its end. When it has become longer than `limit`, it is
cut back to its `keep` newest entries. So it always holds the newest part of all
that was added: all of it up to `limit` entries, and the `keep` newest at least.
-/

namespace TickToSignal.Foundation

variable {α : Type*}

/-- The last `n` entries. -/
def newest (n : Nat) (l : List α) : List α := l.drop (l.length - n)

/-- Add an entry, and cut the log back if it has become too long. -/
def pushTrim (limit keep : Nat) (log : List α) (a : α) : List α :=
  if limit < (log ++ [a]).length then newest keep (log ++ [a]) else log ++ [a]

/-- How many of `n` entries are left once they have been added. -/
def kept (limit keep : Nat) : Nat → Nat
  | 0 => 0
  | n + 1 => if limit < kept limit keep n + 1 then keep else kept limit keep n + 1

theorem length_newest {n : Nat} {l : List α} (h : n ≤ l.length) : (newest n l).length = n := by
  rw [newest, List.length_drop]
  omega

theorem newest_concat (n : Nat) (l : List α) (a : α) :
    newest (n + 1) (l ++ [a]) = newest n l ++ [a] := by
  rw [newest, newest, List.length_append, List.length_singleton, Nat.add_sub_add_right,
    List.drop_append_of_le_length (Nat.sub_le _ _)]

theorem newest_newest {m n : Nat} (h : m ≤ n) (l : List α) :
    newest m (newest n l) = newest m l := by
  rw [newest, newest, newest, List.drop_drop, List.length_drop]
  congr 1
  omega

variable {limit keep : Nat}

theorem kept_le (h : keep ≤ limit) (n : Nat) : kept limit keep n ≤ n := by
  induction n with
  | zero => exact le_rfl
  | succ n ih =>
      rw [kept]
      split_ifs <;> omega

theorem min_le_kept (n : Nat) : min keep n ≤ kept limit keep n := by
  induction n with
  | zero => exact min_le_right _ _
  | succ n ih =>
      rw [kept]
      split_ifs <;> omega

/-- Nothing is lost up to the limit. -/
theorem kept_of_le {n : Nat} (h : n ≤ limit) : kept limit keep n = n := by
  induction n with
  | zero => rfl
  | succ n ih =>
      have hn := ih (by omega)
      rw [kept, hn, if_neg (by omega)]

/-- What the log holds of all that was added. -/
theorem foldl_pushTrim (h : keep ≤ limit) (as : List α) :
    as.foldl (pushTrim limit keep) [] = newest (kept limit keep as.length) as := by
  induction as using List.reverseRecOn with
  | nil => rfl
  | append_singleton as a ih =>
      have hle : kept limit keep as.length ≤ as.length := kept_le h as.length
      have hgrown : newest (kept limit keep as.length) as ++ [a] =
          newest (kept limit keep as.length + 1) (as ++ [a]) := (newest_concat _ as a).symm
      have hlength : (newest (kept limit keep as.length) as ++ [a]).length =
          kept limit keep as.length + 1 := by
        rw [List.length_append, length_newest hle, List.length_singleton]
      rw [List.foldl_append, List.foldl_cons, List.foldl_nil, ih, pushTrim, hlength,
        List.length_append, List.length_singleton, kept]
      split_ifs with htrim
      · rw [hgrown, newest_newest (by omega)]
      · exact hgrown

/-- A selection that, once it takes an entry, takes all later ones, and that takes at most `n`,
is one among the newest `n`. -/
theorem filter_newest {p : α → Bool} {n : Nat} {l : List α}
    (hlater : l.Pairwise fun a b => p a = true → p b = true) (hn : (l.filter p).length ≤ n) :
    (newest n l).filter p = l.filter p := by
  have hsplit : l.take (l.length - n) ++ newest n l = l := List.take_append_drop _ l
  have hnone : (l.take (l.length - n)).filter p = [] := by
    refine List.filter_eq_nil_iff.mpr fun a ha hpa => ?_
    -- the entry and the `n` newest ones would all be taken
    have hlt : n < l.length := by
      have hpos := List.length_pos_of_mem ha
      rw [List.length_take] at hpos
      omega
    rw [← hsplit, List.pairwise_append] at hlater
    have hall : (newest n l).filter p = newest n l :=
      List.filter_eq_self.mpr fun b hb => hlater.2.2 a ha b hb hpa
    have hone : 0 < ((l.take (l.length - n)).filter p).length :=
      List.length_pos_of_mem (List.mem_filter.mpr ⟨ha, hpa⟩)
    rw [← hsplit, List.filter_append, List.length_append, hall, length_newest hlt.le] at hn
    omega
  calc (newest n l).filter p
      = (l.take (l.length - n)).filter p ++ (newest n l).filter p := by rw [hnone, List.nil_append]
    _ = l.filter p := by rw [← List.filter_append, hsplit]

end TickToSignal.Foundation
