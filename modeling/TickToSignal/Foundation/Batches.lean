import TickToSignal.Foundation.Machine

/-!
# Batches of writes

A write changes some of the things that can be read; what no write of a run
touches is as before, and what all of them set to one value has that value. A
job is a list of items, each a batch of writes. A crash after some number of
the writes leaves whole batches, or whole batches and a part of the next one.
-/

namespace TickToSignal.Foundation

section
variable {σ ι ρ : Type*} {step : σ → ι → σ} {read : σ → ρ} {touches : ι → Prop} {s : σ}
  {is : List ι}

variable (read touches) in
theorem exec_untouched (hkeep : ∀ s i, ¬ touches i → read (step s i) = read s)
    (h : ∀ i ∈ is, ¬ touches i) : read (exec step s is) = read s := by
  induction is generalizing s with
  | nil => rfl
  | cons i is ih =>
      calc read (exec step (step s i) is)
          = read (step s i) := ih fun j hj => h j (List.mem_cons_of_mem i hj)
        _ = read s := hkeep s i (h i List.mem_cons_self)

variable (read touches) in
/-- What the inputs of a run agree on. -/
theorem exec_touched {v : ρ} (hkeep : ∀ s i, ¬ touches i → read (step s i) = read s)
    (hset : ∀ s, ∀ i ∈ is, touches i → read (step s i) = v) (h : ∃ i ∈ is, touches i) :
    read (exec step s is) = v := by
  induction is generalizing s with
  | nil => simp at h
  | cons i is ih =>
      by_cases hlater : ∃ j ∈ is, touches j
      · exact ih (fun s j hj => hset s j (List.mem_cons_of_mem i hj)) hlater
      · have hnone : ∀ j ∈ is, ¬ touches j := fun j hj ht => hlater ⟨j, hj, ht⟩
        have hfirst : touches i := by
          obtain ⟨j, hj, ht⟩ := h
          obtain rfl | hj := List.mem_cons.mp hj
          · exact ht
          · exact absurd ht (hnone j hj)
        exact (exec_untouched read touches hkeep hnone).trans (hset s i List.mem_cons_self hfirst)

end

variable {α β : Type*} {f : α → List β} {xs : List α} {k : Nat}

/-- The first `k` writes of a job are those of its first items. -/
def BetweenItems (f : α → List β) (xs : List α) (k : Nat) : Prop :=
  ∃ done, done <+: xs ∧ k = (done.flatMap f).length

/-- The first `k` writes of a job are those of the items `done` and a part of the item `x`. -/
structure WithinItem (f : α → List β) (xs done : List α) (x : α) (rest : List α) (k j : Nat) :
    Prop where
  split : xs = done ++ x :: rest
  count : k = (done.flatMap f).length + j
  begun : 0 < j
  unfinished : j < (f x).length

theorem between_or_within (hk : k ≤ (xs.flatMap f).length) :
    BetweenItems f xs k ∨ ∃ done x rest j, WithinItem f xs done x rest k j := by
  induction xs generalizing k with
  | nil =>
      refine Or.inl ⟨[], List.prefix_refl _, ?_⟩
      simpa using hk
  | cons x xs ih =>
      rw [List.flatMap_cons, List.length_append] at hk
      by_cases hx : k < (f x).length
      · by_cases hzero : k = 0
        · exact Or.inl ⟨[], List.nil_prefix, hzero⟩
        · exact Or.inr ⟨[], x, xs, k, rfl, by simp, Nat.pos_of_ne_zero hzero, hx⟩
      · have hle : k - (f x).length ≤ (xs.flatMap f).length := by omega
        obtain ⟨done, hdone, hcount⟩ | ⟨done, y, rest, j, h⟩ := ih hle
        · refine Or.inl ⟨x :: done, (List.cons_prefix_cons).mpr ⟨rfl, hdone⟩, ?_⟩
          rw [List.flatMap_cons, List.length_append]
          omega
        · have hcount := h.count
          refine Or.inr ⟨x :: done, y, rest, j, ?_, ?_, h.begun, h.unfinished⟩
          · rw [h.split, List.cons_append]
          · rw [List.flatMap_cons, List.length_append]
            omega

theorem take_flatMap_done {done rest : List α} :
    ((done ++ rest).flatMap f).take (done.flatMap f).length = done.flatMap f := by
  rw [List.flatMap_append, List.take_left]

theorem WithinItem.take_flatMap {done rest : List α} {x : α} {j : Nat}
    (h : WithinItem f xs done x rest k j) :
    (xs.flatMap f).take k = done.flatMap f ++ (f x).take j := by
  rw [h.split, h.count, List.flatMap_append, List.flatMap_cons, List.take_length_add_append,
    List.take_append_of_le_length (Nat.le_of_lt h.unfinished)]

end TickToSignal.Foundation
