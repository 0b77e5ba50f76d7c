import Mathlib.Data.List.Sort
import Mathlib.Data.List.TakeWhile

/-!
# Strictly ranked lists

Facts about lists that a strict order sorts without ties: a ranked list that
leaves out only elements ranked behind all of its own is a prefix, and two
ranked lists with the same elements are equal.
-/

namespace TickToSignal.Foundation

variable {α : Type*} {r : α → α → Prop}

/-- A ranked selection that misses only elements ranked behind it is a prefix. -/
theorem ranked_prefix (hasymm : ∀ a b, r a b → ¬ r b a) {A B : List α}
    (hA : A.Pairwise r) (hB : B.Pairwise r) (hsub : ∀ a ∈ A, a ∈ B)
    (hrest : ∀ b ∈ B, b ∉ A → ∀ a ∈ A, r a b) : A <+: B := by
  induction A generalizing B with
  | nil => exact List.nil_prefix
  | cons a A ih =>
      obtain _ | ⟨b, B⟩ := B
      · exact absurd (hsub a List.mem_cons_self) List.not_mem_nil
      have hAa : ∀ x ∈ A, r a x := fun x => List.rel_of_pairwise_cons hA
      have hBb : ∀ x ∈ B, r b x := fun x => List.rel_of_pairwise_cons hB
      have hab : a = b := by
        by_contra hne
        have haB : a ∈ B := by
          rcases List.mem_cons.mp (hsub a List.mem_cons_self) with h | h
          · exact absurd h hne
          · exact h
        have hrab : r a b := by
          by_cases hb : b ∈ A
          · exact hAa b hb
          · refine hrest b List.mem_cons_self ?_ a List.mem_cons_self
            intro hmem
            rcases List.mem_cons.mp hmem with h | h
            · exact hne h.symm
            · exact hb h
        exact hasymm a b hrab (hBb a haB)
      subst hab
      refine (List.prefix_cons_inj a).mpr (ih hA.of_cons hB.of_cons ?_ ?_)
      · intro x hx
        rcases List.mem_cons.mp (hsub x (List.mem_cons_of_mem a hx)) with h | h
        · exact absurd (hAa x hx) (h ▸ fun h' => hasymm _ _ h' h')
        · exact h
      · intro y hy hyA x hx
        refine hrest y (List.mem_cons_of_mem a hy) ?_ x (List.mem_cons_of_mem a hx)
        intro hmem
        rcases List.mem_cons.mp hmem with h | h
        · exact absurd (hBb y hy) (h ▸ fun h' => hasymm _ _ h' h')
        · exact hyA h

/-- The first `n` elements are those of any prefix that has at least `n`. -/
theorem take_eq_of_prefix {A B : List α} {n : Nat} (h : A <+: B) (hn : n ≤ A.length) :
    B.take n = A.take n := by
  obtain ⟨t, rfl⟩ := h
  exact List.take_append_of_le_length hn

/-- If what passes one test stands before what passes another, a selection by either of them is
the two selections one after the other. -/
theorem filter_or_eq_append {p q : α → Bool} {l : List α}
    (hl : l.Pairwise fun a b => ¬ (q a = true ∧ p b = true))
    (hdisjoint : ∀ a ∈ l, ¬ (p a = true ∧ q a = true)) :
    (l.filter fun a => p a || q a) = l.filter p ++ l.filter q := by
  induction l with
  | nil => rfl
  | cons a l ih =>
      obtain ⟨hfirst, hrest⟩ := List.pairwise_cons.mp hl
      have htail := ih hrest fun b hb => hdisjoint b (List.mem_cons_of_mem a hb)
      cases hpa : p a with
      | true =>
          have hqa : q a = false := Bool.eq_false_iff.mpr fun hqa =>
            hdisjoint a List.mem_cons_self ⟨hpa, hqa⟩
          rw [List.filter_cons_of_pos (by simp [hpa]), List.filter_cons_of_pos hpa,
            List.filter_cons_of_neg (by simp [hqa]), htail, List.cons_append]
      | false =>
          cases hqa : q a with
          | false =>
              rw [List.filter_cons_of_neg (by simp [hpa, hqa]),
                List.filter_cons_of_neg (by simp [hpa]), List.filter_cons_of_neg (by simp [hqa]), htail]
          | true =>
              -- nothing that passes the first test comes after this element
              have hnone : l.filter p = [] := List.filter_eq_nil_iff.mpr fun b hb hpb =>
                hfirst b hb ⟨hqa, hpb⟩
              rw [List.filter_cons_of_pos (by simp [hqa]), List.filter_cons_of_neg (by simp [hpa]),
                List.filter_cons_of_pos hqa, htail, hnone, List.nil_append, List.nil_append]

/-- In a list ranked by a transitive relation, what follows a split point that
fails a downward closed test fails it too. -/
theorem dropWhile_forall_not {p : α → Bool} {l : List α} (hl : l.Pairwise r)
    (hclosed : ∀ a b, r a b → p b = true → p a = true) :
    ∀ a ∈ l.dropWhile p, p a = false := by
  induction l with
  | nil => simp
  | cons b l ih =>
      cases hb : p b with
      | true =>
          rw [List.dropWhile_cons_of_pos hb]
          exact ih hl.of_cons
      | false =>
          rw [List.dropWhile_cons_of_neg (by simp [hb])]
          intro a ha
          rcases List.mem_cons.mp ha with rfl | ha
          · exact hb
          · by_contra hpa
            have hpb := hclosed b a (List.rel_of_pairwise_cons hl ha) (by simpa using hpa)
            simp [hb] at hpb

end TickToSignal.Foundation
