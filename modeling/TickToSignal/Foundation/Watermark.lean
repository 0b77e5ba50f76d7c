import Mathlib.Data.List.Basic
import Mathlib.Order.MinMax

/-!
# Receivers with a watermark

A receiver that numbers what it takes and refuses every number at or below the
highest one taken so far. What it takes is ascending whatever arrives, and of
an ascending stream it takes exactly what lies above its watermark.
-/

namespace TickToSignal.Foundation

variable {α β : Type*} [LinearOrder β] {num : α → β} {w : β}

/-- The watermark after a list has arrived. -/
def watermark (num : α → β) (w : β) (l : List α) : β := l.foldl (fun w a => max w (num a)) w

/-- What the receiver takes of a list. -/
def admitted (num : α → β) : β → List α → List α
  | _, [] => []
  | w, a :: l => if num a ≤ w then admitted num w l else a :: admitted num (num a) l

@[simp] theorem watermark_nil (num : α → β) (w : β) : watermark num w [] = w := rfl

@[simp] theorem watermark_cons (num : α → β) (w : β) (a : α) (l : List α) :
    watermark num w (a :: l) = watermark num (max w (num a)) l := rfl

theorem watermark_append (num : α → β) (w : β) (l l' : List α) :
    watermark num w (l ++ l') = watermark num (watermark num w l) l' := by
  simp [watermark, List.foldl_append]

/-- The watermark is the least bound of the old one and of every number. -/
theorem watermark_le_iff {l : List α} {b : β} :
    watermark num w l ≤ b ↔ w ≤ b ∧ ∀ a ∈ l, num a ≤ b := by
  induction l generalizing w with
  | nil => simp
  | cons a l ih => simp [ih, and_assoc]

theorem le_watermark (l : List α) : w ≤ watermark num w l := (watermark_le_iff.mp le_rfl).1

variable (num) in
theorem num_le_watermark {l : List α} {a : α} (ha : a ∈ l) : num a ≤ watermark num w l :=
  (watermark_le_iff.mp le_rfl).2 a ha

variable (num w) in
/-- The watermark is the old one or the number of an element. -/
theorem watermark_eq_or_mem (l : List α) :
    watermark num w l = w ∨ ∃ a ∈ l, watermark num w l = num a := by
  induction l generalizing w with
  | nil => exact Or.inl rfl
  | cons a l ih =>
      simp only [watermark_cons]
      obtain h | ⟨b, hb, h⟩ := ih (w := max w (num a))
      · obtain hm | hm := max_choice w (num a)
        · exact Or.inl (h.trans hm)
        · exact Or.inr ⟨a, List.mem_cons_self, h.trans hm⟩
      · exact Or.inr ⟨b, List.mem_cons_of_mem a hb, h⟩

theorem admitted_sublist (l : List α) : (admitted num w l).Sublist l := by
  induction l generalizing w with
  | nil => simp [admitted]
  | cons a l ih =>
      simp only [admitted]
      split_ifs
      · exact ih.cons a
      · exact ih.cons_cons a

theorem admitted_append (l l' : List α) :
    admitted num w (l ++ l') = admitted num w l ++ admitted num (watermark num w l) l' := by
  induction l generalizing w with
  | nil => rfl
  | cons a l ih =>
      simp only [List.cons_append, admitted, watermark_cons]
      split_ifs with ha
      · rw [ih, max_eq_left ha]
      · rw [ih, max_eq_right (not_le.mp ha).le, List.cons_append]

/-- Of an ascending stream everything above the watermark is taken. -/
theorem admitted_eq_filter {l : List α} (hl : l.Pairwise fun a b => num a < num b) :
    admitted num w l = l.filter fun a => decide (w < num a) := by
  induction l generalizing w with
  | nil => rfl
  | cons a l ih =>
      have hlt : ∀ b ∈ l, num a < num b := fun b => List.rel_of_pairwise_cons hl
      simp only [admitted]
      split_ifs with ha
      · rw [ih hl.of_cons, List.filter_cons_of_neg (by simpa using ha)]
      · rw [ih hl.of_cons, List.filter_cons_of_pos (by simpa using ha)]
        refine congrArg (a :: ·) (List.filter_congr ?_)
        intro b hb
        simp [hlt b hb, (not_le.mp ha).trans (hlt b hb)]

/-- The same when all of the stream is above the watermark. -/
theorem admitted_eq_self {l : List α} (hl : l.Pairwise fun a b => num a < num b)
    (hw : ∀ a ∈ l, w < num a) : admitted num w l = l := by
  rw [admitted_eq_filter hl]
  exact List.filter_eq_self.mpr fun a ha => by simpa using hw a ha

/-- Once a receiver took the beginning of what a stream has above its watermark,
the rest is what the stream has above the new watermark. -/
theorem filter_watermark {l rows rest : List α} (hl : l.Pairwise fun a b => num a < num b)
    (h : (l.filter fun a => decide (w < num a)) = rows ++ rest) :
    (l.filter fun a => decide (watermark num w rows < num a)) = rest := by
  have hasc : (rows ++ rest).Pairwise fun a b => num a < num b := h ▸ hl.filter _
  have hnarrow : (l.filter fun a => decide (watermark num w rows < num a))
      = (rows ++ rest).filter fun a => decide (watermark num w rows < num a) := by
    rw [← h, List.filter_filter]
    apply List.filter_congr
    intro a _
    by_cases ha : watermark num w rows < num a
    · simp [ha, (le_watermark rows).trans_lt ha]
    · simp [ha]
  have hrows : (rows.filter fun a => decide (watermark num w rows < num a)) = [] :=
    List.filter_eq_nil_iff.mpr fun a ha => by simpa using num_le_watermark num ha
  have hrest : (rest.filter fun a => decide (watermark num w rows < num a)) = rest := by
    apply List.filter_eq_self.mpr
    intro a ha
    have hw : w < num a := by
      have hmem : a ∈ l.filter fun a => decide (w < num a) := h ▸ List.mem_append_right rows ha
      simpa using (List.mem_filter.mp hmem).2
    obtain hold | ⟨b, hb, hnew⟩ := watermark_eq_or_mem num w rows
    · simpa [hold] using hw
    · simpa [hnew] using (List.pairwise_append.mp hasc).2.2 b hb a ha
  rw [hnarrow, List.filter_append, hrows, hrest, List.nil_append]

end TickToSignal.Foundation
