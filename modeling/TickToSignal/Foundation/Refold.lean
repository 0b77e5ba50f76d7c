import Mathlib.Data.List.Induction

/-!
# Folding over something twice

A state that is rebuilt from a snapshot and a log may fold over entries the
snapshot already contains. That is harmless when doing an entry again makes the
earlier time redundant, whatever came in between.
-/

namespace TickToSignal.Foundation

variable {σ ι : Type*} {f : σ → ι → σ}

/-- Only the last time an entry is folded over counts. -/
structure LastCounts (f : σ → ι → σ) : Prop where
  twice : ∀ s i, f (f s i) i = f s i
  between : ∀ s i j, f (f (f s i) j) i = f (f s j) i

namespace LastCounts

theorem foldl_between (h : LastCounts f) (s : σ) (i : ι) (l : List ι) :
    f (l.foldl f (f s i)) i = f (l.foldl f s) i := by
  induction l generalizing s with
  | nil => exact h.twice s i
  | cons j l ih =>
      calc
        f (l.foldl f (f (f s i) j)) i = f (l.foldl f (f (f (f s i) j) i)) i := (ih _).symm
        _ = f (l.foldl f (f (f s j) i)) i := by rw [h.between]
        _ = f (l.foldl f (f s j)) i := ih _

/-- Folding over a list again changes nothing. -/
theorem refold (h : LastCounts f) (s : σ) (l : List ι) :
    l.foldl f (l.foldl f s) = l.foldl f s := by
  induction l using List.reverseRecOn generalizing s with
  | nil => rfl
  | append_singleton l i ih =>
      simp only [List.foldl_append, List.foldl_cons, List.foldl_nil]
      rw [h.foldl_between, ih]

/-- A snapshot taken after `a ++ b`, and a log that holds `b` and what came after. -/
theorem refold_overlap (h : LastCounts f) (s : σ) (a b c : List ι) :
    (b ++ c).foldl f ((a ++ b).foldl f s) = (a ++ b ++ c).foldl f s := by
  simp only [List.foldl_append]
  rw [h.refold]

end LastCounts

end TickToSignal.Foundation
