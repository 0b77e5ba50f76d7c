import TickToSignal.Foundation.Machine

/-!
# Registries of listeners

A registry says of every topic and listener which selection, if any, the
listener has made. A request names a list of topics and is worked off one after
the other; each topic's selection is replaced, and the first topic for which the
listener wants nothing that can be had ends the request and is left without one.
-/

namespace TickToSignal.Foundation

variable {τ η κ : Type*}

/-- At most one selection for each topic and listener. -/
def Registry (τ η κ : Type*) := τ → η → Option κ

namespace Registry

/-- Nobody listens. -/
def empty : Registry τ η κ := fun _ _ => none

variable [DecidableEq τ] [DecidableEq η]

/-- Replace the selection of one listener for one topic. -/
def set (r : Registry τ η κ) (t : τ) (h : η) (sel : Option κ) : Registry τ η κ :=
  fun t' h' => if t' = t ∧ h' = h then sel else r t' h'

/-- A listener is gone. -/
def leave (r : Registry τ η κ) (h : η) : Registry τ η κ :=
  fun t h' => if h' = h then none else r t h'

/-- Work off a request. -/
def grant (want : τ → Option κ) (h : η) : List τ → Registry τ η κ → Registry τ η κ
  | [], r => r
  | t :: ts, r =>
      match want t with
      | none => r.set t h none
      | some sel => grant want h ts (r.set t h (some sel))

variable {r : Registry τ η κ} {t t' : τ} {h h' : η} {sel : Option κ}

omit [DecidableEq τ] [DecidableEq η] in
@[simp] theorem empty_apply : (empty : Registry τ η κ) t h = none := rfl

@[simp] theorem set_self : r.set t h sel t h = sel := by
  simp [set]

theorem set_of_ne (hne : ¬ (t' = t ∧ h' = h)) : r.set t h sel t' h' = r t' h' := if_neg hne

omit [DecidableEq τ] in
@[simp] theorem leave_self : r.leave h t h = none := by
  simp [leave]

omit [DecidableEq τ] in
theorem leave_of_ne (hne : h' ≠ h) : r.leave h t h' = r t h' := if_neg hne

/-- A request changes the selections of its listener only. -/
theorem grant_of_ne {want : τ → Option κ} {ts : List τ} (hne : h' ≠ h) :
    grant want h ts r t h' = r t h' := by
  induction ts generalizing r with
  | nil => rfl
  | cons u ts ih =>
      have hother : ∀ sel, r.set u h sel t h' = r t h' := fun _ => set_of_ne fun heq => hne heq.2
      simp only [grant]
      cases want u with
      | none => exact hother none
      | some sel => exact ih.trans (hother _)

/-- A request changes the selections for its topics only. -/
theorem grant_of_notMem {want : τ → Option κ} {ts : List τ} (ht : t ∉ ts) :
    grant want h ts r t h' = r t h' := by
  induction ts generalizing r with
  | nil => rfl
  | cons u ts ih =>
      obtain ⟨hne, hrest⟩ := not_or.mp (mt List.mem_cons.mpr ht)
      have hother : ∀ sel, r.set u h sel t h' = r t h' := fun _ => set_of_ne fun heq => hne heq.1
      simp only [grant]
      cases want u with
      | none => exact hother none
      | some sel => exact (ih hrest).trans (hother _)

end Registry

end TickToSignal.Foundation
