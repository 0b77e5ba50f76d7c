import Mathlib.Algebra.Order.Group.Int
import Mathlib.Data.List.Perm.Basic
import Mathlib.Data.List.Sort
import Mathlib.Data.List.Pairwise
import Mathlib.Order.Lattice

/-!
# Catching up with an ascending history

A history is read a window at a time. Every first part of a window is a window
itself, adjacent windows join, and a copy that merges what it is told, the last
record of a key counting, holds the union. So a copy that starts each time at or
below the last record it has never has a hole.
-/

namespace TickToSignal.Foundation

variable {α κ : Type*}

section Ascending
variable [LinearOrder κ] {key : α → κ}

/-- In ascending order of their keys, no two of which are equal. -/
def Ascending (key : α → κ) (l : List α) : Prop := l.Pairwise fun r r' => key r < key r'

variable {l l' : List α}

theorem Ascending.nodup (hl : Ascending key l) : l.Nodup := by
  refine List.Pairwise.imp (fun {r r'} hlt heq => ?_) hl
  exact absurd (congrArg key heq) hlt.ne

/-- An ascending list is known by its elements. -/
theorem Ascending.ext (hl : Ascending key l) (hl' : Ascending key l')
    (hmem : ∀ r, r ∈ l ↔ r ∈ l') : l = l' := by
  have hperm : l.Perm l' := (List.perm_ext_iff_of_nodup hl.nodup hl'.nodup).mpr hmem
  refine hperm.eq_of_pairwise (fun r r' _ _ hlt hgt => ?_) hl hl'
  exact absurd hgt hlt.asymm

/-- An element of an ascending list is known by its key. -/
theorem Ascending.eq_of_key_eq (hl : Ascending key l) {r r' : α} (hr : r ∈ l) (hr' : r' ∈ l)
    (heq : key r = key r') : r = r' := by
  have hkeys : (l.map key).Nodup := by
    refine List.pairwise_map.mpr (List.Pairwise.imp (fun hlt => ?_) hl)
    exact hlt.ne
  exact List.inj_on_of_nodup_map hkeys hr hr' heq

theorem Ascending.filter (hl : Ascending key l) (p : α → Bool) : Ascending key (l.filter p) :=
  List.Pairwise.filter p hl

theorem Ascending.initial (hl : Ascending key l') (hp : l <+: l') : Ascending key l :=
  List.Pairwise.sublist hp.sublist hl

/-- The part before an element of an ascending list is what lies below it. -/
theorem Ascending.mem_initial (hl : Ascending key l') {q rest : List α} {r s : α}
    (hsplit : q ++ r :: rest = l') : s ∈ q ++ [r] ↔ s ∈ l' ∧ key s ≤ key r := by
  subst hsplit
  obtain ⟨-, hright, hcross⟩ := List.pairwise_append.mp hl
  constructor
  · intro hs
    rcases List.mem_append.mp hs with hs | hs
    · exact ⟨List.mem_append_left _ hs, (hcross s hs r List.mem_cons_self).le⟩
    · obtain rfl := List.mem_singleton.mp hs
      exact ⟨by simp, le_rfl⟩
  · rintro ⟨hs, hle⟩
    rcases List.mem_append.mp hs with hs | hs
    · exact List.mem_append_left _ hs
    · rcases List.mem_cons.mp hs with rfl | hs
      · simp
      · exact absurd ((List.pairwise_cons.mp hright).1 s hs) hle.not_gt

/-- What lies below a bound is the first part of an ascending list. -/
theorem Ascending.filter_le_initial (hl : Ascending key l) (b : κ) :
    (l.filter fun r => key r ≤ b) <+: l := by
  induction l with
  | nil => exact List.prefix_rfl
  | cons r l ih =>
      obtain ⟨hr, hrest⟩ := List.pairwise_cons.mp hl
      by_cases hle : key r ≤ b
      · rw [List.filter_cons_of_pos (by simpa using hle)]
        exact (List.prefix_cons_inj r).mpr (ih hrest)
      · have hnone : (l.filter fun r => key r ≤ b) = [] := by
          refine List.filter_eq_nil_iff.mpr fun s hs hin => ?_
          exact hle ((hr s hs).le.trans (of_decide_eq_true hin))
        rw [List.filter_cons_of_neg (by simpa using hle), hnone]
        exact List.nil_prefix

end Ascending

/-! ## Windows -/

section Window
variable {key : α → ℤ} {src : List α} {a b c : ℤ}

variable (key src a b) in
/-- The records of a closed interval. -/
def window : List α := src.filter fun r => a ≤ key r ∧ key r ≤ b

theorem mem_window {r : α} : r ∈ window key src a b ↔ r ∈ src ∧ a ≤ key r ∧ key r ≤ b := by
  rw [window, List.mem_filter, decide_eq_true_eq]

theorem window_ascending (hsrc : Ascending key src) : Ascending key (window key src a b) :=
  hsrc.filter _

theorem window_eq_nil (h : b < a) : window key src a b = [] := by
  refine List.eq_nil_iff_forall_not_mem.mpr fun r hr => ?_
  obtain ⟨-, ha, hb⟩ := mem_window.mp hr
  omega

/-- A first part of a window is a window, up to its last record. -/
theorem eq_window_of_prefix (hsrc : Ascending key src) {p : List α} {r : α}
    (hp : p <+: window key src a b) (hr : p.getLast? = some r) :
    p = window key src a (key r) ∧ r ∈ src ∧ a ≤ key r ∧ key r ≤ b := by
  obtain ⟨q, rfl⟩ := List.getLast?_eq_some_iff.mp hr
  obtain ⟨rest, hrest⟩ := hp
  have hsplit : q ++ r :: rest = window key src a b := by simpa using hrest
  have hin : r ∈ window key src a b := hsplit ▸ by simp
  obtain ⟨hmem, ha, hb⟩ := mem_window.mp hin
  have hasc : Ascending key (q ++ [r]) :=
    (window_ascending hsrc).initial ⟨rest, hrest⟩
  refine ⟨hasc.ext (window_ascending hsrc) fun s => ?_, hmem, ha, hb⟩
  rw [(window_ascending hsrc).mem_initial hsplit, mem_window, mem_window]
  constructor
  · rintro ⟨⟨hs, hlow, -⟩, hle⟩
    exact ⟨hs, hlow, hle⟩
  · rintro ⟨hs, hlow, hle⟩
    exact ⟨⟨hs, hlow, hle.trans hb⟩, hle⟩

/-- Adjacent windows join. -/
theorem window_append (hsrc : Ascending key src) (hac : a ≤ c + 1) (hcb : c ≤ b) :
    window key src a c ++ window key src (c + 1) b = window key src a b := by
  have hasc : Ascending key (window key src a c ++ window key src (c + 1) b) := by
    refine List.pairwise_append.mpr ⟨window_ascending hsrc, window_ascending hsrc, ?_⟩
    intro r hr r' hr'
    have hlow := (mem_window.mp hr).2.2
    have hhigh := (mem_window.mp hr').2.1
    omega
  refine hasc.ext (window_ascending hsrc) fun r => ?_
  rw [List.mem_append, mem_window, mem_window, mem_window]
  constructor
  · rintro (⟨hr, hlow, hhigh⟩ | ⟨hr, hlow, hhigh⟩)
    · exact ⟨hr, hlow, by omega⟩
    · exact ⟨hr, by omega, hhigh⟩
  · rintro ⟨hr, hlow, hhigh⟩
    rcases le_or_gt (key r) c with hle | hgt
    · exact .inl ⟨hr, hlow, hle⟩
    · exact .inr ⟨hr, by omega, hhigh⟩

/-- What a longer history adds lies behind all that was there. -/
theorem window_initial {src' : List α} (hpre : src' <+: src) :
    window key src' a b <+: window key src a b := hpre.filter _

end Window

/-! ## Merging, the last record of a key counting -/

section KeepLast
variable [DecidableEq κ] {key : α → κ} {l l' : List α} {r : α}

/-- The last record of each key. -/
def keepLast (key : α → κ) (l : List α) : List α := l.pwFilter fun r r' => key r ≠ key r'

theorem keepLast_distinct : (keepLast key l).Pairwise fun r r' => key r ≠ key r' :=
  List.pairwise_pwFilter l

theorem keepLast_eq_self (hl : l.Pairwise fun r r' => key r ≠ key r') : keepLast key l = l :=
  List.pwFilter_eq_self.mpr hl

variable (key) in
/-- Every key is kept. -/
theorem exists_mem_keepLast (hr : r ∈ l) : ∃ r' ∈ keepLast key l, key r' = key r := by
  by_contra hnone
  have hnone : ∀ b ∈ keepLast key l, key b ≠ key r := by simpa using hnone
  have hall : ∀ b ∈ l, key r ≠ key b := by
    refine (List.forall_mem_pwFilter (R := fun r r' => key r ≠ key r') ?_ r l).mp ?_
    · intro x y z hxz
      by_cases hxy : key x = key y
      · exact .inr fun hyz => hxz (hxy.trans hyz)
      · exact .inl hxy
    · exact fun b hb heq => hnone b hb heq.symm
  exact hall r hr rfl

theorem mem_of_mem_keepLast (hr : r ∈ keepLast key l) : r ∈ l := List.pwFilter_subset l hr

/-- Of two lists, the second counts where both have a key. -/
theorem mem_keepLast_append (hl : l.Pairwise fun r r' => key r ≠ key r')
    (hl' : l'.Pairwise fun r r' => key r ≠ key r') :
    r ∈ keepLast key (l ++ l') ↔ r ∈ l' ∨ r ∈ l ∧ ∀ r' ∈ l', key r ≠ key r' := by
  induction l with
  | nil =>
      rw [List.nil_append, keepLast_eq_self hl']
      simp
  | cons s l ih =>
      obtain ⟨hs, hrest⟩ := List.pairwise_cons.mp hl
      have ih := ih hrest
      have hkept : (∀ b ∈ keepLast key (l ++ l'), key s ≠ key b) ↔ ∀ b ∈ l', key s ≠ key b := by
        constructor
        · intro h b hb heq
          obtain ⟨b', hb', hbb⟩ := exists_mem_keepLast key (List.mem_append_right l hb)
          exact h b' hb' (heq.trans hbb.symm)
        · intro h b hb
          rcases List.mem_append.mp (mem_of_mem_keepLast hb) with hbl | hbl
          · exact hs b hbl
          · exact h b hbl
      rw [List.cons_append, keepLast]
      by_cases hnew : ∀ b ∈ l', key s ≠ key b
      · rw [List.pwFilter_cons_of_pos (hkept.mpr hnew), List.mem_cons, ← keepLast, ih,
          List.mem_cons]
        constructor
        · rintro (rfl | h | h)
          · exact .inr ⟨.inl rfl, hnew⟩
          · exact .inl h
          · exact .inr ⟨.inr h.1, h.2⟩
        · rintro (h | ⟨rfl | h, hn⟩)
          · exact .inr (.inl h)
          · exact .inl rfl
          · exact .inr (.inr ⟨h, hn⟩)
      · rw [List.pwFilter_cons_of_neg fun h => hnew (hkept.mp h), ← keepLast, ih, List.mem_cons]
        constructor
        · rintro (h | h)
          · exact .inl h
          · exact .inr ⟨.inr h.1, h.2⟩
        · rintro (h | ⟨rfl | h, hn⟩)
          · exact .inl h
          · exact absurd hn hnew
          · exact .inr ⟨h, hn⟩

end KeepLast

end TickToSignal.Foundation
