import Mathlib.Algebra.Group.Int.Defs
import Mathlib.Tactic.Common

/-!
# Signed 64-bit arithmetic that reports overflow

An operation gives a word exactly when its result, computed over the integers,
is the value of one.
-/

namespace TickToSignal.Foundation.Checked

/-- The word with this value, if there is one. -/
def word (n : Int) : Option Int64 :=
  if -2 ^ 63 ≤ n ∧ n < 2 ^ 63 then some (Int64.ofInt n) else none

theorem word_eq_some_iff {n : Int} {r : Int64} : word n = some r ↔ r.toInt = n := by
  unfold word
  split
  next h =>
    have hr : (Int64.ofInt n).toInt = n := Int64.toInt_ofInt_of_le h.1 h.2
    constructor
    · rintro ⟨⟩
      exact hr
    · intro hn
      exact congrArg some (Int64.toInt.inj (hr.trans hn.symm))
  next h =>
    constructor
    · rintro ⟨⟩
    · rintro rfl
      exact absurd ⟨r.le_toInt, r.toInt_lt⟩ h

theorem exists_word_iff {n : Int} :
    (∃ r, word n = some r) ↔ -2 ^ 63 ≤ n ∧ n < 2 ^ 63 := by
  constructor
  · rintro ⟨r, hr⟩
    rw [← word_eq_some_iff.1 hr]
    exact ⟨r.le_toInt, r.toInt_lt⟩
  · intro h
    exact ⟨Int64.ofInt n, word_eq_some_iff.2 (Int64.toInt_ofInt_of_le h.1 h.2)⟩

def mul (a b : Int64) : Option Int64 := word (a.toInt * b.toInt)

def sub (a b : Int64) : Option Int64 := word (a.toInt - b.toInt)

/-- The quotient towards zero. -/
def div (a b : Int64) : Option Int64 :=
  if b = 0 then none else word (a.toInt.tdiv b.toInt)

theorem mul_eq_some_iff {a b r : Int64} : mul a b = some r ↔ r.toInt = a.toInt * b.toInt :=
  word_eq_some_iff

theorem sub_eq_some_iff {a b r : Int64} : sub a b = some r ↔ r.toInt = a.toInt - b.toInt :=
  word_eq_some_iff

theorem div_eq_some_iff {a b r : Int64} (hb : b ≠ 0) :
    div a b = some r ↔ r.toInt = a.toInt.tdiv b.toInt := by
  rw [div, if_neg hb]
  exact word_eq_some_iff

/-- Dividing by a positive word does not overflow. -/
theorem exists_div {a b : Int64} (hb : 0 < b.toInt) :
    ∃ r, div a b = some r ∧ r.toInt = a.toInt.tdiv b.toInt := by
  have hne : b ≠ 0 := by
    rintro rfl
    exact absurd hb (by decide)
  have habs : (a.toInt.tdiv b.toInt).natAbs ≤ a.toInt.natAbs := Int.natAbs_tdiv_le_natAbs _ _
  have hlow : -2 ^ 63 ≤ a.toInt := a.le_toInt
  have hhigh : a.toInt < 2 ^ 63 := a.toInt_lt
  have hsign : a.toInt < 0 → a.toInt.tdiv b.toInt ≤ 0 := by
    intro ha
    have hneg : 0 ≤ (-a.toInt).tdiv b.toInt := Int.tdiv_nonneg (by omega) (by omega)
    rw [Int.neg_tdiv] at hneg
    omega
  obtain ⟨r, hr⟩ := exists_word_iff.2
    (show -2 ^ 63 ≤ a.toInt.tdiv b.toInt ∧ a.toInt.tdiv b.toInt < 2 ^ 63 by omega)
  exact ⟨r, (div_eq_some_iff hne).2 (word_eq_some_iff.1 hr), word_eq_some_iff.1 hr⟩

end TickToSignal.Foundation.Checked
