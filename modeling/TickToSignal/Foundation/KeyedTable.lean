import Mathlib.Algebra.BigOperators.Group.List.Basic
import Mathlib.Algebra.BigOperators.Group.Finset.Basic
import Mathlib.Algebra.Group.Basic
import Mathlib.Tactic.Abel

/-!
# Keyed tables

A table with one row per key. An upsert replaces the row of a key it has and
appends a row for one it has not, so rows keep the order in which their keys
were first seen. Sums over the rows change by the difference of the two rows.
-/

namespace TickToSignal.Foundation

variable {κ α β : Type*}

/-- Rows in the order of their keys' arrival, one for each key. -/
structure KeyedTable (κ α : Type*) where
  rows : List (κ × α)
  nodup : (rows.map Prod.fst).Nodup

namespace KeyedTable

instance : Inhabited (KeyedTable κ α) := ⟨{ rows := [], nodup := List.nodup_nil }⟩

def empty : KeyedTable κ α := default

section Rows
variable [DecidableEq κ] {k j : κ} {v : α} {rs : List (κ × α)}

/-- Replace the row of a key, or append one. -/
def upsertRow (k : κ) (v : α) : List (κ × α) → List (κ × α)
  | [] => [(k, v)]
  | (i, w) :: rs => if i = k then (k, v) :: rs else (i, w) :: upsertRow k v rs

theorem keys_upsertRow_of_mem (h : k ∈ rs.map Prod.fst) :
    (upsertRow k v rs).map Prod.fst = rs.map Prod.fst := by
  induction rs with
  | nil => simp at h
  | cons r rs ih =>
      obtain ⟨i, w⟩ := r
      simp only [upsertRow]
      split_ifs with hk
      · simp [hk]
      · have hrest : k ∈ rs.map Prod.fst := by
          rcases List.mem_cons.mp h with rfl | h
          · exact absurd rfl hk
          · exact h
        simp [ih hrest]

theorem upsertRow_of_notMem (h : k ∉ rs.map Prod.fst) : upsertRow k v rs = rs ++ [(k, v)] := by
  induction rs with
  | nil => rfl
  | cons r rs ih =>
      obtain ⟨i, w⟩ := r
      obtain ⟨hne, hrest⟩ := not_or.mp (mt List.mem_cons.mpr h)
      have hik : ¬ i = k := fun heq => hne heq.symm
      simp only [upsertRow, if_neg hik, ih hrest, List.cons_append]

theorem nodup_upsertRow (h : (rs.map Prod.fst).Nodup) : ((upsertRow k v rs).map Prod.fst).Nodup := by
  by_cases hk : k ∈ rs.map Prod.fst
  · rw [keys_upsertRow_of_mem hk]
    exact h
  · rw [upsertRow_of_notMem hk, List.map_append]
    refine List.nodup_append.mpr ⟨h, by simp, ?_⟩
    rintro a ha b hb rfl
    obtain rfl : a = k := by simpa using hb
    exact hk ha

theorem lookup_upsertRow_self : (upsertRow k v rs).lookup k = some v := by
  induction rs with
  | nil => simp [upsertRow]
  | cons r rs ih =>
      obtain ⟨i, w⟩ := r
      simp only [upsertRow]
      split_ifs with hk
      · simp
      · simp [List.lookup_cons, ih, beq_eq_false_iff_ne.mpr (Ne.symm hk)]

theorem lookup_upsertRow_of_ne (h : j ≠ k) : (upsertRow k v rs).lookup j = rs.lookup j := by
  induction rs with
  | nil => simp [upsertRow, List.lookup_cons, beq_eq_false_iff_ne.mpr h]
  | cons r rs ih =>
      obtain ⟨i, w⟩ := r
      simp only [upsertRow]
      split_ifs with hk
      · subst hk
        simp [List.lookup_cons, beq_eq_false_iff_ne.mpr h]
      · simp [List.lookup_cons, ih]

/-- A row of a table without repeated keys is what its key looks up. -/
theorem lookup_of_mem (hnodup : (rs.map Prod.fst).Nodup) (h : (k, v) ∈ rs) :
    rs.lookup k = some v := by
  induction rs with
  | nil => simp at h
  | cons r rs ih =>
      obtain ⟨i, w⟩ := r
      obtain ⟨hfirst, hrest⟩ := List.nodup_cons.mp hnodup
      rcases List.mem_cons.mp h with heq | hin
      · obtain ⟨rfl, rfl⟩ := Prod.mk.inj heq
        simp
      · have hne : k ≠ i := by
          rintro rfl
          exact hfirst (List.mem_map.mpr ⟨(k, v), hin, rfl⟩)
        simp [List.lookup_cons, beq_eq_false_iff_ne.mpr hne, ih hrest hin]

theorem mem_of_lookup (h : rs.lookup k = some v) : (k, v) ∈ rs := by
  induction rs with
  | nil => simp at h
  | cons r rs ih =>
      obtain ⟨i, w⟩ := r
      by_cases hk : k = i
      · subst hk
        obtain rfl : w = v := by simpa using h
        exact List.mem_cons_self
      · rw [List.lookup_cons, beq_eq_false_iff_ne.mpr hk] at h
        exact List.mem_cons_of_mem _ (ih h)

/-- A sum over the rows loses the replaced row's term and gains the new one's. -/
theorem sum_upsertRow [AddCommGroup β] (f : α → β) :
    ((upsertRow k v rs).map fun r => f r.2).sum =
      (rs.map fun r => f r.2).sum - (rs.lookup k).elim 0 f + f v := by
  induction rs with
  | nil => simp [upsertRow]
  | cons r rs ih =>
      obtain ⟨i, w⟩ := r
      simp only [upsertRow]
      split_ifs with hk
      · subst hk
        simp [add_comm]
      · have hne : (k == i) = false := beq_eq_false_iff_ne.mpr (Ne.symm hk)
        simp only [List.map_cons, List.sum_cons, List.lookup_cons, hne, ih]
        abel

end Rows

variable [DecidableEq κ]

/-- The row of a key. -/
def lookup (t : KeyedTable κ α) (k : κ) : Option α := t.rows.lookup k

/-- Replace the row of a key, or add one. -/
def upsert (t : KeyedTable κ α) (k : κ) (v : α) : KeyedTable κ α :=
  { rows := upsertRow k v t.rows, nodup := nodup_upsertRow t.nodup }

def keys (t : KeyedTable κ α) : List κ := t.rows.map Prod.fst

/-- Remove the row of a key, if there is one. -/
def erase (t : KeyedTable κ α) (k : κ) : KeyedTable κ α :=
  { rows := t.rows.filter fun r => r.1 ≠ k
    nodup := t.nodup.sublist (List.filter_sublist.map Prod.fst) }

/-- The sum of one column, or of anything computed from a row. -/
def sumBy [AddMonoid β] (t : KeyedTable κ α) (f : α → β) : β := (t.rows.map fun r => f r.2).sum

variable (t : KeyedTable κ α) (k : κ) (v : α)

variable {t k v} in
theorem mem_rows_of_lookup (h : t.lookup k = some v) : (k, v) ∈ t.rows := mem_of_lookup h

variable {t k v} in
theorem mem_keys_of_lookup (h : t.lookup k = some v) : k ∈ t.keys :=
  List.mem_map.mpr ⟨(k, v), mem_of_lookup h, rfl⟩

@[simp] theorem lookup_empty : (empty : KeyedTable κ α).lookup k = none := rfl

@[simp] theorem lookup_upsert_self : (t.upsert k v).lookup k = some v := lookup_upsertRow_self

theorem lookup_upsert_of_ne {k j : κ} (h : j ≠ k) : (t.upsert k v).lookup j = t.lookup j :=
  lookup_upsertRow_of_ne h

variable {k} in
/-- Removing a key takes its row away and no other. -/
theorem mem_rows_erase {j : κ} : (j, v) ∈ (t.erase k).rows ↔ j ≠ k ∧ (j, v) ∈ t.rows := by
  simp [erase, and_comm]

variable {t k v} in
theorem lookup_of_mem_rows (h : (k, v) ∈ t.rows) : t.lookup k = some v :=
  lookup_of_mem t.nodup h

variable {t k v} in
theorem lookup_eq_some_iff : t.lookup k = some v ↔ (k, v) ∈ t.rows :=
  ⟨mem_rows_of_lookup, lookup_of_mem_rows⟩

@[simp] theorem lookup_erase_self : (t.erase k).lookup k = none := by
  refine Option.eq_none_iff_forall_ne_some.mpr fun v hrow => ?_
  exact ((t.mem_rows_erase v).mp (mem_rows_of_lookup hrow)).1 rfl

variable {k} in
theorem lookup_erase_of_ne {j : κ} (h : j ≠ k) : (t.erase k).lookup j = t.lookup j := by
  refine Option.ext fun v => ?_
  rw [lookup_eq_some_iff, lookup_eq_some_iff, mem_rows_erase]
  exact and_iff_right h

omit [DecidableEq κ] in
@[simp] theorem sumBy_empty [AddMonoid β] (f : α → β) :
    (empty : KeyedTable κ α).sumBy f = 0 := rfl

omit [DecidableEq κ] in
theorem sumBy_add [AddCommMonoid β] (f g : α → β) :
    t.sumBy (fun a => f a + g a) = t.sumBy f + t.sumBy g := by
  simp [sumBy, List.sum_map_add]

omit [DecidableEq κ] in
variable {t} in
theorem sumBy_congr [AddMonoid β] {f g : α → β} (h : ∀ a, f a = g a) : t.sumBy f = t.sumBy g := by
  simp [sumBy, h]

theorem sumBy_upsert [AddCommGroup β] (f : α → β) :
    (t.upsert k v).sumBy f = t.sumBy f - (t.lookup k).elim 0 f + f v :=
  sum_upsertRow f

omit [DecidableEq κ] in
theorem nodup_keys : t.keys.Nodup := t.nodup

theorem toFinset_keys_upsert : (t.upsert k v).keys.toFinset = insert k t.keys.toFinset := by
  by_cases hk : k ∈ t.keys
  · have hsame : (t.upsert k v).keys = t.keys := keys_upsertRow_of_mem hk
    rw [hsame, Finset.insert_eq_of_mem (List.mem_toFinset.mpr hk)]
  · have hlast : (t.upsert k v).keys = t.keys ++ [k] := by
      simp [keys, upsert, upsertRow_of_notMem hk]
    ext j
    simp [hlast]

/-- A sum over the rows is a sum over the keys of what they look up. -/
theorem sumBy_eq_sum_keys [AddCommMonoid β] (f : α → β) :
    t.sumBy f = ∑ j ∈ t.keys.toFinset, (t.lookup j).elim 0 f := by
  rw [List.sum_toFinset _ t.nodup_keys, keys, List.map_map, sumBy]
  refine congrArg List.sum (List.map_congr_left fun r hr => ?_)
  have hrow : t.lookup r.1 = some r.2 := lookup_of_mem_rows hr
  simp [hrow]

end KeyedTable

end TickToSignal.Foundation
