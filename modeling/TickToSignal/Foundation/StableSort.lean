import Mathlib.Data.List.Sort
import Mathlib.Data.List.Nodup
import Mathlib.Data.List.Range
import Mathlib.Order.Basic

/-!
# Sorting by a key, and reordering by index

A sort by a key is stable: rows with the same key keep their order. That and
the order of the keys determine the result, so it does not matter whether a
part was sorted before. The same result is reached column by column, by the
indices of the sorted keys: as positions to read from, or inverted, as
positions to write to.
-/

namespace TickToSignal.Foundation

variable {α κ : Type*} [LinearOrder κ]

/-- The rows in the order of their keys. -/
def sortBy (key : α → κ) (xs : List α) : List α :=
  xs.insertionSort fun a b => key a ≤ key b

section SortBy

variable {key : α → κ}

theorem sortBy_perm (key : α → κ) (xs : List α) : (sortBy key xs).Perm xs :=
  List.perm_insertionSort _ _

@[simp] theorem mem_sortBy {xs : List α} {a : α} : a ∈ sortBy key xs ↔ a ∈ xs :=
  (sortBy_perm key xs).mem_iff

@[simp] theorem length_sortBy (xs : List α) : (sortBy key xs).length = xs.length :=
  (sortBy_perm key xs).length_eq

local instance transByKey (key : α → κ) : IsTrans α fun a b => key a ≤ key b := ⟨fun _ _ _ => le_trans⟩

local instance totalByKey (key : α → κ) : Std.Total fun a b => key a ≤ key b :=
  ⟨fun a b => le_total (key a) (key b)⟩

theorem sortBy_pairwise (key : α → κ) (xs : List α) :
    (sortBy key xs).Pairwise fun a b => key a ≤ key b :=
  List.pairwise_insertionSort _ xs

/-- Rows with the same key keep their order. -/
theorem filter_sortBy (key : α → κ) (xs : List α) (k : κ) :
    (sortBy key xs).filter (fun a => decide (key a = k)) =
      xs.filter fun a => decide (key a = k) := by
  have hties : (xs.filter fun a => decide (key a = k)).Pairwise fun a b =>
      key a ≤ key b := by
    apply List.pairwise_of_forall_mem_list
    intro a ha b hb
    have hka := of_decide_eq_true (List.mem_filter.mp ha).2
    have hkb := of_decide_eq_true (List.mem_filter.mp hb).2
    exact (hka.trans hkb.symm).le
  have hsub : (xs.filter fun a => decide (key a = k)).Sublist
      ((sortBy key xs).filter fun a => decide (key a = k)) := by
    have h := (List.sublist_insertionSort hties List.filter_sublist).filter fun a => decide (key a = k)
    rwa [List.filter_filter, List.filter_congr (fun _ _ => Bool.and_self _)] at h
  exact (hsub.eq_of_length ((sortBy_perm key xs).filter _).length_eq.symm).symm

/-- The order of the keys and the order within each key determine a list. -/
theorem eq_of_filter_eq {xs ys : List α} (hxs : xs.Pairwise fun a b => key a ≤ key b)
    (hys : ys.Pairwise fun a b => key a ≤ key b)
    (h : ∀ k, xs.filter (fun a => decide (key a = k)) = ys.filter fun a => decide (key a = k)) :
    xs = ys := by
  have hmem : ∀ a, a ∈ xs ↔ a ∈ ys := by
    intro a
    have ha := congrArg (a ∈ ·) (h (key a))
    simpa [List.mem_filter] using ha
  induction xs generalizing ys with
  | nil =>
      cases ys with
      | nil => rfl
      | cons b ys => exact absurd ((hmem b).mpr List.mem_cons_self) List.not_mem_nil
  | cons a xs ih =>
      cases ys with
      | nil => exact absurd ((hmem a).mp List.mem_cons_self) List.not_mem_nil
      | cons b ys =>
          have hab : key a = key b := by
            apply le_antisymm
            · rcases List.mem_cons.mp ((hmem b).mpr List.mem_cons_self) with rfl | hb
              · exact le_refl _
              · exact List.rel_of_pairwise_cons hxs hb
            · rcases List.mem_cons.mp ((hmem a).mp List.mem_cons_self) with rfl | ha
              · exact le_refl _
              · exact List.rel_of_pairwise_cons hys ha
          have hhead := h (key a)
          rw [List.filter_cons_of_pos (by simp), List.filter_cons_of_pos (by simp [hab])] at hhead
          obtain ⟨rfl, -⟩ := List.cons.inj hhead
          have htail : ∀ k, xs.filter (fun c => decide (key c = k)) =
              ys.filter fun c => decide (key c = k) := by
            intro k
            have hk := h k
            simp only [List.filter_cons] at hk
            split_ifs at hk
            · exact (List.cons.inj hk).2
            · exact hk
          congr 1
          apply ih hxs.of_cons hys.of_cons htail
          intro c
          have hc := congrArg (c ∈ ·) (htail (key c))
          simpa [List.mem_filter] using hc

/-- A list in the order of its keys stays as it is. -/
theorem sortBy_of_pairwise {xs : List α} (h : xs.Pairwise fun a b => key a ≤ key b) :
    sortBy key xs = xs :=
  eq_of_filter_eq (sortBy_pairwise key xs) h (filter_sortBy key xs)

/-- It does not matter whether the first part was sorted before. -/
theorem sortBy_append_sorted (xs ys : List α) :
    sortBy key (sortBy key xs ++ ys) = sortBy key (xs ++ ys) := by
  apply eq_of_filter_eq (sortBy_pairwise _ _) (sortBy_pairwise _ _)
  intro k
  rw [filter_sortBy, filter_sortBy, List.filter_append, List.filter_append, filter_sortBy]

end SortBy

/-! ### Indices -/

/-- The values at some positions. -/
def pick (xs : List α) (indices : List ℕ) : List α := indices.filterMap (xs[·]?)

/-- The positions of the keys in the order of the keys. -/
def iasc (keys : List κ) : List ℕ := (sortBy Prod.fst keys.zipIdx).map Prod.snd

/-- The list with each value moved to its position. -/
def scatter (indices : List ℕ) (xs : List α) : List α :=
  (indices.zip xs).foldl (fun ys p => ys.set p.1 p.2) xs

theorem iasc_perm (keys : List κ) : (iasc keys).Perm (List.range keys.length) := by
  have h := (sortBy_perm Prod.fst keys.zipIdx).map Prod.snd
  rwa [List.zipIdx_map_snd, ← List.range_eq_range'] at h

@[simp] theorem length_iasc (keys : List κ) : (iasc keys).length = keys.length := by
  rw [(iasc_perm keys).length_eq, List.length_range]

/-- To read the rows at the positions of their sorted keys is to sort them. -/
theorem pick_iasc (key : α → κ) (rows : List α) :
    pick rows (iasc (rows.map key)) = sortBy key rows := by
  let sorted := rows.zipIdx.insertionSort fun a b => key a.1 ≤ key b.1
  have hindices : iasc (rows.map key) = sorted.map Prod.snd := by
    have hmap := List.map_insertionSort (r := fun a b => key a.1 ≤ key b.1)
      (s := fun a b => a.1 ≤ b.1) (Prod.map key (id : ℕ → ℕ)) rows.zipIdx
      fun _ _ _ _ => Iff.rfl
    rw [iasc, sortBy, List.zipIdx_map, ← hmap, List.map_map]
    rfl
  have hrows : sorted.map Prod.fst = sortBy key rows := by
    have hmap := List.map_insertionSort (r := fun a b => key a.1 ≤ key b.1)
      (s := fun a b => key a ≤ key b) Prod.fst rows.zipIdx fun _ _ _ _ => Iff.rfl
    rw [List.zipIdx_map_fst] at hmap
    exact hmap
  rw [hindices, ← hrows, pick, List.filterMap_map]
  have hread : ∀ p ∈ sorted, ((rows[·]?) ∘ Prod.snd) p = some (Prod.fst p) := by
    intro p hp
    exact List.mem_zipIdx_iff_getElem?.mp ((List.mem_insertionSort _).mp hp)
  rw [List.filterMap_congr hread]
  exact congrFun List.filterMap_eq_map' sorted

theorem getElem?_pick {xs : List α} {indices : List ℕ} (h : ∀ i ∈ indices, i < xs.length)
    (j : ℕ) : (pick xs indices)[j]? = indices[j]?.bind (xs[·]?) := by
  induction indices generalizing j with
  | nil => simp [pick]
  | cons i indices ih =>
      have hi := h i List.mem_cons_self
      have hpick : pick xs (i :: indices) = xs[i] :: pick xs indices := by
        rw [pick, List.filterMap_cons, List.getElem?_eq_getElem hi]
        rfl
      rw [hpick]
      cases j with
      | zero => simp [hi]
      | succ j => simpa using ih (fun k hk => h k (List.mem_cons_of_mem _ hk)) j

theorem mem_of_mem_pick {xs : List α} {indices : List ℕ} {a : α} (h : a ∈ pick xs indices) :
    a ∈ xs := by
  obtain ⟨i, -, hi⟩ := List.mem_filterMap.mp h
  exact List.mem_of_getElem? hi

theorem length_pick {xs : List α} {p : List ℕ} (hp : p.Perm (List.range xs.length)) :
    (pick xs p).length = xs.length := by
  have hbound : ∀ i ∈ p, i < xs.length := fun i hi => List.mem_range.mp (hp.mem_iff.mp hi)
  have hlen : p.length = xs.length := by rw [hp.length_eq, List.length_range]
  apply le_antisymm
  · exact (List.length_filterMap_le _ _).trans hlen.le
  · by_contra hlt
    have hnone : (pick xs p)[(pick xs p).length]? = none := List.getElem?_eq_none le_rfl
    rw [getElem?_pick hbound] at hnone
    have hj : (pick xs p).length < p.length := by omega
    rw [List.getElem?_eq_getElem hj, Option.bind_some,
      List.getElem?_eq_getElem (hbound _ (List.getElem_mem hj))] at hnone
    exact absurd hnone (by simp)

theorem length_scatterFold (moves : List (ℕ × α)) (ys : List α) :
    (moves.foldl (fun ys p => ys.set p.1 p.2) ys).length = ys.length := by
  induction moves generalizing ys with
  | nil => rfl
  | cons p moves ih => rw [List.foldl_cons, ih, List.length_set]

theorem getElem?_scatterFold {moves : List (ℕ × α)} (hnodup : (moves.map Prod.fst).Nodup)
    (ys : List α) :
    (∀ p ∈ moves, p.1 < ys.length →
      (moves.foldl (fun ys p => ys.set p.1 p.2) ys)[p.1]? = some p.2) ∧
    ∀ i, i ∉ moves.map Prod.fst →
      (moves.foldl (fun ys p => ys.set p.1 p.2) ys)[i]? = ys[i]? := by
  induction moves generalizing ys with
  | nil => exact ⟨fun p hp => absurd hp List.not_mem_nil, fun _ _ => rfl⟩
  | cons m moves ih =>
      rw [List.map_cons, List.nodup_cons] at hnodup
      obtain ⟨hmoved, hkept⟩ := ih hnodup.2 (ys.set m.1 m.2)
      constructor
      · intro p hp hlt
        rcases List.mem_cons.mp hp with rfl | hp
        · rw [List.foldl_cons, hkept p.1 hnodup.1, List.getElem?_set_self hlt]
        · rw [List.foldl_cons]
          exact hmoved p hp (by rwa [List.length_set])
      · intro i hi
        rw [List.map_cons, List.mem_cons, not_or] at hi
        rw [List.foldl_cons, hkept i hi.2, List.getElem?_set_ne (Ne.symm hi.1)]

/-- The ranks of a permutation invert it. -/
theorem getElem?_iasc_perm {p : List ℕ} {n : ℕ} (hp : p.Perm (List.range n)) {j k : ℕ}
    (hj : p[j]? = some k) : (iasc p)[k]? = some j := by
  have hlen : p.length = n := by rw [hp.length_eq, List.length_range]
  have hnodup : p.Nodup := hp.nodup_iff.mpr List.nodup_range
  have hk : k < n := List.mem_range.mp (hp.mem_iff.mp (List.mem_of_getElem? hj))
  have hsorted : sortBy (id : ℕ → ℕ) p = List.range n := by
    apply ((sortBy_perm id p).trans hp).eq_of_pairwise' _ List.pairwise_le_range
    exact sortBy_pairwise id p
  have hbound : ∀ i ∈ iasc p, i < p.length :=
    fun i hi => List.mem_range.mp ((iasc_perm p).mem_iff.mp hi)
  have hread : (pick p (iasc p))[k]? = some k := by
    have h := pick_iasc (id : ℕ → ℕ) p
    rw [List.map_id] at h
    rw [h, hsorted, List.getElem?_range hk]
  rw [getElem?_pick hbound] at hread
  obtain ⟨i, hi, hpi⟩ := Option.bind_eq_some_iff.mp hread
  rw [hi]
  have hilt := hbound i (List.mem_of_getElem? hi)
  rw [(List.getElem?_inj hilt hnodup).mp (hpi.trans hj.symm)]

/-- To move each value to the rank of its position is to read the positions in order. -/
theorem scatter_iasc {p : List ℕ} {xs : List α} (hp : p.Perm (List.range xs.length)) :
    scatter (iasc p) xs = pick xs p := by
  have hlen : p.length = xs.length := by rw [hp.length_eq, List.length_range]
  have hbound : ∀ i ∈ p, i < xs.length := fun i hi => List.mem_range.mp (hp.mem_iff.mp hi)
  have hfst : ((iasc p).zip xs).map Prod.fst = iasc p := by
    apply List.map_fst_zip
    rw [length_iasc, hlen]
  have hnodup : (((iasc p).zip xs).map Prod.fst).Nodup := by
    rw [hfst]
    exact (iasc_perm p).nodup_iff.mpr List.nodup_range
  apply List.ext_getElem?
  intro j
  rw [getElem?_pick hbound]
  by_cases hj : j < xs.length
  · have hjp : j < p.length := hlen.symm ▸ hj
    have hk := hbound p[j] (List.getElem_mem hjp)
    have hrank := getElem?_iasc_perm hp (List.getElem?_eq_getElem hjp)
    have hmem : (j, xs[p[j]]) ∈ (iasc p).zip xs := by
      apply List.mem_of_getElem? (i := p[j])
      rw [List.getElem?_zip_eq_some]
      exact ⟨hrank, List.getElem?_eq_getElem hk⟩
    rw [scatter, (getElem?_scatterFold hnodup xs).1 _ hmem hj, List.getElem?_eq_getElem hjp,
      Option.bind_some, List.getElem?_eq_getElem hk]
  · have hnone : (scatter (iasc p) xs)[j]? = none := by
      rw [List.getElem?_eq_none_iff, scatter, length_scatterFold]
      omega
    rw [hnone, List.getElem?_eq_none (by omega), Option.bind_none]

end TickToSignal.Foundation
