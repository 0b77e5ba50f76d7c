import Mathlib.Data.List.Dedup
import Mathlib.Data.List.Sort

/-!
# Cutting a sequence into pieces

A piece ends at the first element with which it reaches its mark; the mark of
the next piece may depend on the piece. A scan that follows the open piece can
number an element by the piece it falls into, or by the piece that is open
after it; grouping by the first gives the pieces, grouping by the second moves
the last element of every piece into the next group.
-/

namespace TickToSignal.Foundation

variable {α β σ P : Type*}

/-- The states of a fold after each element. -/
def scan (f : σ → α → σ) (s : σ) : List α → List σ
  | [] => []
  | x :: xs => f s x :: scan f (f s x) xs

@[simp] theorem length_scan (f : σ → α → σ) (s : σ) (xs : List α) :
    (scan f s xs).length = xs.length := by
  induction xs generalizing s with
  | nil => rfl
  | cons x xs ih => simp [scan, ih]

theorem scan_map (f : σ → β → σ) (g : α → β) (s : σ) (xs : List α) :
    scan f s (xs.map g) = scan (fun s x => f s (g x)) s xs := by
  induction xs generalizing s with
  | nil => rfl
  | cons x xs ih => simp [scan, ih]

/-! ## Grouping numbered elements -/

/-- The elements with number `k`, in order. -/
def rowsOf (k : Nat) (l : List (Nat × α)) : List α := (l.filter fun r => r.1 = k).map Prod.snd

/-- Group by number, smallest number first. -/
def byNumber (l : List (Nat × α)) : List (Nat × List α) :=
  ((l.map Prod.fst).dedup.mergeSort (· ≤ ·)).map fun k => (k, rowsOf k l)

@[simp] theorem rowsOf_nil (k : Nat) : rowsOf k ([] : List (Nat × α)) = [] := rfl

@[simp] theorem rowsOf_append (k : Nat) (l l' : List (Nat × α)) :
    rowsOf k (l ++ l') = rowsOf k l ++ rowsOf k l' := by
  simp [rowsOf]

theorem rowsOf_cons (k n : Nat) (x : α) (l : List (Nat × α)) :
    rowsOf k ((n, x) :: l) = if n = k then x :: rowsOf k l else rowsOf k l := by
  simp only [rowsOf, List.filter_cons, decide_eq_true_eq]
  split_ifs <;> rfl

theorem mem_rowsOf {k : Nat} {l : List (Nat × α)} {x : α} : x ∈ rowsOf k l ↔ (k, x) ∈ l := by
  simp [rowsOf]

/-- Elements that all have one number. -/
theorem rowsOf_numbered (k n : Nat) (xs : List α) :
    rowsOf k (xs.map fun x => (n, x)) = if n = k then xs else [] := by
  induction xs with
  | nil => simp
  | cons x xs ih =>
      rw [List.map_cons, rowsOf_cons, ih]
      split_ifs <;> rfl

theorem rowsOf_eq_nil {k : Nat} {l : List (Nat × α)} (h : ∀ r ∈ l, r.1 ≠ k) : rowsOf k l = [] := by
  refine List.eq_nil_iff_forall_not_mem.mpr fun x hx => ?_
  exact h _ (mem_rowsOf.mp hx) rfl

theorem mem_byNumber {k : Nat} {g : List α} {l : List (Nat × α)} :
    (k, g) ∈ byNumber l ↔ g = rowsOf k l ∧ g ≠ [] := by
  simp only [byNumber, List.mem_map, List.mem_mergeSort, List.mem_dedup, Prod.mk.injEq]
  constructor
  · rintro ⟨_, ⟨r, hr, rfl⟩, rfl, rfl⟩
    exact ⟨rfl, List.ne_nil_of_mem (mem_rowsOf.mpr hr)⟩
  · rintro ⟨rfl, hne⟩
    obtain ⟨x, hx⟩ := List.exists_mem_of_ne_nil _ hne
    exact ⟨k, ⟨(k, x), mem_rowsOf.mp hx, rfl⟩, rfl, rfl⟩

/-- The groups with a number in `[lo, hi)`. -/
def groupsIn (lo hi : Nat) (l : List (Nat × α)) : List (Nat × List α) :=
  byNumber (l.filter fun r => r.1 < hi ∧ r.1 ≥ lo)

theorem mem_groupsIn {lo hi k : Nat} {g : List α} {l : List (Nat × α)} :
    (k, g) ∈ groupsIn lo hi l ↔ (k < hi ∧ k ≥ lo) ∧ g = rowsOf k l ∧ g ≠ [] := by
  have hrows : rowsOf k (l.filter fun r => r.1 < hi ∧ r.1 ≥ lo) =
      if k < hi ∧ k ≥ lo then rowsOf k l else [] := by
    simp only [rowsOf, List.filter_filter]
    split_ifs with hk
    · congr 1
      refine List.filter_congr fun r _ => ?_
      grind
    · simp only [List.map_eq_nil_iff, List.filter_eq_nil_iff]
      grind
  rw [groupsIn, mem_byNumber, hrows]
  split_ifs with hk
  · simp only [hk, and_self, true_and]
  · constructor
    · rintro ⟨rfl, hne⟩
      exact absurd rfl hne
    · rintro ⟨hin, -⟩
      exact absurd hin hk

/-! ## Pieces -/

/-- When a piece reaches its mark, and what marks the piece after it. -/
structure Cutter (P α : Type*) where
  reaches : P → List α → Bool
  next : P → List α → P

namespace Cutter

variable (c : Cutter P α)

/-- No nonempty beginning of `q` completes the open piece. -/
def Below (p : P) (opened q : List α) : Prop :=
  ∀ r, r <+: q → r ≠ [] → c.reaches p (opened ++ r) = false

/-- The complete pieces of a sequence: each goes up to and includes the first
element with which it reaches its mark. -/
inductive Cuts : P → List α → List (List α) → Prop
  | rest {p xs} : c.Below p [] xs → Cuts p xs []
  | piece {p q y xs pieces} : c.Below p [] q → c.reaches p (q ++ [y]) = true →
      Cuts (c.next p (q ++ [y])) xs pieces → Cuts p (q ++ y :: xs) ((q ++ [y]) :: pieces)

/-- The open piece after one more element, and the mark it is cut by. -/
def step (s : P × List α) (x : α) : P × List α :=
  if c.reaches s.1 (s.2 ++ [x]) then (c.next s.1 (s.2 ++ [x]), []) else (s.1, s.2 ++ [x])

/-- The number after one more element. -/
def count (s : P × List α) (n : Nat) (x : α) : Nat :=
  if c.reaches s.1 (s.2 ++ [x]) then n + 1 else n

/-- Each element with the number of its piece. -/
def before (s : P × List α) (n : Nat) : List α → List (Nat × α)
  | [] => []
  | x :: xs => (n, x) :: before (c.step s x) (c.count s n x) xs

/-- Each element with the number of the piece that is open after it. -/
def after (s : P × List α) (n : Nat) : List α → List (Nat × α)
  | [] => []
  | x :: xs => (c.count s n x, x) :: after (c.step s x) (c.count s n x) xs

/-- The number after all elements. -/
def total (s : P × List α) (n : Nat) : List α → Nat
  | [] => n
  | x :: xs => total (c.step s x) (c.count s n x) xs

section Pieces
variable {c} {p : P} {opened q xs : List α} {y : α} {pieces : List (List α)} {n k : Nat}

theorem Below.cons_iff {x : α} : c.Below p opened (x :: q) ↔
    c.reaches p (opened ++ [x]) = false ∧ c.Below p (opened ++ [x]) q := by
  constructor
  · intro h
    refine ⟨h [x] (by simp) (by simp), fun r hr _ => ?_⟩
    have := h (x :: r) (by simpa using hr) (by simp)
    simpa using this
  · rintro ⟨hx, hq⟩ r hr hne
    cases r with
    | nil => exact absurd rfl hne
    | cons z r =>
        obtain ⟨rfl, hrq⟩ := List.cons_prefix_cons.mp hr
        cases r with
        | nil => exact hx
        | cons w r => simpa using hq (w :: r) hrq (by simp)

@[simp] theorem below_nil : c.Below p opened [] := by
  intro r hr hne
  exact absurd (List.prefix_nil.mp hr) hne

/-- A sequence stays below the mark, or has a first element that reaches it. -/
theorem below_or_first (p : P) (opened xs : List α) : c.Below p opened xs ∨
    ∃ q y rest, xs = q ++ y :: rest ∧ c.Below p opened q ∧
      c.reaches p (opened ++ q ++ [y]) = true := by
  induction xs generalizing opened with
  | nil => exact .inl below_nil
  | cons x xs ih =>
      cases hx : c.reaches p (opened ++ [x]) with
      | true => exact .inr ⟨[], x, xs, rfl, below_nil, by simpa using hx⟩
      | false =>
          obtain hbelow | ⟨q, y, rest, rfl, hq, hy⟩ := ih (opened ++ [x])
          · exact .inl (Below.cons_iff.mpr ⟨hx, hbelow⟩)
          · refine .inr ⟨x :: q, y, rest, rfl, Below.cons_iff.mpr ⟨hx, hq⟩, ?_⟩
            simpa using hy

/-- Every sequence can be cut. -/
theorem exists_cuts (p : P) (xs : List α) : ∃ pieces, c.Cuts p xs pieces := by
  induction hlen : xs.length using Nat.strong_induction_on generalizing p xs with
  | _ len ih =>
      obtain hbelow | ⟨q, y, rest, rfl, hq, hy⟩ := below_or_first (c := c) p [] xs
      · exact ⟨[], .rest hbelow⟩
      · have hshort : rest.length < len := by
          simp only [List.length_append, List.length_cons] at hlen
          omega
        obtain ⟨pieces, hpieces⟩ := ih rest.length hshort (c.next p (q ++ [y])) rest rfl
        exact ⟨_, .piece hq hy hpieces⟩

/-! ## Numbers along the pieces -/

theorem step_below {x : α} (h : c.reaches p (opened ++ [x]) = false) :
    c.step (p, opened) x = (p, opened ++ [x]) ∧ c.count (p, opened) n x = n := by
  simp [step, count, h]

theorem step_reaches {x : α} (h : c.reaches p (opened ++ [x]) = true) :
    c.step (p, opened) x = (c.next p (opened ++ [x]), []) ∧ c.count (p, opened) n x = n + 1 := by
  simp [step, count, h]

theorem before_append (h : c.Below p opened q) : c.before (p, opened) n (q ++ xs) =
    q.map (fun x => (n, x)) ++ c.before (p, opened ++ q) n xs := by
  induction q generalizing opened with
  | nil => simp
  | cons x q ih =>
      obtain ⟨hx, hq⟩ := Below.cons_iff.mp h
      obtain ⟨hstep, hcount⟩ := step_below (n := n) hx
      simp [before, hstep, hcount, ih hq]

theorem after_append (h : c.Below p opened q) : c.after (p, opened) n (q ++ xs) =
    q.map (fun x => (n, x)) ++ c.after (p, opened ++ q) n xs := by
  induction q generalizing opened with
  | nil => simp
  | cons x q ih =>
      obtain ⟨hx, hq⟩ := Below.cons_iff.mp h
      obtain ⟨hstep, hcount⟩ := step_below (n := n) hx
      simp [after, hstep, hcount, ih hq]

theorem total_append (h : c.Below p opened q) : c.total (p, opened) n (q ++ xs) =
    c.total (p, opened ++ q) n xs := by
  induction q generalizing opened with
  | nil => simp
  | cons x q ih =>
      obtain ⟨hx, hq⟩ := Below.cons_iff.mp h
      obtain ⟨hstep, hcount⟩ := step_below (n := n) hx
      simp [total, hstep, hcount, ih hq]

theorem le_count (s : P × List α) (n : Nat) (x : α) : n ≤ c.count s n x := by
  simp only [count]
  split_ifs <;> omega

theorem le_of_mem_before {s : P × List α} {r : Nat × α} (h : r ∈ c.before s n xs) : n ≤ r.1 := by
  induction xs generalizing s n with
  | nil => simp [before] at h
  | cons x xs ih =>
      rcases List.mem_cons.mp h with rfl | h
      · exact le_rfl
      · exact (le_count s n x).trans (ih h)

theorem le_of_mem_after {s : P × List α} {r : Nat × α} (h : r ∈ c.after s n xs) : n ≤ r.1 := by
  induction xs generalizing s n with
  | nil => simp [after] at h
  | cons x xs ih =>
      rcases List.mem_cons.mp h with rfl | h
      · exact le_count s n x
      · exact (le_count s n x).trans (ih h)

theorem mem_of_mem_after {s : P × List α} {r : Nat × α} (h : r ∈ c.after s n xs) : r.2 ∈ xs := by
  induction xs generalizing s n with
  | nil => simp [after] at h
  | cons x xs ih =>
      rcases List.mem_cons.mp h with rfl | h
      · exact List.mem_cons_self
      · exact List.mem_cons_of_mem x (ih h)

/-- One number for each complete piece. -/
theorem Cuts.total_eq (h : c.Cuts p xs pieces) :
    c.total (p, []) n xs = n + pieces.length := by
  induction h generalizing n with
  | @rest p xs hbelow =>
      have hnone : c.total (p, []) n (xs ++ []) = c.total (p, [] ++ xs) n [] := total_append hbelow
      simpa [total] using hnone
  | @piece p q y xs pieces hq hy _ ih =>
      obtain ⟨hstep, hcount⟩ := step_reaches (n := n) hy
      rw [total_append hq, List.nil_append, total, hstep, hcount, ih, List.length_cons]
      omega

/-- Grouping by the number of the open piece gives the pieces. -/
theorem Cuts.rowsOf_before {g : List α} (h : c.Cuts p xs pieces) (hk : pieces[k]? = some g) :
    rowsOf (n + k) (c.before (p, []) n xs) = g := by
  induction h generalizing n k with
  | rest => simp at hk
  | @piece p q y xs pieces hq hy _ ih =>
      obtain ⟨hstep, hcount⟩ := step_reaches (n := n) hy
      have hsplit : c.before (p, []) n (q ++ y :: xs) =
          (q ++ [y]).map (fun x => (n, x)) ++ c.before (c.next p (q ++ [y]), []) (n + 1) xs := by
        rw [before_append hq, List.nil_append, before, hstep, hcount]
        simp
      rw [hsplit, rowsOf_append, rowsOf_numbered]
      cases k with
      | zero =>
          have hlater : rowsOf (n + 0) (c.before (c.next p (q ++ [y]), []) (n + 1) xs) = [] := by
            refine rowsOf_eq_nil fun r hr => ?_
            have := le_of_mem_before hr
            omega
          rw [if_pos (Nat.add_zero n).symm, hlater, List.append_nil]
          simpa using hk
      | succ k =>
          rw [if_neg (by omega), List.nil_append, ← ih (n := n + 1) (by simpa using hk)]
          congr 1
          omega

theorem Cuts.groups_before {group : Nat × List α} (h : c.Cuts p xs pieces)
    (hg : group ∈ groupsIn n (c.total (p, []) n xs) (c.before (p, []) n xs)) :
    group.2 ∈ pieces := by
  obtain ⟨⟨hlt, hle⟩, hrows, -⟩ := mem_groupsIn.mp hg
  obtain ⟨k, hk⟩ := Nat.exists_eq_add_of_le hle
  rw [h.total_eq, hk, Nat.add_lt_add_iff_left] at hlt
  have := h.rowsOf_before (n := n) (List.getElem?_eq_getElem hlt)
  rw [hrows, hk, this]
  exact List.getElem_mem hlt

theorem Cuts.mem_of_mem_piece {g : List α} {x : α} (h : c.Cuts p xs pieces) (hg : g ∈ pieces)
    (hx : x ∈ g) : x ∈ xs := by
  induction h with
  | rest => simp at hg
  | @piece p q y xs pieces _ _ _ ih =>
      rcases List.mem_cons.mp hg with rfl | hg
      · rw [List.append_cons]
        exact List.mem_append_left xs hx
      · exact List.mem_append_right q (List.mem_cons_of_mem y (ih hg))

/-- The group of number `n + k` when elements are numbered by the piece open after
them and `carried` is the element, if any, that closed the piece before. -/
def carriedGroup (c : Cutter P α) (p : P) (n : Nat) (carried xs : List α) (k : Nat) : List α :=
  (if k = 0 then carried else []) ++ rowsOf (n + k) (c.after (p, []) n xs)

theorem after_piece (hq : c.Below p [] q) (hy : c.reaches p (q ++ [y]) = true) :
    c.after (p, []) n (q ++ y :: xs) =
      q.map (fun x => (n, x)) ++ (n + 1, y) :: c.after (c.next p (q ++ [y]), []) (n + 1) xs := by
  obtain ⟨hstep, hcount⟩ := step_reaches (n := n) hy
  rw [after_append hq, List.nil_append, after, hstep, hcount]

/-- The first group lacks the closing element of its piece. -/
theorem carriedGroup_zero {carried : List α} (hq : c.Below p [] q)
    (hy : c.reaches p (q ++ [y]) = true) :
    carriedGroup c p n carried (q ++ y :: xs) 0 = carried ++ q := by
  have hlater : rowsOf n ((n + 1, y) :: c.after (c.next p (q ++ [y]), []) (n + 1) xs) = [] := by
    refine rowsOf_eq_nil fun r hr => ?_
    rcases List.mem_cons.mp hr with rfl | hr
    · simp
    · have := le_of_mem_after hr
      omega
  simp only [carriedGroup, after_piece hq hy, Nat.add_zero, if_true, rowsOf_append, hlater,
    rowsOf_numbered, List.append_nil]

/-- The closing element is carried into the next group. -/
theorem carriedGroup_succ {carried : List α} (hq : c.Below p [] q)
    (hy : c.reaches p (q ++ [y]) = true) :
    carriedGroup c p n carried (q ++ y :: xs) (k + 1) =
      carriedGroup c (c.next p (q ++ [y])) (n + 1) [y] xs k := by
  have hnumber : n + (k + 1) = n + 1 + k := by omega
  simp only [carriedGroup, after_piece hq hy, rowsOf_append, rowsOf_numbered, rowsOf_cons, hnumber]
  by_cases hk : k = 0
  · subst hk
    simp
  · rw [if_neg (by omega), if_neg (by omega), if_neg hk, if_neg (by omega)]
    rfl

theorem mem_of_mem_carriedGroup {carried : List α} {x : α}
    (h : x ∈ carriedGroup c p n carried xs k) : x ∈ carried ++ xs := by
  rcases List.mem_append.mp h with h | h
  · split_ifs at h
    · exact List.mem_append_left xs h
    · simp at h
  · exact List.mem_append_right carried (mem_of_mem_after (mem_rowsOf.mp h))

/-- A group that starts with what was carried over and lacks the closing element is no piece. -/
theorem Cuts.not_mem_of_moved {carried : List α} {x : α} (h : c.Cuts p xs pieces)
    (hnodup : (carried ++ (x :: q ++ y :: xs)).Nodup) :
    carried ++ x :: q ∉ carried.map (fun x => [x]) ++ (x :: q ++ [y]) :: pieces := by
  intro hmem
  have hin : x ∈ carried ++ x :: q := by simp
  rcases List.mem_append.mp hmem with hmem | hmem
  · obtain ⟨z, hz, hgroup⟩ := List.mem_map.mp hmem
    rw [← hgroup, List.mem_singleton] at hin
    exact (List.nodup_append.mp hnodup).2.2 z hz x (by simp) hin.symm
  · rcases List.mem_cons.mp hmem with heq | hmem
    · have hlast : y ∈ carried ++ x :: q := by simp [heq]
      grind [List.nodup_append]
    · have hlater := h.mem_of_mem_piece hmem hin
      grind [List.nodup_append]

/-- With the closing elements moved, the groups are pieces only if the pieces are single
elements, in which case each group is the piece before. -/
theorem Cuts.carriedGroup_mem_iff {carried : List α} (h : c.Cuts p xs pieces)
    (hcarried : carried.length ≤ 1) (hnodup : (carried ++ xs).Nodup) :
    (∀ k < pieces.length, carriedGroup c p n carried xs k ≠ [] →
      carriedGroup c p n carried xs k ∈ carried.map (fun x => [x]) ++ pieces) ↔
        ∀ piece ∈ pieces, piece.length = 1 := by
  induction h generalizing n carried with
  | rest => simp
  | @piece p q y xs pieces hq hy hcuts ih =>
      cases q with
      | nil =>
          have hnodup' : ([y] ++ xs).Nodup := (List.nodup_append.mp hnodup).2.1
          have hfresh : ∀ x ∈ carried, x ∉ y :: xs := fun x hx hmem =>
            (List.nodup_append.mp hnodup).2.2 x hx x hmem rfl
          have hrest := ih (n := n + 1) (Nat.le_refl [y].length) hnodup'
          rw [List.nil_append, List.forall_mem_cons]
          simp only [List.length_singleton, true_and]
          rw [← hrest]
          constructor
          · intro hall k hk hne
            have hmem := hall (k + 1) (by simpa using hk)
            rw [carriedGroup_succ hq hy] at hmem
            rcases List.mem_append.mp (hmem hne) with hmem | hmem
            · -- the group would be the element closed before `y`
              obtain ⟨x, hx, hgroup⟩ := List.mem_map.mp hmem
              have hin : x ∈ carriedGroup c (c.next p ([] ++ [y])) (n + 1) [y] xs k :=
                hgroup ▸ List.mem_singleton_self x
              exact absurd (mem_of_mem_carriedGroup hin) (hfresh x hx)
            · exact hmem
          · intro hall k hk hne
            cases k with
            | zero =>
                rw [carriedGroup_zero hq hy, List.append_nil] at hne ⊢
                obtain ⟨x, rfl⟩ := List.length_eq_one_iff.mp
                  (Nat.le_antisymm hcarried (List.length_pos_iff.mpr hne))
                simp
            | succ k =>
                rw [carriedGroup_succ hq hy] at hne ⊢
                exact List.mem_append_right _ (hall k (by simpa using hk) hne)
      | cons x q =>
          constructor
          · intro hall
            have hmem := hall 0 (by simp)
            rw [carriedGroup_zero hq hy] at hmem
            exact absurd (hmem (by simp)) (hcuts.not_mem_of_moved hnodup)
          · intro hsingle
            have := hsingle (x :: q ++ [y]) List.mem_cons_self
            simp at this

/-- Grouping by the number of the piece open after an element gives pieces only if all
complete pieces are single elements. -/
theorem Cuts.groups_after_iff (h : c.Cuts p xs pieces) (hnodup : xs.Nodup) :
    (∀ group ∈ groupsIn n (c.total (p, []) n xs) (c.after (p, []) n xs), group.2 ∈ pieces) ↔
      ∀ piece ∈ pieces, piece.length = 1 := by
  have hnone : ([] : List α).length ≤ 1 := Nat.zero_le 1
  rw [← h.carriedGroup_mem_iff (n := n) hnone hnodup]
  have hgroup : ∀ k, carriedGroup c p n [] xs k = rowsOf (n + k) (c.after (p, []) n xs) := by
    simp [carriedGroup]
  simp only [hgroup, List.map_nil, List.nil_append, Prod.forall, mem_groupsIn, h.total_eq]
  constructor
  · intro hall k hk hne
    exact hall (n + k) _ ⟨⟨by omega, by omega⟩, rfl, hne⟩
  · rintro hall number group ⟨⟨hlt, hle⟩, rfl, hne⟩
    obtain ⟨k, rfl⟩ := Nat.exists_eq_add_of_le hle
    exact hall k (by omega) hne

end Pieces

/-! ## Scans that follow the open piece -/

/-- The scan's state stands for an open piece, and its counter counts complete ones. -/
structure Follows (f : σ → α → σ) (number : σ → Nat) (R : σ → P × List α → Prop) : Prop where
  step : ∀ {st s} x, R st s → R (f st x) (c.step s x)
  count : ∀ {st s} x, R st s → number (f st x) = c.count s (number st) x

namespace Follows

variable {c} {f : σ → α → σ} {number out : σ → Nat} {R : σ → P × List α → Prop} {st : σ}
  {s : P × List α}

/-- By cases on whether the element completes the piece. -/
theorem of_cases
    (hreaches : ∀ st p opened x, R st (p, opened) → c.reaches p (opened ++ [x]) = true →
      R (f st x) (c.next p (opened ++ [x]), []) ∧ number (f st x) = number st + 1)
    (hbelow : ∀ st p opened x, R st (p, opened) → c.reaches p (opened ++ [x]) = false →
      R (f st x) (p, opened ++ [x]) ∧ number (f st x) = number st) :
    c.Follows f number R where
  step := by
    rintro st ⟨p, opened⟩ x hst
    cases hx : c.reaches p (opened ++ [x]) with
    | true => exact (step_reaches (n := 0) hx).1 ▸ (hreaches st p opened x hst hx).1
    | false => exact (step_below (n := 0) hx).1 ▸ (hbelow st p opened x hst hx).1
  count := by
    rintro st ⟨p, opened⟩ x hst
    cases hx : c.reaches p (opened ++ [x]) with
    | true => rw [(step_reaches hx).2, (hreaches st p opened x hst hx).2]
    | false => rw [(step_below hx).2, (hbelow st p opened x hst hx).2]

theorem zip_after (h : c.Follows f number R) (hst : R st s) (xs : List α) :
    ((scan f st xs).map number).zip xs = c.after s (number st) xs := by
  induction xs generalizing st s with
  | nil => rfl
  | cons x xs ih =>
      have hx := h.count x hst
      simp only [scan, List.map_cons, List.zip_cons_cons, after, ih (h.step x hst), hx]

/-- A scan that also puts out its counter from before the element. -/
theorem zip_before (h : c.Follows f number R) (hout : ∀ st x, out (f st x) = number st)
    (hst : R st s) (xs : List α) :
    ((scan f st xs).map out).zip xs = c.before s (number st) xs := by
  induction xs generalizing st s with
  | nil => rfl
  | cons x xs ih =>
      have hx := h.count x hst
      simp only [scan, List.map_cons, List.zip_cons_cons, before, ih (h.step x hst), hx, hout]

theorem number_last (h : c.Follows f number R) (hst : R st s) (xs : List α) :
    number ((scan f st xs).getLastD st) = c.total s (number st) xs := by
  induction xs generalizing st s with
  | nil => rfl
  | cons x xs ih =>
      rw [scan, List.getLastD_cons, total, ← h.count x hst]
      exact ih (h.step x hst)

end Follows

end Cutter

end TickToSignal.Foundation
