import TickToSignal.OrderBook.Side

/-!
# What a side knows of the exchange's side

`RankedSide` is a whole side of the exchange's book: its levels best first,
strictly ranked, all with positive quantity. `Knows f s` says that the levels
stored in `s` are exactly the levels of the price-to-quantity function `f` at
or inside the horizon of `s`. Loading a truncated reply, trimming and updating
keep it, each against the function the operation leaves behind, and a side
that knows a ranked side and is not below `n` levels has its best `n`.
-/

namespace TickToSignal.OrderBook

open Foundation

variable {K : Type*} [LinearOrder K] [Zero K]

/-- A side of the exchange's book: all its levels, best first. -/
structure RankedSide (isBid : Bool) (K : Type*) [LinearOrder K] [Zero K] where
  levels : List (PriceLevel K)
  ranked : levels.Pairwise fun a b => better isBid a.price b.price = true
  positive : ∀ l ∈ levels, 0 < l.qty

namespace RankedSide

variable {isBid : Bool}

/-- The quantity at a price, zero where the exchange has no level. -/
def qtyAt (b : RankedSide isBid K) (p : K) : K :=
  ((b.levels.find? fun l => decide (l.price = p)).map (·.qty)).getD 0

theorem qtyAt_of_mem (b : RankedSide isBid K) {l : PriceLevel K} (hl : l ∈ b.levels) :
    b.qtyAt l.price = l.qty := by
  obtain ⟨levels, ranked, positive⟩ := b
  simp only [qtyAt]
  change l ∈ levels at hl
  induction levels with
  | nil => exact absurd hl List.not_mem_nil
  | cons x xs ih =>
      rcases List.mem_cons.mp hl with rfl | hmem
      · simp
      · have hbetter := List.rel_of_pairwise_cons ranked hmem
        have hne : x.price ≠ l.price := by
          intro h
          simp [h, better_irrefl] at hbetter
        simpa [List.find?_cons, hne] using
          ih ranked.of_cons (fun y hy => positive y (List.mem_cons_of_mem x hy)) hmem

theorem exists_mem_of_qtyAt (b : RankedSide isBid K) {p : K} (hp : b.qtyAt p ≠ 0) :
    ∃ l ∈ b.levels, l.price = p := by
  simp only [qtyAt] at hp
  cases h : b.levels.find? fun l => decide (l.price = p) with
  | none => simp [h] at hp
  | some l => exact ⟨l, List.mem_of_find?_eq_some h, by simpa using List.find?_some h⟩

theorem eq_of_price_eq (b : RankedSide isBid K) {l l' : PriceLevel K} (hl : l ∈ b.levels)
    (hl' : l' ∈ b.levels) (h : l.price = l'.price) : l = l' := by
  have hqty : l.qty = l'.qty := by rw [← b.qtyAt_of_mem hl, ← b.qtyAt_of_mem hl', h]
  cases l
  cases l'
  simp_all

/-- Sorting the best levels worst first reverses them. -/
theorem sort_take (b : RankedSide isBid K) (n : Nat) :
    (b.levels.take n).insertionSort (fun a b => better isBid a.price b.price = false) =
      (b.levels.take n).reverse := by
  have htotal : Std.Total fun a b : PriceLevel K => better isBid a.price b.price = false :=
    ⟨fun x y => by
      rcases better_trichotomy isBid x.price y.price with h | h | h
      · exact Or.inr (better_asymm h)
      · exact Or.inl (h ▸ better_irrefl isBid _)
      · exact Or.inl (better_asymm h)⟩
  have htrans : IsTrans (PriceLevel K) fun a b => better isBid a.price b.price = false :=
    ⟨fun x y z hxy hyz => by
      by_contra hxz
      have hxz' : better isBid x.price z.price = true := by simpa using hxz
      have h := better_of_better_of_not hxz' hyz
      simp [h] at hxy⟩
  refine List.Perm.eq_of_pairwise (fun x y hx hy hxy hyx => ?_)
    (List.pairwise_insertionSort
      (fun a b : PriceLevel K => better isBid a.price b.price = false) _) ?_ ?_
  · have hx' := List.mem_of_mem_take ((List.mem_insertionSort _).mp hx)
    have hy' := List.mem_of_mem_take (List.mem_reverse.mp hy)
    rcases better_trichotomy isBid x.price y.price with h | h | h
    · simp [h] at hxy
    · exact b.eq_of_price_eq hx' hy' h
    · simp [h] at hyx
  · exact List.pairwise_reverse.mpr
      ((b.ranked.sublist (List.take_sublist n _)).imp better_asymm)
  · exact (List.perm_insertionSort _ _).trans (List.reverse_perm _).symm

/-- The best `n` levels as published slots, the missing ones 0/0. -/
def slots (b : RankedSide isBid K) (n : Nat) : List (PriceLevel K) :=
  b.levels.take n ++ List.replicate (n - b.levels.length) ⟨0, 0⟩

end RankedSide

namespace Side

variable {isBid : Bool} {f : K → K} {s : Side K}

/-- The side stores exactly the levels of `f` at or inside its horizon, worst first. -/
structure Knows (isBid : Bool) (f : K → K) (s : Side K) : Prop where
  sorted : s.levels.Pairwise fun a b => better isBid b.price a.price = true
  exact_qty : ∀ l ∈ s.levels, f l.price = l.qty
  present : ∀ l ∈ s.levels, l.qty ≠ 0
  inside : ∀ l ∈ s.levels, s.inHorizon isBid l.price = true
  complete : ∀ p, f p ≠ 0 → s.inHorizon isBid p = true → ∃ l ∈ s.levels, l.price = p

omit [Zero K] in
theorem inHorizon_of_not_better {p q : K} (hp : s.inHorizon isBid p = true)
    (hpq : better isBid p q = false) : s.inHorizon isBid q = true := by
  simp only [inHorizon, Bool.or_eq_true, Bool.not_eq_true'] at hp ⊢
  rcases hp with hp | hp
  · exact Or.inl hp
  · refine Or.inr ?_
    by_contra h
    have hhq : better isBid s.horizon q = true := by simpa using h
    simp [better_of_better_of_not hhq hpq] at hp

/-- Trimming keeps the best levels and pulls the horizon in to the worst of them. -/
theorem Knows.trim {maxLevels : Nat} (hmax : 1 ≤ maxLevels) (h : Knows isBid f s) :
    Knows isBid f (s.trim maxLevels) := by
  by_cases hlen : s.levels.length ≤ maxLevels
  · simpa [Side.trim, hlen] using h
  -- the kept part is not empty, its head is the new horizon
  obtain ⟨front, kept, hkept⟩ :
      ∃ front kept, s.levels.drop (s.levels.length - maxLevels) = front :: kept := by
    cases hd : s.levels.drop (s.levels.length - maxLevels) with
    | nil => have := List.drop_eq_nil_iff.mp hd; omega
    | cons front kept => exact ⟨front, kept, rfl⟩
  have htrim : s.trim maxLevels =
      { levels := front :: kept, bounded := true, horizon := front.price } := by
    simp [Side.trim, hlen, hkept]
  have hsplit : s.levels = s.levels.take (s.levels.length - maxLevels) ++ front :: kept := by
    rw [← hkept, List.take_append_drop]
  have hsorted := h.sorted
  rw [hsplit] at hsorted
  obtain ⟨-, hfront, hacross⟩ := List.pairwise_append.mp hsorted
  have hmem : ∀ l ∈ front :: kept, l ∈ s.levels := by
    intro l hl
    rw [hsplit]
    exact List.mem_append_right _ hl
  rw [htrim]
  constructor
  · exact hfront
  · exact fun l hl => h.exact_qty l (hmem l hl)
  · exact fun l hl => h.present l (hmem l hl)
  · intro l hl
    simp only [inHorizon, Bool.not_true, Bool.false_or, Bool.not_eq_true']
    rcases List.mem_cons.mp hl with rfl | hl
    · exact better_irrefl isBid _
    · exact better_asymm (List.rel_of_pairwise_cons hfront hl)
  · intro p hp hin
    simp only [inHorizon, Bool.not_true, Bool.false_or, Bool.not_eq_true'] at hin
    have hold : s.inHorizon isBid p = true :=
      inHorizon_of_not_better (h.inside front (hmem front List.mem_cons_self)) hin
    obtain ⟨l, hl, rfl⟩ := h.complete p hp hold
    rw [hsplit] at hl
    rcases List.mem_append.mp hl with hl | hl
    · have := hacross l hl front List.mem_cons_self
      simp [this] at hin
    · exact ⟨l, hl, rfl⟩

/-- Nothing stored has the price of the update. -/
def Absent (s : Side K) (p : K) : Prop := ∀ l ∈ s.levels, l.price ≠ p

/-- Where the search for an update's price ends in a sorted side. -/
theorem Knows.locate (h : Knows isBid f s) (p : K) :
    let worse := s.levels.takeWhile fun l => better isBid p l.price
    let fromIt := s.levels.dropWhile fun l => better isBid p l.price
    s.levels = worse ++ fromIt ∧ (∀ l ∈ worse, better isBid p l.price = true) ∧
      ((∃ it rest, fromIt = it :: rest ∧ it.price = p ∧
          ∀ l ∈ rest, better isBid l.price p = true) ∨
        ((∀ l ∈ fromIt, better isBid l.price p = true) ∧ s.Absent p)) := by
  intro worse fromIt
  have hsplit : s.levels = worse ++ fromIt := (List.takeWhile_append_dropWhile).symm
  have hworse : ∀ l ∈ worse, better isBid p l.price = true := by
    intro l hl
    exact List.mem_takeWhile_imp (p := fun l : PriceLevel K => better isBid p l.price) hl
  have hnot : ∀ l ∈ fromIt, better isBid p l.price = false :=
    dropWhile_forall_not h.sorted fun a b hab hb => better_trans hb hab
  refine ⟨hsplit, hworse, ?_⟩
  have hsorted := h.sorted
  rw [hsplit] at hsorted
  have hrest := (List.pairwise_append.mp hsorted).2.1
  have habsent : (∀ l ∈ fromIt, better isBid l.price p = true) → s.Absent p := by
    intro hall l hl hlp
    rw [hsplit] at hl
    rcases List.mem_append.mp hl with hl | hl
    · simpa [hlp, better_irrefl] using hworse l hl
    · simpa [hlp, better_irrefl] using hall l hl
  cases hfrom : fromIt with
  | nil => exact Or.inr ⟨by simp, habsent (by simp [hfrom])⟩
  | cons it rest =>
      rw [hfrom] at hrest
      by_cases hit : it.price = p
      · refine Or.inl ⟨it, rest, rfl, hit, fun l hl => ?_⟩
        exact hit ▸ List.rel_of_pairwise_cons hrest hl
      · have hitbetter : better isBid it.price p = true := by
          rcases better_trichotomy isBid it.price p with hb | hb | hb
          · exact hb
          · exact absurd hb hit
          · simp [hnot it (by simp [hfrom])] at hb
        have hall : ∀ l ∈ it :: rest, better isBid l.price p = true := by
          intro l hl
          rcases List.mem_cons.mp hl with rfl | hl
          · exact hitbetter
          · exact better_trans (List.rel_of_pairwise_cons hrest hl) hitbetter
        exact Or.inr ⟨hall, habsent (hfrom ▸ hall)⟩

/-- Leaving an absent price alone is right when its quantity is zero or it is
beyond the horizon. -/
theorem Knows.skip (h : Knows isBid f s) {p q : K} (habsent : s.Absent p)
    (hq : q = 0 ∨ s.inHorizon isBid p = false) :
    Knows isBid (Function.update f p q) s := by
  refine ⟨h.sorted, ?_, h.present, h.inside, ?_⟩
  · intro l hl
    rw [Function.update_of_ne (habsent l hl)]
    exact h.exact_qty l hl
  · intro x hx hin
    by_cases hxp : x = p
    · subst hxp
      rw [Function.update_self] at hx
      rcases hq with hq | hq
      · exact absurd hq hx
      · simp [hin] at hq
    · rw [Function.update_of_ne hxp] at hx
      exact h.complete x hx hin

/-- Replacing the stored part at one price: `mid` holds that price alone, or nothing. -/
theorem Knows.splice (h : Knows isBid f s) {worse rest : List (PriceLevel K)}
    (mid mid' : List (PriceLevel K)) {p q : K} (hlevels : s.levels = worse ++ (mid ++ rest))
    (hworse : ∀ l ∈ worse, better isBid p l.price = true)
    (hrest : ∀ l ∈ rest, better isBid l.price p = true)
    (hmid : ∀ l ∈ mid, l.price = p)
    (hmid' : mid' = [] ∧ q = 0 ∨ mid' = [⟨p, q⟩] ∧ q ≠ 0 ∧ s.inHorizon isBid p = true) :
    Knows isBid (Function.update f p q) { s with levels := worse ++ (mid' ++ rest) } := by
  have hsorted := h.sorted
  rw [hlevels] at hsorted
  obtain ⟨hw, hmr, hwmr⟩ := List.pairwise_append.mp hsorted
  obtain ⟨-, hr, -⟩ := List.pairwise_append.mp hmr
  have hne : ∀ l, l ∈ worse ∨ l ∈ rest → l.price ≠ p ∧ l ∈ s.levels := by
    intro l hl
    rw [hlevels]
    rcases hl with hl | hl
    · refine ⟨fun he => ?_, by simp [hl]⟩
      simpa [he, better_irrefl] using hworse l hl
    · refine ⟨fun he => ?_, by simp [hl]⟩
      simpa [he, better_irrefl] using hrest l hl
  have hmem : ∀ l, l ∈ worse ++ (mid' ++ rest) →
      (l ∈ worse ∨ l ∈ rest) ∨ (l = ⟨p, q⟩ ∧ q ≠ 0 ∧ s.inHorizon isBid p = true) := by
    intro l hl
    rcases List.mem_append.mp hl with hl | hl
    · exact Or.inl (Or.inl hl)
    rcases List.mem_append.mp hl with hl | hl
    · rcases hmid' with ⟨rfl, -⟩ | ⟨rfl, hq⟩
      · exact absurd hl List.not_mem_nil
      · exact Or.inr ⟨List.mem_singleton.mp hl, hq⟩
    · exact Or.inl (Or.inr hl)
  constructor
  · refine List.pairwise_append.mpr ⟨hw, List.pairwise_append.mpr ⟨?_, hr, ?_⟩, ?_⟩
    · rcases hmid' with ⟨rfl, -⟩ | ⟨rfl, -⟩ <;> simp
    · intro a ha b hb
      rcases hmid' with ⟨rfl, -⟩ | ⟨rfl, -⟩
      · exact absurd ha List.not_mem_nil
      · rw [List.mem_singleton.mp ha]
        exact hrest b hb
    · intro a ha b hb
      rcases List.mem_append.mp hb with hb | hb
      · rcases hmid' with ⟨rfl, -⟩ | ⟨rfl, -⟩
        · exact absurd hb List.not_mem_nil
        · rw [List.mem_singleton.mp hb]
          exact hworse a ha
      · exact hwmr a ha b (List.mem_append_right _ hb)
  · intro l hl
    rcases hmem l hl with hl | ⟨rfl, -⟩
    · rw [Function.update_of_ne (hne l hl).1]
      exact h.exact_qty l (hne l hl).2
    · exact Function.update_self ..
  · intro l hl
    rcases hmem l hl with hl | ⟨rfl, hq, -⟩
    · exact h.present l (hne l hl).2
    · exact hq
  · intro l hl
    rcases hmem l hl with hl | ⟨rfl, -, hin⟩
    · exact h.inside l (hne l hl).2
    · exact hin
  · intro x hx hin
    by_cases hxp : x = p
    · subst hxp
      rw [Function.update_self] at hx
      rcases hmid' with ⟨-, hq⟩ | ⟨rfl, -⟩
      · exact absurd hq hx
      · exact ⟨⟨x, q⟩, by simp, rfl⟩
    · rw [Function.update_of_ne hxp] at hx
      obtain ⟨l, hl, rfl⟩ := h.complete x hx hin
      rw [hlevels] at hl
      simp only [List.mem_append] at hl
      rcases hl with hl | hl | hl
      · exact ⟨l, by simp [hl], rfl⟩
      · exact absurd (hmid l hl) hxp
      · exact ⟨l, by simp [hl], rfl⟩

/-- One update: the side then knows the function with that one price replaced. -/
theorem Knows.update {maxLevels : Nat} (hmax : 1 ≤ maxLevels) (h : Knows isBid f s)
    (u : PriceLevel K) :
    Knows isBid (Function.update f u.price u.qty) (s.update isBid maxLevels u) := by
  obtain ⟨hsplit, hworse, hcase⟩ := h.locate u.price
  simp only [Side.update]
  generalize s.levels.takeWhile (fun l => better isBid u.price l.price) = worse at *
  generalize s.levels.dropWhile (fun l => better isBid u.price l.price) = fromIt at *
  rcases hcase with ⟨it, rest, rfl, hit, hrest⟩ | ⟨hrest, habsent⟩
  · have hmid : ∀ l ∈ [it], l.price = u.price := by simpa using hit
    by_cases hq : u.qty = 0
    · simpa [hit, hq] using
        h.splice [it] [] hsplit hworse hrest hmid (Or.inl ⟨rfl, hq⟩)
    · have hin : s.inHorizon isBid u.price = true := hit ▸ h.inside it (by simp [hsplit])
      have hset : { it with qty := u.qty } = u := by rw [hit]
      simpa only [if_pos hit, if_neg hq, hset, List.singleton_append] using
        h.splice [it] [u] hsplit hworse hrest hmid
          (Or.inr ⟨rfl, hq, hin⟩)
  · have hinsert : Knows isBid (Function.update f u.price u.qty)
        (if u.qty = 0 then s
          else if s.inHorizon isBid u.price = true then
            Side.trim maxLevels { s with levels := worse ++ u :: fromIt }
          else s) := by
      by_cases hq : u.qty = 0
      · simpa [hq] using h.skip habsent (Or.inl hq)
      · by_cases hin : s.inHorizon isBid u.price = true
        · simpa [hq, hin] using Knows.trim hmax
            (h.splice [] [u] hsplit hworse hrest (by simp)
              (Or.inr ⟨rfl, hq, hin⟩))
        · simpa [hq, hin] using h.skip habsent (Or.inr (by simpa using hin))
    cases fromIt with
    | nil => exact hinsert
    | cons it rest =>
        have hne : it.price ≠ u.price := habsent it (by simp [hsplit])
        simpa [hne] using hinsert

/-- The updates of one event, applied in order. -/
def updates (isBid : Bool) (maxLevels : Nat) (s : Side K) (us : List (PriceLevel K)) : Side K :=
  us.foldl (Side.update isBid maxLevels) s

/-- The function an event's updates leave behind. -/
def setAll (f : K → K) (us : List (PriceLevel K)) : K → K :=
  us.foldl (fun g u => Function.update g u.price u.qty) f

theorem Knows.updates {maxLevels : Nat} (hmax : 1 ≤ maxLevels) (h : Knows isBid f s)
    (us : List (PriceLevel K)) :
    Knows isBid (setAll f us) (s.updates isBid maxLevels us) := by
  induction us generalizing f s with
  | nil => exact h
  | cons u us ih => exact ih (h.update hmax u)

omit [Zero K] in
/-- If the updates carry the new value at every price where the two functions
differ, and no other values, they turn the old function into the new one. -/
theorem setAll_eq {f g : K → K} {us : List (PriceLevel K)}
    (hvalue : ∀ u ∈ us, g u.price = u.qty)
    (hcover : ∀ p, f p ≠ g p → ∃ u ∈ us, u.price = p) : setAll f us = g := by
  induction us generalizing f with
  | nil =>
      funext p
      by_contra hne
      obtain ⟨u, hu, -⟩ := hcover p hne
      exact absurd hu List.not_mem_nil
  | cons u us ih =>
      refine ih (fun v hv => hvalue v (List.mem_cons_of_mem u hv)) fun p hp => ?_
      change Function.update f u.price u.qty p ≠ g p at hp
      by_cases hpu : p = u.price
      · subst hpu
        exact absurd (by rw [Function.update_self, hvalue u List.mem_cons_self]) hp
      · rw [Function.update_of_ne hpu] at hp
        obtain ⟨v, hv, hvp⟩ := hcover p hp
        rcases List.mem_cons.mp hv with rfl | hv
        · exact absurd hvp.symm hpu
        · exact ⟨v, hv, hvp⟩

/-- Loading the best `snapshotLimit` levels of a side (all of them if it has fewer). -/
theorem knows_load {snapshotLimit maxLevels : Nat} (hmax : 1 ≤ maxLevels)
    (hlimit : 1 ≤ snapshotLimit) (b : RankedSide isBid K) :
    Knows isBid b.qtyAt
      (Side.load isBid snapshotLimit maxLevels (b.levels.take snapshotLimit)) := by
  have hall : (b.levels.take snapshotLimit).filter (fun l => decide (0 < l.qty)) =
      b.levels.take snapshotLimit :=
    List.filter_eq_self.mpr fun l hl => by
      simpa using b.positive l (List.mem_of_mem_take hl)
  simp only [Side.load, hall]
  refine Knows.trim hmax ?_
  rw [b.sort_take]
  have hmem : ∀ l ∈ (b.levels.take snapshotLimit).reverse, l ∈ b.levels := fun l hl =>
    List.mem_of_mem_take (List.mem_reverse.mp hl)
  have hsorted : (b.levels.take snapshotLimit).reverse.Pairwise
      fun x y => better isBid y.price x.price = true :=
    List.pairwise_reverse.mpr (b.ranked.sublist (List.take_sublist _ _))
  -- a level the reply leaves out is worse than every level in it, and the reply is full
  have hcut : ∀ l ∈ b.levels, l ∉ (b.levels.take snapshotLimit).reverse →
      snapshotLimit ≤ (b.levels.take snapshotLimit).length ∧
        ∀ x ∈ (b.levels.take snapshotLimit).reverse, better isBid x.price l.price = true := by
    intro l hl hnot
    have hdrop : l ∈ b.levels.drop snapshotLimit := by
      rw [← List.take_append_drop snapshotLimit b.levels] at hl
      rcases List.mem_append.mp hl with hl | hl
      · exact absurd (List.mem_reverse.mpr hl) hnot
      · exact hl
    have hlen := List.length_pos_of_mem hdrop
    have hranked := b.ranked
    rw [← List.take_append_drop snapshotLimit b.levels] at hranked
    refine ⟨by simp only [List.length_drop, List.length_take] at hlen ⊢; omega, fun x hx => ?_⟩
    exact (List.pairwise_append.mp hranked).2.2 x (List.mem_reverse.mp hx) l hdrop
  have hlenEq : (b.levels.take snapshotLimit).reverse.length =
      (b.levels.take snapshotLimit).length := List.length_reverse
  generalize (b.levels.take snapshotLimit).reverse = levels at *
  generalize b.levels.take snapshotLimit = reply at *
  constructor
  · exact hsorted
  · exact fun l hl => b.qtyAt_of_mem (hmem l hl)
  · exact fun l hl => (b.positive l (hmem l hl)).ne'
  · intro l hl
    cases levels with
    | nil => exact absurd hl List.not_mem_nil
    | cons front rest =>
        simp only [inHorizon, List.isEmpty_cons, Bool.false_eq_true, if_false,
          List.head?_cons, Option.map_some, Option.getD_some]
        have hfront : better isBid front.price l.price = false := by
          rcases List.mem_cons.mp hl with rfl | hl
          · exact better_irrefl isBid _
          · exact better_asymm (List.rel_of_pairwise_cons hsorted hl)
        by_cases hb : snapshotLimit ≤ reply.length <;> simp [hb, hfront]
  · intro p hp hin
    obtain ⟨l, hl, rfl⟩ := b.exists_mem_of_qtyAt hp
    by_contra hnone
    have hnot : l ∉ levels := fun h => hnone ⟨l, h, rfl⟩
    obtain ⟨hfull, hworse⟩ := hcut l hl hnot
    cases levels with
    | nil => simp only [List.length_nil] at hlenEq; omega
    | cons front rest =>
        have hfront := hworse front List.mem_cons_self
        simp [inHorizon, hfull, hfront] at hin

/-- A side that is not below `n` levels has the best `n` levels of the side it knows. -/
theorem Knows.best {b : RankedSide isBid K} (h : Knows isBid b.qtyAt s) {n : Nat}
    (hn : s.below n = false) : b.levels.take n = s.levels.reverse.take n := by
  have hsub : ∀ l ∈ s.levels.reverse, l ∈ b.levels := by
    intro l hl
    have hl' := List.mem_reverse.mp hl
    have hq := h.exact_qty l hl'
    obtain ⟨l', hl'b, hprice⟩ :=
      b.exists_mem_of_qtyAt (p := l.price) (by rw [hq]; exact h.present l hl')
    have hqty : l'.qty = l.qty := by rw [← b.qtyAt_of_mem hl'b, hprice, hq]
    have : l' = l := by
      cases l
      cases l'
      simp_all
    exact this ▸ hl'b
  have hmissing : ∀ l ∈ b.levels, l ∉ s.levels.reverse → s.inHorizon isBid l.price = false := by
    intro l hl hnot
    by_contra hin
    have hq : b.qtyAt l.price ≠ 0 := by
      rw [b.qtyAt_of_mem hl]
      exact (b.positive l hl).ne'
    obtain ⟨l', hl', hprice⟩ := h.complete l.price hq (by simpa using hin)
    have heq : l' = l := b.eq_of_price_eq (hsub l' (List.mem_reverse.mpr hl')) hl hprice
    exact hnot (List.mem_reverse.mpr (heq ▸ hl'))
  have hprefix : s.levels.reverse <+: b.levels := by
    refine ranked_prefix (fun x y hxy hyx => ?_) (List.pairwise_reverse.mpr h.sorted)
      b.ranked hsub fun l hl hnot x hx => ?_
    · simp [better_asymm hxy] at hyx
    · have hout := hmissing l hl hnot
      have hin := h.inside x (List.mem_reverse.mp hx)
      by_contra hxl
      simp [inHorizon_of_not_better hin (by simpa using hxl)] at hout
  by_cases hlen : n ≤ s.levels.length
  · exact take_eq_of_prefix hprefix (by simpa using hlen)
  -- fewer levels than asked for, so the side is unbounded and knows everything
  have hunbounded : s.bounded = false := by simpa [below, not_le.mp hlen] using hn
  have hall : s.levels.reverse = b.levels := by
    refine List.IsPrefix.eq_of_length_le hprefix ?_
    refine List.Subperm.length_le (List.subperm_of_subset ?_ fun l hl => ?_)
    · exact b.ranked.imp fun {x y} hxy heq => by simp [heq, better_irrefl] at hxy
    · by_contra hnot
      simpa [inHorizon, hunbounded] using hmissing l hl hnot
  rw [hall]

end Side

end TickToSignal.OrderBook
