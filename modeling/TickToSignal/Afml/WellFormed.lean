import TickToSignal.Afml.Numbering
import Mathlib.Data.Rat.Sqrt
import Mathlib.Algebra.Order.BigOperators.Group.List
import Mathlib.Algebra.Order.Ring.Defs
import Mathlib.Tactic.NormNum

/-!
# What a bar says of its ticks

Whatever the mode and the day, a recorded bar is made of ticks of that day. So
its prices are ordered, its volumes add up and it ends no earlier than it
starts, provided that the ticks have positive prices and quantities and are in
time order.
-/

namespace TickToSignal.Afml

open Foundation

variable {S K : Type*} [Ring K] [LinearOrder K]

/-- A trade as an exchange reports it. -/
structure Tick.Valid (t : Tick S K) : Prop where
  price_pos : 0 < t.price
  qty_pos : 0 < t.qty

/-- The ticks of a day: valid ones, in time order. -/
structure ValidTicks (t : List (Tick S K)) : Prop where
  valid : ∀ x ∈ t, x.Valid
  ordered : t.Pairwise fun x y => x.exchTradeTs ≤ y.exchTradeTs

theorem ValidTicks.sublist {t t' : List (Tick S K)} (ht : ValidTicks t) (h : t'.Sublist t) :
    ValidTicks t' :=
  ⟨fun x hx => ht.valid x (h.subset hx), ht.ordered.sublist h⟩

/-- The prices of a bar lie between a positive low and its high, its volumes add up, and it does not
end before it starts. -/
structure Bar.WellFormed (b : Bar S K) : Prop where
  prices : ∃ o h l c, b.opened = some o ∧ b.high = some h ∧ b.low = some l ∧ b.close = some c ∧
    0 < l ∧ (l ≤ o ∧ o ≤ h) ∧ (l ≤ c ∧ c ≤ h) ∧ l ≤ b.vwap ∧ b.vwap ≤ h
  times : ∃ start stop, b.barstart = some start ∧ b.barend = some stop ∧ start ≤ stop
  bqty_nonneg : 0 ≤ b.bqty
  sqty_nonneg : 0 ≤ b.sqty
  qty_eq : b.bqty + b.sqty = b.qty
  qty_pos : 0 < b.qty
  dqty_pos : 0 < b.dqty
  buys_le : b.buys ≤ b.ticks

section Sums
variable [IsStrictOrderedRing K] {t : List (Tick S K)}

omit [LinearOrder K] [IsStrictOrderedRing K] in
/-- Every tick is a buy or a sell. -/
theorem sum_buys_sells (f : Tick S K → K) (t : List (Tick S K)) :
    ((t.filter fun x => bt x.buyerIsMaker = 1).map f).sum +
      ((t.filter fun x => bt x.buyerIsMaker = -1).map f).sum = (t.map f).sum := by
  induction t with
  | nil => simp
  | cons x t ih =>
      cases hx : x.buyerIsMaker with
      | true => simp [hx, bt, ← ih, add_left_comm]
      | false => simp [hx, bt, ← ih, add_assoc]

theorem sum_nonneg_of_forall {f : Tick S K → K} {t : List (Tick S K)} (hf : ∀ x ∈ t, 0 < f x) :
    0 ≤ (t.map f).sum := by
  refine List.sum_nonneg fun y hy => ?_
  obtain ⟨x, hx, rfl⟩ := List.mem_map.mp hy
  exact (hf x hx).le

theorem sum_pos_of_forall {f : Tick S K → K} {t : List (Tick S K)} (hf : ∀ x ∈ t, 0 < f x)
    (hne : t ≠ []) : 0 < (t.map f).sum := by
  obtain ⟨x, rest, rfl⟩ := List.exists_cons_of_ne_nil hne
  rw [List.map_cons, List.sum_cons]
  exact add_pos_of_pos_of_nonneg (hf x List.mem_cons_self)
    (sum_nonneg_of_forall fun y hy => hf y (List.mem_cons_of_mem x hy))

/-- The money of ticks whose prices are bounded. -/
theorem mul_sum_le_sum_mul {l h : K} (hq : ∀ x ∈ t, 0 < x.qty) (hl : ∀ x ∈ t, l ≤ x.price)
    (hh : ∀ x ∈ t, x.price ≤ h) :
    (t.map Tick.qty).sum * l ≤ (t.map fun x => x.qty * x.price).sum ∧
      (t.map fun x => x.qty * x.price).sum ≤ (t.map Tick.qty).sum * h := by
  induction t with
  | nil => simp
  | cons x t ih =>
      obtain ⟨hx, hq⟩ := List.forall_mem_cons.mp hq
      obtain ⟨hxl, hl⟩ := List.forall_mem_cons.mp hl
      obtain ⟨hxh, hh⟩ := List.forall_mem_cons.mp hh
      obtain ⟨hlow, hhigh⟩ := ih hq hl hh
      simp only [List.map_cons, List.sum_cons, add_mul]
      exact ⟨add_le_add (mul_le_mul_of_nonneg_left hxl hx.le) hlow,
        add_le_add (mul_le_mul_of_nonneg_left hxh hx.le) hhigh⟩

end Sums

section Aggregate
variable [IsStrictOrderedRing K] {ops : Ops K}

omit [Ring K] [LinearOrder K] [IsStrictOrderedRing K] in
/-- The first of a list in time order is not after the last. -/
theorem head_le_getLast {t : List (Tick S K)}
    (ht : t.Pairwise fun x y => x.exchTradeTs ≤ y.exchTradeTs) {x y : Tick S K}
    (hx : t.head? = some x) (hy : t.getLast? = some y) : x.exchTradeTs ≤ y.exchTradeTs := by
  obtain ⟨rest, rfl⟩ := List.head?_eq_some_iff.mp hx
  rcases List.mem_cons.mp (List.mem_of_getLast? hy) with rfl | hin
  · exact le_rfl
  · exact (List.pairwise_cons.mp ht).1 y hin

/-- An aggregate of valid ticks is well formed. -/
theorem aggregate_wellFormed (hdiv : ∀ a b : K, 0 < b → b * ops.div a b = a) (s : S) (bn : Nat)
    {rows : List (Row S K)} (theta : Option K) (e : Expect K) (th : Option K) (warmup : Bool)
    (hrows : ValidTicks (rows.map Prod.fst)) (hne : rows ≠ []) :
    (aggregate ops s bn rows theta e th warmup).WellFormed := by
  have hne : rows.map Prod.fst ≠ [] := by simpa using hne
  obtain ⟨first, hfirst⟩ := Option.isSome_iff_exists.mp (List.isSome_head?.mpr hne)
  obtain ⟨last, hlast⟩ := Option.isSome_iff_exists.mp (List.getLast?_isSome.mpr hne)
  have hprices : (rows.map Prod.fst).map Tick.price ≠ [] := by simpa using hne
  obtain ⟨h, hmax⟩ := Option.isSome_iff_exists.mp (List.isSome_max?_of_ne_nil hprices)
  obtain ⟨l, hmin⟩ := Option.isSome_iff_exists.mp (List.isSome_min?_of_ne_nil hprices)
  obtain ⟨-, hle⟩ := List.max?_eq_some_iff.mp hmax
  obtain ⟨hlow, hge⟩ := List.min?_eq_some_iff.mp hmin
  have hbound : ∀ x ∈ rows.map Prod.fst, l ≤ x.price ∧ x.price ≤ h := fun x hx =>
    ⟨hge _ (List.mem_map_of_mem hx), hle _ (List.mem_map_of_mem hx)⟩
  have hqty : ∀ x ∈ rows.map Prod.fst, 0 < x.qty := fun x hx => (hrows.valid x hx).qty_pos
  have hsum := sum_pos_of_forall hqty hne
  obtain ⟨hmoney, hmoney'⟩ := mul_sum_le_sum_mul hqty (fun x hx => (hbound x hx).1)
    fun x hx => (hbound x hx).2
  have hvwap := hdiv ((rows.map Prod.fst).map fun x => x.qty * x.price).sum _ hsum
  refine ⟨⟨first.price, h, l, last.price, by simp [aggregate, hfirst], hmax, hmin,
    by simp [aggregate, hlast], ?_, hbound first (List.mem_of_head? hfirst),
    hbound last (List.mem_of_getLast? hlast), ?_, ?_⟩, ?_, ?_, ?_, ?_, hsum, ?_, ?_⟩
  · obtain ⟨x, hx, rfl⟩ := List.mem_map.mp hlow
    exact (hrows.valid x hx).price_pos
  · refine le_of_mul_le_mul_left ?_ hsum
    exact hmoney.trans hvwap.ge
  · refine le_of_mul_le_mul_left ?_ hsum
    exact hvwap.le.trans hmoney'
  · exact ⟨first.exchTradeTs, last.exchTradeTs, by simp [aggregate, hfirst],
      by simp [aggregate, hlast], head_le_getLast hrows.ordered hfirst hlast⟩
  · exact sum_nonneg_of_forall fun x hx => hqty x (List.mem_of_mem_filter hx)
  · exact sum_nonneg_of_forall fun x hx => hqty x (List.mem_of_mem_filter hx)
  · exact sum_buys_sells Tick.qty _
  · exact sum_pos_of_forall (fun x hx => mul_pos (hrows.valid x hx).price_pos (hqty x hx)) hne
  · exact List.length_filter_le _ _

end Aggregate

/-! ## Passes and runs -/

section Runs
variable {ops : Ops K} {mode : Mode} {t : List (Tick S K)}

theorem map_snd_zip_sublist {α β : Type*} (nums : List α) (xs : List β) :
    ((nums.zip xs).map Prod.snd).Sublist xs := by
  induction nums generalizing xs with
  | nil => exact List.nil_sublist _
  | cons n nums ih =>
      cases xs with
      | nil => exact List.nil_sublist _
      | cons x xs => exact (ih xs).cons_cons x

/-- A recorded group are rows of the day, in order. -/
theorem Pass.recorded_sublist {pass : Pass S K} {g : Nat × List (Row S K)}
    (hg : g ∈ pass.recorded ops mode t) : (g.2.map Prod.fst).Sublist t := by
  have hgroup : ∃ lo hi nums, g ∈ groupsIn lo hi (List.zip nums t.zipIdx) := by
    cases pass with
    | warmup target s =>
        simp only [Pass.recorded] at hg
        split_ifs at hg <;> exact ⟨_, _, _, hg⟩
    | adaptive alpha kappa sprev =>
        simp only [Pass.recorded] at hg
        split_ifs at hg <;> exact ⟨_, _, _, hg⟩
  obtain ⟨lo, hi, nums, hin⟩ := hgroup
  have hrows : g.2 = rowsOf g.1 (List.zip nums t.zipIdx) := (mem_groupsIn.mp hin).2.1
  have hzip : g.2.Sublist t.zipIdx := by
    rw [hrows, rowsOf]
    exact (List.filter_sublist.map Prod.snd).trans (map_snd_zip_sublist nums t.zipIdx)
  have hticks := hzip.map Prod.fst
  rwa [List.zipIdx_map_fst] at hticks

variable [IsStrictOrderedRing K] {dt : Int} {bars : List (Bar S K)} {row : StateRow S K}
  {target : Nat} {kappa : K} {s : S} {w : Day S K} {ds : List (ProcDay S K)}
  {db db' : Tables S K}

theorem Pass.wellFormed_bars (hdiv : ∀ a b : K, 0 < b → b * ops.div a b = a)
    (ht : ValidTicks t) {pass : Pass S K} (h : pass.run ops mode dt t = some (bars, row)) :
    ∀ b ∈ bars, b.WellFormed := by
  obtain ⟨s, e, theta, th, warmup, rfl⟩ := Pass.run_bars h
  intro b hb
  obtain ⟨g, hg, rfl⟩ := List.mem_map.mp hb
  exact aggregate_wellFormed hdiv s g.1 (theta g.2) e (th g.2) warmup
    (ht.sublist (Pass.recorded_sublist hg)) (Pass.recorded_ne_nil hg)

theorem proc_wellFormed (hdiv : ∀ a b : K, 0 < b → b * ops.div a b = a) {d : ProcDay S K}
    (hd : ValidTicks d.ticks) (hbars : ∀ b ∈ db.bars, b.WellFormed)
    (h : proc ops mode kappa db d = some db') : ∀ b ∈ db'.bars, b.WellFormed := by
  obtain ⟨⟨bars, row⟩, hrun, rfl⟩ := Option.map_eq_some_iff.mp h
  intro b hb
  exact (List.mem_append.mp hb).elim (hbars b) (Pass.wellFormed_bars hdiv hd hrun b)

theorem foldlM_wellFormed (hdiv : ∀ a b : K, 0 < b → b * ops.div a b = a)
    (hds : ∀ d ∈ ds, ValidTicks d.ticks) (hbars : ∀ b ∈ db.bars, b.WellFormed)
    (h : ds.foldlM (proc ops mode kappa) db = some db') : ∀ b ∈ db'.bars, b.WellFormed := by
  induction ds generalizing db with
  | nil =>
      obtain rfl := Option.some.inj h
      exact hbars
  | cons d ds ih =>
      obtain ⟨hd, hrest⟩ := List.forall_mem_cons.mp hds
      rw [List.foldlM_cons] at h
      obtain ⟨next, hproc, hdays⟩ := Option.bind_eq_some_iff.mp h
      exact ih hrest (proc_wellFormed hdiv hd hbars hproc) hdays

theorem run_wellFormed (hdiv : ∀ a b : K, 0 < b → b * ops.div a b = a)
    (hw : ValidTicks w.ticks) (hds : ∀ d ∈ ds, ValidTicks d.ticks)
    (h : run ops mode target kappa s w ds = some db) : ∀ b ∈ db.bars, b.WellFormed := by
  obtain ⟨start, hwarm, hdays⟩ := Option.bind_eq_some_iff.mp h
  obtain ⟨⟨bars, row⟩, hrun, rfl⟩ := Option.map_eq_some_iff.mp hwarm
  exact foldlM_wellFormed hdiv hds (Pass.wellFormed_bars hdiv hw hrun) hdays

/-- In every mode and over any number of days, every bar of the warm-up and of the adaptive passes
is well formed. -/
theorem bars_wellFormed (ops : Ops K) (hdiv : ∀ a b : K, 0 < b → b * ops.div a b = a)
    (mode : Mode) (target : Nat) (kappa : K) (s : S) {w : Day S K} (hw : ValidTicks w.ticks)
    {ds : List (ProcDay S K)} (hds : ∀ d ∈ ds, ValidTicks d.ticks) :
    ∃ db, run ops mode target kappa s w ds = some db ∧ ∀ b ∈ db.bars, b.WellFormed := by
  obtain ⟨db, hrun⟩ := exists_run ops mode target kappa s w ds
  exact ⟨db, hrun, run_wellFormed hdiv hw hds hrun⟩

end Runs

/-- Exact division and the square root of rationals that have one. -/
def rationalOps : Ops ℚ := { div := fun x y => x / y, sqrt := Rat.sqrt }

theorem rationalOps_div (a b : ℚ) (hb : 0 < b) : b * rationalOps.div a b = a :=
  mul_div_cancel₀ a hb.ne'

/-- A buy and a later sell. -/
def twoTicks : List (Tick String ℚ) :=
  [{ sym := "BTCUSDT", exchTradeTs := 1, price := 100, qty := 2, buyerIsMaker := false },
    { sym := "BTCUSDT", exchTradeTs := 2, price := 101, qty := 1, buyerIsMaker := true }]

theorem twoTicks_valid : ValidTicks twoTicks where
  valid x hx := by
    simp only [twoTicks, List.mem_cons, List.not_mem_nil, or_false] at hx
    obtain rfl | rfl := hx <;> exact ⟨by norm_num, by norm_num⟩
  ordered := by simp [twoTicks]

theorem bars_wellFormed_two_days :
    ∃ db, run rationalOps .drb 1 0 "BTCUSDT" ⟨14, twoTicks, List.cons_ne_nil _ _⟩
        [⟨⟨15, twoTicks, List.cons_ne_nil _ _⟩, 100⟩] = some db ∧
      ∀ b ∈ db.bars, b.WellFormed :=
  bars_wellFormed rationalOps rationalOps_div .drb 1 0 "BTCUSDT" twoTicks_valid
    (by simpa using twoTicks_valid)

end TickToSignal.Afml
