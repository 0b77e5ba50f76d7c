import TickToSignal.Afml.WellFormed
import TickToSignal.Ml.Features
import Mathlib.Algebra.Order.Field.Basic
import Mathlib.Data.List.ReduceOption
import Mathlib.Tactic.Linarith
import Mathlib.Tactic.Positivity

/-!
# Bounds of the features of recorded bars

In exact arithmetic the features that are shares of a whole, or compare the two
sides of a bar, stay in their range for the bars of every run. A quotient by
zero is null; floats make it a null or an infinity.
-/

namespace TickToSignal.Ml

open Foundation

variable {S K : Type*} [Field K] [LinearOrder K]

/-- What is left a parameter: logarithms, powers, and the cast of a time span to seconds. -/
structure Elementary (K : Type*) where
  log : Option K → Option K
  xexp : Option K → Option K → Option K
  seconds : Int → Int

/-- Exact arithmetic with nulls. -/
def exact (el : Elementary K) : FloatOps (Option K) where
  null := none
  isNull x := x.isNone
  num i := some i
  half := some (1 / (2 : ℕ))
  add := Option.map₂ (· + ·)
  sub := Option.map₂ (· - ·)
  mul := Option.map₂ (· * ·)
  div a b := a.bind fun a => b.bind fun b => if b = 0 then none else some (a / b)
  xexp := el.xexp
  neg := Option.map (- ·)
  abs := Option.map (|·|)
  log := el.log
  -- a null is less than every number
  lt a b := b.any fun b => a.all fun a => decide (a < b)
  eq a b := decide (a = b)
  seconds := el.seconds

/-- `.afml.clean`: the bars after the warm-up, numbered again. -/
def clean (bars : List (Afml.Bar S K)) : List (DibBar S (Option K)) :=
  (bars.filter fun b => ! b.warmup).zipIdx.map fun b =>
    { bn := 1 + b.2
      sym := b.1.sym
      barstart := b.1.barstart.getD 0
      barend := b.1.barend.getD 0
      close := b.1.close
      high := b.1.high
      low := b.1.low
      theta := b.1.theta
      dqty := some b.1.dqty
      bqty := some b.1.bqty
      sqty := some b.1.sqty
      ticks := b.1.ticks }

variable {el : Elementary K}

/-- What a cleaned bar shows of a well-formed one. -/
structure Sane (b : DibBar S (Option K)) : Prop where
  prices : ∃ h l c, b.high = some h ∧ b.low = some l ∧ b.close = some c ∧ 0 < l ∧ l ≤ c ∧ c ≤ h
  volumes : ∃ bq sq, b.bqty = some bq ∧ b.sqty = some sq ∧ 0 ≤ bq ∧ 0 ≤ sq ∧ 0 < bq + sq

theorem clean_sane {bars : List (Afml.Bar S K)} (hbars : ∀ b ∈ bars, b.WellFormed) :
    ∀ b ∈ clean bars, Sane b := by
  intro b hb
  obtain ⟨⟨bar, i⟩, hin, rfl⟩ := List.mem_map.mp hb
  have hbar := hbars bar (List.mem_of_mem_filter (List.fst_mem_of_mem_zipIdx hin))
  obtain ⟨o, h, l, c, -, hhigh, hlow, hclose, hpos, -, ⟨hlc, hch⟩, -, -⟩ := hbar.prices
  exact ⟨⟨h, l, c, hhigh, hlow, hclose, hpos, hlc, hch⟩,
    ⟨bar.bqty, bar.sqty, rfl, rfl, hbar.bqty_nonneg, hbar.sqty_nonneg,
      hbar.qty_eq.symm ▸ hbar.qty_pos⟩⟩

/-- The range of a feature that has one. -/
def Feature.range : Feature → Option (K × K)
  | .closePosition => some (0, 1)
  | .buyPct => some (0, 1)
  | .vpin => some (0, 1)
  | .tradeImbalance => some (-1, 1)
  | .rsi => some (0, (100 : ℕ))
  | _ => none

/-! ## Averages -/

theorem exact_div_some {a b x : K} :
    (exact el).div (some a) (some b) = some x ↔ b ≠ 0 ∧ a / b = x := by
  simp only [exact, Option.bind_some]
  split_ifs with hb <;> simp [hb]

omit [LinearOrder K] in
theorem foldl_add_known (l : List (Option K)) (a : K) :
    (l.filter fun x => ! x.isNone).foldl (Option.map₂ (· + ·)) (some a) =
      some (a + l.reduceOption.sum) := by
  induction l generalizing a with
  | nil => simp
  | cons x l ih =>
      cases x with
      | none => simpa using ih a
      | some x => simpa [add_assoc] using ih (a + x)

omit [Field K] [LinearOrder K] in
theorem length_known (l : List (Option K)) :
    (l.filter fun x => ! x.isNone).length = l.reduceOption.length := by
  induction l with
  | nil => rfl
  | cons x l ih =>
      cases x with
      | none => simpa using ih
      | some x => simpa using ih

/-- The average of what is known. -/
theorem avg_exact [CharZero K] (l : List (Option K)) :
    avg (exact el) l =
      if l.reduceOption = [] then none else some (l.reduceOption.sum / l.reduceOption.length) := by
  have hempty : (l.filter fun x => ! x.isNone) = [] ↔ l.reduceOption = [] := by
    rw [← List.length_eq_zero_iff, length_known, List.length_eq_zero_iff]
  change (if (l.filter fun x => ! x.isNone) = [] then none
    else (exact el).div
      ((l.filter fun x => ! x.isNone).foldl (Option.map₂ (· + ·)) (some ((0 : Int) : K)))
      (some (((l.filter fun x => ! x.isNone).length : Int) : K))) = _
  rw [foldl_add_known, length_known]
  simp only [hempty]
  split_ifs with hnone
  · rfl
  · have hpos : (l.reduceOption.length : K) ≠ 0 := by
      have hlen : l.reduceOption.length ≠ 0 := mt List.length_eq_zero_iff.mp hnone
      exact_mod_cast hlen
    rw [Int.cast_natCast, Int.cast_zero, zero_add]
    exact exact_div_some.mpr ⟨hpos, rfl⟩

section Ordered
variable [IsStrictOrderedRing K]

/-- Null or not negative. -/
def Nonneg (v : Option K) : Prop := ∀ x, v = some x → 0 ≤ x

theorem avg_nonneg {l : List (Option K)} (hl : ∀ v ∈ l, Nonneg v) :
    Nonneg (avg (exact el) l) := by
  intro y hy
  rw [avg_exact] at hy
  split_ifs at hy
  obtain rfl := Option.some.inj hy
  refine div_nonneg (List.sum_nonneg fun x hx => ?_) (Nat.cast_nonneg _)
  exact hl _ (List.reduceOption_mem_iff.mp hx) x rfl

/-- The averages of two columns of the same bars, the first between zero and the second. -/
theorem avg_ratio {α : Type*} {f g : α → K} {l : List α} (hf : ∀ a ∈ l, 0 ≤ f a)
    (hfg : ∀ a ∈ l, f a ≤ g a) {x : K}
    (hx : (exact el).div (avg (exact el) (l.map fun a => some (f a)))
      (avg (exact el) (l.map fun a => some (g a))) = some x) :
    0 ≤ x ∧ x ≤ 1 := by
  have hknown : ∀ f : α → K, (l.map fun a => some (f a)).reduceOption = l.map f := by
    intro f
    clear hf hfg hx
    induction l with
    | nil => rfl
    | cons a l ih => simpa using ih
  rw [avg_exact, avg_exact, hknown, hknown] at hx
  have hfsum : 0 ≤ (l.map f).sum := List.sum_nonneg fun y hy => by
    obtain ⟨a, ha, rfl⟩ := List.mem_map.mp hy
    exact hf a ha
  have hle : (l.map f).sum ≤ (l.map g).sum := List.sum_le_sum hfg
  have hlen : (0 : K) ≤ (l.length : K) := Nat.cast_nonneg _
  by_cases hnone : l = []
  · subst hnone
    cases hx
  · rw [if_neg (by simpa using hnone), if_neg (by simpa using hnone), exact_div_some,
      List.length_map, List.length_map] at hx
    obtain ⟨-, rfl⟩ := hx
    have hgsum := div_nonneg (hfsum.trans hle) hlen
    exact ⟨div_nonneg (div_nonneg hfsum hlen) hgsum,
      div_le_one_of_le₀ (div_le_div_of_nonneg_right hle hlen) hgsum⟩

/-! ## Relative strength -/

theorem forall_scan {σ α : Type*} {P : σ → Prop} {f : σ → α → σ} {xs : List α}
    (hstep : ∀ s, ∀ x ∈ xs, P s → P (f s x)) {s : σ} (hs : P s) : ∀ t ∈ scan f s xs, P t := by
  induction xs generalizing s with
  | nil => simp [scan]
  | cons x xs ih =>
      have hnext := hstep s x List.mem_cons_self hs
      simp only [scan, List.forall_mem_cons]
      exact ⟨hnext, ih (fun s y hy => hstep s y (List.mem_cons_of_mem x hy)) hnext⟩

omit [IsStrictOrderedRing K] in
theorem nonneg_take {n : ℕ} {y : List (Option K)} (hy : ∀ v ∈ y, Nonneg v) :
    ∀ v ∈ take (exact el) n y, Nonneg v := by
  intro v hv
  obtain ⟨i, -, rfl⟩ := List.mem_map.mp hv
  rcases lt_or_ge (i % y.length) y.length with hlt | hge
  · rw [List.getD_eq_getElem?_getD, List.getElem?_eq_getElem hlt, Option.getD_some]
    exact hy _ (List.getElem_mem hlt)
  · rw [List.getD_eq_getElem?_getD, List.getElem?_eq_none hge, Option.getD_none]
    intro x hx
    cases hx

/-- A smoothed average of what is not negative is not negative. -/
theorem nonneg_relativeStrength {y : List (Option K)} (hy : ∀ v ∈ y, Nonneg v) :
    ∀ v ∈ Tech.relativeStrength (exact el) 14 y, Nonneg v := by
  have hstart : Nonneg (avg (exact el) (take (exact el) 15 y)) := avg_nonneg (nonneg_take hy)
  intro v hv
  simp only [Tech.relativeStrength, List.mem_append, List.mem_cons] at hv
  rcases hv with hpad | rfl | hscan
  · obtain rfl := List.eq_of_mem_replicate hpad
    intro x hx
    cases hx
  · exact hstart
  · refine forall_scan (P := Nonneg) (fun s w hw hs => ?_) hstart v hscan
    have hw := hy w (List.mem_of_mem_drop hw)
    intro x hx
    cases s with
    | none => cases w <;> cases hx
    | some s =>
        cases w with
        | none => cases hx
        | some w =>
            have hx : (exact el).div (some (w + s * (((14 : Int) : K) - 1)))
                (some ((14 : Int) : K)) = some x := by
              simpa [exact] using hx
            obtain ⟨-, rfl⟩ := exact_div_some.mp hx
            have hs0 := hs s rfl
            have hw0 := hw w rfl
            have hthirteen : (((14 : Int) : K) - 1) = 13 := by norm_num
            rw [hthirteen]
            positivity

omit [IsStrictOrderedRing K] in
theorem nonneg_gains (diff : List (Option K)) :
    ∀ v ∈ Tech.gains (exact el) diff, Nonneg v := by
  intro v hv
  obtain ⟨d, -, rfl⟩ := List.mem_map.mp hv
  intro x hx
  split_ifs at hx with hlt
  · subst hx
    exact (by simpa [exact] using hlt : (0 : K) < x).le
  · obtain rfl : 0 = x := by simpa [exact] using hx
    exact le_rfl

theorem nonneg_losses (diff : List (Option K)) :
    ∀ v ∈ Tech.losses (exact el) diff, Nonneg v := by
  intro v hv
  obtain ⟨d, -, rfl⟩ := List.mem_map.mp hv
  intro x hx
  cases d with
  | none => simp [exact] at hx
  | some d =>
      split_ifs at hx with hlt
      · obtain rfl : - d = x := by simpa [exact] using hx
        have hneg : d < 0 := by simpa [exact] using hlt
        exact neg_nonneg.mpr hneg.le
      · obtain rfl : 0 = x := by simpa [exact] using hx
        exact le_rfl

/-- A share of a hundred, of two strengths that are not negative. -/
theorem rsi_range {g l : Option K} (hg : Nonneg g) (hl : Nonneg l) {y : K}
    (hy : (exact el).mul ((exact el).num 100) ((exact el).div ((exact el).div g l)
      ((exact el).add ((exact el).num 1) ((exact el).div g l))) = some y) :
    0 ≤ y ∧ y ≤ 100 := by
  cases hrs : (exact el).div g l with
  | none =>
      rw [hrs] at hy
      cases hy
  | some rs =>
      have hrs0 : 0 ≤ rs := by
        cases g with
        | none => cases hrs
        | some g =>
            cases l with
            | none => cases hrs
            | some l =>
                obtain ⟨-, rfl⟩ := exact_div_some.mp hrs
                exact div_nonneg (hg g rfl) (hl l rfl)
      have hpos : 0 < 1 + rs := by positivity
      have hshare : (exact el).div (some rs) (some (1 + rs)) = some (rs / (1 + rs)) :=
        exact_div_some.mpr ⟨hpos.ne', rfl⟩
      have hy : some (100 * (rs / (1 + rs))) = some y := by
        rw [hrs] at hy
        simpa [exact, hpos.ne'] using hy
      obtain rfl := Option.some.inj hy
      have hlow : 0 ≤ rs / (1 + rs) := div_nonneg hrs0 hpos.le
      have hhigh : rs / (1 + rs) ≤ 1 := (div_le_one hpos).mpr (by linarith)
      constructor
      · positivity
      · linarith

theorem mem_zipWith {α β γ : Type*} {f : α → β → γ} {xs : List α} {ys : List β} {z : γ}
    (hz : z ∈ List.zipWith f xs ys) : ∃ x ∈ xs, ∃ y ∈ ys, f x y = z := by
  rw [← List.map_uncurry_zip_eq_zipWith] at hz
  obtain ⟨⟨x, y⟩, hxy, rfl⟩ := List.mem_map.mp hz
  obtain ⟨hx, hy⟩ := List.of_mem_zip hxy
  exact ⟨x, hx, y, hy, rfl⟩

/-! ## The ranges -/

theorem tradeImbalance_range {b : DibBar S (Option K)} (hb : Sane b) {x : K}
    (hx : (exact el).div ((exact el).sub b.bqty b.sqty) ((exact el).add b.bqty b.sqty) = some x) :
    -1 ≤ x ∧ x ≤ 1 := by
  obtain ⟨bq, sq, hbq, hsq, hbq0, hsq0, hpos⟩ := hb.volumes
  rw [hbq, hsq] at hx
  obtain ⟨-, rfl⟩ := exact_div_some.mp hx
  constructor
  · rw [le_div_iff₀ hpos]
    linarith
  · rw [div_le_one hpos]
    linarith

theorem buyPct_range {b : DibBar S (Option K)} (hb : Sane b) {x : K}
    (hx : (exact el).div b.bqty ((exact el).add b.bqty b.sqty) = some x) : 0 ≤ x ∧ x ≤ 1 := by
  obtain ⟨bq, sq, hbq, hsq, hbq0, hsq0, hpos⟩ := hb.volumes
  rw [hbq, hsq] at hx
  obtain ⟨-, rfl⟩ := exact_div_some.mp hx
  constructor
  · exact div_nonneg hbq0 hpos.le
  · rw [div_le_one hpos]
    linarith

theorem closePosition_range {b : DibBar S (Option K)} (hb : Sane b) {x : K}
    (hx : (if (exact el).eq ((exact el).sub b.high b.low) ((exact el).num 0) then (exact el).half
      else (exact el).div ((exact el).sub b.close b.low) ((exact el).sub b.high b.low)) = some x) :
    0 ≤ x ∧ x ≤ 1 := by
  obtain ⟨h, l, c, hhigh, hlow, hclose, -, hlc, hch⟩ := hb.prices
  rw [hhigh, hlow, hclose] at hx
  split_ifs at hx
  · obtain rfl : 1 / (2 : ℕ) = x := Option.some.inj hx
    constructor <;> norm_num
  · obtain ⟨-, rfl⟩ := exact_div_some.mp hx
    exact ⟨div_nonneg (by linarith) (by linarith), div_le_one_of_le₀ (by linarith) (by linarith)⟩

/-- The volumes of a bar, zero where there is none. -/
def volume (v : Option K) : K := v.getD 0

omit [IsStrictOrderedRing K] in
/-- A column of sane bars in terms of their volumes. -/
theorem map_volumes (op : Option K → Option K → Option K) (f : K → K → K)
    {dib : List (DibBar S (Option K))} (hdib : ∀ b ∈ dib, Sane b)
    (hop : ∀ x y, op (some x) (some y) = some (f x y)) :
    (dib.map fun b => op b.bqty b.sqty) =
      dib.map fun b => some (f (volume b.bqty) (volume b.sqty)) := by
  refine List.map_congr_left fun b hb => ?_
  obtain ⟨bq, sq, hbq, hsq, -⟩ := (hdib b hb).volumes
  rw [hbq, hsq]
  exact hop bq sq

theorem vpin_range {dib : List (DibBar S (Option K))} (hdib : ∀ b ∈ dib, Sane b) (n : ℕ) {x : K}
    (hx : some x ∈ Flow.vpin (exact el) n dib) : 0 ≤ x ∧ x ≤ 1 := by
  have himb := map_volumes (fun bq sq => (exact el).abs ((exact el).sub bq sq))
    (fun bq sq => |bq - sq|) hdib fun _ _ => rfl
  have htot := map_volumes (exact el).add (fun bq sq => bq + sq) hdib fun _ _ => rfl
  simp only [Flow.vpin, himb, htot, mavg, List.length_map, List.zipWith_map,
    List.zipWith_self] at hx
  obtain ⟨i, -, hi⟩ := List.mem_map.mp hx
  rw [← List.map_take, ← List.map_take, newest, newest, List.length_map, List.length_map,
    ← List.map_drop, ← List.map_drop] at hi
  refine avg_ratio (fun b _ => abs_nonneg _) (fun b hb => ?_) hi
  have hin := List.mem_of_mem_take (List.mem_of_mem_drop hb)
  obtain ⟨bq, sq, hbq, hsq, hbq0, hsq0, -⟩ := (hdib b hin).volumes
  rw [hbq, hsq]
  exact abs_le.mpr ⟨by simp only [volume, Option.getD_some]; linarith,
    by simp only [volume, Option.getD_some]; linarith⟩

theorem rsi_feature_range {dib : List (DibBar S (Option K))} {x : K}
    (hx : some x ∈ Tech.rsi (exact el) dib) : 0 ≤ x ∧ x ≤ 100 := by
  obtain ⟨r, hr, hmul⟩ := List.mem_map.mp hx
  obtain ⟨g, hg, l, hl, rfl⟩ := mem_zipWith hr
  exact rsi_range (nonneg_relativeStrength (nonneg_gains _) g hg)
    (nonneg_relativeStrength (nonneg_losses _) l hl) hmul

/-- A feature that has a range stays in it, for bars that are sane. -/
theorem reg_range {dib : List (DibBar S (Option K))} (hdib : ∀ b ∈ dib, Sane b) (n : ℕ)
    {f : Feature} {lo hi : K} (hrange : f.range = some (lo, hi)) {x : K}
    (hx : some x ∈ reg (exact el) n dib f) : lo ≤ x ∧ x ≤ hi := by
  cases f with
  | closePosition =>
      obtain ⟨rfl, rfl⟩ := Prod.mk.inj (Option.some.inj hrange)
      obtain ⟨b, hb, hbx⟩ := List.mem_map.mp hx
      exact closePosition_range (hdib b hb) hbx
  | buyPct =>
      obtain ⟨rfl, rfl⟩ := Prod.mk.inj (Option.some.inj hrange)
      obtain ⟨b, hb, hbx⟩ := List.mem_map.mp hx
      exact buyPct_range (hdib b hb) hbx
  | tradeImbalance =>
      obtain ⟨rfl, rfl⟩ := Prod.mk.inj (Option.some.inj hrange)
      obtain ⟨b, hb, hbx⟩ := List.mem_map.mp hx
      exact tradeImbalance_range (hdib b hb) hbx
  | vpin =>
      obtain ⟨rfl, rfl⟩ := Prod.mk.inj (Option.some.inj hrange)
      exact vpin_range hdib n hx
  | rsi =>
      obtain ⟨rfl, rfl⟩ := Prod.mk.inj (Option.some.inj hrange)
      exact rsi_feature_range hx
  | _ => cases hrange

/-- In exact arithmetic and for the cleaned bars of any run over days of valid ticks: position of
the close, share of buys, vpin and imbalance, and the index of relative strength are null or in
their range. -/
theorem features_in_range (el : Elementary K) {ops : Afml.Ops K}
    (hdiv : ∀ a b : K, 0 < b → b * ops.div a b = a) (mode : Afml.Mode) (target : ℕ) (kappa : K)
    (s : S) {w : Afml.Day S K} (hw : Afml.ValidTicks w.ticks) {ds : List (Afml.ProcDay S K)}
    (hds : ∀ d ∈ ds, Afml.ValidTicks d.ticks) (n : ℕ) :
    ∃ db, Afml.run ops mode target kappa s w ds = some db ∧
      ∀ f lo hi, Feature.range f = some (lo, hi) →
        ∀ x, some x ∈ reg (exact el) n (clean db.bars) f → lo ≤ x ∧ x ≤ hi := by
  obtain ⟨db, hrun⟩ := Afml.exists_run ops mode target kappa s w ds
  have hbars := Afml.run_wellFormed hdiv hw hds hrun
  exact ⟨db, hrun, fun f lo hi hrange x hx => reg_range (clean_sane hbars) n hrange hx⟩

end Ordered

/-- Logarithm and power are not read by the features that have a range. -/
def noElementary : Elementary ℚ where
  log _ := none
  xexp _ _ := none
  seconds ns := ns / 1000000000

theorem features_in_range_two_days :
    ∃ db, Afml.run Afml.rationalOps .drb 1 0 "BTCUSDT" ⟨14, Afml.twoTicks, List.cons_ne_nil _ _⟩
        [⟨⟨15, Afml.twoTicks, List.cons_ne_nil _ _⟩, 100⟩] = some db ∧
      ∀ f lo hi, Feature.range f = some (lo, hi) →
        ∀ x, some x ∈ reg (exact noElementary) 20 (clean db.bars) f → lo ≤ x ∧ x ≤ hi :=
  features_in_range noElementary Afml.rationalOps_div .drb 1 0 "BTCUSDT" Afml.twoTicks_valid
    (by simpa using Afml.twoTicks_valid) 20

end TickToSignal.Ml
