import Mathlib.Algebra.Order.Ring.Abs
import Mathlib.Algebra.Field.Basic
import Mathlib.Analysis.SpecialFunctions.Log.Basic
import Mathlib.Data.List.Sort
import Mathlib.Data.Sign.Basic

/-!
# Triple-barrier labels

A trade is entered at the close of each bar. The first later bar within the
horizon at which the high reaches the upper barrier or the low the lower one
decides its label; if there is none, the close of the last bar of the horizon
does.

## Implementation notes

Prices are numbers of an ordered field. A null is `none`; an index past the end
of a vector has no result. The logarithm is a parameter, null where it has no
value, and what is computed from a null is null.
-/

namespace TickToSignal.Labels

variable {S K : Type*}

/-- The columns of the bars table that are read. -/
structure PriceBar (S K : Type*) where
  sym : S
  bn : Int
  close : K
  high : K
  low : K
  deriving DecidableEq, Repr

inductive Reason
  | upper
  | lower
  | sameBar
  | vertical
  | noSigma
  | noFuture
  deriving DecidableEq, Repr

/-- The label of one bar. -/
structure Label (K : Type*) where
  endBn : Option Int := none
  upperPx : Option K := none
  lowerPx : Option K := none
  label : Option Int := none
  retAtTouch : Option K := none
  reason : Reason
  deriving DecidableEq, Repr

/-- The vectors of one symbol, bundled. -/
structure Series (K : Type*) where
  closes : List K
  highs : List K
  lows : List K
  bns : List Int

/-- A bar of the result. -/
structure LabelRow (S K : Type*) where
  sym : S
  bn : Int
  close : K
  sigma : Option K
  label : Label K
  deriving DecidableEq, Repr

/-- The parameters of the labels. -/
structure Cfg (K : Type*) where
  pt : K
  sl : K
  h : Int
  sigmaSpan : Nat

section Model
variable [Field K] [LinearOrder K]

/-- Exponentially weighted average of the absolute log returns; null at the first bar. -/
def sigma (log : K → Option K) (closes : List K) (n : Nat) : List (Option K) :=
  let rets := List.zipWith (fun close prev => log (close / prev)) closes.tail closes
  let absRets := rets.map (Option.map abs)
  match absRets with
  | [] => [none]
  | first :: _ =>
      let alpha : K := (2 : Nat) / (n + 1)
      let f : Option K → Option K → Option K := fun x y =>
        x.bind fun x => y.map fun y => alpha * y + (1 - alpha) * x
      none :: (List.scanl f first absRets).tail

/-- Find the first barrier hit in a window: its offset and label, a null if there is none. -/
def firstHit (upperPx lowerPx : K) (highs lows : List K) : Option (Nat × Int) :=
  if highs.isEmpty then none
  else
    let upHits := highs.map fun high => decide (high ≥ upperPx)
    let dnHits := lows.map fun low => decide (low ≤ lowerPx)
    let anyHit := List.zipWith (· || ·) upHits dnHits
    (anyHit.findIdx? id).map fun firstIdx =>
      let u := upHits.getD firstIdx false
      let d := dnHits.getD firstIdx false
      (firstIdx, if u && d then 0 else if u then 1 else -1)

/-- The label of bar `i`. -/
def labelBar (v : Series K) (sigmas : List (Option K)) (pt sl : K) (h : Int) (n i : Nat) :
    Option (Label K) :=
  sigmas[i]?.bind fun sigma? =>
    match sigma? with
    | none => some { reason := .noSigma }
    | some sigma =>
        v.closes[i]?.bind fun cp =>
          let upperPx := cp * (1 + pt * sigma)
          let lowerPx := cp * (1 - sl * sigma)
          let endIdx : Int := min (n - 1) (i + h)
          if endIdx ≤ i then
            some { upperPx := some upperPx, lowerPx := some lowerPx, reason := .noFuture }
          else
            -- the bars `i + 1` to `endIdx`
            let sliceHighs := (v.highs.drop (i + 1)).take (endIdx - i).toNat
            let sliceLows := (v.lows.drop (i + 1)).take (endIdx - i).toNat
            let hit := firstHit upperPx lowerPx sliceHighs sliceLows
            let hitIdx := hit.elim endIdx.toNat fun hit => i + 1 + hit.1
            v.closes[hitIdx]?.bind fun exit =>
              v.bns[hitIdx]?.map fun endBn =>
                let closeRet := (exit - cp) / cp
                let labelFinal : Int :=
                  hit.elim (if closeRet > 0 then 1 else if closeRet < 0 then -1 else 0)
                    fun hit => hit.2
                let reason : Reason :=
                  if hit.isNone then .vertical
                  else if labelFinal = 0 then .sameBar
                  else if labelFinal = 1 then .upper
                  else .lower
                let ret :=
                  match reason with
                  | .vertical => closeRet
                  | .upper => pt * sigma
                  | .lower => -(sl * sigma)
                  | .sameBar | .noSigma | .noFuture => 0
                { endBn := some endBn
                  upperPx := some upperPx
                  lowerPx := some lowerPx
                  label := some labelFinal
                  retAtTouch := some ret
                  reason := reason }

variable [DecidableEq S]

/-- The bars of one symbol, in bar-number order. -/
def barsOf (barsT : List (PriceBar S K)) (symb : S) : List (PriceBar S K) :=
  (barsT.filter fun b => b.sym = symb).mergeSort fun a b => a.bn ≤ b.bn

def seriesOf (bars : List (PriceBar S K)) : Series K where
  closes := bars.map PriceBar.close
  highs := bars.map PriceBar.high
  lows := bars.map PriceBar.low
  bns := bars.map PriceBar.bn

/-- Labels for all bars of one symbol; columns of different lengths make no table. -/
def computeOne (log : K → Option K) (cfg : Cfg K) (barsT : List (PriceBar S K)) (symb : S) :
    Option (List (LabelRow S K)) :=
  let bars := barsOf barsT symb
  let n := bars.length
  let sigmas := sigma log (bars.map PriceBar.close) cfg.sigmaSpan
  if sigmas.length = n then
    ((List.range n).mapM (labelBar (seriesOf bars) sigmas cfg.pt cfg.sl cfg.h n)).map fun results =>
      List.zipWith (fun (b : PriceBar S K) (r : Option K × Label K) =>
        { sym := symb, bn := b.bn, close := b.close, sigma := r.1, label := r.2 })
        bars (sigmas.zip results)
  else none

end Model

/-! ## What a label says -/

section Spec
variable [Field K] [LinearOrder K]

/-- The high reaches the upper barrier, or the low the lower one. -/
def Touches (upperPx lowerPx : K) (b : PriceBar S K) : Prop :=
  upperPx ≤ b.high ∨ b.low ≤ lowerPx

/-- Bar `j` is the first after bar `i` that touches a barrier. -/
structure FirstTouch (bars : List (PriceBar S K)) (upperPx lowerPx : K) (i j : Nat)
    (b : PriceBar S K) : Prop where
  after : i < j
  bar : bars[j]? = some b
  touches : Touches upperPx lowerPx b
  first : ∀ k, i < k → k < j → ∀ b' ∈ bars[k]?, ¬ Touches upperPx lowerPx b'

/-- The label of a trade entered at the close `cp` of bar `i`, with the volatility `sigma`, and
with bar `last` at the end of its horizon. -/
inductive TripleBarrier (bars : List (PriceBar S K)) (pt sl cp sigma : K) (i last : Nat) :
    Label K → Prop
  | upper {j : Nat} {b : PriceBar S K}
      (hfirst : FirstTouch bars (cp * (1 + pt * sigma)) (cp * (1 - sl * sigma)) i j b)
      (hj : j ≤ last) (hhigh : cp * (1 + pt * sigma) ≤ b.high)
      (hlow : ¬ b.low ≤ cp * (1 - sl * sigma)) :
      TripleBarrier bars pt sl cp sigma i last
        ⟨some b.bn, some (cp * (1 + pt * sigma)), some (cp * (1 - sl * sigma)), some 1,
          some (pt * sigma), .upper⟩
  | lower {j : Nat} {b : PriceBar S K}
      (hfirst : FirstTouch bars (cp * (1 + pt * sigma)) (cp * (1 - sl * sigma)) i j b)
      (hj : j ≤ last) (hhigh : ¬ cp * (1 + pt * sigma) ≤ b.high)
      (hlow : b.low ≤ cp * (1 - sl * sigma)) :
      TripleBarrier bars pt sl cp sigma i last
        ⟨some b.bn, some (cp * (1 + pt * sigma)), some (cp * (1 - sl * sigma)), some (-1),
          some (-(sl * sigma)), .lower⟩
  | sameBar {j : Nat} {b : PriceBar S K}
      (hfirst : FirstTouch bars (cp * (1 + pt * sigma)) (cp * (1 - sl * sigma)) i j b)
      (hj : j ≤ last) (hhigh : cp * (1 + pt * sigma) ≤ b.high)
      (hlow : b.low ≤ cp * (1 - sl * sigma)) :
      TripleBarrier bars pt sl cp sigma i last
        ⟨some b.bn, some (cp * (1 + pt * sigma)), some (cp * (1 - sl * sigma)), some 0, some 0,
          .sameBar⟩
  | vertical {e : PriceBar S K}
      (hnone : ∀ k, i < k → k ≤ last → ∀ b ∈ bars[k]?,
        ¬ Touches (cp * (1 + pt * sigma)) (cp * (1 - sl * sigma)) b)
      (hlast : bars[last]? = some e) :
      TripleBarrier bars pt sl cp sigma i last
        ⟨some e.bn, some (cp * (1 + pt * sigma)), some (cp * (1 - sl * sigma)),
          some (SignType.sign ((e.close - cp) / cp)), some ((e.close - cp) / cp), .vertical⟩

end Spec

instance [LinearOrder K] (upperPx lowerPx : K) (b : PriceBar S K) :
    Decidable (Touches upperPx lowerPx b) :=
  inferInstanceAs (Decidable (upperPx ≤ b.high ∨ b.low ≤ lowerPx))

section FirstHit
variable [LinearOrder K] {upperPx lowerPx : K} {window bars : List (PriceBar S K)}

/-- The search over highs and lows is one over the bars. -/
theorem anyHit_eq (window : List (PriceBar S K)) :
    List.zipWith (· || ·) ((window.map PriceBar.high).map fun high => decide (high ≥ upperPx))
        ((window.map PriceBar.low).map fun low => decide (low ≤ lowerPx)) =
      window.map fun b => decide (Touches upperPx lowerPx b) := by
  rw [List.map_map, List.map_map, List.zipWith_map, List.zipWith_self]
  refine List.map_congr_left fun b _ => ?_
  exact (Bool.decide_or _ _).symm

theorem firstHit_eq_none
    (h : firstHit upperPx lowerPx (window.map PriceBar.high) (window.map PriceBar.low) = none) :
    ∀ b ∈ window, ¬ Touches upperPx lowerPx b := by
  intro b hb
  have hsome : (window.map PriceBar.high).isEmpty = false := by
    rw [List.isEmpty_eq_false_iff]
    exact List.ne_nil_of_mem (List.mem_map_of_mem hb)
  simp only [firstHit, hsome, Bool.false_eq_true, if_false, Option.map_eq_none_iff, anyHit_eq,
    List.findIdx?_map, List.findIdx?_eq_none_iff] at h
  exact of_decide_eq_false (h b hb)

theorem firstHit_eq_some {k : Nat} {label : Int}
    (h : firstHit upperPx lowerPx (window.map PriceBar.high) (window.map PriceBar.low) =
      some (k, label)) :
    ∃ b, window[k]? = some b ∧ Touches upperPx lowerPx b ∧
      (∀ m < k, ∀ b' ∈ window[m]?, ¬ Touches upperPx lowerPx b') ∧
      label =
        if upperPx ≤ b.high ∧ b.low ≤ lowerPx then 0 else if upperPx ≤ b.high then 1 else -1 := by
  rw [firstHit] at h
  split_ifs at h with hempty
  obtain ⟨firstIdx, hidx, heq⟩ := Option.map_eq_some_iff.mp h
  rw [anyHit_eq, List.findIdx?_map, List.findIdx?_eq_some_iff_getElem] at hidx
  obtain ⟨hlt, htouches, hfirst⟩ := hidx
  obtain ⟨rfl, rfl⟩ := Prod.mk.inj heq
  refine ⟨window[firstIdx], List.getElem?_eq_getElem hlt, of_decide_eq_true htouches, ?_, ?_⟩
  · intro m hm b' hb'
    obtain ⟨hm', rfl⟩ := List.getElem?_eq_some_iff.mp hb'
    simpa using hfirst m hm
  · simp [List.getD_eq_getElem?_getD, hlt]

omit [LinearOrder K] in
/-- The bars after bar `i` up to bar `last`. -/
theorem window_getElem? {last : Int} {i m : Nat} (hm : (m : Int) < last - i) :
    ((bars.drop (i + 1)).take (last - i).toNat)[m]? = bars[i + 1 + m]? := by
  rw [List.getElem?_take_of_lt (by omega), List.getElem?_drop]

/-- Before the first bar of a window that touches, none of the bars after `i` touches. -/
theorem untouched_of_window {last : Int} {i k : Nat}
    (hk : (k : Int) ≤ last - i)
    (hfirst : ∀ m < k, ∀ b' ∈ ((bars.drop (i + 1)).take (last - i).toNat)[m]?,
      ¬ Touches upperPx lowerPx b') :
    ∀ j, i < j → j < i + 1 + k → ∀ b' ∈ bars[j]?, ¬ Touches upperPx lowerPx b' := by
  intro j hij hjk b' hb'
  obtain ⟨m, rfl⟩ : ∃ m, j = i + 1 + m := ⟨j - (i + 1), by omega⟩
  refine hfirst m (by omega) b' ?_
  rw [window_getElem? (by omega)]
  exact hb'

end FirstHit

theorem seriesOf_getElem? {bars : List (PriceBar S K)} {j : Nat} {b : PriceBar S K}
    (h : bars[j]? = some b) :
    (seriesOf bars).closes[j]? = some b.close ∧ (seriesOf bars).bns[j]? = some b.bn := by
  simp [seriesOf, h]

/-- The slices of highs and lows are those of one window of bars. -/
theorem seriesOf_slices (bars : List (PriceBar S K)) (i m : Nat) :
    ((seriesOf bars).highs.drop i).take m = ((bars.drop i).take m).map PriceBar.high ∧
      ((seriesOf bars).lows.drop i).take m = ((bars.drop i).take m).map PriceBar.low := by
  rw [seriesOf, List.map_take, List.map_drop, List.map_take, List.map_drop]
  exact ⟨rfl, rfl⟩

section LabelBar
variable [Field K] [LinearOrder K] {bars : List (PriceBar S K)} {sigmas : List (Option K)}
  {s : K} {h : Int} {i : Nat} {b : PriceBar S K}

theorem sign_eq_ite (x : K) :
    (if x > 0 then (1 : Int) else if x < 0 then -1 else 0) = SignType.sign x := by
  rcases lt_trichotomy x 0 with hneg | rfl | hpos
  · rw [if_neg (not_lt.mpr hneg.le), if_pos hneg, sign_neg hneg]
    rfl
  · simp
  · rw [if_pos hpos, sign_pos hpos]
    rfl

/-- With a known volatility and a later bar within the horizon, the label is that of the first
bar that touches a barrier, or of the last bar if none does. -/
theorem labelBar_spec (pt sl : K) (hsigma : sigmas[i]? = some (some s)) (hbar : bars[i]? = some b)
    (hlater : (i : Int) < min ((bars.length : Int) - 1) (i + h)) :
    ∃ label, labelBar (seriesOf bars) sigmas pt sl h bars.length i = some label ∧
      TripleBarrier bars pt sl b.close s i
        (min ((bars.length : Int) - 1) (i + h)).toNat label := by
  have hlast : min ((bars.length : Int) - 1) (i + h) ≤ bars.length - 1 := min_le_left _ _
  obtain ⟨hcp, -⟩ := seriesOf_getElem? hbar
  unfold labelBar
  rw [hsigma, Option.bind_some]
  dsimp only
  rw [hcp, Option.bind_some, if_neg (not_le.mpr hlater)]
  generalize min ((bars.length : Int) - 1) (i + h) = last at hlater hlast ⊢
  obtain ⟨hhighs, hlows⟩ := seriesOf_slices bars (i + 1) (last - i).toNat
  rw [hhighs, hlows]
  cases hhit : firstHit (b.close * (1 + pt * s)) (b.close * (1 - sl * s))
      (((bars.drop (i + 1)).take (last - i).toNat).map PriceBar.high)
      (((bars.drop (i + 1)).take (last - i).toNat).map PriceBar.low) with
  | none =>
      obtain ⟨e, he⟩ : ∃ e, bars[last.toNat]? = some e :=
        ⟨_, List.getElem?_eq_getElem (by omega)⟩
      obtain ⟨hclose, hbn⟩ := seriesOf_getElem? he
      refine ⟨_, by
        rw [Option.elim_none, hclose, Option.bind_some, hbn, Option.map_some], ?_⟩
      simp only [Option.elim_none, Option.isNone_none, if_true, sign_eq_ite]
      have huntouched := untouched_of_window (k := (last - i).toNat) (by omega)
        fun m hm b' hb' => firstHit_eq_none hhit b' (List.mem_of_getElem? hb')
      exact .vertical (fun k hik hk => huntouched k hik (by omega)) he
  | some hit =>
      obtain ⟨k, label⟩ := hit
      obtain ⟨t, ht, htouches, hfirst, rfl⟩ := firstHit_eq_some hhit
      have hk : (k : Int) < last - i := by
        have hlength := (List.getElem?_eq_some_iff.mp ht).1
        rw [List.length_take] at hlength
        omega
      rw [window_getElem? hk] at ht
      obtain ⟨hclose, hbn⟩ := seriesOf_getElem? ht
      have htouch : FirstTouch bars (b.close * (1 + pt * s)) (b.close * (1 - sl * s)) i (i + 1 + k)
          t := ⟨by omega, ht, htouches, untouched_of_window hk.le hfirst⟩
      have hj : i + 1 + k ≤ last.toNat := by omega
      refine ⟨_, by
        rw [Option.elim_some, hclose, Option.bind_some, hbn, Option.map_some], ?_⟩
      dsimp only [Option.elim_some, Option.isNone_some]
      by_cases hhigh : b.close * (1 + pt * s) ≤ t.high
      · by_cases hlow : t.low ≤ b.close * (1 - sl * s)
        · rw [if_pos ⟨hhigh, hlow⟩]
          exact .sameBar htouch hj hhigh hlow
        · rw [if_neg fun hboth => hlow hboth.2, if_pos hhigh]
          exact .upper htouch hj hhigh hlow
      · rw [if_neg fun hboth => hhigh hboth.1, if_neg hhigh]
        exact .lower htouch hj hhigh (htouches.resolve_left hhigh)

end LabelBar

/-! ## All bars of a symbol -/

/-- A loop whose every round has a result has the results of the rounds. -/
theorem mapM_of_isSome {α β : Type*} {f : α → Option β} {l : List α}
    (h : ∀ a ∈ l, (f a).isSome) : ∃ ys, l.mapM f = some ys ∧ l.map f = ys.map some := by
  induction l with
  | nil => exact ⟨[], rfl, rfl⟩
  | cons a l ih =>
      obtain ⟨y, hy⟩ := Option.isSome_iff_exists.mp (h a List.mem_cons_self)
      obtain ⟨ys, hmapM, hmap⟩ := ih fun b hb => h b (List.mem_cons_of_mem a hb)
      refine ⟨y :: ys, ?_, by rw [List.map_cons, List.map_cons, hy, hmap]⟩
      rw [List.mapM_cons, hy, hmapM]
      rfl

section ComputeOne
variable [Field K] [LinearOrder K]

theorem length_sigma (log : K → Option K) {closes : List K} (hne : closes ≠ []) (n : Nat) :
    (sigma log closes n).length = closes.length := by
  obtain ⟨first, closes, rfl⟩ := List.exists_cons_of_ne_nil hne
  rw [sigma]
  cases hrets : (List.zipWith (fun close prev => log (close / prev)) (first :: closes).tail
      (first :: closes)).map (Option.map abs) with
  | nil =>
      have hlength := congrArg List.length hrets
      simp at hlength
      simp [hlength]
  | cons r rets =>
      have hlength := congrArg List.length hrets
      simp at hlength ⊢
      omega

/-- Every bar gets a label. -/
theorem isSome_labelBar {bars : List (PriceBar S K)} {sigmas : List (Option K)} (pt sl : K)
    (h : Int) {i : Nat} (hlength : sigmas.length = bars.length) (hi : i < bars.length) :
    (labelBar (seriesOf bars) sigmas pt sl h bars.length i).isSome := by
  have hbar : bars[i]? = some bars[i] := List.getElem?_eq_getElem hi
  obtain ⟨known, hsigma⟩ : ∃ known, sigmas[i]? = some known :=
    ⟨_, List.getElem?_eq_getElem (hlength ▸ hi)⟩
  cases known with
  | none => simp [labelBar, hsigma]
  | some s =>
      by_cases hlater : (i : Int) < min ((bars.length : Int) - 1) (i + h)
      · obtain ⟨label, heq, -⟩ := labelBar_spec pt sl hsigma hbar hlater
        simp [heq]
      · obtain ⟨hcp, -⟩ := seriesOf_getElem? hbar
        rw [labelBar, hsigma, Option.bind_some]
        dsimp only
        rw [hcp, Option.bind_some, if_pos (not_lt.mp hlater)]
        rfl

variable [DecidableEq S]

omit [Field K] [LinearOrder K] in
/-- A table of one symbol in bar-number order is taken as it is. -/
theorem barsOf_eq_self {barsT : List (PriceBar S K)} {symb : S} (hsym : ∀ b ∈ barsT, b.sym = symb)
    (hsorted : barsT.Pairwise fun a b => a.bn ≤ b.bn) : barsOf barsT symb = barsT := by
  have hall : (barsT.filter fun b => b.sym = symb) = barsT :=
    List.filter_eq_self.mpr fun b hb => decide_eq_true (hsym b hb)
  rw [barsOf, hall]
  exact List.mergeSort_of_pairwise (hsorted.imp fun hab => decide_eq_true hab)

/-- The row of a bar: its own columns, its volatility and its label. -/
theorem computeOne_row (log : K → Option K) (cfg : Cfg K) (barsT : List (PriceBar S K)) (symb : S)
    {i : Nat} {b : PriceBar S K} (hbar : (barsOf barsT symb)[i]? = some b) :
    ∃ rows row, computeOne log cfg barsT symb = some rows ∧ rows[i]? = some row ∧
      (sigma log ((barsOf barsT symb).map PriceBar.close) cfg.sigmaSpan)[i]? = some row.sigma ∧
      labelBar (seriesOf (barsOf barsT symb))
        (sigma log ((barsOf barsT symb).map PriceBar.close) cfg.sigmaSpan) cfg.pt cfg.sl cfg.h
        (barsOf barsT symb).length i = some row.label := by
  have hi : i < (barsOf barsT symb).length := (List.getElem?_eq_some_iff.mp hbar).1
  have hlength : (sigma log ((barsOf barsT symb).map PriceBar.close) cfg.sigmaSpan).length =
      (barsOf barsT symb).length := by
    rw [length_sigma log (by simpa using List.ne_nil_of_length_pos (by omega)), List.length_map]
  obtain ⟨labels, hmapM, hmap⟩ := mapM_of_isSome (l := List.range (barsOf barsT symb).length)
    fun j hj => isSome_labelBar cfg.pt cfg.sl cfg.h hlength (List.mem_range.mp hj)
  obtain ⟨label, hlabel, hat⟩ : ∃ label, labels[i]? = some label ∧
      labelBar (seriesOf (barsOf barsT symb))
        (sigma log ((barsOf barsT symb).map PriceBar.close) cfg.sigmaSpan) cfg.pt cfg.sl cfg.h
        (barsOf barsT symb).length i = some label := by
    have hget := congrArg (·[i]?) hmap
    simp only [List.getElem?_map, List.getElem?_range hi, Option.map_some] at hget
    obtain ⟨label, hlabel, heq⟩ := Option.map_eq_some_iff.mp hget.symm
    exact ⟨label, hlabel, heq.symm⟩
  obtain ⟨known, hsigma⟩ : ∃ known,
      (sigma log ((barsOf barsT symb).map PriceBar.close) cfg.sigmaSpan)[i]? = some known :=
    ⟨_, List.getElem?_eq_getElem (hlength ▸ hi)⟩
  refine ⟨_, { sym := symb, bn := b.bn, close := b.close, sigma := known, label := label },
    by rw [computeOne, if_pos hlength, hmapM]; rfl, ?_, hsigma, hat⟩
  have hzip : (List.zip _ labels)[i]? = some (known, label) :=
    List.getElem?_zip_eq_some.mpr ⟨hsigma, hlabel⟩
  rw [List.getElem?_zipWith, hbar, hzip]

/-- For each bar with a known volatility and a later bar within the horizon, the label is that of
the triple barrier around its close. -/
theorem labels_match_barriers (log : K → Option K) (cfg : Cfg K) (barsT : List (PriceBar S K))
    (symb : S) {i : Nat} {b : PriceBar S K} {s : K} (hbar : (barsOf barsT symb)[i]? = some b)
    (hsigma : (sigma log ((barsOf barsT symb).map PriceBar.close) cfg.sigmaSpan)[i]? =
      some (some s))
    (hlater : (i : Int) < min (((barsOf barsT symb).length : Int) - 1) (i + cfg.h)) :
    ∃ rows row, computeOne log cfg barsT symb = some rows ∧ rows[i]? = some row ∧
      row.sigma = some s ∧
      TripleBarrier (barsOf barsT symb) cfg.pt cfg.sl b.close s i
        (min (((barsOf barsT symb).length : Int) - 1) (i + cfg.h)).toNat row.label := by
  obtain ⟨rows, row, heq, hrow, hknown, hlabel⟩ := computeOne_row log cfg barsT symb hbar
  obtain ⟨label, hat, hbarrier⟩ := labelBar_spec cfg.pt cfg.sl hsigma hbar hlater
  refine ⟨rows, row, heq, hrow, ?_, ?_⟩
  · rw [hsigma] at hknown
    exact (Option.some.inj hknown).symm
  · rw [hat] at hlabel
    rw [← Option.some.inj hlabel]
    exact hbarrier

end ComputeOne

/-- The natural logarithm, null where it has no value. -/
noncomputable def logOf (x : ℝ) : Option ℝ := if 0 < x then some (Real.log x) else none

/-- A bar with whole prices. -/
noncomputable def wholeBar (bn close high low : Int) : PriceBar String ℝ :=
  { sym := "BTCUSDT", bn := bn, close := close, high := high, low := low }

/-- Three rising bars; the last one has a long way up. -/
noncomputable def risingBars : List (PriceBar String ℝ) :=
  [wholeBar 0 100 101 99, wholeBar 1 110 111 108, wholeBar 2 112 190 109]

noncomputable def sampleCfg : Cfg ℝ :=
  { pt := (2 : Int), sl := (1 : Int), h := 50, sigmaSpan := 100 }

theorem barsOf_risingBars : barsOf risingBars "BTCUSDT" = risingBars :=
  barsOf_eq_self (by simp [risingBars, wholeBar]) (by simp [risingBars, wholeBar])

/-- The second bar has a volatility and a bar after it. -/
theorem second_bar_matches_barriers :
    ∃ (b : PriceBar String ℝ) (s : ℝ) (rows : List (LabelRow String ℝ)) (row : LabelRow String ℝ),
      computeOne logOf sampleCfg risingBars "BTCUSDT" = some rows ∧
      rows[1]? = some row ∧ row.sigma = some s ∧
      TripleBarrier (barsOf risingBars "BTCUSDT") sampleCfg.pt sampleCfg.sl b.close s 1
        (min (((barsOf risingBars "BTCUSDT").length : Int) - 1) ((1 : Nat) + sampleCfg.h)).toNat
        row.label := by
  obtain ⟨b, hbar⟩ : ∃ b, (barsOf risingBars "BTCUSDT")[1]? = some b := by
    rw [barsOf_risingBars]
    exact ⟨_, rfl⟩
  obtain ⟨s, hsigma⟩ : ∃ s, (sigma logOf ((barsOf risingBars "BTCUSDT").map PriceBar.close)
      sampleCfg.sigmaSpan)[1]? = some (some s) := by
    rw [barsOf_risingBars]
    simp [risingBars, wholeBar, sigma, logOf]
  have hlater : ((1 : Nat) : Int) < min (((barsOf risingBars "BTCUSDT").length : Int) - 1)
      ((1 : Nat) + sampleCfg.h) := by
    rw [barsOf_risingBars]
    decide
  exact ⟨b, s, labels_match_barriers logOf sampleCfg risingBars "BTCUSDT" hbar hsigma hlater⟩

end TickToSignal.Labels
