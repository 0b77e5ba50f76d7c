import TickToSignal.Labels.TripleBarrier

/-!
# Labels do not look outside their window

The volatility of a bar is computed from the closes up to it. Its label is read
from this volatility, its own close and the bars of its horizon.
-/

namespace TickToSignal.Labels

variable {S K : Type*} [Field K] [LinearOrder K]

section Sigma
variable {β : Type*}

omit [Field K] [LinearOrder K] in
/-- What is computed from neighbours needs one element more than it has. -/
theorem take_neighbours (g : K → K → β) (closes : List K) (i : Nat) :
    (List.zipWith g closes.tail closes).take i =
      List.zipWith g (closes.take (i + 1)).tail (closes.take (i + 1)) := by
  apply List.ext_getElem?
  intro k
  rw [List.getElem?_take]
  simp only [List.getElem?_zipWith, List.getElem?_tail, List.getElem?_take]
  by_cases hk : k < i
  · rw [if_pos hk, if_pos (by omega), if_pos (by omega)]
  · rw [if_neg hk, if_neg (by omega)]

omit [Field K] [LinearOrder K] in
theorem take_tail_scanl {α : Type*} (f : β → α → β) (a : β) (l : List α) (i : Nat) :
    (List.scanl f a l).tail.take i = (List.scanl f a (l.take i)).tail := by
  rw [← List.take_scanl, List.tail_take_eq_take_tail, Nat.add_sub_cancel]

/-- The volatilities up to a bar are those of the series that ends with it. -/
theorem sigma_take (log : K → Option K) (closes : List K) (n i : Nat) :
    (sigma log closes n).take (i + 1) = sigma log (closes.take (i + 1)) n := by
  unfold sigma
  dsimp only
  rw [← take_neighbours, List.map_take]
  cases (List.zipWith (fun close prev => log (close / prev)) closes.tail closes).map
      (Option.map abs) with
  | nil => simp
  | cons first absRets =>
      cases i with
      | zero => rfl
      | succ i =>
          exact congrArg (none :: ·) (take_tail_scanl _ first (first :: absRets) (i + 1))

/-- The volatility of a bar depends on no bar after it. -/
theorem sigma_congr (log : K → Option K) {closes closes' : List K} (n : Nat) {i : Nat}
    (h : ∀ k ≤ i, closes[k]? = closes'[k]?) :
    (sigma log closes n)[i]? = (sigma log closes' n)[i]? := by
  have htake : closes.take (i + 1) = closes'.take (i + 1) := by
    apply List.ext_getElem?
    intro k
    rw [List.getElem?_take, List.getElem?_take]
    by_cases hk : k < i + 1
    · rw [if_pos hk, if_pos hk]
      exact h k (Nat.lt_succ_iff.mp hk)
    · rw [if_neg hk, if_neg hk]
  calc (sigma log closes n)[i]?
      = ((sigma log closes n).take (i + 1))[i]? :=
        (List.getElem?_take_of_lt (Nat.lt_succ_self i)).symm
    _ = ((sigma log closes' n).take (i + 1))[i]? := by rw [sigma_take, sigma_take, htake]
    _ = (sigma log closes' n)[i]? := List.getElem?_take_of_lt (Nat.lt_succ_self i)

end Sigma

section Window
variable {v v' : Series K} {sigmas sigmas' : List (Option K)} {n n' i : Nat} {last : Int}

omit [Field K] in
theorem firstHit_lt {upperPx lowerPx : K} {highs lows : List K} {hit : Nat × Int}
    (h : firstHit upperPx lowerPx highs lows = some hit) : hit.1 < highs.length := by
  rw [firstHit] at h
  split_ifs at h with hempty
  obtain ⟨firstIdx, hidx, rfl⟩ := Option.map_eq_some_iff.mp h
  obtain ⟨hlt, -, -⟩ := List.findIdx?_eq_some_iff_getElem.mp hidx
  rw [List.length_zipWith, List.length_map] at hlt
  exact lt_of_lt_of_le hlt (min_le_left _ _)

/-- The two series agree on the bars after `i` up to `last`. -/
structure AgreeAfter (v v' : Series K) (i : Nat) (last : Int) : Prop where
  closes : ∀ k : Nat, i < k → (k : Int) ≤ last → v.closes[k]? = v'.closes[k]?
  highs : ∀ k : Nat, i < k → (k : Int) ≤ last → v.highs[k]? = v'.highs[k]?
  lows : ∀ k : Nat, i < k → (k : Int) ≤ last → v.lows[k]? = v'.lows[k]?
  bns : ∀ k : Nat, i < k → (k : Int) ≤ last → v.bns[k]? = v'.bns[k]?

omit [Field K] [LinearOrder K] in
/-- A slice of the bars after `i` up to `last` is the same in two vectors that agree on them. -/
theorem slice_congr {xs ys : List K}
    (h : ∀ k : Nat, i < k → (k : Int) ≤ last → xs[k]? = ys[k]?) :
    (xs.drop (i + 1)).take (last - i).toNat = (ys.drop (i + 1)).take (last - i).toNat := by
  apply List.ext_getElem?
  intro k
  rw [List.getElem?_take, List.getElem?_take]
  by_cases hk : k < (last - i).toNat
  · rw [if_pos hk, if_pos hk, List.getElem?_drop, List.getElem?_drop]
    exact h _ (by omega) (by omega)
  · rw [if_neg hk, if_neg hk]

/-- The label of a bar is read from its volatility, its close and the bars of its horizon. -/
theorem labelBar_congr (pt sl : K) (h : Int) (hsigma : sigmas[i]? = sigmas'[i]?)
    (hcp : v.closes[i]? = v'.closes[i]?)
    (hend : min ((n : Int) - 1) (i + h) = min ((n' : Int) - 1) (i + h))
    (hwindow : AgreeAfter v v' i (min ((n' : Int) - 1) (i + h))) :
    labelBar v sigmas pt sl h n i = labelBar v' sigmas' pt sl h n' i := by
  unfold labelBar
  rw [hsigma]
  refine Option.bind_congr fun known _ => ?_
  cases known with
  | none => rfl
  | some s =>
      dsimp only
      rw [hcp]
      refine Option.bind_congr fun cp _ => ?_
      rw [hend]
      generalize min ((n' : Int) - 1) (i + h) = last at hwindow ⊢
      by_cases hlast : last ≤ i
      · rw [if_pos hlast, if_pos hlast]
      · rw [if_neg hlast, if_neg hlast, slice_congr hwindow.highs, slice_congr hwindow.lows]
        cases hhit : firstHit (cp * (1 + pt * s)) (cp * (1 - sl * s))
            ((v'.highs.drop (i + 1)).take (last - i).toNat)
            ((v'.lows.drop (i + 1)).take (last - i).toNat) with
        | none =>
            rw [Option.elim_none, hwindow.closes last.toNat (by omega) (by omega),
              hwindow.bns last.toNat (by omega) (by omega)]
        | some hit =>
            have hlt : hit.1 < (last - i).toNat :=
              (firstHit_lt hhit).trans_le (List.length_take_le _ _)
            rw [Option.elim_some, hwindow.closes (i + 1 + hit.1) (by omega) (by omega),
              hwindow.bns (i + 1 + hit.1) (by omega) (by omega)]

end Window

section Tables
variable [DecidableEq S] {bars bars' : List (PriceBar S K)} {i : Nat} {last : Int}

omit [Field K] [LinearOrder K] [DecidableEq S] in
theorem agreeAfter_seriesOf (h : ∀ k : Nat, i < k → (k : Int) ≤ last → bars[k]? = bars'[k]?) :
    AgreeAfter (seriesOf bars) (seriesOf bars') i last := by
  constructor
  all_goals
    intro k hik hk
    simp only [seriesOf, List.getElem?_map]
    rw [h k hik hk]

/-- Two tables whose bars of a symbol have the same closes up to bar `i`: bar `i` has the same
volatility in both. If they also have the same bars from `i` to the end of its horizon, and both
reach that far, bar `i` has the same label, with its end bar, its return and its reason. -/
theorem labels_local (log : K → Option K) (cfg : Cfg K) {barsT barsT' : List (PriceBar S K)}
    {symb : S} (hi : i < (barsOf barsT symb).length)
    (hcloses : ∀ k ≤ i, ((barsOf barsT symb).map PriceBar.close)[k]? =
      ((barsOf barsT' symb).map PriceBar.close)[k]?) :
    (sigma log ((barsOf barsT symb).map PriceBar.close) cfg.sigmaSpan)[i]? =
        (sigma log ((barsOf barsT' symb).map PriceBar.close) cfg.sigmaSpan)[i]? ∧
      ((∀ k : Nat, i ≤ k → (k : Int) ≤ i + cfg.h →
          (barsOf barsT symb)[k]? = (barsOf barsT' symb)[k]?) →
        i + cfg.h < (barsOf barsT symb).length → i + cfg.h < (barsOf barsT' symb).length →
        ∃ rows rows' row row', computeOne log cfg barsT symb = some rows ∧
          computeOne log cfg barsT' symb = some rows' ∧ rows[i]? = some row ∧
          rows'[i]? = some row' ∧ row.sigma = row'.sigma ∧ row.label = row'.label) := by
  have hsigma := sigma_congr log cfg.sigmaSpan hcloses
  refine ⟨hsigma, fun hwindow hreach hreach' => ?_⟩
  have hi' : i < (barsOf barsT' symb).length := by
    have hsome := hcloses i le_rfl
    rw [List.getElem?_eq_getElem (by simpa using hi)] at hsome
    simpa using (List.getElem?_eq_some_iff.mp hsome.symm).1
  obtain ⟨rows, row, heq, hrow, hknown, hlabel⟩ :=
    computeOne_row log cfg barsT symb (List.getElem?_eq_getElem hi)
  obtain ⟨rows', row', heq', hrow', hknown', hlabel'⟩ :=
    computeOne_row log cfg barsT' symb (List.getElem?_eq_getElem hi')
  have hend : min (((barsOf barsT symb).length : Int) - 1) (i + cfg.h) =
      min (((barsOf barsT' symb).length : Int) - 1) (i + cfg.h) := by omega
  have hsame := labelBar_congr cfg.pt cfg.sl cfg.h hsigma (hcloses i le_rfl) hend
    (agreeAfter_seriesOf fun k hik hk => hwindow k hik.le (by omega))
  refine ⟨rows, rows', row, row', heq, heq', hrow, hrow', ?_, ?_⟩
  · exact Option.some.inj (hknown.symm.trans (hsigma.trans hknown'))
  · exact Option.some.inj (hlabel.symm.trans (hsame.trans hlabel'))

end Tables

/-- The rising bars with one more bar. -/
noncomputable def risingBarsAnd (close : Int) : List (PriceBar String ℝ) :=
  risingBars ++ [wholeBar 3 close close close]

theorem barsOf_risingBarsAnd (close : Int) :
    barsOf (risingBarsAnd close) "BTCUSDT" = risingBarsAnd close :=
  barsOf_eq_self (by simp [risingBarsAnd, risingBars, wholeBar])
    (by simp [risingBarsAnd, risingBars, wholeBar])

/-- With a horizon of one bar, the last bar is outside the window of the second one. -/
theorem second_label_local :
    ∃ rows rows' row row',
      computeOne logOf { sampleCfg with h := 1 } (risingBarsAnd 1) "BTCUSDT" = some rows ∧
      computeOne logOf { sampleCfg with h := 1 } (risingBarsAnd 500) "BTCUSDT" = some rows' ∧
      rows[1]? = some row ∧ rows'[1]? = some row' ∧ row.sigma = row'.sigma ∧
      row.label = row'.label := by
  have hbars : ∀ k ≤ 2, (barsOf (risingBarsAnd 1) "BTCUSDT")[k]? =
      (barsOf (risingBarsAnd 500) "BTCUSDT")[k]? := by
    intro k hk
    have hlt : k < risingBars.length := Nat.lt_succ_of_le hk
    rw [barsOf_risingBarsAnd, barsOf_risingBarsAnd, risingBarsAnd, risingBarsAnd,
      List.getElem?_append_left hlt, List.getElem?_append_left hlt]
  have hlength : ∀ close, (barsOf (risingBarsAnd close) "BTCUSDT").length = 4 := by
    intro close
    rw [barsOf_risingBarsAnd]
    rfl
  refine (labels_local logOf { sampleCfg with h := 1 } (i := 1) (by rw [hlength]; decide)
    fun k hk => ?_).2 (fun k _ hk => hbars k ?_) ?_ ?_
  · rw [List.getElem?_map, List.getElem?_map, hbars k (hk.trans one_le_two)]
  · have hk' : (k : Int) ≤ (1 : Nat) + 1 := hk
    omega
  · rw [hlength]
    decide
  · rw [hlength]
    decide

end TickToSignal.Labels
