import TickToSignal.Backtest.Position
import TickToSignal.Foundation.Machine
import Mathlib.Algebra.Order.Ring.Rat
import Mathlib.Tactic.LinearCombination
import Mathlib.Tactic.Ring
import Mathlib.Tactic.FieldSimp

/-!
# The accounting identity of the backtest

A ledger keeps what an account statement would: cash flow of the fills,
positions, last marks, fees and funding charged. The position book agrees with
it row by row. Total equity is the ledger's equity with the funding added
instead of subtracted, so it is right exactly when the funding nets to zero.
-/

namespace TickToSignal.Backtest

open Foundation

variable {S K : Type*}

/-- What changes the position book. -/
inductive PosOp (S K : Type*)
  | applyFill (fill : Fill S K)
  | updateMarkPrice (sym : S) (price : K)
  | applyFunding (sym : S) (rate markPrice : K)

/-- The account of a run, kept without cost basis or realized P&L. -/
structure Ledger (S K : Type*) where
  cash : K
  position : S → K
  lastMark : S → K
  symbols : Finset S
  fees : K
  funding : K

section Ledger
variable [DecidableEq S] [Field K] [LinearOrder K]

def Ledger.empty : Ledger S K :=
  { cash := 0, position := fun _ => 0, lastMark := fun _ => 0, symbols := ∅, fees := 0, funding := 0 }

/-- Enter one operation. -/
def Ledger.step (l : Ledger S K) : PosOp S K → Ledger S K
  | .applyFill f =>
      { l with
        cash := l.cash - f.qty * f.fillPrice
        position := Function.update l.position f.sym (l.position f.sym + f.qty)
        lastMark := Function.update l.lastMark f.sym f.fillPrice
        symbols := insert f.sym l.symbols
        fees := l.fees + f.feeUsdt }
  | .updateMarkPrice sym price =>
      { l with
        lastMark := Function.update l.lastMark sym price
        symbols := insert sym l.symbols }
  | .applyFunding sym rate markPrice =>
      { l with
        funding := l.funding +
          |l.position sym| * markPrice * rate * SignType.sign (l.position sym) }

/-- Equity as it should be: initial equity, cash, marked positions, less fees and funding. -/
def Ledger.equity (initialEquity : K) (l : Ledger S K) : K :=
  initialEquity + l.cash + ∑ s ∈ l.symbols, l.position s * l.lastMark s - l.fees - l.funding

/-- Carry out one operation on the position book. -/
def PosOp.run (book : KeyedTable S (PosRow K)) : PosOp S K → KeyedTable S (PosRow K)
  | .applyFill fill => Pos.applyFill book fill
  | .updateMarkPrice sym price => Pos.updateMarkPrice book sym price
  | .applyFunding sym rate markPrice => Pos.applyFunding book sym rate markPrice

end Ledger

section Row
variable [Field K] [LinearOrder K] [IsStrictOrderedRing K]

omit [IsStrictOrderedRing K] in
/-- Two numbers of different sign, the first not zero, are on opposite sides of zero. -/
theorem opposite_of_sign_ne {x y : K} (hx : x ≠ 0) (h : SignType.sign x ≠ SignType.sign y) :
    0 < x ∧ y ≤ 0 ∨ x < 0 ∧ 0 ≤ y := by
  rcases lt_or_gt_of_ne hx with hneg | hpos
  · refine .inr ⟨hneg, le_of_not_gt fun hy => h ?_⟩
    rw [sign_neg hneg, sign_neg hy]
  · refine .inl ⟨hpos, le_of_not_gt fun hy => h ?_⟩
    rw [sign_pos hpos, sign_pos hy]

/-- The averaged cost of two quantities of one sign, times their sum. -/
theorem averageCost_mul {x y c p : K} (hx : x ≠ 0) (h : SignType.sign x = SignType.sign y) :
    (c * |x| + p * |y|) / (|x| + |y|) * (x + y) = c * x + p * y := by
  have hsum : |x| + |y| ≠ 0 := (add_pos_of_pos_of_nonneg (abs_pos.mpr hx) (abs_nonneg y)).ne'
  have hxs : x = SignType.sign x * |x| := (sign_mul_abs x).symm
  have hys : y = SignType.sign x * |y| := h ▸ (sign_mul_abs y).symm
  have hxy : x + y = SignType.sign x * (|x| + |y|) := by rw [mul_add, ← hxs, ← hys]
  calc (c * |x| + p * |y|) / (|x| + |y|) * (x + y)
      = (c * |x| + p * |y|) / (|x| + |y|) * (SignType.sign x * (|x| + |y|)) := by rw [hxy]
    _ = c * (SignType.sign x * |x|) + p * (SignType.sign x * |y|) := by
        field_simp
    _ = c * x + p * y := by rw [← hxs, ← hys]

/-- A fill moves realized P&L less open cost by minus the traded value, whichever
way it moves the position. -/
theorem Pos.costAndRealized_cash (cur : PosRow K) (fillQty fillPx : K) :
    (costAndRealized cur fillQty fillPx).2 -
        (costAndRealized cur fillQty fillPx).1 * (cur.qty + fillQty) =
      cur.realizedPnl - cur.costBasis * cur.qty - fillQty * fillPx := by
  simp only [costAndRealized]
  by_cases hflat : cur.qty = 0
  · simp only [hflat, if_true]
    ring
  by_cases hsame : SignType.sign cur.qty = SignType.sign fillQty
  · simp only [if_neg hflat, if_pos hsame, averageCost_mul hflat hsame]
    ring
  -- reducing or flipping: the fill is against the position
  simp only [if_neg hflat, if_neg hsame]
  obtain ⟨hlong, hsell⟩ | ⟨hshort, hbuy⟩ := opposite_of_sign_ne hflat hsame
  · rw [if_pos hlong, abs_of_pos hlong, abs_of_nonpos hsell]
    split_ifs <;> ring
  · rw [if_neg hshort.not_gt, abs_of_neg hshort, abs_of_nonneg hbuy]
    split_ifs <;> ring

end Row

section Refinement
variable [DecidableEq S] [Field K] [LinearOrder K]

/-- The position book agrees with the ledger. -/
structure Agrees (book : KeyedTable S (PosRow K)) (l : Ledger S K) : Prop where
  symbols : book.keys.toFinset = l.symbols
  position : ∀ s, ((book.lookup s).getD Pos.noRow).qty = l.position s
  lastMark : ∀ s r, book.lookup s = some r → r.lastMarkPrice = l.lastMark s
  cash : book.sumBy (fun r => r.realizedPnl - r.costBasis * r.qty) = l.cash
  fees : book.sumBy PosRow.feesPaid = l.fees
  funding : book.sumBy PosRow.fundingPaid = l.funding

omit [LinearOrder K] in
theorem agrees_empty : Agrees (KeyedTable.empty : KeyedTable S (PosRow K)) Ledger.empty where
  symbols := rfl
  position := fun _ => rfl
  lastMark := by simp
  cash := KeyedTable.sumBy_empty _
  fees := KeyedTable.sumBy_empty _
  funding := KeyedTable.sumBy_empty _

omit [LinearOrder K] in
/-- A new row for one symbol: each column moves the ledger by its own difference. -/
theorem Agrees.upsert {book : KeyedTable S (PosRow K)} {l l' : Ledger S K} (h : Agrees book l)
    {sym : S} (cur : PosRow K) {row : PosRow K} (hcur : (book.lookup sym).getD Pos.noRow = cur)
    (hsymbols : l'.symbols = insert sym l.symbols)
    (hposition : l'.position = Function.update l.position sym row.qty)
    (hlastMark : l'.lastMark = Function.update l.lastMark sym row.lastMarkPrice)
    (hcash : l'.cash = l.cash - (cur.realizedPnl - cur.costBasis * cur.qty) +
      (row.realizedPnl - row.costBasis * row.qty))
    (hfees : l'.fees = l.fees - cur.feesPaid + row.feesPaid)
    (hfunding : l'.funding = l.funding - cur.fundingPaid + row.fundingPaid) :
    Agrees (book.upsert sym row) l' := by
  have hcolumn : ∀ f : PosRow K → K, f Pos.noRow = 0 → (book.lookup sym).elim 0 f = f cur := by
    intro f hf
    rw [← hcur]
    cases book.lookup sym <;> simp [hf]
  constructor
  · rw [KeyedTable.toFinset_keys_upsert, h.symbols, hsymbols]
  · intro s
    rw [hposition]
    by_cases hs : s = sym
    · subst hs
      simp
    · rw [KeyedTable.lookup_upsert_of_ne _ _ hs, Function.update_of_ne hs]
      exact h.position s
  · intro s r hr
    rw [hlastMark]
    by_cases hs : s = sym
    · subst hs
      simp only [KeyedTable.lookup_upsert_self, Option.some.injEq] at hr
      simp [hr]
    · rw [KeyedTable.lookup_upsert_of_ne _ _ hs] at hr
      rw [Function.update_of_ne hs]
      exact h.lastMark s r hr
  · rw [KeyedTable.sumBy_upsert, h.cash, hcolumn _ (by simp [Pos.noRow]), hcash]
  · rw [KeyedTable.sumBy_upsert, h.fees, hcolumn _ rfl, hfees]
  · rw [KeyedTable.sumBy_upsert, h.funding, hcolumn _ rfl, hfunding]

variable [IsStrictOrderedRing K]

/-- Every operation keeps the book and the ledger in agreement. -/
theorem Agrees.step {book : KeyedTable S (PosRow K)} {l : Ledger S K} (h : Agrees book l)
    (op : PosOp S K) : Agrees (op.run book) (l.step op) := by
  cases op with
  | applyFill f =>
      have hposition := h.position f.sym
      have hcash := Pos.costAndRealized_cash ((book.lookup f.sym).getD Pos.noRow) f.qty f.fillPrice
      refine h.upsert _ rfl rfl ?_ rfl ?_ ?_ ?_
      · simp [Ledger.step, hposition]
      · simp only [Ledger.step, hcash]
        ring
      · simp only [Ledger.step]
        ring
      · simp [Ledger.step]
  | updateMarkPrice sym price =>
      have hposition := h.position sym
      cases hrow : book.lookup sym with
      | none =>
          simp only [hrow, Option.getD_none] at hposition
          simp only [PosOp.run, Pos.updateMarkPrice, hrow]
          refine h.upsert Pos.noRow (by simp [hrow]) rfl ?_ rfl ?_ ?_ ?_ <;>
            simp [Ledger.step, hposition]
      | some cur =>
          simp only [hrow, Option.getD_some] at hposition
          simp only [PosOp.run, Pos.updateMarkPrice, hrow]
          refine h.upsert cur (by simp [hrow]) rfl ?_ rfl ?_ ?_ ?_ <;>
            simp [Ledger.step, hposition]
  | applyFunding sym rate markPrice =>
      have hposition := h.position sym
      cases hrow : book.lookup sym with
      | none =>
          simp only [hrow, Option.getD_none] at hposition
          have hflat : l.position sym = 0 := hposition.symm
          simpa [PosOp.run, Pos.applyFunding, hrow, Ledger.step, hflat] using h
      | some cur =>
          simp only [hrow, Option.getD_some] at hposition
          simp only [PosOp.run, Pos.applyFunding, hrow]
          split_ifs with hflat
          · rw [hflat] at hposition
            simpa [Ledger.step, ← hposition] using h
          · have hseen : sym ∈ l.symbols := by
              rw [← h.symbols]
              exact List.mem_toFinset.mpr (KeyedTable.mem_keys_of_lookup hrow)
            refine h.upsert cur (by simp [hrow]) ?_ ?_ ?_ ?_ ?_ ?_
            · simp [Ledger.step, Finset.insert_eq_of_mem hseen]
            · simp [Ledger.step, hposition]
            · simp [Ledger.step, h.lastMark sym cur hrow]
            · simp [Ledger.step]
            · simp [Ledger.step]
            · simp only [Ledger.step, ← hposition]
              ring

theorem agrees_exec (ops : List (PosOp S K)) :
    Agrees (exec PosOp.run KeyedTable.empty ops) (exec Ledger.step Ledger.empty ops) := by
  suffices ∀ {book : KeyedTable S (PosRow K)} {l : Ledger S K}, Agrees book l →
      Agrees (exec PosOp.run book ops) (exec Ledger.step l ops) from this agrees_empty
  induction ops with
  | nil => exact fun h => h
  | cons op ops ih => exact fun h => ih (h.step op)

end Refinement

section Equity
variable [DecidableEq S] [Field K] [LinearOrder K]

/-- Unrealized P&L does not need its special case for a flat position. -/
theorem Pos.unrealizedPnl_eq {book : KeyedTable S (PosRow K)} {s : S} :
    unrealizedPnl book s =
      (book.lookup s).elim 0 fun r => (r.lastMarkPrice - r.costBasis) * r.qty := by
  simp only [unrealizedPnl]
  cases book.lookup s with
  | none => rfl
  | some r =>
      simp only [Option.elim_some]
      split_ifs with h
      · simp [h]
      · rfl

/-- The book's equity: cash and marked positions, less fees, plus funding. -/
theorem Pos.totalEquity_eq {cfg : Pos.Cfg K} {book : KeyedTable S (PosRow K)} {l : Ledger S K}
    (h : Agrees book l) :
    Pos.totalEquity cfg book = l.equity cfg.initialEquity + (l.funding + l.funding) := by
  have hmarked : book.sumBy (fun r => r.qty * r.lastMarkPrice) =
      ∑ s ∈ l.symbols, l.position s * l.lastMark s := by
    rw [KeyedTable.sumBy_eq_sum_keys, h.symbols]
    refine Finset.sum_congr rfl fun s _ => ?_
    rw [← h.position s]
    cases hrow : book.lookup s with
    | none => simp [Pos.noRow]
    | some r => simp [h.lastMark s r hrow]
  have hunrlz : (book.keys.map (Pos.unrealizedPnl book)).sum =
      book.sumBy (fun r => (r.lastMarkPrice - r.costBasis) * r.qty) := by
    rw [KeyedTable.sumBy_eq_sum_keys, List.sum_toFinset _ book.nodup_keys]
    exact congrArg List.sum (List.map_congr_left fun s _ => Pos.unrealizedPnl_eq)
  have hrows : book.sumBy PosRow.realizedPnl +
      book.sumBy (fun r => (r.lastMarkPrice - r.costBasis) * r.qty) =
        l.cash + ∑ s ∈ l.symbols, l.position s * l.lastMark s := by
    rw [← hmarked, ← h.cash, ← KeyedTable.sumBy_add, ← KeyedTable.sumBy_add]
    exact KeyedTable.sumBy_congr fun r => by ring
  simp only [Pos.totalEquity, Ledger.equity, hunrlz, h.fees, h.funding]
  linear_combination hrows

end Equity

/-- Total equity is the ledger's equity exactly when the funding charged nets to zero. -/
theorem totalEquity_eq_ledger_iff [DecidableEq S] [Field K] [LinearOrder K]
    [IsStrictOrderedRing K] (cfg : Pos.Cfg K) (ops : List (PosOp S K)) :
    let l := exec Ledger.step Ledger.empty ops
    Pos.totalEquity cfg (exec PosOp.run KeyedTable.empty ops) = l.equity cfg.initialEquity ↔
      l.funding = 0 := by
  intro l
  rw [Pos.totalEquity_eq (agrees_exec ops), add_eq_left, ← two_mul, mul_eq_zero]
  simp [l]

/-- Bought at 100, sold short through zero at 110, marked at 105: no funding, and 20 earned
on the long, 15 on the short, less 3 in fees. -/
theorem totalEquity_without_funding :
    let cfg : Pos.Cfg ℚ := { stopLossPct := 1 / 50, killSwitchPct := 1 / 10, initialEquity := 1000 }
    let ops : List (PosOp String ℚ) :=
      [.applyFill { sym := "BTCUSDT", fillPrice := 100, qty := 2, feeUsdt := 1 },
        .applyFill { sym := "BTCUSDT", fillPrice := 110, qty := -5, feeUsdt := 2 },
        .updateMarkPrice "BTCUSDT" 105]
    Pos.totalEquity cfg (exec PosOp.run KeyedTable.empty ops) = 1032 ∧
      (exec Ledger.step Ledger.empty ops).equity cfg.initialEquity = 1032 := by
  intro cfg ops
  have hequity : Pos.totalEquity cfg (exec PosOp.run KeyedTable.empty ops) = 1032 := by
    decide +kernel
  exact ⟨hequity, ((totalEquity_eq_ledger_iff cfg ops).mpr (by decide +kernel)).symm.trans hequity⟩

/-- A long of one unit pays one in funding: equity goes up by one instead of down. -/
theorem totalEquity_adds_funding :
    let cfg : Pos.Cfg ℚ := { stopLossPct := 1 / 50, killSwitchPct := 1 / 10, initialEquity := 1000 }
    let ops : List (PosOp String ℚ) :=
      [.applyFill { sym := "BTCUSDT", fillPrice := 100, qty := 1, feeUsdt := 0 },
        .applyFunding "BTCUSDT" (1 / 100) 100]
    Pos.totalEquity cfg (exec PosOp.run KeyedTable.empty ops) = 1001 ∧
      (exec Ledger.step Ledger.empty ops).equity cfg.initialEquity = 999 := by
  decide +kernel

end TickToSignal.Backtest
