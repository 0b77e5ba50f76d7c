import TickToSignal.Foundation.KeyedTable
import Mathlib.Algebra.Order.Field.Basic
import Mathlib.Data.Sign.Basic

/-!
# Positions of the backtest

One row per symbol with the net position, its cost basis, and what has been
realized, paid in fees and paid in funding. A fill, a mark price and a funding
charge each update the row; the auto-exit policies read all rows.

## Implementation notes

Amounts are elements of an ordered field, so arithmetic is exact. A null column
can only be that of a symbol without a row. An upsert of some columns of a row
leaves its other columns as they are.
-/

namespace TickToSignal.Backtest

open Foundation

/-- What an intent asks for. -/
inductive Action
  | buy
  | sell
  | flatten
  deriving DecidableEq, Repr

inductive IntentSource
  | strategy
  | policy
  deriving DecidableEq, Repr

/-- An order intent of the strategy or of an auto-exit policy. -/
structure Intent (S K : Type*) where
  action : Action
  sym : S
  qty : K
  source : IntentSource := .strategy
  deriving DecidableEq, Repr

/-- A fill; its quantity is signed, positive adds long. -/
structure Fill (S K : Type*) where
  sym : S
  fillPrice : K
  qty : K
  feeUsdt : K
  source : IntentSource := .strategy
  deriving DecidableEq, Repr

/-- One row of the position book. -/
structure PosRow (K : Type*) where
  qty : K
  costBasis : K
  realizedPnl : K
  feesPaid : K
  fundingPaid : K
  lastMarkPrice : K
  peakUnrlz : K
  deriving DecidableEq, Repr

namespace Pos

variable {S K : Type*} [DecidableEq S] [Field K] [LinearOrder K]

/-- Thresholds of the auto-exit policies. -/
structure Cfg (K : Type*) where
  stopLossPct : K
  killSwitchPct : K
  initialEquity : K

/-- The position book and whether the kill switch has fired. -/
structure State (S K : Type*) where
  book : KeyedTable S (PosRow K) := KeyedTable.empty
  killSwitchTriggered : Bool := false

/-- The columns of a symbol without a row, nulls read as zero. -/
def noRow : PosRow K :=
  { qty := 0, costBasis := 0, realizedPnl := 0, feesPaid := 0, fundingPaid := 0
    lastMarkPrice := 0, peakUnrlz := 0 }

/-- The net position of a symbol. -/
def qty (book : KeyedTable S (PosRow K)) (sym : S) : K :=
  ((book.lookup sym).getD noRow).qty

def unrealizedPnl (book : KeyedTable S (PosRow K)) (sym : S) : K :=
  match book.lookup sym with
  | none => 0
  | some r => if r.qty = 0 then 0 else (r.lastMarkPrice - r.costBasis) * r.qty

/-- Total equity. The source's sum groups from the right, so the funding paid
ends up with a plus. -/
def totalEquity (cfg : Cfg K) (book : KeyedTable S (PosRow K)) : K :=
  let realized := book.sumBy PosRow.realizedPnl
  let fees := book.sumBy PosRow.feesPaid
  let funding := book.sumBy PosRow.fundingPaid
  let syms := book.keys
  let unrlz := (syms.map (unrealizedPnl book)).sum
  cfg.initialEquity + (realized - (fees - (funding + unrlz)))

/-- The rows with an open position. -/
def openRows (book : KeyedTable S (PosRow K)) : List (S × PosRow K) :=
  book.rows.filter fun r => r.2.qty ≠ 0

/-- Symbol to position, open positions only. -/
def snapshot (book : KeyedTable S (PosRow K)) : List (S × K) :=
  (openRows book).map fun r => (r.1, r.2.qty)

/-- Cost basis and realized P&L after a fill, by what the fill does to the position. -/
def costAndRealized (cur : PosRow K) (fillQty fillPx : K) : K × K :=
  let pnlPerUnit := if cur.qty > 0 then fillPx - cur.costBasis else cur.costBasis - fillPx
  if cur.qty = 0 then (fillPx, cur.realizedPnl)
  else if SignType.sign cur.qty = SignType.sign fillQty then
    ((cur.costBasis * |cur.qty| + fillPx * |fillQty|) / (|cur.qty| + |fillQty|), cur.realizedPnl)
  else if |fillQty| ≤ |cur.qty| then
    -- reducing: the closed slice is realized, the rest keeps its cost
    (cur.costBasis, cur.realizedPnl + |fillQty| * pnlPerUnit)
  else
    -- flipping through zero: the whole position is realized, a new one is opened
    (fillPx, cur.realizedPnl + |cur.qty| * pnlPerUnit)

def applyFill (book : KeyedTable S (PosRow K)) (fill : Fill S K) : KeyedTable S (PosRow K) :=
  let cur := (book.lookup fill.sym).getD noRow
  book.upsert fill.sym
    { qty := cur.qty + fill.qty
      costBasis := (costAndRealized cur fill.qty fill.fillPrice).1
      realizedPnl := (costAndRealized cur fill.qty fill.fillPrice).2
      feesPaid := cur.feesPaid + fill.feeUsdt
      fundingPaid := cur.fundingPaid
      lastMarkPrice := fill.fillPrice
      peakUnrlz := 0 }

/-- Called on every trade so that mark-to-market is current. -/
def updateMarkPrice (book : KeyedTable S (PosRow K)) (sym : S) (price : K) :
    KeyedTable S (PosRow K) :=
  match book.lookup sym with
  | none => book.upsert sym { noRow with lastMarkPrice := price }
  | some cur => book.upsert sym { cur with lastMarkPrice := price }

/-- Charge an open position at a funding boundary: a long pays when the rate is
positive, a short when it is negative. -/
def applyFunding (book : KeyedTable S (PosRow K)) (sym : S) (rate markPrice : K) :
    KeyedTable S (PosRow K) :=
  match book.lookup sym with
  | none => book
  | some cur =>
      if cur.qty = 0 then book
      else
        let notional := |cur.qty| * markPrice
        let charge := notional * (rate * SignType.sign cur.qty)
        book.upsert sym { cur with fundingPaid := cur.fundingPaid + charge }

/-- What the stop-loss policy collects for one open position. -/
def stopLoss (cfg : Cfg K) (r : S × PosRow K) : List (Intent S K) :=
  let notional := |r.2.qty| * r.2.costBasis
  let unrlz := (r.2.lastMarkPrice - r.2.costBasis) * r.2.qty
  if notional > 0 then
    let lossPct := -(unrlz / notional)
    if lossPct ≥ cfg.stopLossPct then
      [{ action := .flatten, sym := r.1, qty := 0, source := .policy }]
    else []
  else []

/-- A flatten intent for every open position. -/
def flattenAll (book : KeyedTable S (PosRow K)) : List (Intent S K) :=
  (openRows book).map fun r => { action := .flatten, sym := r.1, qty := 0, source := .policy }

/-- Auto-exit policies, after every trade and every timer tick. -/
def checkPolicies (cfg : Cfg K) (s : State S K) : State S K × List (Intent S K) :=
  let curEquity := totalEquity cfg s.book
  let drawdownPct := 1 - curEquity / cfg.initialEquity
  if drawdownPct ≥ cfg.killSwitchPct ∧ s.killSwitchTriggered = false then
    ({ s with killSwitchTriggered := true }, flattenAll s.book)
  else
    let intents : List (Intent S K) := []
    -- every call of the lambda appends to a local of its own, so `intents` stays empty
    let _ := (openRows s.book).map (stopLoss cfg)
    (s, intents)

section Qty
variable {book : KeyedTable S (PosRow K)} {sym : S}

omit [LinearOrder K] in
@[simp] theorem qty_empty : qty (KeyedTable.empty : KeyedTable S (PosRow K)) sym = 0 := rfl

theorem qty_applyFill (fill : Fill S K) :
    qty (applyFill book fill) sym =
      if sym = fill.sym then qty book sym + fill.qty else qty book sym := by
  simp only [qty, applyFill]
  split_ifs with hsym
  · subst hsym
    simp
  · rw [KeyedTable.lookup_upsert_of_ne _ _ hsym]

omit [LinearOrder K] in
@[simp] theorem qty_updateMarkPrice (marked : S) (price : K) :
    qty (updateMarkPrice book marked price) sym = qty book sym := by
  simp only [updateMarkPrice, qty]
  by_cases hsym : sym = marked
  · subst hsym
    cases hrow : book.lookup sym <;> simp [noRow]
  · split <;> rw [KeyedTable.lookup_upsert_of_ne _ _ hsym]

@[simp] theorem qty_applyFunding (charged : S) (rate markPrice : K) :
    qty (applyFunding book charged rate markPrice) sym = qty book sym := by
  simp only [applyFunding]
  cases hrow : book.lookup charged with
  | none => rfl
  | some cur =>
      dsimp only
      split_ifs
      · rfl
      · by_cases hsym : sym = charged
        · subst hsym
          simp [qty, hrow]
        · simp only [qty, KeyedTable.lookup_upsert_of_ne _ _ hsym]

theorem mem_snapshot {q : K} :
    (sym, q) ∈ snapshot book ↔ q ≠ 0 ∧ (book.lookup sym).map PosRow.qty = some q := by
  simp only [snapshot, openRows, List.mem_map, List.mem_filter, Prod.mk.injEq, Prod.exists,
    decide_eq_true_eq, Option.map_eq_some_iff]
  constructor
  · rintro ⟨s, r, ⟨hr, hopen⟩, rfl, rfl⟩
    exact ⟨hopen, r, KeyedTable.lookup_of_mem_rows hr, rfl⟩
  · rintro ⟨hopen, r, hrow, rfl⟩
    exact ⟨sym, r, ⟨KeyedTable.mem_rows_of_lookup hrow, hopen⟩, rfl, rfl⟩

/-- Every open position is in the snapshot. -/
theorem mem_snapshot_of_open (h : qty book sym ≠ 0) : (sym, qty book sym) ∈ snapshot book := by
  refine mem_snapshot.mpr ⟨h, ?_⟩
  simp only [qty] at h ⊢
  cases hrow : book.lookup sym with
  | none => simp [hrow, noRow] at h
  | some r => simp

omit [DecidableEq S] in
theorem nodup_snapshot : ((snapshot book).map Prod.fst).Nodup := by
  have hkeys : (snapshot book).map Prod.fst = (openRows book).map Prod.fst := by
    simp [snapshot]
  rw [hkeys]
  exact book.nodup.sublist (List.filter_sublist.map Prod.fst)

/-- The snapshot says of every symbol what the book does. -/
theorem lookup_snapshot : ((snapshot book).lookup sym).getD 0 = qty book sym := by
  cases hfound : (snapshot book).lookup sym with
  | none =>
      by_contra hopen
      have hmem := mem_snapshot_of_open (fun hzero => hopen hzero.symm)
      simp [KeyedTable.lookup_of_mem nodup_snapshot hmem] at hfound
  | some q =>
      obtain ⟨-, hrow⟩ := mem_snapshot.mp (KeyedTable.mem_of_lookup hfound)
      obtain ⟨r, hr, rfl⟩ := Option.map_eq_some_iff.mp hrow
      simp [qty, hr]

/-- A flatten is emitted for a symbol exactly when its position is open. -/
theorem mem_flattenAll {i : Intent S K} : i ∈ flattenAll book ↔
    qty book i.sym ≠ 0 ∧ i = { action := .flatten, sym := i.sym, qty := 0, source := .policy } := by
  simp only [flattenAll, List.mem_map, Prod.exists]
  constructor
  · rintro ⟨s, r, hr, rfl⟩
    refine ⟨?_, rfl⟩
    obtain ⟨hrow, hopen⟩ := List.mem_filter.mp hr
    simpa [qty, KeyedTable.lookup_of_mem_rows hrow] using hopen
  · rintro ⟨hopen, hi⟩
    obtain ⟨⟨s, r⟩, hr, heq⟩ := List.mem_map.mp (mem_snapshot_of_open hopen)
    obtain ⟨rfl, -⟩ := Prod.mk.inj heq
    exact ⟨i.sym, r, hr, hi.symm⟩

/-- The policies fire the kill switch, once, or return nothing. -/
theorem checkPolicies_cases (cfg : Cfg K) (s : State S K) :
    s.killSwitchTriggered = false ∧
        checkPolicies cfg s = ({ s with killSwitchTriggered := true }, flattenAll s.book) ∨
      checkPolicies cfg s = (s, []) := by
  simp only [checkPolicies]
  split_ifs with h
  · exact .inl ⟨h.2, rfl⟩
  · exact .inr rfl

end Qty

end Pos

end TickToSignal.Backtest
