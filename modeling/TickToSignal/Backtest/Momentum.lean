import Mathlib.Algebra.Order.Round
import Mathlib.Data.Rat.Floor
import TickToSignal.Backtest.PositionCap

/-!
# The momentum strategy

The example strategy keeps a fast and a slow moving average of the trade prices.
Once it has seen enough trades it buys when the fast one is above the slow one
and it is flat, and flattens when it is below and the position is open. Run in
the framework, with every policy, it is never short and never adds to a position.

## Implementation notes

The strategy reads the position of the trade's symbol. It is read when the event
is dispatched; the price that is recorded before the callback does not change it.
Numbers are exact, and `long$` rounds.
-/

namespace TickToSignal.Backtest.Momentum

open Foundation

variable {S K : Type*} [DecidableEq S] [Field K] [LinearOrder K]

/-! ## The strategy -/

def fastN : ℕ := 100

def slowN : ℕ := 500

def tradeQty : K := 1 / 10

/-- What a configuration overrides. -/
structure Overrides (K : Type*) where
  fastN : Option ℕ := none
  slowN : Option ℕ := none
  tradeQty : Option K := none

/-- The state of the strategy. -/
structure State (K : Type*) where
  fastAlpha : K
  slowAlpha : K
  fastEma : K
  slowEma : K
  primed : Bool
  tradesSeen : ℕ
  tradeQty : K
  deriving DecidableEq, Repr

def init (cfg : Overrides K) : State K :=
  { fastAlpha := (2 : ℕ) / (1 + (cfg.fastN.getD fastN : ℕ))
    slowAlpha := (2 : ℕ) / (1 + (cfg.slowN.getD slowN : ℕ))
    fastEma := 0
    slowEma := 0
    primed := false
    tradesSeen := 0
    tradeQty := cfg.tradeQty.getD tradeQty }

variable [FloorRing K]

/-- The averages after a trade; the first price initialises both. -/
def emas (state : State K) (px : K) : K × K :=
  if state.tradesSeen ≠ 0 then
    (state.fastAlpha * px + (1 - state.fastAlpha) * state.fastEma,
      state.slowAlpha * px + (1 - state.slowAlpha) * state.slowEma)
  else (px, px)

/-- The state after a trade. -/
def update (state : State K) (px : K) : State K :=
  let newSeen := 1 + state.tradesSeen
  { state with
    fastEma := (emas state px).1
    slowEma := (emas state px).2
    tradesSeen := newSeen
    primed := decide (2 * (round ((2 : ℕ) / state.slowAlpha) - 1) < (newSeen : ℤ)) }

def onTrade (posQty : S → K) (state : State K) (trade : Trade S K) :
    State K × List (Intent S K) :=
  let newState := update state trade.price
  let curPos := posQty trade.sym
  let longSignal := newState.slowEma < newState.fastEma
  let flatSignal := newState.fastEma < newState.slowEma
  if newState.primed then
    if longSignal ∧ curPos = 0 then
      (newState, [{ action := .buy, sym := trade.sym, qty := state.tradeQty }])
    else if flatSignal ∧ 0 < curPos then
      (newState, [{ action := .flatten, sym := trade.sym, qty := 0 }])
    else (newState, [])
  else (newState, [])

def onFill (state : State K) (_ : Fill S K) : State K := state

/-- The callbacks, where positions are read from `posQty`. -/
def strategy (posQty : S → K) : Strategy S K (State K) where
  onTrade := onTrade posQty
  onFill := some onFill

/-! ## The strategy in the framework -/

section Framework
variable (cfg : FwCfg S K) (history : FundingHistory S K)

def dispatch (e : Event S K) : Trail (FwState S K (State K)) :=
  Trail.read fun s => Fw.dispatch cfg (strategy (Pos.qty s.pos.book)) e

/-- `.fw.onTrade` with this strategy loaded. -/
def fwOnTrade (trade : Trade S K) : Trail (FwState S K (State K)) :=
  Trail.read fun s =>
    (clockTrade cfg.timerIntervalNs history s.clock trade).elim Trail.skip fun d =>
      (Trail.update fun s => { s with clock := d.clock }).seq
        (Trail.each (dispatch cfg) d.events)

def replay (trades : List (Trade S K)) : Trail (FwState S K (State K)) :=
  Trail.each (fwOnTrade cfg history) trades

end Framework

/-! ## What the strategy asks for -/

section Intents
variable {posQty : S → K} {state : State K} {trade : Trade S K}

omit [DecidableEq S] in
/-- Nothing, or to buy from flat, or to flatten what is open. -/
theorem onTrade_cases (posQty : S → K) (state : State K) (trade : Trade S K) :
    onTrade posQty state trade = (update state trade.price, []) ∨
      (update state trade.price).primed = true ∧
        (posQty trade.sym = 0 ∧ onTrade posQty state trade = (update state trade.price,
            [{ action := .buy, sym := trade.sym, qty := state.tradeQty }]) ∨
          onTrade posQty state trade = (update state trade.price,
            [{ action := .flatten, sym := trade.sym, qty := 0 }])) := by
  simp only [onTrade]
  split_ifs with hprimed hlong hflat
  · exact .inr ⟨hprimed, .inl ⟨hlong.2, rfl⟩⟩
  · exact .inr ⟨hprimed, .inr rfl⟩
  · exact .inl rfl
  · exact .inl rfl

end Intents

/-! ## What holds between two updates -/

/-- The position that a buy from flat leads to. -/
def entry (cfg : FwCfg S K) (tradeQty : K) (sym : S) : K :=
  match cfg.caps.maxPosBySymbol sym with
  | none => 0
  | some cap => min tradeQty cap

/-- The parameters of the state are those of the configuration, and the averages lie between bounds
of the prices. -/
structure Averages (o : Overrides K) (lo hi : K) (state : State K) : Prop where
  fastAlpha : state.fastAlpha = (init o).fastAlpha
  slowAlpha : state.slowAlpha = (init o).slowAlpha
  tradeQty : state.tradeQty = (init o).tradeQty
  fast : state.tradesSeen ≠ 0 → lo ≤ state.fastEma ∧ state.fastEma ≤ hi
  slow : state.tradesSeen ≠ 0 → lo ≤ state.slowEma ∧ state.slowEma ≤ hi

/-- Every position is zero or what one buy leads to, and before enough trades were seen there was no
fill. -/
structure LongFlat (cfg : FwCfg S K) (o : Overrides K) (lo hi : K)
    (s : FwState S K (State K)) : Prop where
  held : ∀ sym, Pos.qty s.pos.book sym = 0 ∨
    Pos.qty s.pos.book sym = entry cfg (init o).tradeQty sym
  averages : Averages o lo hi s.strategyState
  waiting : s.strategyState.tradesSeen ≤ 2 * o.slowN.getD slowN →
    (∀ sym, Pos.qty s.pos.book sym = 0) ∧ s.fillsExecuted = 0

section Averages
variable [IsStrictOrderedRing K] {o : Overrides K} {lo hi px x : K} {state : State K}

omit [FloorRing K] in
/-- A weight of a moving average is a proper one. -/
theorem alpha_mem {n : ℕ} (hn : 0 < n) : (0 : K) ≤ (2 : ℕ) / (1 + n) ∧ ((2 : ℕ) : K) / (1 + n) ≤ 1 := by
  have hone : (1 : K) ≤ n := by exact_mod_cast hn
  have hpos : (0 : K) < 1 + n := by positivity
  refine ⟨by positivity, (div_le_one hpos).mpr ?_⟩
  rw [Nat.cast_ofNat]
  linarith

omit [FloorRing K] in
theorem between_weighted {a : K} (ha : 0 ≤ a ∧ a ≤ 1) (hpx : lo ≤ px ∧ px ≤ hi)
    (hx : lo ≤ x ∧ x ≤ hi) : lo ≤ a * px + (1 - a) * x ∧ a * px + (1 - a) * x ≤ hi := by
  have hrest : 0 ≤ 1 - a := sub_nonneg.mpr ha.2
  constructor
  · calc lo = a * lo + (1 - a) * lo := by ring
      _ ≤ a * px + (1 - a) * x :=
        add_le_add (mul_le_mul_of_nonneg_left hpx.1 ha.1) (mul_le_mul_of_nonneg_left hx.1 hrest)
  · calc a * px + (1 - a) * x ≤ a * hi + (1 - a) * hi :=
        add_le_add (mul_le_mul_of_nonneg_left hpx.2 ha.1) (mul_le_mul_of_nonneg_left hx.2 hrest)
      _ = hi := by ring

theorem Averages.update (h : Averages o lo hi state) (hfast : 0 < o.fastN.getD fastN)
    (hslow : 0 < o.slowN.getD slowN) (hpx : lo ≤ px ∧ px ≤ hi) :
    Averages o lo hi (update state px) where
  fastAlpha := h.fastAlpha
  slowAlpha := h.slowAlpha
  tradeQty := h.tradeQty
  fast _ := by
    simp only [Momentum.update, emas]
    split_ifs with hseen
    · rw [h.fastAlpha]
      exact between_weighted (alpha_mem hfast) hpx (h.fast hseen)
    · exact hpx
  slow _ := by
    simp only [Momentum.update, emas]
    split_ifs with hseen
    · rw [h.slowAlpha]
      exact between_weighted (alpha_mem hslow) hpx (h.slow hseen)
    · exact hpx

/-- The averages count as primed after twice the slow period. -/
theorem Averages.primed_iff (h : Averages o lo hi state) :
    (Momentum.update state px).primed = true ↔
      2 * o.slowN.getD slowN < (Momentum.update state px).tradesSeen := by
  have hpos : (1 + (o.slowN.getD slowN : ℕ) : K) ≠ 0 := by positivity
  have htwo : ((2 : ℕ) : K) ≠ 0 := Nat.cast_ne_zero.mpr two_ne_zero
  have hround : round ((2 : ℕ) / state.slowAlpha) = ((1 + o.slowN.getD slowN : ℕ) : ℤ) := by
    rw [h.slowAlpha, init, div_div_cancel₀ htwo, ← Nat.cast_one, ← Nat.cast_add, round_natCast]
  simp only [Momentum.update, hround, decide_eq_true_eq]
  omega

end Averages

section Routing
variable [IsStrictOrderedRing K] {cfg : FwCfg S K} {o : Overrides K} {lo hi : K}
  {s s' : FwState S K (State K)} {posQty : S → K} {i : Intent S K}

omit [FloorRing K] [IsStrictOrderedRing K] in
/-- Only positions, averages and the number of fills matter. -/
theorem LongFlat.congr (h : LongFlat cfg o lo hi s)
    (hqty : ∀ sym, Pos.qty s'.pos.book sym = Pos.qty s.pos.book sym)
    (hstate : s'.strategyState = s.strategyState) (hfills : s'.fillsExecuted = s.fillsExecuted) :
    LongFlat cfg o lo hi s' where
  held sym := hqty sym ▸ h.held sym
  averages := hstate ▸ h.averages
  waiting hseen := by
    rw [hstate] at hseen
    obtain ⟨hflat, hnone⟩ := h.waiting hseen
    exact ⟨fun sym => (hqty sym).trans (hflat sym), hfills.trans hnone⟩

omit [IsStrictOrderedRing K] in
/-- The strategy does not answer fills. -/
theorem execute_eq (s : FwState S K (State K)) (i : Intent S K) :
    Fw.execute cfg (strategy posQty) i s =
      match Exec.fill cfg.exec s.lastPrice s.pos.book i with
      | none => { s with intentsApproved := s.intentsApproved + 1 }
      | some fill =>
          { s with
            intentsApproved := s.intentsApproved + 1
            fillsExecuted := s.fillsExecuted + 1
            pos := { s.pos with book := Pos.applyFill s.pos.book fill } } := by
  simp only [Fw.execute]
  cases Exec.fill cfg.exec s.lastPrice s.pos.book i <;> rfl

omit [FloorRing K] [IsStrictOrderedRing K] in
/-- There is no fill of a flatten of nothing. -/
theorem fill_flatten_of_flat (haction : i.action = .flatten) (hflat : Pos.qty s.pos.book i.sym = 0) :
    Exec.fill cfg.exec s.lastPrice s.pos.book i = none := by
  simp only [Exec.fill, Exec.resolve, haction, hflat, if_true]
  cases s.lastPrice.lookup i.sym <;> rfl

/-- A flatten leaves its position closed, or everything as it is. -/
theorem LongFlat.routeIntent_flatten (h : LongFlat cfg o lo hi s) (haction : i.action = .flatten) :
    LongFlat cfg o lo hi (Fw.routeIntent cfg (strategy posQty) i s) := by
  have hcheck : Pretrade.check cfg.caps s.pos.killSwitchTriggered i (Pos.snapshot s.pos.book) =
      { approved := true, reason := .ok, intent := i } := by
    simp [Pretrade.check, haction]
  simp only [Fw.routeIntent, hcheck, if_true, execute_eq]
  cases hfill : Exec.fill cfg.exec s.lastPrice s.pos.book i with
  | none => exact h.congr (fun _ => rfl) rfl rfl
  | some fill =>
      obtain ⟨hsym, -, hqty⟩ := Exec.fill_eq_some hfill
      refine ⟨fun sym => ?_, h.averages, fun hseen => ?_⟩
      · rw [Pos.qty_applyFill, hsym, hqty]
        split_ifs with heq
        · left
          simp [heq, Intent.delta, haction]
        · exact h.held sym
      · rw [fill_flatten_of_flat haction ((h.waiting hseen).1 i.sym)] at hfill
        cases hfill

omit [FloorRing K] in
/-- A buy from flat is refused, or allowed up to the cap. -/
theorem check_buy_from_flat {kill : Bool} {book : KeyedTable S (PosRow K)}
    (haction : i.action = .buy) (hqty : 0 < i.qty) (hflat : Pos.qty book i.sym = 0)
    (happroved : (Pretrade.check cfg.caps kill i (Pos.snapshot book)).approved = true) :
    (Pretrade.check cfg.caps kill i (Pos.snapshot book)).intent =
      { i with qty := entry cfg i.qty i.sym } := by
  simp only [Pretrade.check, Pos.lookup_snapshot, hflat, haction, zero_add, sub_zero,
    abs_of_pos hqty] at happroved ⊢
  split_ifs at happroved with hkill hflatten
  · simp at hflatten
  · rw [if_neg hkill, if_neg (by decide)]
    cases hcap : cfg.caps.maxPosBySymbol i.sym with
    | none => simp [hcap] at happroved
    | some cap =>
        simp only [hcap, entry] at happroved ⊢
        split_ifs at happroved ⊢ with hover hroom
        · rw [min_eq_right (le_of_lt hover)]
        · rw [min_eq_left (not_lt.mp hover), ← haction]

/-- A buy from flat leads to the one position there can be. -/
theorem LongFlat.routeIntent_buy (h : LongFlat cfg o lo hi s) (haction : i.action = .buy)
    (hqty : i.qty = (init o).tradeQty) (hpos : 0 < (init o).tradeQty)
    (hflat : Pos.qty s.pos.book i.sym = 0)
    (hprimed : 2 * o.slowN.getD slowN < s.strategyState.tradesSeen) :
    LongFlat cfg o lo hi (Fw.routeIntent cfg (strategy posQty) i s) := by
  have hlate : ¬ s.strategyState.tradesSeen ≤ 2 * o.slowN.getD slowN := not_le.mpr hprimed
  simp only [Fw.routeIntent]
  split_ifs with happroved
  · rw [check_buy_from_flat haction (hqty ▸ hpos) hflat happroved, execute_eq]
    cases hfill : Exec.fill cfg.exec s.lastPrice s.pos.book
        { i with qty := entry cfg i.qty i.sym } with
    | none => exact h.congr (fun _ => rfl) rfl rfl
    | some fill =>
        obtain ⟨hsym, -, hadded⟩ := Exec.fill_eq_some hfill
        refine ⟨fun sym => ?_, h.averages, fun hseen => absurd hseen hlate⟩
        rw [Pos.qty_applyFill, hsym, hadded]
        split_ifs with heq
        · right
          simp [heq, hflat, Intent.delta, haction, hqty]
        · exact h.held sym
  · exact h.congr (fun _ => rfl) rfl rfl

omit [IsStrictOrderedRing K] in
/-- The states of routing intents, one of which at most there is. -/
theorem LongFlat.routeIntents (h : LongFlat cfg o lo hi s) {intents : List (Intent S K)}
    (hintents : intents = [] ∨ ∃ i, intents = [i] ∧ ∀ s' : FwState S K (State K),
      s'.pos = s.pos → s'.strategyState = s.strategyState → LongFlat cfg o lo hi s' →
        LongFlat cfg o lo hi (Fw.routeIntent cfg (strategy posQty) i s')) :
    ∀ t ∈ Fw.routeIntents cfg (strategy posQty) intents s, LongFlat cfg o lo hi t := by
  have hcounted : LongFlat cfg o lo hi
      { s with intentsGenerated := s.intentsGenerated + intents.length } :=
    h.congr (fun _ => rfl) rfl rfl
  intro t ht
  rcases List.mem_cons.mp ht with rfl | ht
  · exact hcounted
  · obtain rfl | ⟨i, rfl, hi⟩ := hintents
    · cases ht
    · obtain rfl := List.mem_singleton.mp ht
      exact hi _ rfl rfl hcounted

/-- Every state the callback passes through, where it reads the positions as they are. -/
theorem LongFlat.callback (posQty : S → K) (h : LongFlat cfg o lo hi s)
    (hfast : 0 < o.fastN.getD fastN) (hslow : 0 < o.slowN.getD slowN) (hpos : 0 < (init o).tradeQty) {trade : Trade S K}
    (hprice : lo ≤ trade.price ∧ trade.price ≤ hi)
    (hread : ∀ sym, posQty sym = Pos.qty s.pos.book sym) :
    ∀ t ∈ Fw.callback cfg (strategy posQty) (fun st => onTrade posQty st trade) s,
      LongFlat cfg o lo hi t := by
  have haverages := h.averages.update hfast hslow hprice
  have hupdated : LongFlat cfg o lo hi
      { s with strategyState := update s.strategyState trade.price } := by
    refine ⟨h.held, haverages, fun hseen => h.waiting ?_⟩
    simp only [update] at hseen
    omega
  have hstate : (onTrade posQty s.strategyState trade).1 = update s.strategyState trade.price := by
    obtain heq | ⟨-, ⟨-, heq⟩ | heq⟩ := onTrade_cases posQty s.strategyState trade <;> rw [heq]
  intro t ht
  rcases List.mem_cons.mp ht with rfl | ht
  · simpa only [hstate] using hupdated
  · refine LongFlat.routeIntents (s := { s with
      strategyState := (onTrade posQty s.strategyState trade).1 }) ?_ ?_ t ht
    · simpa only [hstate] using hupdated
    · obtain heq | ⟨hprimed, ⟨hflat, heq⟩ | heq⟩ := onTrade_cases posQty s.strategyState trade
      · exact .inl (congrArg Prod.snd heq)
      · refine .inr ⟨_, congrArg Prod.snd heq, fun s' hs'pos hs'state hs' => ?_⟩
        refine hs'.routeIntent_buy rfl h.averages.tradeQty hpos ?_ ?_
        · rw [hs'pos]
          exact (hread trade.sym).symm.trans hflat
        · rw [hs'state]
          simp only [hstate]
          exact h.averages.primed_iff.mp hprimed
      · exact .inr ⟨_, congrArg Prod.snd heq, fun s' _ _ hs' => hs'.routeIntent_flatten rfl⟩

omit [FloorRing K] [IsStrictOrderedRing K] in
theorem flattenAll_flattens (book : KeyedTable S (PosRow K)) :
    ∀ i ∈ Pos.flattenAll book, i.action = .flatten := by
  intro i hi
  rw [(Pos.mem_flattenAll.mp hi).2]

/-- The policies flatten or do nothing. -/
theorem policies_keeps :
    (Fw.policies cfg (strategy posQty)).Keeps (LongFlat cfg o lo hi) := by
  intro s h t ht
  have hroutes : ∀ intents : List (Intent S K), (∀ i ∈ intents, i.action = .flatten) →
      (Fw.routeIntents cfg (strategy posQty) intents).Keeps (LongFlat cfg o lo hi) := by
    intro intents hall
    refine (Trail.keeps_update fun s hs => hs.congr (fun _ => rfl) rfl rfl).seq ?_
    exact Trail.keeps_each_of_mem fun i hi =>
      Trail.keeps_update fun s hs => hs.routeIntent_flatten (hall i hi)
  have hpolicies : LongFlat cfg o lo hi { s with pos := (Pos.checkPolicies cfg.pos s.pos).1 } ∧
      ∀ i ∈ (Pos.checkPolicies cfg.pos s.pos).2, i.action = .flatten := by
    obtain ⟨-, heq⟩ | heq := Pos.checkPolicies_cases cfg.pos s.pos
    · rw [heq]
      exact ⟨h.congr (fun _ => rfl) rfl rfl, flattenAll_flattens s.pos.book⟩
    · rw [heq]
      exact ⟨h, by simp⟩
  rcases List.mem_cons.mp ht with rfl | ht
  · exact hpolicies.1
  · exact hroutes _ hpolicies.2 _ hpolicies.1 t ht

/-- Every state an event passes through. -/
theorem dispatch_keeps (hfast : 0 < o.fastN.getD fastN) (hslow : 0 < o.slowN.getD slowN)
    (hpos : 0 < (init o).tradeQty) {e : Event S K}
    (hprice : ∀ trade, e = .trade trade → lo ≤ trade.price ∧ trade.price ≤ hi) :
    (dispatch cfg e).Keeps (LongFlat cfg o lo hi) := by
  intro s h
  cases e with
  | funding r =>
      intro t ht
      obtain rfl := List.mem_singleton.mp ht
      exact h.congr (fun sym => Pos.qty_applyFunding _ _ _) rfl rfl
  | timer ts => exact Trail.Keeps.seq Trail.keeps_skip policies_keeps s h
  | trade trade =>
      have hrecorded : LongFlat cfg o lo hi (Fw.recordTrade trade s) :=
        h.congr (fun sym => Pos.qty_updateMarkPrice _ _) rfl rfl
      have hcallback := hrecorded.callback (Pos.qty s.pos.book) hfast hslow hpos
        (hprice trade rfl) fun sym => (Pos.qty_updateMarkPrice _ _).symm
      have hrest : ((Fw.policies cfg (strategy (Pos.qty s.pos.book))).seq
          (Trail.update fun s => { s with eventsProcessed := s.eventsProcessed + 1 })).Keeps
            (LongFlat cfg o lo hi) :=
        policies_keeps.seq (Trail.keeps_update fun s hs => hs.congr (fun _ => rfl) rfl rfl)
      intro t ht
      rcases List.mem_append.mp ht with ht | ht
      · obtain rfl := List.mem_singleton.mp ht
        exact hrecorded
      · rcases List.mem_append.mp ht with ht | ht
        · exact hcallback t ht
        · exact hrest _ (Trail.final_of_all hrecorded hcallback) t ht

end Routing

/-! ## Runs -/

omit [DecidableEq S] [Field K] [LinearOrder K] [FloorRing K] in
/-- The only trade among the events of a trade is that trade. -/
theorem eq_of_mem_events {interval : ℤ} {history : FundingHistory S K} {clock : ClockState}
    {trade other : Trade S K} {d : Dispatched S K}
    (hd : clockTrade interval history clock trade = some d) (hother : .trade other ∈ d.events) :
    other = trade := by
  simp only [clockTrade, advanceClockTo] at hd
  split_ifs at hd
  · obtain ⟨d', hd', rfl⟩ := Option.map_eq_some_iff.mp hd
    obtain ⟨⟨timers, next⟩, -, rfl⟩ := Option.map_eq_some_iff.mp hd'
    simpa using hother
  · obtain rfl := Option.some.inj hd
    simpa using hother

section Runs
variable [IsStrictOrderedRing K]

theorem fwOnTrade_keeps (cfg : FwCfg S K) (history : FundingHistory S K) {o : Overrides K}
    {lo hi : K} (hfast : 0 < o.fastN.getD fastN) (hslow : 0 < o.slowN.getD slowN)
    (hpos : 0 < (init o).tradeQty) {trade : Trade S K}
    (hprice : lo ≤ trade.price ∧ trade.price ≤ hi) :
    (fwOnTrade cfg history trade).Keeps (LongFlat cfg o lo hi) := by
  refine Trail.keeps_read fun s => ?_
  cases hd : clockTrade cfg.timerIntervalNs history s.clock trade with
  | none => exact Trail.keeps_skip
  | some d =>
      refine (Trail.keeps_update fun t ht => ht.congr (fun _ => rfl) rfl rfl).seq
        (Trail.keeps_each_of_mem fun e he => ?_)
      refine dispatch_keeps hfast hslow hpos fun other hother => ?_
      obtain rfl := eq_of_mem_events hd (hother ▸ he)
      exact hprice

/-- In every backtest of the strategy, with any caps, costs, policies, fundings and timers, and in
every state between two updates: each position is zero or what one buy leads to, the trade quantity
or the cap if that is less; there is no fill before more than twice the slow period of trades were
seen; and the averages lie between the bounds of the prices. -/
theorem never_short_never_added (cfg : FwCfg S K) (history : FundingHistory S K)
    (o : Overrides K) (hfast : 0 < o.fastN.getD fastN) (hslow : 0 < o.slowN.getD slowN)
    (hpos : 0 < (init o).tradeQty) (clock : ClockState) {lo hi : K} {trades : List (Trade S K)}
    (hprices : ∀ trade ∈ trades, lo ≤ trade.price ∧ trade.price ≤ hi) :
    ∀ s ∈ replay cfg history trades (Fw.start (init o) clock), LongFlat cfg o lo hi s := by
  have hstart : LongFlat cfg o lo hi (Fw.start (S := S) (init o) clock) := by
    refine ⟨fun sym => .inl rfl, ⟨rfl, rfl, rfl, ?_, ?_⟩, fun _ => ⟨fun sym => rfl, rfl⟩⟩
    · exact fun hseen => absurd rfl hseen
    · exact fun hseen => absurd rfl hseen
  have hkeeps : (replay cfg history trades).Keeps (LongFlat cfg o lo hi) :=
    Trail.keeps_each_of_mem fun trade htrade =>
      fwOnTrade_keeps cfg history hfast hslow hpos (hprices trade htrade)
  exact hkeeps _ hstart

end Runs

/-- One unit at most, and no policy fires. -/
def oneUnit : FwCfg String ℚ where
  pos := { stopLossPct := 1 / 50, killSwitchPct := 9 / 10, initialEquity := 1000 }
  caps :=
    { maxPosBySymbol := fun _ => some 1
      nonneg := fun _ _ h => Option.some.inj h ▸ zero_le_one }
  exec := { halfSpreadBps := 1, takerFeeBps := 4, makerFeeBps := 2, bnbDiscountPct := 10 }
  timerIntervalNs := 0

/-- A rise and a fall. -/
def riseAndFall : List (Trade String ℚ) :=
  [100, 101, 102, 103, 104, 105, 90, 80].map fun price =>
    { sym := "BTCUSDT", price := price, exchTradeTs := 0 }

theorem never_short_never_added_rise_and_fall :
    (replay oneUnit { rows := [], sorted := List.Pairwise.nil } riseAndFall
        (Fw.start (init { fastN := some 1, slowN := some 2, tradeQty := some 5 }) {})).Forall
      (LongFlat oneUnit { fastN := some 1, slowN := some 2, tradeQty := some 5 } 80 105) :=
  List.forall_iff_forall_mem.mpr
    (never_short_never_added oneUnit _ _ (by decide) (by decide) (by norm_num [init]) {}
      (by simp [riseAndFall]; norm_num))

end TickToSignal.Backtest.Momentum
