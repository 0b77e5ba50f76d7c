import TickToSignal.Backtest.Framework
import Mathlib.Algebra.Order.Group.Abs
import Mathlib.Algebra.Field.Rat
import Mathlib.Algebra.Order.Ring.Rat

/-!
# Position caps and the kill switch

A fill changes one position to what the pretrade check allowed or, for a
flatten, to zero. From this every visited state of a backtest is within the
caps, and after the kill switch has fired and its flattens have been routed
nothing opens a position again.
-/

namespace TickToSignal.Backtest

open Foundation

variable {S K St : Type*} [DecidableEq S] [Field K] [LinearOrder K]

/-- What an intent adds to an open position of `openQty`. -/
def Intent.delta (intent : Intent S K) (openQty : K) : K :=
  match intent.action with
  | .buy => intent.qty
  | .sell => -intent.qty
  | .flatten => -openQty

section Gate
variable [IsStrictOrderedRing K] {cfg : ExecCfg K} {caps : PositionCaps S K} {intent : Intent S K}
  {lastPrice : KeyedTable S K} {book : KeyedTable S (PosRow K)} {fill : Fill S K}

/-- A fill is for the intent's symbol, which has a price, and adds the intent's quantity. -/
theorem Exec.fill_eq_some (h : Exec.fill cfg lastPrice book intent = some fill) :
    fill.sym = intent.sym ∧ (lastPrice.lookup intent.sym).isSome ∧
      fill.qty = intent.delta (Pos.qty book intent.sym) := by
  simp only [Exec.fill] at h
  split at h
  · simp at h
  · rename_i lastPx hprice
    simp only [Exec.resolve] at h
    cases haction : intent.action with
    | buy =>
        simp only [haction, Option.some.injEq] at h
        subst h
        simp [hprice, Intent.delta, haction]
    | sell =>
        simp only [haction, Option.some.injEq] at h
        subst h
        simp [hprice, Intent.delta, haction]
    | flatten =>
        simp only [haction] at h
        split_ifs at h with hflat hlong
        · simp only [Option.some.injEq] at h
          subst h
          simp [hprice, Intent.delta, haction, abs_of_pos hlong]
        · simp only [Option.some.injEq] at h
          subst h
          simp [hprice, Intent.delta, haction, abs_of_nonpos (not_lt.mp hlong)]

omit [IsStrictOrderedRing K] in
/-- A flatten with a price is dropped only when there is nothing to flatten. -/
theorem Exec.fill_flatten_eq_none (hprice : (lastPrice.lookup intent.sym).isSome)
    (haction : intent.action = .flatten) (h : Exec.fill cfg lastPrice book intent = none) :
    Pos.qty book intent.sym = 0 := by
  obtain ⟨lastPx, hsome⟩ := Option.isSome_iff_exists.mp hprice
  by_contra hopen
  simp only [Exec.fill, hsome, Exec.resolve, haction, if_neg hopen] at h
  split_ifs at h

/-- An approved intent is a flatten, or lands within the cap while the kill switch is off. -/
theorem Pretrade.check_approved {kill : Bool}
    (h : (Pretrade.check caps kill intent (Pos.snapshot book)).approved = true) :
    let i := (Pretrade.check caps kill intent (Pos.snapshot book)).intent
    i.sym = intent.sym ∧ i.action = intent.action ∧
      (intent.action = .flatten ∨ kill = false ∧ ∃ cap, caps.maxPosBySymbol intent.sym = some cap ∧
        |Pos.qty book intent.sym + i.delta (Pos.qty book intent.sym)| ≤ cap) := by
  simp only [Pretrade.check, Pos.lookup_snapshot] at h ⊢
  by_cases hkill : kill = true ∧ intent.action ≠ .flatten
  · simp [if_pos hkill] at h
  by_cases hflatten : intent.action = .flatten
  · simp [hflatten]
  have halive : kill = false := by
    by_contra hk
    exact hkill ⟨by simpa using hk, hflatten⟩
  simp only [if_neg hkill, if_neg hflatten] at h ⊢
  cases hcap : caps.maxPosBySymbol intent.sym with
  | none => simp [hcap] at h
  | some cap =>
      have hnonneg := caps.nonneg _ _ hcap
      simp only [hcap] at h ⊢
      cases haction : intent.action with
      | buy =>
          simp only [haction] at h ⊢
          split_ifs at h ⊢ with hover hroom
          · refine ⟨rfl, rfl, .inr ⟨halive, cap, rfl, ?_⟩⟩
            simp [Intent.delta, abs_of_nonneg hnonneg]
          · refine ⟨rfl, haction, .inr ⟨halive, cap, rfl, ?_⟩⟩
            simpa [Intent.delta, haction] using hover
      | sell =>
          simp only [haction] at h ⊢
          split_ifs at h ⊢ with hover hroom
          · refine ⟨rfl, rfl, .inr ⟨halive, cap, rfl, ?_⟩⟩
            simp [Intent.delta, abs_of_nonneg hnonneg]
          · refine ⟨rfl, haction, .inr ⟨halive, cap, rfl, ?_⟩⟩
            simpa [Intent.delta, haction, sub_eq_add_neg] using hover
      | flatten => exact absurd haction hflatten

end Gate

namespace Fw

variable [IsStrictOrderedRing K] {cfg : FwCfg S K} {strat : Strategy S K St}
  {s : FwState S K St} {intent : Intent S K}

/-- What one intent does to the position book: nothing, or it moves the position of
its symbol, which has a price, to zero or to within the cap. -/
theorem routeIntent_cases (cfg : FwCfg S K) (strat : Strategy S K St) (intent : Intent S K)
    (s : FwState S K St) :
    let s' := routeIntent cfg strat intent s
    s'.pos.killSwitchTriggered = s.pos.killSwitchTriggered ∧ s'.lastPrice = s.lastPrice ∧
      (s'.pos.book = s.pos.book ∨
        (s.lastPrice.lookup intent.sym).isSome ∧
          (∀ sym, sym ≠ intent.sym → Pos.qty s'.pos.book sym = Pos.qty s.pos.book sym) ∧
          (Pos.qty s'.pos.book intent.sym = 0 ∨
            s.pos.killSwitchTriggered = false ∧ ∃ cap,
              cfg.caps.maxPosBySymbol intent.sym = some cap ∧
                |Pos.qty s'.pos.book intent.sym| ≤ cap)) := by
  simp only [routeIntent]
  split_ifs with happroved
  · obtain ⟨hsym, haction, hallowed⟩ := Pretrade.check_approved happroved
    generalize (Pretrade.check cfg.caps s.pos.killSwitchTriggered intent
      (Pos.snapshot s.pos.book)).intent = i at hsym haction hallowed
    simp only [execute]
    cases hfill : Exec.fill cfg.exec s.lastPrice s.pos.book i with
    | none => exact ⟨rfl, rfl, .inl rfl⟩
    | some fill =>
        obtain ⟨hfillSym, hprice, hqty⟩ := Exec.fill_eq_some hfill
        rw [hsym] at hfillSym hprice hqty
        refine ⟨rfl, rfl, .inr ⟨hprice, fun sym hne => ?_, ?_⟩⟩
        · simp [Pos.qty_applyFill, hfillSym, hne]
        · simp only [Pos.qty_applyFill, hfillSym, if_true, hqty]
          obtain hflatten | hcap := hallowed
          · left
            simp [Intent.delta, haction, hflatten]
          · exact .inr hcap
  · exact ⟨rfl, rfl, .inl rfl⟩

/-- A flatten with a price closes its symbol's position. -/
theorem routeIntent_flatten (haction : intent.action = .flatten)
    (hprice : Pos.qty s.pos.book intent.sym ≠ 0 → (s.lastPrice.lookup intent.sym).isSome) :
    Pos.qty (routeIntent cfg strat intent s).pos.book intent.sym = 0 := by
  have happroved : Pretrade.check cfg.caps s.pos.killSwitchTriggered intent
      (Pos.snapshot s.pos.book) = { approved := true, reason := .ok, intent := intent } := by
    simp [Pretrade.check, haction]
  simp only [routeIntent, happroved, if_true, execute]
  cases hfill : Exec.fill cfg.exec s.lastPrice s.pos.book intent with
  | none =>
      by_contra hopen
      exact hopen (Exec.fill_flatten_eq_none (hprice hopen) haction hfill)
  | some fill =>
      obtain ⟨hsym, -, hqty⟩ := Exec.fill_eq_some hfill
      simp [Pos.qty_applyFill, hsym, hqty, Intent.delta, haction]

/-- Every position is within its cap, and an open one has a price. -/
structure Sound (cfg : FwCfg S K) (s : FwState S K St) : Prop where
  capped : ∀ sym, |Pos.qty s.pos.book sym| ≤ (cfg.caps.maxPosBySymbol sym).getD 0
  priced : ∀ sym, Pos.qty s.pos.book sym ≠ 0 → (s.lastPrice.lookup sym).isSome

/-- The kill switch has fired and nothing is open. -/
def Flat (s : FwState S K St) : Prop :=
  s.pos.killSwitchTriggered = true ∧ ∀ sym, Pos.qty s.pos.book sym = 0

omit [DecidableEq S] [IsStrictOrderedRing K] in
theorem caps_getD_nonneg (caps : PositionCaps S K) (sym : S) :
    0 ≤ (caps.maxPosBySymbol sym).getD 0 := by
  cases h : caps.maxPosBySymbol sym with
  | none => exact le_rfl
  | some cap => exact caps.nonneg sym cap h

theorem Sound.routeIntent (h : Sound cfg s) (intent : Intent S K) :
    Sound cfg (routeIntent cfg strat intent s) := by
  obtain ⟨-, hprices, hsame | ⟨hprice, hothers, hmoved⟩⟩ := routeIntent_cases cfg strat intent s
  · constructor
    · rw [hsame]
      exact h.capped
    · rw [hsame, hprices]
      exact h.priced
  · constructor
    · intro sym
      by_cases hsym : sym = intent.sym
      · subst hsym
        obtain hzero | ⟨-, cap, hcap, hle⟩ := hmoved
        · rw [hzero, abs_zero]
          exact caps_getD_nonneg cfg.caps _
        · simpa [hcap] using hle
      · rw [hothers sym hsym]
        exact h.capped sym
    · intro sym hopen
      rw [hprices]
      by_cases hsym : sym = intent.sym
      · rw [hsym]
        exact hprice
      · exact h.priced sym (hothers sym hsym ▸ hopen)

/-- Once the kill switch has fired over a flat book no intent opens anything. -/
theorem Flat.routeIntent (h : Flat s) (intent : Intent S K) :
    Flat (routeIntent cfg strat intent s) := by
  obtain ⟨hkill, -, hsame | ⟨-, hothers, hmoved⟩⟩ := routeIntent_cases cfg strat intent s
  · exact ⟨hkill.trans h.1, hsame ▸ h.2⟩
  · refine ⟨hkill.trans h.1, fun sym => ?_⟩
    by_cases hsym : sym = intent.sym
    · subst hsym
      obtain hzero | ⟨halive, -⟩ := hmoved
      · exact hzero
      · simp [h.1] at halive
    · rw [hothers sym hsym]
      exact h.2 sym

omit [IsStrictOrderedRing K] in
/-- Only the positions and the prices matter. -/
theorem Sound.congr {s' : FwState S K St} (h : Sound cfg s)
    (hqty : ∀ sym, Pos.qty s'.pos.book sym = Pos.qty s.pos.book sym)
    (hprice : ∀ sym, (s.lastPrice.lookup sym).isSome → (s'.lastPrice.lookup sym).isSome) :
    Sound cfg s' where
  capped := fun sym => hqty sym ▸ h.capped sym
  priced := fun sym hopen => hprice sym (h.priced sym (hqty sym ▸ hopen))

variable (strat) in
/-- Flattens close the positions of their symbols and leave the others. -/
theorem final_flattens (intents : List (Intent S K)) (hall : ∀ i ∈ intents, i.action = .flatten)
    (hs : Sound cfg s) :
    let s' := (Trail.each (fun i => Trail.update (routeIntent cfg strat i)) intents).final s
    s'.pos.killSwitchTriggered = s.pos.killSwitchTriggered ∧
      ∀ sym, Pos.qty s'.pos.book sym = 0 ∨
        (∀ i ∈ intents, i.sym ≠ sym) ∧ Pos.qty s'.pos.book sym = Pos.qty s.pos.book sym := by
  induction intents generalizing s with
  | nil => exact ⟨rfl, fun sym => .inr ⟨by simp, rfl⟩⟩
  | cons i is ih =>
      have hclosed : Pos.qty (routeIntent cfg strat i s).pos.book i.sym = 0 :=
        routeIntent_flatten (hall i List.mem_cons_self) (hs.priced i.sym)
      have hsound : Sound cfg (routeIntent cfg strat i s) := hs.routeIntent i
      obtain ⟨hkill, -, hbook⟩ := routeIntent_cases cfg strat i s
      obtain ⟨hkill', hrest⟩ := ih (fun j hj => hall j (List.mem_cons_of_mem i hj)) hsound
      simp only [Trail.final_each_cons, Trail.final_update]
      refine ⟨hkill'.trans hkill, fun sym => ?_⟩
      obtain hzero | ⟨hnot, hsame⟩ := hrest sym
      · exact .inl hzero
      · by_cases hsym : sym = i.sym
        · subst hsym
          exact .inl (hsame.trans hclosed)
        · right
          refine ⟨List.forall_mem_cons.mpr ⟨fun h => hsym h.symm, hnot⟩, hsame.trans ?_⟩
          obtain hb | ⟨-, hothers, -⟩ := hbook
          · rw [hb]
          · exact hothers sym hsym

/-- Routing a flatten for every open position leaves none open. -/
theorem routeIntents_flattenAll (hs : Sound cfg s) (hkill : s.pos.killSwitchTriggered = true) :
    Flat ((routeIntents cfg strat (Pos.flattenAll s.pos.book)).final s) := by
  have hcounted : Sound cfg { s with
      intentsGenerated := s.intentsGenerated + (Pos.flattenAll s.pos.book).length } :=
    hs.congr (fun _ => rfl) fun _ => id
  obtain ⟨hkill', hfinal⟩ := final_flattens strat (Pos.flattenAll s.pos.book)
    (fun i hi => by rw [(Pos.mem_flattenAll.mp hi).2]) hcounted
  simp only [routeIntents, Trail.final_seq, Trail.final_update]
  refine ⟨hkill'.trans hkill, fun sym => ?_⟩
  obtain hzero | ⟨hnot, hsame⟩ := hfinal sym
  · exact hzero
  · by_contra hopen
    have hmem : ({ action := .flatten, sym := sym, qty := 0, source := .policy } : Intent S K) ∈
        Pos.flattenAll s.pos.book := by
      refine Pos.mem_flattenAll.mpr ⟨fun hzero => hopen (hsame.trans hzero), rfl⟩
    exact hnot _ hmem rfl

/-- Kept by every intent, and a matter of the kill switch, the positions and the
known prices alone. -/
structure Preserved (cfg : FwCfg S K) (strat : Strategy S K St) (P : FwState S K St → Prop) :
    Prop where
  intent : ∀ i s, P s → P (routeIntent cfg strat i s)
  frame : ∀ s s' : FwState S K St, s'.pos.killSwitchTriggered = s.pos.killSwitchTriggered →
    (∀ sym, Pos.qty s'.pos.book sym = Pos.qty s.pos.book sym) →
      (∀ sym, (s.lastPrice.lookup sym).isSome → (s'.lastPrice.lookup sym).isSome) → P s → P s'

/-- The kill switch has not fired. -/
def Alive (cfg : FwCfg S K) (s : FwState S K St) : Prop :=
  Sound cfg s ∧ s.pos.killSwitchTriggered = false

theorem preserved_sound (cfg : FwCfg S K) (strat : Strategy S K St) :
    Preserved cfg strat (Sound cfg) where
  intent := fun i _ h => h.routeIntent i
  frame := fun _ _ _ hqty hprice h => h.congr hqty hprice

theorem preserved_alive (cfg : FwCfg S K) (strat : Strategy S K St) :
    Preserved cfg strat (Alive cfg) where
  intent := fun i s h => ⟨h.1.routeIntent i, (routeIntent_cases cfg strat i s).1.trans h.2⟩
  frame := fun _ _ hkill hqty hprice h => ⟨h.1.congr hqty hprice, hkill.trans h.2⟩

theorem preserved_flat (cfg : FwCfg S K) (strat : Strategy S K St) :
    Preserved cfg strat Flat where
  intent := fun i _ h => h.routeIntent i
  frame := fun _ _ hkill hqty _ h => ⟨hkill.trans h.1, fun sym => (hqty sym).trans (h.2 sym)⟩

section Preserved
omit [IsStrictOrderedRing K]
variable {P : FwState S K St → Prop} (hP : Preserved cfg strat P)
include hP

theorem Preserved.routeIntents (intents : List (Intent S K)) :
    (routeIntents cfg strat intents).Keeps P := by
  refine Trail.Keeps.seq (Trail.keeps_update fun s hs => ?_)
    (Trail.keeps_each (fun i => Trail.keeps_update (hP.intent i)) intents)
  exact hP.frame s _ rfl (fun _ => rfl) (fun _ => id) hs

theorem Preserved.callback (cb : St → St × List (Intent S K)) :
    (callback cfg strat cb).Keeps P := by
  refine Trail.keeps_read fun s => Trail.Keeps.seq (Trail.keeps_update fun t ht => ?_)
    (hP.routeIntents _)
  exact hP.frame t _ rfl (fun _ => rfl) (fun _ => id) ht

theorem Preserved.dispatchFunding (r : FundingRow S K) :
    (dispatchFunding strat r).Keeps P := by
  refine Trail.keeps_update fun s hs => ?_
  exact hP.frame s _ rfl (fun sym => by simp) (fun _ => id) hs

theorem Preserved.recordTrade (trade : Trade S K) :
    (Trail.update (recordTrade trade)).Keeps P := by
  refine Trail.keeps_update fun s hs => ?_
  refine hP.frame s _ rfl (fun sym => by simp [Fw.recordTrade]) (fun sym hpriced => ?_) hs
  by_cases hsym : sym = trade.sym
  · subst hsym
    simp [Fw.recordTrade]
  · simpa [Fw.recordTrade, KeyedTable.lookup_upsert_of_ne _ _ hsym] using hpriced

theorem Preserved.setClock (clock : ClockState) :
    (Trail.update fun s : FwState S K St => { s with clock := clock }).Keeps P :=
  Trail.keeps_update fun s hs => hP.frame s _ rfl (fun _ => rfl) (fun _ => id) hs

theorem Preserved.countEvent :
    (Trail.update fun s : FwState S K St =>
      { s with eventsProcessed := s.eventsProcessed + 1 }).Keeps P :=
  Trail.keeps_update fun s hs => hP.frame s _ rfl (fun _ => rfl) (fun _ => id) hs

end Preserved

/-- The stretch in which the kill switch fires: its flattens are routed, and at the
end nothing is open. -/
def FlattensAll (cfg : FwCfg S K) (strat : Strategy S K St) (ts : List (FwState S K St)) : Prop :=
  ∃ s : FwState S K St, s.pos.killSwitchTriggered = true ∧
    ts = s :: routeIntents cfg strat (Pos.flattenAll s.pos.book) s ∧ Flat (ts.getLastD s)

omit [IsStrictOrderedRing K] in
theorem FlattensAll.last {ts : List (FwState S K St)} (h : FlattensAll cfg strat ts)
    (d : FwState S K St) : Flat (ts.getLastD d) := by
  obtain ⟨s, -, rfl, hlast⟩ := h
  simpa only [List.getLastD_cons] using hlast

theorem policies_sound : (policies cfg strat).Keeps (Sound cfg) := by
  intro s hs t ht
  have hnew : Sound cfg { s with pos := (Pos.checkPolicies cfg.pos s.pos).1 } := by
    obtain ⟨-, h⟩ | h := Pos.checkPolicies_cases cfg.pos s.pos <;> rw [h]
    · exact hs.congr (fun _ => rfl) fun _ => id
    · exact hs
  rcases List.mem_cons.mp ht with rfl | ht
  · exact hnew
  · exact (preserved_sound cfg strat).routeIntents _ _ hnew t ht

theorem policies_phased :
    (policies cfg strat).Phased (Alive cfg) (FlattensAll cfg strat) Flat := by
  intro s
  have hvisits : policies cfg strat s = { s with pos := (Pos.checkPolicies cfg.pos s.pos).1 } ::
      routeIntents cfg strat (Pos.checkPolicies cfg.pos s.pos).2
        { s with pos := (Pos.checkPolicies cfg.pos s.pos).1 } := rfl
  constructor
  · intro hs
    obtain ⟨-, h⟩ | h := Pos.checkPolicies_cases cfg.pos s.pos
    · -- the kill switch fires: the whole call is the turn
      rw [h] at hvisits
      have hfired : Sound cfg { s with pos := { s.pos with killSwitchTriggered := true } } :=
        hs.1.congr (fun _ => rfl) fun _ => id
      refine .inr ⟨[], policies cfg strat s, [], by simp, by simp, ?_, by simp⟩
      refine ⟨_, rfl, hvisits, ?_⟩
      rw [hvisits, List.getLastD_cons]
      exact routeIntents_flattenAll hfired rfl
    · left
      intro t ht
      rw [hvisits, h] at ht
      rcases List.mem_cons.mp ht with rfl | ht
      · exact hs
      · exact (preserved_alive cfg strat).routeIntents _ _ hs t ht
  · intro hs t ht
    obtain ⟨halive, -⟩ | h := Pos.checkPolicies_cases cfg.pos s.pos
    · simp [hs.1] at halive
    · rw [hvisits, h] at ht
      rcases List.mem_cons.mp ht with rfl | ht
      · exact hs
      · exact (preserved_flat cfg strat).routeIntents _ _ hs t ht

section Runs
variable {history : FundingHistory S K}

theorem dispatch_sound (e : Event S K) : (dispatch cfg strat e).Keeps (Sound cfg) := by
  have hP := preserved_sound cfg strat
  cases e with
  | funding r => exact hP.dispatchFunding r
  | timer ts =>
      refine Trail.Keeps.seq ?_ policies_sound
      cases strat.onTimer with
      | none => exact Trail.keeps_skip
      | some cb => exact hP.callback fun st => cb st ts
  | trade t =>
      exact (hP.recordTrade t).seq ((hP.callback _).seq (policies_sound.seq hP.countEvent))

theorem onTrade_sound (trade : Trade S K) :
    (onTrade cfg strat history trade).Keeps (Sound cfg) := by
  refine Trail.keeps_read fun s => ?_
  cases clockTrade cfg.timerIntervalNs history s.clock trade with
  | none => exact Trail.keeps_skip
  | some d =>
      exact ((preserved_sound cfg strat).setClock d.clock).seq
        (Trail.keeps_each dispatch_sound d.events)

/-- Whatever keeps both phases leaves the kill switch alone. -/
theorem phased_of_preserved {p : Trail (FwState S K St)}
    (h : ∀ P, Preserved cfg strat P → p.Keeps P) :
    p.Phased (Alive cfg) (FlattensAll cfg strat) Flat :=
  Trail.phased_of_keeps (h _ (preserved_alive cfg strat)) (h _ (preserved_flat cfg strat))

theorem dispatch_phased (e : Event S K) :
    (dispatch cfg strat e).Phased (Alive cfg) (FlattensAll cfg strat) Flat := by
  have hlast : ∀ ts, FlattensAll cfg strat ts → ∀ d, Flat (ts.getLastD d) :=
    fun _ => FlattensAll.last
  cases e with
  | funding r => exact phased_of_preserved fun _ hP => hP.dispatchFunding r
  | timer ts =>
      refine Trail.Phased.seq hlast (phased_of_preserved fun _ hP => ?_) policies_phased
      cases strat.onTimer with
      | none => exact Trail.keeps_skip
      | some cb => exact hP.callback fun st => cb st ts
  | trade t =>
      refine Trail.Phased.seq hlast (phased_of_preserved fun _ hP => hP.recordTrade t) ?_
      refine Trail.Phased.seq hlast (phased_of_preserved fun _ hP => hP.callback _) ?_
      exact policies_phased.seq hlast (phased_of_preserved fun _ hP => hP.countEvent)

theorem onTrade_phased (trade : Trade S K) :
    (onTrade cfg strat history trade).Phased (Alive cfg) (FlattensAll cfg strat) Flat := by
  refine Trail.phased_read fun s => ?_
  cases clockTrade cfg.timerIntervalNs history s.clock trade with
  | none => exact phased_of_preserved (fun _ _ => Trail.keeps_skip) s
  | some d =>
      refine Trail.Phased.seq (fun _ => FlattensAll.last)
        (phased_of_preserved fun _ hP => hP.setClock d.clock) ?_ s
      exact Trail.phased_each (fun _ => FlattensAll.last) dispatch_phased d.events

end Runs

/-- The start of a backtest. -/
def start (strategyState : St) (clock : ClockState) : FwState S K St :=
  { strategyState := strategyState, clock := clock }

theorem start_alive (strategyState : St) (clock : ClockState) :
    Alive cfg (start strategyState clock) := by
  refine ⟨⟨fun sym => ?_, fun sym hopen => ?_⟩, rfl⟩
  · simpa [start] using caps_getD_nonneg cfg.caps sym
  · simp [start] at hopen

/-- For every strategy and every list of trades: in every state between two updates
each position is within its cap, zero without one; and the kill switch fires at most
once, after which, its flattens routed, every position stays zero. -/
theorem position_cap_and_kill_switch (cfg : FwCfg S K) (strat : Strategy S K St)
    (history : FundingHistory S K) (strategyState : St) (clock : ClockState)
    (trades : List (Trade S K)) :
    let run := replay cfg strat history trades (start strategyState clock)
    (∀ s ∈ run, ∀ sym,
      |Pos.qty s.pos.book sym| ≤ (cfg.caps.maxPosBySymbol sym).getD 0) ∧
    Trail.Switches (fun s => s.pos.killSwitchTriggered = false) (FlattensAll cfg strat) Flat run := by
  intro run
  have halive : Alive cfg (start strategyState clock) := start_alive strategyState clock
  constructor
  · intro s hs
    exact (Trail.keeps_each onTrade_sound trades _ halive.1 s hs).capped
  · have hphased : (replay cfg strat history trades).Phased (Alive cfg) (FlattensAll cfg strat)
        Flat := Trail.phased_each (fun _ => FlattensAll.last) onTrade_phased trades
    exact ((hphased _).before halive).imp_before fun _ h => h.2

/-- A strategy that asks for five units at every trade holds one, its cap; the price
halves, the kill switch closes the position, and the next request is refused. -/
theorem position_cap_on_price_drop :
    let cfg : FwCfg String ℚ :=
      { pos := { stopLossPct := 1 / 50, killSwitchPct := 1 / 100, initialEquity := 1000 }
        caps :=
          { maxPosBySymbol := fun _ => some 1
            nonneg := fun _ _ h => Option.some.inj h ▸ zero_le_one }
        exec := { halfSpreadBps := 1, takerFeeBps := 4, makerFeeBps := 2, bnbDiscountPct := 10 }
        timerIntervalNs := 1000 }
    let strat : Strategy String ℚ Unit :=
      { onTrade := fun st t => (st, [{ action := .buy, sym := t.sym, qty := 5 }]) }
    let clock : ClockState := { nextTimerTs := some 1000 }
    let trades : List (Trade String ℚ) :=
      [{ sym := "BTCUSDT", price := 100, exchTradeTs := 10 },
        { sym := "BTCUSDT", price := 50, exchTradeTs := 20 },
        { sym := "BTCUSDT", price := 50, exchTradeTs := 30 }]
    let run := replay cfg strat (loadFunding [] "BTCUSDT" 0 100) trades (start () clock)
    (run.map fun s => (Pos.qty s.pos.book "BTCUSDT", s.pos.killSwitchTriggered)).dedup =
        [(0, false), (1, false), (1, true), (0, true)] ∧
      (∀ s ∈ run, ∀ sym, |Pos.qty s.pos.book sym| ≤ 1) ∧
      Trail.Switches (fun s => s.pos.killSwitchTriggered = false) (FlattensAll cfg strat) Flat
        run := by
  intro cfg strat clock trades run
  refine ⟨by decide +kernel, ?_⟩
  exact position_cap_and_kill_switch cfg strat (loadFunding [] "BTCUSDT" 0 100) () clock trades

end Fw

end TickToSignal.Backtest
