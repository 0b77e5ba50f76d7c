import TickToSignal.Trade.IdsOnce

/-!
# What TP holds of a gap's progress

Two things write the progress of a gap at TP: each backfilled row that is logged
raises it, and each event replaces it with what the handler knew when it
recorded the event. They agree as long as no row of a gap reaches TP before an
event of the gap that was recorded earlier. A failed call leaves the event in
the queue, and the rows that follow overtake it. `KeepsOrder` excludes that, and
two other ways to disagree: rows that a resend finds gone, and gaps that overlap.

## Implementation notes

`recoveredThroughId` is 0 where the `trade_gap` table has a null, so 0 is also
the highest id of no rows. The invariant says one thing of TP's gaps, of queued
events, of events still to be recorded and of the gaps in the backfill: the
progress in it is the highest id of the rows before it. Only backfilled rows
count, so live rows may come and go (`SameReach`).
-/

namespace TickToSignal.Trade

open Foundation Publisher Tp

variable {φ δ : Type*}

namespace TradeGap

/-- A backfilled row with one of the missing ids. -/
def Takes (g : TradeGap) (r : TradeRow) : Prop :=
  r.exchEventTimeMs = none ∧ r.sym = g.sym ∧ g.firstId ≤ r.id ∧ r.id ≤ g.lastId

instance (g : TradeGap) (r : TradeRow) : Decidable (g.Takes r) :=
  inferInstanceAs
    (Decidable (r.exchEventTimeMs = none ∧ r.sym = g.sym ∧ g.firstId ≤ r.id ∧ r.id ≤ g.lastId))

/-- The highest id of the backfilled rows inside the gap, 0 if there is none. -/
def highest (g : TradeGap) (rows : List TradeRow) : Int :=
  rows.foldl (fun top r => if g.Takes r then max r.id top else top) 0

/-- The gap's progress is what the rows say. -/
def Reached (g : TradeGap) (rows : List TradeRow) : Prop := g.recoveredThroughId = g.highest rows

variable {g g' : TradeGap} {rows rows' : List TradeRow}

@[simp] theorem highest_nil (g : TradeGap) : g.highest [] = 0 := rfl

theorem highest_snoc (g : TradeGap) (rows : List TradeRow) (r : TradeRow) :
    g.highest (rows ++ [r]) = if g.Takes r then max r.id (g.highest rows) else g.highest rows := by
  simp only [highest, List.foldl_append, List.foldl_cons, List.foldl_nil]

theorem highest_append_of_not (h : ∀ r ∈ rows', ¬ g.Takes r) :
    g.highest (rows ++ rows') = g.highest rows := by
  induction rows' using List.reverseRecOn with
  | nil => rw [List.append_nil]
  | append_singleton rows' r ih =>
      rw [← List.append_assoc, highest_snoc, if_neg (h r (by simp))]
      exact ih fun r' hr' => h r' (List.mem_append_left _ hr')

theorem highest_eq_zero (h : ∀ r ∈ rows, ¬ g.Takes r) : g.highest rows = 0 := by
  have happend : g.highest ([] ++ rows) = g.highest [] := highest_append_of_not h
  simpa using happend

theorem le_highest {r : TradeRow} (hr : r ∈ rows) (htakes : g.Takes r) : r.id ≤ g.highest rows := by
  induction rows using List.reverseRecOn with
  | nil => cases hr
  | append_singleton rows r' ih =>
      rw [highest_snoc]
      obtain hr | hr := List.mem_append.mp hr
      · have hle := ih hr
        split_ifs
        · exact hle.trans (le_max_right _ _)
        · exact hle
      · obtain rfl := List.mem_singleton.mp hr
        rw [if_pos htakes]
        exact le_max_left _ _

/-- It is the id of one of the rows. -/
theorem highest_mem (g : TradeGap) (rows : List TradeRow) :
    g.highest rows = 0 ∨ ∃ r ∈ rows, g.Takes r ∧ r.id = g.highest rows := by
  induction rows using List.reverseRecOn with
  | nil => exact .inl rfl
  | append_singleton rows r ih =>
      rw [highest_snoc]
      split_ifs with htakes
      · obtain hmax | hmax := max_choice r.id (g.highest rows)
        · exact .inr ⟨r, by simp, htakes, hmax.symm⟩
        · rw [hmax]
          exact ih.imp_right fun ⟨r', hr', h⟩ => ⟨r', List.mem_append_left _ hr', h⟩
      · exact ih.imp_right fun ⟨r', hr', h⟩ => ⟨r', List.mem_append_left _ hr', h⟩

theorem highest_eq {r : TradeRow} (hr : r ∈ rows) (htakes : g.Takes r) (hpos : 0 ≤ r.id)
    (hle : ∀ r' ∈ rows, g.Takes r' → r'.id ≤ r.id) : g.highest rows = r.id := by
  apply le_antisymm
  · obtain hzero | ⟨r', hr', htakes', heq⟩ := g.highest_mem rows
    · rw [hzero]
      exact hpos
    · exact heq ▸ hle r' hr' htakes'
  · exact le_highest hr htakes

theorem SameSpan.takes (h : g.SameSpan g') (r : TradeRow) : g.Takes r ↔ g'.Takes r := by
  simp only [Takes, h.1, h.2.1, h.2.2]

theorem SameSpan.highest (h : g.SameSpan g') (rows : List TradeRow) :
    g.highest rows = g'.highest rows := by
  simp only [TradeGap.highest, h.takes]

/-- A gap that says what the rows say needs none of their ids. -/
theorem Reached.lt_next (h : g.Reached rows) (hg : g.Valid) {r : TradeRow} (hr : r ∈ rows)
    (htakes : g.Takes r) : r.id < g.nextNeededId := by
  have hpos := hg.firstId_pos
  have hle := h ▸ le_highest hr htakes
  have hfirst := htakes.2.2.1
  rw [nextNeededId, if_pos (by omega)]
  omega

end TradeGap

open TradeGap

/-- Every gap is at the same progress after either. -/
def SameReach (rows rows' : List TradeRow) : Prop :=
  ∀ g : TradeGap, g.highest rows = g.highest rows'

namespace SameReach

variable {rows rows' : List TradeRow}

theorem append (h : SameReach rows rows') (more : List TradeRow) :
    SameReach (rows ++ more) (rows' ++ more) := by
  intro g
  simp only [highest, List.foldl_append]
  exact congrArg (fun top => more.foldl _ top) (h g)

/-- Live rows are no progress. -/
theorem live (rows : List TradeRow) {more : List TradeRow}
    (hlive : ∀ r ∈ more, r.exchEventTimeMs ≠ none) : SameReach (rows ++ more) rows :=
  fun _ => highest_append_of_not fun r hr htakes => hlive r hr htakes.1

theorem reached (h : SameReach rows rows') {g : TradeGap} (hg : g.Reached rows) :
    g.Reached rows' :=
  hg.trans (h g)

end SameReach

/-- An event about an open gap that says what the rows say. -/
def CurrentEvent (rows : List TradeRow) (e : GapEvent) : Prop :=
  e.row.isOpen = true → (eventGap e).Reached rows

/-- So will each event be that is to be recorded, after the rows to be published before it. -/
def Ordered : List TradeRow → List Act → Prop
  | _, [] => True
  | rows, .publish r :: todo => Ordered (rows ++ [r]) todo
  | rows, .record e :: todo => CurrentEvent rows e ∧ Ordered rows todo
  | rows, .flush :: todo => Ordered rows todo

theorem SameReach.ordered {rows rows' : List TradeRow} (h : SameReach rows rows') {todo : List Act}
    (ho : Ordered rows todo) : Ordered rows' todo := by
  induction todo generalizing rows rows' with
  | nil => trivial
  | cons a todo ih =>
      cases a with
      | publish r => exact ih (h.append [r]) ho
      | record e => exact ⟨fun hopen => h.reached (ho.1 hopen), ih h ho.2⟩
      | flush => exact ih h ho

theorem Ordered.append {rows : List TradeRow} {todo todo' : List Act} (h : Ordered rows todo)
    (h' : Ordered (rows ++ dueRows todo) todo') : Ordered rows (todo ++ todo') := by
  induction todo generalizing rows with
  | nil => simpa using h'
  | cons a todo ih =>
      cases a with
      | publish r => exact ih h (by simpa using h')
      | record e => exact ⟨h.1, ih h.2 h'⟩
      | flush => exact ih h h'

/-! ## One pump -/

section Worked
variable {cfg : HandlerConfig} {nowNs : Int} {gs gs' : List TradeGap} {new : List (Out δ)}
  {rows : List TradeRow}

/-- A page and the progress it means for its gap. -/
theorem TradeGap.Reached.page {g : TradeGap} (h : g.Reached rows) (hg : g.Valid)
    {ts : List (BackfillTrade δ)}
    (hids : ts.map (·.id) = (List.range ts.length).map fun i : Nat => g.nextNeededId + i)
    (hlast : g.nextNeededId + ts.length ≤ g.lastId + 1) :
    (g.advance ts.length).Reached
      (rows ++ ts.map fun t => { sym := g.sym, id := t.id, exchEventTimeMs := none }) := by
  cases hts : ts with
  | nil => simpa using h
  | cons t rest =>
      rw [← hts]
      have hlen : ts.length ≠ 0 := by simp [hts]
      have hfirst := hg.firstId_le_next
      have hpos := hg.firstId_pos
      have hbounds := (page_keys g hids).2
      -- the last trade of the page
      have hmem : g.nextNeededId + (ts.length - 1 : Nat) ∈ ts.map (·.id) := by
        rw [hids]
        exact List.mem_map.mpr ⟨ts.length - 1, List.mem_range.mpr (by omega), rfl⟩
      obtain ⟨t', ht', hid⟩ := List.mem_map.mp hmem
      have htop : (g.advance ts.length).recoveredThroughId = t'.id := by
        simp only [TradeGap.advance, if_neg hlen]
        omega
      have hrow := List.mem_append_right rows (List.mem_map_of_mem
        (f := fun t : BackfillTrade δ =>
          ({ sym := g.sym, id := t.id, exchEventTimeMs := none } : TradeRow)) ht')
      have hsame := SameSpan.advance g ts.length
      rw [Reached, htop, hsame.highest]
      refine (highest_eq hrow ⟨rfl, rfl, ?_, ?_⟩ ?_ fun r hr htakes => ?_).symm
      · simp only
        omega
      · simp only
        omega
      · simp only
        omega
      · obtain hr | hr := List.mem_append.mp hr
        · have hlt := h.lt_next hg hr htakes
          simp only
          omega
        · have hhigh := (hbounds r hr).2.2
          simp only
          omega

/-- Rows alone record no event. -/
theorem ordered_page (job : Nat) (sym : String) (recv : Int) (ts : List (BackfillTrade δ)) :
    Ordered rows ((ts.map fun t => (Out.row job sym t recv : Out δ)).flatMap
      (TradeFeedHandler.callback cfg nowNs)) := by
  induction ts generalizing rows with
  | nil => trivial
  | cons t ts ih => exact ih

/-- Each event of a pump comes right after the rows it counts. -/
theorem Worked.ordered (h : Worked gs new gs') (hvalid : ∀ g ∈ gs, g.Valid)
    (hapart : gs.Pairwise Apart) (hreached : ∀ g ∈ gs, g.Reached rows) :
    Ordered rows (new.flatMap (TradeFeedHandler.callback cfg nowNs)) ∧
      ∀ g ∈ gs',
        g.Reached (rows ++ dueRows (new.flatMap (TradeFeedHandler.callback cfg nowNs))) := by
  induction h generalizing rows with
  | nothing gs => exact ⟨trivial, by simpa using hreached⟩
  | applied gs job r => exact ⟨trivial, by simpa [TradeFeedHandler.callback] using hreached⟩
  | report g gs job status reason =>
      exact ⟨⟨fun _ => hreached g List.mem_cons_self, trivial⟩,
        by simpa [TradeFeedHandler.callback] using hreached⟩
  | finish g gs job status reason =>
      refine ⟨⟨fun _ => hreached g List.mem_cons_self, trivial⟩, fun g' hg' => ?_⟩
      simpa [TradeFeedHandler.callback] using hreached g' (List.mem_cons_of_mem g hg')
  | rows g gs job recv ts hids hlast =>
      have hg := hvalid g List.mem_cons_self
      have hfirst := hg.firstId_le_next
      constructor
      · exact ordered_page job g.sym recv ts
      · rw [dueRows_page]
        intro g' hg'
        obtain rfl | hg' := List.mem_cons.mp hg'
        · exact (hreached g List.mem_cons_self).page hg hids hlast
        · rw [Reached, highest_append_of_not]
          · exact hreached g' (List.mem_cons_of_mem g hg')
          · rintro r hr ⟨-, hsym, hlow, hhigh⟩
            obtain ⟨hsym', hlow', hhigh'⟩ := (page_keys g hids).2 r hr
            have hout := (List.pairwise_cons.mp hapart).1 g' hg' (hsym'.symm.trans hsym)
            omega
  | trans h h' ih ih' =>
      obtain ⟨hordered, hreached⟩ := ih hvalid hapart hreached
      have hwithin := (h.within hvalid).1
      obtain ⟨hordered', hreached'⟩ :=
        ih' (fun g hg => (hwithin g hg).1) (h.apart hapart) hreached
      rw [List.flatMap_append]
      refine ⟨hordered.append hordered', ?_⟩
      simpa only [dueRows_append, List.append_assoc] using hreached'

end Worked

/-! ## Every step -/

/-- What the handler holds says what the rows up to then say: `rows` are those it has published,
and those that were logged before it started. -/
structure TradeFeedHandler.InStep (rows : List TradeRow) (h : TradeFeedHandler φ δ) : Prop where
  queued : ∀ e ∈ h.gapEvents, CurrentEvent rows e
  todo : Ordered rows h.todo
  gaps : ∀ g ∈ h.backfill.gaps, g.Reached (rows ++ dueRows h.todo)

theorem SameReach.inStep {rows rows' : List TradeRow} (hsame : SameReach rows rows')
    {h : TradeFeedHandler φ δ} (hh : h.InStep rows) : h.InStep rows' :=
  { queued := fun e he hopen => hsame.reached (hh.queued e he hopen)
    todo := hsame.ordered hh.todo
    gaps := fun g hg => (hsame.append _).reached (hh.gaps g hg) }

/-- The row that the handler publishes next. -/
def TradeFeedHandler.publishing (h : TradeFeedHandler φ δ) : Option TradeRow :=
  match h.todo with
  | .publish r :: _ => some r
  | _ => none

namespace TradeWorld

/-- The rows TP has logged, and those the running handler has published after them. -/
def sent (w : TradeWorld φ δ) : List TradeRow := w.link.rows ++ w.link.held

/-- TP holds, for each open gap of the table, the highest id of a backfilled row logged inside the
gap. -/
def ProgressRight (cfg : HandlerConfig) (w : TradeWorld φ δ) : Prop :=
  ∀ key row, w.mem.gaps key = some row → key.srcTable = cfg.table → row.isOpen = true →
    row.recoveredThroughId = (toGap key row).highest w.link.rows

end TradeWorld

/-- TP is right about the gaps, and so is the handler. -/
structure InStep (cfg : HandlerConfig) (w : TradeWorld φ δ) : Prop where
  logged : w.ProgressRight cfg
  handler : ∀ h ∈ w.handler, h.InStep w.sent

/-- No resend has found a backfilled row gone from the ring. -/
def KeepsBackfilled (w : TradeWorld φ δ) : Prop :=
  ∀ r ∈ w.link.goneRows, r.exchEventTimeMs ≠ none

/-- TP raises the progress of the gaps a row lies in. -/
theorem reached_noted {table : Table} {r : TradeRow} {gaps : GapKey → Option GapRow} {key : GapKey}
    {row' : GapRow} (hrow' : Ledger.noted table r gaps key = some row')
    (htable : key.srcTable = table) :
    ∃ row, gaps key = some row ∧ row.isOpen = row'.isOpen ∧
      ∀ rows, (toGap key row).Reached rows → (toGap key row').Reached (rows ++ [r]) := by
  simp only [Ledger.noted] at hrow'
  split_ifs at hrow' with hnoted
  · obtain ⟨hnone, -, hsym⟩ := hnoted
    rw [Option.isNone_iff_eq_none] at hnone
    obtain ⟨row, hrow, rfl⟩ := Option.map_eq_some_iff.mp hrow'
    refine ⟨row, hrow, ?_, fun rows hreached => ?_⟩
    · simp only [GapRow.backfilled]
      split_ifs <;> rfl
    · rw [Reached, (Ledger.toGap_backfilled key r.id row).1.highest, highest_snoc, ← hreached]
      by_cases hin : key.firstMissingId ≤ r.id ∧ r.id ≤ row.lastMissingId
      · have htakes : (toGap key row).Takes r := ⟨hnone, hsym.symm, hin⟩
        simp only [GapRow.backfilled, if_pos hin, if_pos htakes]
        rfl
      · have hnot : ¬ (toGap key row).Takes r := fun htakes => hin htakes.2.2
        simp only [GapRow.backfilled, if_neg hin, if_neg hnot]
  · refine ⟨row', hrow', rfl, fun rows hreached => ?_⟩
    have hnot : ¬ (toGap key row').Takes r := fun htakes =>
      hnoted ⟨Option.isNone_iff_eq_none.mpr htakes.1, htable, htakes.2.1.symm⟩
    rw [Reached, highest_snoc, if_neg hnot]
    exact hreached

namespace InStep

variable {cfg : HandlerConfig} {w : TradeWorld φ δ}

/-- A step of the link that moves no row. -/
theorem relink (h : InStep cfg w) {link : Publisher.World TradeRow} (hsame : SameRows w.link link) :
    InStep cfg { w with link := link } := by
  refine { logged := ?_, handler := fun hd hhd => ?_ }
  · intro key row hrow htable hopen
    simp only [hsame.rows]
    exact h.logged key row hrow htable hopen
  · have hsent : ({ w with link := link } : TradeWorld φ δ).sent = w.sent := by
      simp only [TradeWorld.sent, hsame.rows, hsame.held]
    rw [hsent]
    exact h.handler hd hhd

/-- Only the handler's own state changes. -/
theorem act_alone (h : InStep cfg w) {hd : TradeFeedHandler φ δ} (hin : hd.InStep w.sent) :
    InStep cfg { w with handler := some hd } := by
  refine { logged := h.logged, handler := ?_ }
  rintro _ ⟨⟩
  exact hin

theorem start (h : InStep cfg w) (sessionId : Int) (fetcher : φ) :
    InStep cfg (w.start cfg sessionId fetcher) := by
  simp only [TradeWorld.start]
  split_ifs with hnone
  · have hrows : (w.link.handlerStart cfg.publisher sessionId cfg.publisher.tp.fhWidth).rows =
        w.link.rows := by
      simp only [Publisher.World.rows, Publisher.World.handlerStart, hnone.2.1, true_and,
        if_pos hnone.2.2]
    refine { logged := ?_, handler := ?_ }
    · intro key row hrow htable hopen
      simp only [hrows]
      exact h.logged key row hrow htable hopen
    · rintro _ ⟨⟩
      exact
        { queued := fun e he => absurd he List.not_mem_nil, todo := trivial
          gaps := fun g hg => absurd hg List.not_mem_nil }
  · exact h

theorem worker (h : InStep cfg w) {f : TradeBackfill φ δ → TradeBackfill φ δ}
    (hf : ∀ s, (f s).queue = s.queue) : InStep cfg (w.worker f) := by
  refine { logged := h.logged, handler := fun hd hhd => ?_ }
  obtain ⟨old, hold, rfl⟩ := Option.map_eq_some_iff.mp hhd
  have hin := h.handler old hold
  refine { queued := hin.queued, todo := hin.todo, gaps := ?_ }
  simp only [TradeBackfill.gaps, hf]
  exact hin.gaps

theorem tpProcess (h : InStep cfg w) (hl : Linked cfg w) (hkeeps : KeepsBackfilled w) :
    InStep cfg (w.tpProcess cfg) := by
  simp only [TradeWorld.tpProcess]
  split
  · next pub tp row rest hpub htp hwire =>
    obtain ⟨skipped, left, hheld, hheld', hrows, hskip⟩ :=
      tpProcess_held hl.link hpub hl.tp hwire
    refine { logged := ?_, handler := fun hd hhd => ?_ }
    · intro key row' hrow' htable hopen
      simp only [noteTradeId_gaps] at hrow'
      obtain ⟨old, hold, hstatus, hreached⟩ := reached_noted hrow' htable
      simp only [hrows]
      exact hreached _ (h.logged key old hold htable (hstatus ▸ hopen))
    · -- the rows that are skipped are live ones
      have hlive : SameReach (w.link.rows ++ skipped) w.link.rows :=
        .live _ fun r hr => hkeeps r (hskip r hr)
      have hsent : SameReach w.sent (w.link.rows ++ [row.data] ++ left) := by
        have hmore := hlive.append (row.data :: left)
        simpa only [TradeWorld.sent, hheld, List.append_assoc, List.singleton_append] using hmore
      simp only [TradeWorld.sent, hheld', hrows]
      exact hsent.inStep (h.handler hd hhd)
  · exact h

theorem tradeState (h : InStep cfg w) (hl : Linked cfg w) (hs : (w.ledger cfg).Sound cfg.table)
    (received : Bool) : InStep cfg (w.tradeState cfg received) := by
  simp only [TradeWorld.tradeState]
  split
  · next hd pub hhd hpub =>
    have hin := h.handler hd hhd
    split_ifs with hready hreceived
    · have hstarting : (w.ledger cfg).ready = false := by
        simp only [TradeWorld.ledger, hhd, Option.elim_some, hready.1]
      obtain ⟨hheld, hdue, -, -, -⟩ := hs.starting hstarting
      have hdue' : dueRows hd.todo = [] := by
        simpa only [TradeWorld.ledger, hhd, Option.elim_some] using hdue
      have hsent : w.sent = w.link.rows := by
        rw [TradeWorld.sent, show w.link.held = [] from hheld, List.append_nil]
      apply h.act_alone
      refine { queued := hin.queued, todo := hin.todo, gaps := fun g hg => ?_ }
      simp only [TradeFeedHandler.begin, TradeFeedHandler.resume, TradeBackfill.gaps_start,
        TradeBackfill.gaps_addGaps] at hg ⊢
      obtain hg | hg := List.mem_append.mp hg
      · exact hin.gaps g hg
      · rw [hdue', List.append_nil, hsent]
        obtain ⟨key, row, -, hrow, htable, hopen, rfl⟩ :=
          (Ledger.mem_openGaps (v := w.ledger cfg)).mp hg
        exact h.logged key row hrow htable hopen
    · have hlost := h.relink hl.loseCall_same.2
      have hin' := hlost.handler hd hhd
      refine hlost.act_alone { queued := hin'.queued, todo := hin'.todo, gaps := ?_ }
      simp only [TradeFeedHandler.begin, TradeBackfill.gaps_start]
      exact hin'.gaps
    · exact h
  · exact h

theorem message (h : InStep cfg w) (ht : (w.ledger cfg).Tidy cfg.table) (sym : String)
    (tradeId : Nat) (eventTimeMs nowNs : Int) :
    InStep cfg (w.message cfg sym tradeId eventTimeMs nowNs) := by
  simp only [TradeWorld.message]
  split
  · exact h
  next hd hidle =>
  obtain ⟨hhd, -, htodo⟩ := Linked.idle_spec hidle
  have hin := h.handler hd hhd
  split_ifs
  · have hgaps := hin.gaps
    rw [htodo, dueRows_nil, List.append_nil] at hgaps
    have hlive : SameReach (w.sent ++ [{ sym := sym, id := tradeId
                                         exchEventTimeMs := some eventTimeMs }]) w.sent :=
      .live _ fun r hr => by simp [List.mem_singleton.mp hr]
    suffices hnew : (hd.processMessage cfg nowNs sym tradeId eventTimeMs).InStep w.sent from
      ⟨(h.act_alone hnew).logged, (h.act_alone hnew).handler⟩
    by_cases hnext : ∀ l ∈ hd.idTracker.last sym, (tradeId : Int) ≤ l + 1
    · simp only [TradeFeedHandler.processMessage,
        TradeFeedHandler.validateTradeId_next cfg nowNs hd hnext, htodo, List.nil_append]
      refine { queued := hin.queued, todo := trivial, gaps := fun g hg => ?_ }
      exact (hgaps g hg).trans (hlive g).symm
    · simp only [not_forall, not_le] at hnext
      obtain ⟨last, hlast, hgap⟩ := hnext
      simp only [TradeFeedHandler.processMessage,
        TradeFeedHandler.validateTradeId_gap cfg nowNs hd hlast hgap, htodo, List.nil_append]
      -- no row is above the last id seen, so none lies in the gap
      have hnew : Reached { sym := sym, firstId := last + 1, lastId := tradeId - 1 } w.sent := by
        refine (highest_eq_zero fun r hr htakes => ?_).symm
        have hstream : r ∈ (w.ledger cfg).stream := List.mem_append_left _ hr
        have hseen : last ∈ (w.ledger cfg).seen r.sym := by
          simp only [TradeWorld.ledger, hhd, Option.elim_some, htakes.2.1]
          exact hlast
        have hle := ht.rows r hstream last hseen
        have hlow := htakes.2.2.1
        simp only at hlow
        omega
      refine { queued := hin.queued, todo := ⟨fun _ => hnew, trivial⟩, gaps := fun g hg => ?_ }
      rw [TradeBackfill.gaps_addGap] at hg
      obtain hg | hg := List.mem_append.mp hg
      · exact (hgaps g hg).trans (hlive g).symm
      · rw [List.mem_singleton.mp hg]
        exact hnew.trans (hlive _).symm
  · exact h

theorem pump (h : InStep cfg w) (hs : (w.ledger cfg).Sound cfg.table)
    (ht : (w.ledger cfg).Tidy cfg.table) (fetch : Fetcher φ δ) (nowMs nowNs : Int) :
    InStep cfg (w.pump cfg fetch nowMs nowNs) := by
  simp only [TradeWorld.pump]
  split
  · exact h
  next hd hidle =>
  obtain ⟨hhd, -, htodo⟩ := Linked.idle_spec hidle
  have hin := h.handler hd hhd
  have hqueue : (w.ledger cfg).queue = hd.backfill.gaps := by
    simp only [TradeWorld.ledger, hhd, Option.elim_some]
  obtain ⟨new, hout, hworked⟩ := hd.backfill.pump_works cfg.backfill fetch nowMs
  have hgaps := hin.gaps
  rw [htodo, dueRows_nil, List.append_nil] at hgaps
  have hvalid : ∀ g ∈ hd.backfill.gaps, g.Valid := fun g hg =>
    (hs.gaps g (.inl (hqueue ▸ hg))).1
  obtain ⟨hordered, hreached⟩ : Ordered w.sent
      (new.flatMap (TradeFeedHandler.callback cfg nowNs)) ∧ _ :=
    hworked.ordered hvalid (hqueue ▸ ht.apart) hgaps
  apply h.act_alone
  simp only [TradeFeedHandler.pumpBackfill, hout, List.drop_left, htodo, List.nil_append]
  exact { queued := hin.queued, todo := hordered, gaps := hreached }

theorem health (h : InStep cfg w) : InStep cfg w.health := by
  simp only [TradeWorld.health]
  split
  · exact h
  next hd hidle =>
  obtain ⟨hhd, -, htodo⟩ := Linked.idle_spec hidle
  have hin := h.handler hd hhd
  refine h.act_alone { queued := hin.queued, todo := trivial, gaps := ?_ }
  simpa only [htodo, dueRows_flush] using hin.gaps

/-- The loop of `flush` ends. -/
theorem stop (h : InStep cfg w) {hd : TradeFeedHandler φ δ} (hhd : w.handler = some hd)
    {rest : List Act} (htodo : hd.todo = .flush :: rest) :
    InStep cfg { w with handler := some { hd with todo := rest } } := by
  have hin := h.handler hd hhd
  have hordered := hin.todo
  have hgaps := hin.gaps
  rw [htodo] at hordered hgaps
  exact h.act_alone { queued := hin.queued, todo := hordered, gaps := hgaps }

theorem act (h : InStep cfg w) (hl : Linked cfg w) (accepted : Bool)
    (hbehind : ∀ hd ∈ w.handler, ∀ r ∈ hd.publishing, ∀ e ∈ hd.gapEvents,
      e.row.isOpen = true → ¬ (eventGap e).Takes r) :
    InStep cfg (w.act accepted) := by
  simp only [TradeWorld.act]
  split
  · exact h
  next hd pub hacting =>
  obtain ⟨hhd, hpub, -, hfree⟩ := Linked.acting_spec hacting
  have hin := h.handler hd hhd
  have htodo' := hin.todo
  have hgaps := hin.gaps
  split
  · exact h
  · next row rest htodo =>
      have hheld := publish_held hl.link hpub hfree row accepted
      have hrows : (w.link.publish row accepted).rows = w.link.rows := by
        simp only [Publisher.World.rows, (publish_keeps w.link row accepted).1]
      rw [htodo] at htodo' hgaps
      refine { logged := ?_, handler := ?_ }
      · intro key g hg htable hopen
        simp only [hrows]
        exact h.logged key g hg htable hopen
      · rintro _ ⟨⟩
        simp only [TradeWorld.sent, hrows, hheld]
        rw [← List.append_assoc]
        refine { queued := fun e he hopen => ?_, todo := htodo', gaps := ?_ }
        · have hnot := hbehind hd hhd row (by simp [TradeFeedHandler.publishing, htodo]) e he hopen
          rw [Reached, highest_snoc, if_neg hnot]
          exact hin.queued e he hopen
        · simpa only [dueRows_publish, TradeWorld.sent, List.append_assoc, List.singleton_append]
            using hgaps
  · next e rest htodo =>
      rw [htodo] at htodo' hgaps
      refine h.act_alone { queued := fun e' he' => ?_, todo := htodo'.2, gaps := hgaps }
      obtain he' | he' := List.mem_append.mp he'
      · exact hin.queued e' he'
      · rw [List.mem_singleton.mp he']
        exact htodo'.1
  · next rest htodo =>
      split_ifs
      · exact h.stop hhd htodo
      · exact h

/-- TP takes an event that says what the log says. -/
theorem tpEvent (h : InStep cfg w) {e : GapEvent} (he : CurrentEvent w.link.rows e) :
    InStep cfg (w.tpEvent e) := by
  have hsame := (sessionSave_unmoved w.link).toSameRows
  refine { logged := ?_, handler := fun hd hhd => ?_ }
  · intro key row hrow htable hopen
    simp only [TradeWorld.tpEvent, hsame.rows, Memory.noteGap] at hrow ⊢
    by_cases hkey : key = e.key
    · rw [hkey, Function.update_self, Option.some.injEq] at hrow
      subst hrow hkey
      exact he hopen
    · rw [Function.update_of_ne hkey] at hrow
      exact h.logged key row hrow htable hopen
  · have hsent : (w.tpEvent e).sent = w.sent := by
      simp only [TradeWorld.tpEvent, TradeWorld.sent, hsame.rows, hsame.held]
    rw [hsent]
    exact h.handler hd hhd

theorem sendEvent (h : InStep cfg w) (hl : Linked cfg w) (hkeeps : KeepsBackfilled w)
    (outcome : EventOutcome) : InStep cfg (w.sendEvent outcome) := by
  obtain heq | ⟨hd, pub, rest, e, events, hacting, htodo, hevents, hdone⟩ :=
    Linked.sendEvent_cases w outcome
  · rw [heq]
    exact h
  obtain ⟨hhd, hpub, -, -⟩ := Linked.acting_spec hacting
  obtain (heq | heq) | ⟨⟨hconn, hup, hwire⟩, hdone⟩ := hdone
  · rw [heq]
    exact h.stop hhd htodo
  · rw [heq]
    exact (h.relink hl.loseCall_same.2).stop hhd htodo
  · -- TP takes the call after all rows but those that are gone
    have hlive : SameReach w.sent w.link.rows :=
      .live _ fun r hr => hkeeps r (held_gone hl.link hpub hconn hup hwire r hr)
    have hcurrent : CurrentEvent w.link.rows e := fun hopen =>
      hlive.reached ((h.handler hd hhd).queued e (hevents ▸ List.mem_cons_self) hopen)
    have hlogged := h.tpEvent hcurrent
    obtain heq | heq := hdone
    · rw [heq]
      have hin := hlogged.handler hd hhd
      have hqueued : ∀ e' ∈ events, CurrentEvent (w.tpEvent e).sent e' := fun e' he' =>
        hin.queued e' (hevents ▸ List.mem_cons_of_mem e he')
      exact hlogged.act_alone { queued := hqueued, todo := hin.todo, gaps := hin.gaps }
    · rw [heq]
      exact (hlogged.relink (hl.tpEvent e).loseCall_same.2).stop hhd htodo

theorem crash (h : InStep cfg w) : InStep cfg w.crash := by
  refine { logged := ?_, handler := fun hd hhd => absurd hhd (Option.not_mem_none hd) }
  intro key row hrow htable hopen
  have hlog := handlerExit_log w.link
  simp only [TradeWorld.crash, Publisher.World.rows, hlog] at hrow ⊢
  exact h.logged key row hrow htable hopen

end InStep

/-! ## What a start resumes -/

/-- No live row has an id of a gap. -/
def Ledger.Clear (table : Table) (v : Ledger) : Prop :=
  ∀ r ∈ v.stream, r.exchEventTimeMs ≠ none → ∀ g, v.Known table g → r.sym = g.sym →
    r.id < g.firstId ∨ g.lastId < r.id

theorem Ledger.Clear.moves {cfg : HandlerConfig} {may : Allowed} {v v' : Ledger}
    (h : v.Clear cfg.table) (hs : v.Sound cfg.table) (ht : v.Tidy cfg.table)
    (hmove : Moves δ cfg may v v') : v'.Clear cfg.table := by
  intro r hr hlive g hg hsym
  obtain ⟨-, ⟨g₀, hg₀, hspan⟩ | ⟨hfirst, hlast, -⟩⟩ := hmove.known hs hg
  · rw [hspan.2.1, hspan.2.2]
    have hsym₀ := hsym.trans hspan.1
    obtain hr | ⟨-, hlt, -, -⟩ | ⟨hnone, -⟩ := hmove.row hs hr
    · exact h r hr hlive g₀ hg₀ hsym₀
    · -- the trade that was just sent is above all gaps
      obtain ⟨-, l, hl, hle⟩ := hs.gaps g₀ hg₀
      exact .inr (lt_of_le_of_lt hle (hlt l (hsym₀ ▸ hl)))
    · exact absurd hnone hlive
  · obtain hr | ⟨-, -, -, hseen⟩ | ⟨hnone, -⟩ := hmove.row hs hr
    · have hle := ht.rows r hr (g.firstId - 1) (hsym ▸ hfirst)
      left
      omega
    · rw [hsym, hlast, Option.some.injEq] at hseen
      right
      omega
    · exact absurd hnone hlive

/-- No resend has found a backfilled row gone, a backfilled row is not published inside an open gap
of which an event is still queued, and a start with the trade state finds every open gap to end at
or below the last id logged of its symbol. -/
def KeepsOrder (cfg : HandlerConfig) (w : TradeWorld φ δ) (s : TradeStep φ) : Prop :=
  KeepsBackfilled w ∧
    match s with
    | .act _ => ∀ h ∈ w.handler, ∀ r ∈ h.publishing, ∀ e ∈ h.gapEvents,
        e.row.isOpen = true → ¬ (eventGap e).Takes r
    | .tradeState true => ∀ g ∈ w.openGaps cfg, ∃ l ∈ w.mem.lastId cfg.table g.sym, g.lastId ≤ l
    | _ => True

instance (w : TradeWorld φ δ) : Decidable (KeepsBackfilled w) :=
  inferInstanceAs (Decidable (∀ r ∈ w.link.goneRows, r.exchEventTimeMs ≠ none))

instance (cfg : HandlerConfig) (w : TradeWorld φ δ) (s : TradeStep φ) :
    Decidable (KeepsOrder cfg w s) :=
  match s with
  | .act _ => inferInstanceAs (Decidable (KeepsBackfilled w ∧
      ∀ h ∈ w.handler, ∀ r ∈ h.publishing, ∀ e ∈ h.gapEvents,
        e.row.isOpen = true → ¬ (eventGap e).Takes r))
  | .tradeState true => inferInstanceAs (Decidable (KeepsBackfilled w ∧
      ∀ g ∈ w.openGaps cfg, ∃ l ∈ w.mem.lastId cfg.table g.sym, g.lastId ≤ l))
  | .tradeState false | .start .. | .register .. | .resendRow .. | .connLost | .tpProcess
  | .message .. | .pump .. | .health | .workerPop | .workerPush | .sendEvent ..
  | .crash => inferInstanceAs (Decidable (KeepsBackfilled w ∧ True))

/-- What every run with such steps keeps. -/
structure Agreed (cfg : HandlerConfig) (w : TradeWorld φ δ) : Prop where
  once : Once cfg w
  clear : (w.ledger cfg).Clear cfg.table
  inStep : InStep cfg w

namespace Agreed

variable {cfg : HandlerConfig} {w : TradeWorld φ δ}

theorem init (cfg : HandlerConfig) : Agreed cfg ({} : TradeWorld φ δ) := by
  refine { once := .init cfg, clear := ?_, inStep := { logged := ?_, handler := ?_ } }
  · intro r hr
    exact absurd hr List.not_mem_nil
  · rintro key row ⟨⟩
  · rintro h ⟨⟩

/-- The gaps a start resumes need no id that is logged: TP is right about how far they are. -/
theorem resumesRight (h : Agreed cfg w) {s : TradeStep φ} (hguard : KeepsOrder cfg w s) :
    ResumesRight cfg w s := by
  cases s with
  | tradeState received =>
      cases received with
      | false => trivial
      | true =>
          intro g hg
          refine ⟨hguard.2 g hg, fun e he hsym => ?_⟩
          have hknown : (w.ledger cfg).Known cfg.table g := .inr (.inr hg)
          have hvalid := (h.once.sound.gaps g hknown).1
          have hrow : e.2.data ∈ w.link.rows := List.mem_map_of_mem he
          have hstream : e.2.data ∈ (w.ledger cfg).stream :=
            List.mem_append_left _ (List.mem_append_left _ hrow)
          have hnext := hvalid.firstId_le_next
          by_cases hlive : e.2.data.exchEventTimeMs = none
          · by_cases hin : g.firstId ≤ e.2.data.id ∧ e.2.data.id ≤ g.lastId
            · obtain ⟨key, row, -, hgap, htable, hopen, rfl⟩ :=
                (Ledger.mem_openGaps (v := w.ledger cfg)).mp hg
              have hreached : (toGap key row).Reached w.link.rows :=
                h.inStep.logged key row hgap htable hopen
              exact .inl (hreached.lt_next hvalid hrow ⟨hlive, hsym, hin⟩)
            · omega
          · obtain hbelow | habove := h.clear _ hstream hlive g hknown hsym
            · exact .inl (by omega)
            · exact .inr habove
  | _ => trivial

theorem step (h : Agreed cfg w) (fetch : Fetcher φ δ) (s : TradeStep φ)
    (hguard : KeepsOrder cfg w s) : Agreed cfg (w.step cfg fetch s) := by
  have hl := h.once.linked
  have hs := h.once.sound
  have ht := h.once.tidy
  let may : Allowed := { gone := True, resume := True, unseeded := True, crash := True }
  have hmoved : Moved cfg may w (w.step cfg fetch s) :=
    hl.step fetch s (.inr trivial) (fun _ _ => by split_ifs <;> trivial) fun _ => trivial
  refine
    { once := h.once.step fetch s (h.resumesRight hguard)
      clear := h.clear.moves hs ht hmoved.2, inStep := ?_ }
  obtain ⟨hkeeps, hguard⟩ := hguard
  cases s with
  | start sessionId fetcher => exact h.inStep.start sessionId fetcher
  | register replyLost =>
      exact h.inStep.relink (register_same hl.link hl.width replyLost)
  | resendRow accepted => exact h.inStep.relink (resendRow_unmoved ..).toSameRows
  | connLost => exact h.inStep.relink (connLost_unmoved _).toSameRows
  | tpProcess => exact h.inStep.tpProcess hl hkeeps
  | tradeState received => exact h.inStep.tradeState hl hs received
  | message sym tradeId eventTimeMs nowNs => exact h.inStep.message ht sym tradeId eventTimeMs nowNs
  | pump nowMs nowNs => exact h.inStep.pump hs ht fetch nowMs nowNs
  | health => exact h.inStep.health
  | workerPop => exact h.inStep.worker Linked.workerPop_queue
  | workerPush => exact h.inStep.worker (Linked.workerPush_queue fetch)
  | act accepted => exact h.inStep.act hl accepted hguard
  | sendEvent outcome => exact h.inStep.sendEvent hl hkeeps outcome
  | crash => exact h.inStep.crash

end Agreed

/-! ## The result -/

/-- At every moment of every such run, TP is right about the progress of every open gap. -/
theorem progress_is_what_is_logged (cfg : HandlerConfig) (fetch : Fetcher φ δ)
    (steps : List (TradeStep φ))
    (hrun : Admits (TradeWorld.step cfg fetch) (KeepsOrder cfg) {} steps) :
    (exec (TradeWorld.step cfg fetch) {} steps).ProgressRight cfg := by
  have hagreed : Agreed cfg (exec (TradeWorld.step cfg fetch) {} steps) :=
    hrun.invariant (fun _ s h hguard => h.step fetch s hguard) (.init cfg)
  exact hagreed.inStep.logged

/-- The call with the event of gap 11 to 12 fails once, and TP has the event before the first row
of the gap. The process ends after that row; the next one goes on with 12. -/
private def inOrderSteps : List (TradeStep Unit) :=
  [.start 1 (), .register false, .tradeState true,
    .message "BTCUSDT" 10 0 0, .act true, .act true, .tpProcess,
    .message "BTCUSDT" 13 0 0, .act true, .sendEvent .connectionLost, .act true, .register false,
    .resendRow true, .tpProcess, .sendEvent .acked, .act true, .pump 0 0, .workerPop, .workerPush,
    .pump 0 0, .act true, .tpProcess, .crash, .start 2 (), .register false, .tradeState true,
    .pump 1 0, .workerPop, .workerPush, .pump 1 0, .act true, .tpProcess]

theorem progress_is_what_is_logged_resumed :
    let w := exec (TradeWorld.step demoConfig demoFetch) {} inOrderSteps
    w.link.rows.map (·.id) = [10, 13, 11, 12] ∧
      (w.openGaps demoConfig).map (·.recoveredThroughId) = [12] ∧ w.ProgressRight demoConfig :=
  ⟨by decide +kernel, by decide +kernel,
    progress_is_what_is_logged demoConfig demoFetch inOrderSteps (by decide +kernel)⟩

/-- The call fails twice: before trade 13 is published, and after it. The rows 11 and 12 are
published and logged, and TP takes the event then. -/
private def overtakingSteps : List (TradeStep Unit) :=
  [.start 1 (), .register false, .tradeState true,
    .message "BTCUSDT" 10 0 0, .act true, .act true, .tpProcess,
    .message "BTCUSDT" 13 0 0, .act true, .connLost, .sendEvent .connectionLost, .act true,
    .register false, .resendRow true, .tpProcess, .connLost, .sendEvent .connectionLost,
    .pump 0 0, .workerPop, .workerPush, .pump 0 0, .act true, .register false, .resendRow true,
    .tpProcess, .act true, .tpProcess, .act true, .sendEvent .acked]

/-- To TP nothing of the gap is backfilled then. -/
theorem event_after_rows_resets_progress :
    let w := exec (TradeWorld.step demoConfig demoFetch) {} overtakingSteps
    w.link.rows.map (·.id) = [10, 13, 11, 12] ∧
      (w.openGaps demoConfig).map (·.recoveredThroughId) = [0] ∧ ¬ w.ProgressRight demoConfig := by
  refine ⟨by decide +kernel, by decide +kernel, fun h => ?_⟩
  have hgap := h { srcTable := .tradeBinance, sym := "BTCUSDT", firstMissingId := 11 }
    { lastMissingId := 12, status := .detected, recovered := 0, recoveredThroughId := 0 }
    (by decide +kernel) rfl rfl
  exact absurd hgap (by decide +kernel)

end TickToSignal.Trade
