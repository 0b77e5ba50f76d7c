import TickToSignal.Foundation.Machine
import TickToSignal.Trade.Coverage

/-!
# No hole in the ids goes unrecorded

Every id from the first one in the log to `lastId` is that of a logged row, lies
in a logged gap event, or is still held by the handler that found the gap. The
row that reveals a gap and the event that reports it travel apart, so a row can
be logged while its event is held; when the process ends then, the hole is below
`lastId` and the next start does not see it. `KeepsEvents` excludes that.
-/

namespace TickToSignal.Trade

open Foundation Publisher Tp

variable {φ δ : Type*}

namespace TradeWorld

/-- The gap events the running handler holds. -/
def heldEvents (w : TradeWorld φ δ) : List GapEvent :=
  w.handler.elim [] fun h => h.gapEvents ++ dueEvents h.todo

/-- The rows it holds: published and not logged, or to be published next. -/
def heldRows (w : TradeWorld φ δ) : List TradeRow :=
  w.link.held ++ w.handler.elim [] fun h => dueRows h.todo

/-- The id is that of a logged row, or a logged event reports it, or the running handler holds an
event or a row for it. -/
def Accounted (w : TradeWorld φ δ) (sym : String) (id : Int) : Prop :=
  (∃ e ∈ w.link.log, e.2.data.sym = sym ∧ e.2.data.id = id) ∨
    (∃ e ∈ w.gapLog, Reports e sym id) ∨
      w.handler.isSome = true ∧
        ((∃ e ∈ w.heldEvents, Reports e sym id) ∨ ∃ r ∈ w.heldRows, r.sym = sym ∧ r.id = id)

instance (w : TradeWorld φ δ) (sym : String) (id : Int) : Decidable (w.Accounted sym id) := by
  unfold Accounted Reports
  infer_instance

/-- So are all ids from the first one in the log to the last. -/
def NoHole (cfg : HandlerConfig) (w : TradeWorld φ δ) : Prop :=
  ∀ sym, ∀ first ∈ firstId w.link.rows sym, ∀ last ∈ w.mem.lastId cfg.table sym,
    ∀ id, first ≤ id → id ≤ last → w.Accounted sym id

end TradeWorld

/-- No resend found a row gone, a start gets the trade state, and the process does not end with an
event about an id at or below the last one logged. -/
def KeepsEvents (cfg : HandlerConfig) (w : TradeWorld φ δ) (s : TradeStep φ) : Prop :=
  w.link.gone = [] ∧
    match s with
    | .tradeState received => received = true ∧ w.link.linkUp = true
    | .crash => ∀ e ∈ w.heldEvents, ∀ l ∈ w.mem.lastId cfg.table e.key.sym,
        l < e.key.firstMissingId
    | _ => True

instance (cfg : HandlerConfig) (w : TradeWorld φ δ) (s : TradeStep φ) :
    Decidable (KeepsEvents cfg w s) := by
  unfold KeepsEvents
  cases s <;> infer_instance

theorem Linked.isSome_of_heldRows {cfg : HandlerConfig} {w : TradeWorld φ δ} (hl : Linked cfg w)
    {r : TradeRow} (hr : r ∈ w.heldRows) : w.handler.isSome = true := by
  by_contra hnone
  have hlink := hl.alive
  rw [Bool.not_eq_true] at hnone
  rw [hnone, eq_comm, Option.isSome_eq_false_iff, Option.isNone_iff_eq_none] at hlink
  rw [Option.isSome_eq_false_iff, Option.isNone_iff_eq_none] at hnone
  simp [TradeWorld.heldRows, Publisher.World.held, hnone, hlink] at hr

/-- What every such run keeps. -/
structure Recorded (cfg : HandlerConfig) (w : TradeWorld φ δ) : Prop where
  linked : Linked cfg w
  sound : (w.ledger cfg).Sound cfg.table
  covered : (w.ledger cfg).Covered cfg.table

namespace Recorded

variable {cfg : HandlerConfig} {w : TradeWorld φ δ}

theorem init (cfg : HandlerConfig) : Recorded cfg ({} : TradeWorld φ δ) := by
  refine { linked := .init cfg, sound := .init cfg, covered := ?_ }
  constructor
  case opened =>
    intro g hg
    cases hg
  case order => exact .nil
  case logged | seen | seenRow =>
    intro sym l hl
    exact absurd hl (Option.not_mem_none l)
  case rows =>
    intro _ r hr
    exact absurd hr List.not_mem_nil
  all_goals
    intro e he
    exact absurd he List.not_mem_nil

theorem step (h : Recorded cfg w) (fetch : Fetcher φ δ) (s : TradeStep φ)
    (hguard : KeepsEvents cfg w s) : Recorded cfg (w.step cfg fetch s) := by
  obtain ⟨hgone, hguard⟩ := hguard
  let may : Allowed :=
    { gone := False, resume := True, unseeded := False
      crash := ∀ e ∈ w.heldEvents, ∀ l ∈ w.mem.lastId cfg.table e.key.sym,
        l < e.key.firstMissingId }
  have hstart : ∀ received, s = .tradeState received →
      if received = true ∧ w.link.linkUp = true then may.resume else may.unseeded := by
    rintro received rfl
    rw [if_pos hguard]
    trivial
  have hcrash : s = .crash → may.crash := by
    rintro rfl
    exact hguard
  have hmoved : Moved cfg may w (w.step cfg fetch s) :=
    h.linked.step fetch s (.inl hgone) hstart hcrash
  obtain ⟨hlinked, hmove⟩ := hmoved
  exact
    { linked := hlinked, sound := h.sound.moves hmove
      covered := h.covered.moves h.sound hmove (fun h => h) (fun h => h) fun h => h }

theorem noHole (h : Recorded cfg w) : w.NoHole cfg := by
  intro sym first hfirst last hlast id hlow hhigh
  have hfirst' : first ∈ firstId (w.ledger cfg).stream sym := by
    simp only [Ledger.stream, List.append_assoc]
    exact firstId_append_left hfirst
  obtain ⟨r, hr, heq⟩ | ⟨e, he, hreports⟩ :=
    h.covered.logged sym last hlast first hfirst' id hlow hhigh
  · have hrow : r ∈ w.link.rows ++ w.heldRows := by
      rw [TradeWorld.heldRows, ← List.append_assoc]
      exact hr
    obtain hr | hr := List.mem_append.mp hrow
    · obtain ⟨e, he, rfl⟩ := List.mem_map.mp hr
      exact .inl ⟨e, he, heq⟩
    · exact .inr (.inr ⟨h.linked.isSome_of_heldRows hr, .inr ⟨r, hr, heq⟩⟩)
  · obtain he | he := List.mem_append.mp he
    · exact .inr (.inl ⟨e, he, hreports⟩)
    · have hsome : w.handler.isSome = true := by
        by_contra hnone
        rw [Bool.not_eq_true, Option.isSome_eq_false_iff, Option.isNone_iff_eq_none] at hnone
        simp [TradeWorld.ledger, hnone] at he
      exact .inr (.inr ⟨hsome, .inl ⟨e, he, hreports⟩⟩)

end Recorded

/-- Every id from the first one logged to `lastId` is logged, reported or held, at every moment of
every such run. -/
theorem no_unrecorded_hole (cfg : HandlerConfig) (fetch : Fetcher φ δ)
    (steps : List (TradeStep φ))
    (hrun : Admits (TradeWorld.step cfg fetch) (KeepsEvents cfg) {} steps) :
    (exec (TradeWorld.step cfg fetch) {} steps).NoHole cfg := by
  have hrecorded : Recorded cfg (exec (TradeWorld.step cfg fetch) {} steps) :=
    hrun.invariant (fun _ s h hguard => h.step fetch s hguard) (.init cfg)
  exact hrecorded.noHole

/-- The call with the event of gap 11 to 14 fails, trade 15 is published, the publisher connects
again and resends it. -/
private def overtakenSteps : List (TradeStep Unit) :=
  [.start 1 (), .register false, .tradeState true,
    .message "BTCUSDT" 10 0 0, .act true, .act true, .tpProcess,
    .message "BTCUSDT" 15 0 0, .act true, .sendEvent .connectionLost, .act true, .register false,
    .resendRow true, .tpProcess]

theorem no_unrecorded_hole_overtaken :
    let w := exec (TradeWorld.step demoConfig demoFetch) {}
      (overtakenSteps ++ [.sendEvent .acked, .act true, .crash, .start 2 (), .register false,
        .tradeState true])
    w.link.log.map (fun e => e.2.data.id) = [10, 15] ∧
      w.gapLog.map (fun e => (e.key.firstMissingId, e.row.lastMissingId)) = [(11, 14)] ∧
        w.NoHole demoConfig :=
  ⟨by decide +kernel, by decide +kernel, no_unrecorded_hole demoConfig demoFetch _
    (by decide +kernel)⟩

/-- When the process ends before the event is sent again, nothing tells of 11 to 14. -/
theorem event_overtaken_by_row :
    let w := exec (TradeWorld.step demoConfig demoFetch) {} (overtakenSteps ++ [.crash])
    w.mem.lastId demoConfig.table "BTCUSDT" = some 15 ∧ ¬ w.NoHole demoConfig := by
  refine ⟨by decide +kernel, fun h => ?_⟩
  have hid := h "BTCUSDT" 10 (by decide +kernel) 15 (by decide +kernel) 11 (by decide) (by decide)
  exact absurd hid (by decide +kernel)

end TickToSignal.Trade
