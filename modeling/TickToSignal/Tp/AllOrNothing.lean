import TickToSignal.Tp.Upd

/-!
# What a row leaves behind that could not be logged

A row of a handler is counted and noted before it is logged. If the call throws
after that, TP remembers a row that no log has: a handler that registers again
is told that the row is there. `Seen` says when this makes no difference:
nothing of the row was new to TP.
-/

namespace TickToSignal.Tp

open Publisher

/-- What of a gap a backfilled row moves. -/
def GapRow.progress (g : GapRow) : Int × Int := (g.recoveredThroughId, g.recovered)

namespace Memory

/-- The last number and the counters of every table, the trade ids and the progress of the gaps
are the same. -/
structure Kept (m m' : Memory) : Prop where
  last : ∀ t, (m'.tables t).last = (m.tables t).last
  gapCount : ∀ t, (m'.tables t).gaps = (m.tables t).gaps
  missed : ∀ t, (m'.tables t).missed = (m.tables t).missed
  lastId : ∀ t s, m'.lastId t s = m.lastId t s
  progress : ∀ key, (m'.gaps key).map GapRow.progress = (m.gaps key).map GapRow.progress

theorem Kept.refl (m : Memory) : Kept m m :=
  ⟨fun _ => rfl, fun _ => rfl, fun _ => rfl, fun _ _ => rfl, fun _ => rfl⟩

/-- If gap `key` is about the row's id, it has got that far, and its count adds up. -/
def Passed (r : DataRow) (key : GapKey) (g : GapRow) : Prop :=
  key.srcTable = r.table → key.sym = r.sym → key.firstMissingId ≤ r.tradeId →
    r.tradeId ≤ g.lastMissingId →
    r.tradeId ≤ g.recoveredThroughId ∧
      g.recovered = 1 + g.recoveredThroughId - key.firstMissingId

/-- Nothing of the row is new: its number and its id are no higher than the last ones, and
if it is backfilled, every gap it falls into has passed it. -/
structure Seen (m : Memory) (r : DataRow) : Prop where
  fhSeqNo : ∃ l ∈ (m.tables r.table).last, r.fhSeqNo ≤ l
  tradeId : r.table.isTrade = true → ∃ l ∈ m.lastId r.table r.sym, r.tradeId ≤ l
  backfill : r.table.isTrade = true → r.exchEventTimeMs = none →
    ∀ key, ∀ g ∈ m.gaps key, Passed r key g

end Memory

/-- Only a number that is not above the last one leaves it and the gap counters alone. -/
theorem checkSeq_kept_iff {tp : TpTable} {seq : Int} :
    (tp.checkSeq seq).last = tp.last ∧ (tp.checkSeq seq).gaps = tp.gaps ∧
        (tp.checkSeq seq).missed = tp.missed ↔ ∃ l ∈ tp.last, seq ≤ l := by
  cases hlast : tp.last with
  | none => simp [TpTable.checkSeq, hlast]
  | some l =>
      simp only [TpTable.checkSeq, hlast, Option.mem_some_iff, exists_eq_left']
      split_ifs with hnext hjump
      · simp only [Option.some.injEq, and_true]
        omega
      · simp only [Option.some.injEq]
        omega
      · have hle : seq ≤ l := by omega
        simp [hle]

theorem orMax_eq_iff {id : Int} {l : Option Int} :
    some (orMax id l) = l ↔ ∃ x ∈ l, id ≤ x := by
  cases l with
  | none => simp
  | some x =>
      simp only [orMax, Option.some.injEq, Option.mem_some_iff, exists_eq_left']
      exact max_eq_right_iff

/-- A backfilled id moves the gaps it falls into, unless they have passed it. -/
theorem backfilled_progress_iff {key : GapKey} {id : Int} {g : GapRow} :
    (GapRow.backfilled key id g).progress = g.progress ↔
      (key.firstMissingId ≤ id → id ≤ g.lastMissingId →
        id ≤ g.recoveredThroughId ∧ g.recovered = 1 + g.recoveredThroughId - key.firstMissingId) := by
  simp only [GapRow.backfilled]
  split_ifs with hin
  · simp only [GapRow.progress, Prod.mk.injEq, hin.1, hin.2, true_implies, max_eq_right_iff]
    constructor
    · rintro ⟨hle, hrec⟩
      rw [max_eq_right hle] at hrec
      exact ⟨hle, hrec.symm⟩
    · rintro ⟨hle, hrec⟩
      rw [max_eq_right hle]
      exact ⟨hle, hrec.symm⟩
  · simp only [true_iff]
    intro hfirst hlast
    exact absurd ⟨hfirst, hlast⟩ hin

namespace Memory

variable {m : Memory} {r : DataRow}

theorem noteBackfill_progress_iff {tbl : Table} {s : String} {id : Int} :
    (∀ key, ((m.noteBackfill tbl s id).gaps key).map GapRow.progress
        = (m.gaps key).map GapRow.progress) ↔
      ∀ key, ∀ g ∈ m.gaps key, key.srcTable = tbl → key.sym = s →
        (GapRow.backfilled key id g).progress = g.progress := by
  apply forall_congr'
  intro key
  simp only [noteBackfill]
  cases hg : m.gaps key with
  | none => simp
  | some g =>
      simp only [Option.mem_some_iff, forall_eq']
      split_ifs with hkey
      · simp [hkey.1, hkey.2]
      · simp only [true_iff]
        intro htbl hsym
        exact absurd ⟨htbl, hsym⟩ hkey

theorem noteTradeId_lastId_iff :
    (∀ t s, (m.noteTradeId r).lastId t s = m.lastId t s) ↔
      ∃ l ∈ m.lastId r.table r.sym, r.tradeId ≤ l := by
  have hnoted : (m.noteTradeId r).lastId = Function.update m.lastId r.table
      (Function.update (m.lastId r.table) r.sym
        (some (orMax r.tradeId (m.lastId r.table r.sym)))) := by
    simp only [noteTradeId]
    split_ifs <;> rfl
  rw [hnoted, ← orMax_eq_iff]
  constructor
  · intro h
    simpa using h r.table r.sym
  · intro h t s
    rw [h, Function.update_eq_self, Function.update_eq_self]

theorem noteTradeId_progress_iff :
    (∀ key, ((m.noteTradeId r).gaps key).map GapRow.progress = (m.gaps key).map GapRow.progress) ↔
      (r.exchEventTimeMs = none → ∀ key, ∀ g ∈ m.gaps key, Passed r key g) := by
  simp only [noteTradeId, Option.isNone_iff_eq_none]
  split_ifs with hback
  · rw [noteBackfill_progress_iff]
    simp only [hback, true_implies, Passed, backfilled_progress_iff]
  · simp [hback]

theorem upd_tables : (m.upd r).tables =
    Function.update m.tables r.table ((m.tables r.table).checkSeq r.fhSeqNo) := by
  simp only [upd, noteTradeId, noteBackfill]
  split_ifs <;> rfl

/-- Ids and gaps move for a trade as `noteTradeId` says. -/
theorem upd_trade (htrade : r.table.isTrade = true) :
    (m.upd r).lastId = (m.noteTradeId r).lastId ∧ (m.upd r).gaps = (m.noteTradeId r).gaps := by
  simp only [upd, htrade, if_true, noteTradeId]
  split_ifs <;> exact ⟨rfl, rfl⟩

theorem upd_quote (hquote : r.table.isTrade = false) :
    (m.upd r).lastId = m.lastId ∧ (m.upd r).gaps = m.gaps := by
  simp [upd, hquote]

/-- The row leaves everything as it was exactly if nothing of it is new. -/
theorem upd_kept_iff : Kept m (m.upd r) ↔ Seen m r := by
  have hseq : ((∀ t, ((m.upd r).tables t).last = (m.tables t).last) ∧
      (∀ t, ((m.upd r).tables t).gaps = (m.tables t).gaps) ∧
      ∀ t, ((m.upd r).tables t).missed = (m.tables t).missed) ↔
        ∃ l ∈ (m.tables r.table).last, r.fhSeqNo ≤ l := by
    rw [← checkSeq_kept_iff, upd_tables]
    constructor
    · rintro ⟨hlast, hgaps, hmissed⟩
      exact ⟨by simpa using hlast r.table, by simpa using hgaps r.table,
        by simpa using hmissed r.table⟩
    · rintro ⟨hlast, hgaps, hmissed⟩
      refine ⟨fun t => ?_, fun t => ?_, fun t => ?_⟩ <;>
      · by_cases ht : t = r.table
        · subst ht
          simpa
        · rw [Function.update_of_ne ht]
  cases htrade : r.table.isTrade with
  | true =>
      obtain ⟨hids, hgaps⟩ := upd_trade (m := m) htrade
      constructor
      · intro h
        exact
          { fhSeqNo := hseq.mp ⟨h.last, h.gapCount, h.missed⟩
            tradeId := fun _ => noteTradeId_lastId_iff.mp (hids ▸ h.lastId)
            backfill := fun _ => noteTradeId_progress_iff.mp (hgaps ▸ h.progress) }
      · intro h
        obtain ⟨hlast, hcount, hmissed⟩ := hseq.mpr h.fhSeqNo
        exact
          { last := hlast, gapCount := hcount, missed := hmissed
            lastId := hids ▸ noteTradeId_lastId_iff.mpr (h.tradeId htrade)
            progress := hgaps ▸ noteTradeId_progress_iff.mpr (h.backfill htrade) }
  | false =>
      obtain ⟨hids, hgaps⟩ := upd_quote (m := m) htrade
      constructor
      · intro h
        exact
          { fhSeqNo := hseq.mp ⟨h.last, h.gapCount, h.missed⟩
            tradeId := by simp [htrade]
            backfill := by simp [htrade] }
      · intro h
        obtain ⟨hlast, hcount, hmissed⟩ := hseq.mpr h.fhSeqNo
        exact
          { last := hlast, gapCount := hcount, missed := hmissed
            lastId := fun _ _ => by rw [hids]
            progress := fun _ => by rw [hgaps] }

end Memory

namespace TpProcess

/-- A call that throws leaves TP's account of the rows as it was exactly if it was not about
a row of a handler, or about one of which nothing is new. -/
theorem upd_kept_iff_of_thrown {cfg : UpdConfig} {io : UpdIO} {h : Int} {p : TpProcess}
    {m : Message} (hthrown : (p.upd cfg io h m).2 = .thrown) :
    Memory.Kept p.memory (p.upd cfg io h m).1.memory ↔
      ∀ r width, m = .data r width → Memory.Seen p.memory r := by
  rw [upd_memory hthrown]
  cases m with
  | data r width =>
      simp only [Message.data.injEq, and_imp]
      rw [Memory.upd_kept_iff]
      constructor
      · rintro hseen _ _ rfl -
        exact hseen
      · intro hall
        exact hall r width rfl rfl
  | health | event e width | unknown tbl =>
      simp only [reduceCtorEq, false_implies, implies_true, iff_true]
      exact Memory.Kept.refl p.memory

/-- TP at row 1 of session 7 of one table, with ten numbers left. -/
def demoProcess : TpProcess :=
  { memory :=
      { tables := fun t => if t = .quoteBinance then { sessionId := some 7, last := some 1 } else {} }
    disk := { seqFile := some ⟨20, 10⟩ }
    seq := { tpSeqNo := 10, reserved := 20 } }

def demoUpdConfig : UpdConfig := { seqReserve := 10000, fhWidth := fun _ => 5, eventWidth := 9 }

theorem upd_kept_iff_of_thrown_next_row :
    Memory.Kept demoProcess.memory
        (demoProcess.upd demoUpdConfig { logWrites := false } 3
          (.data { table := .quoteBinance, fhSeqNo := 2 } 5)).1.memory ↔
      ∀ r width, Message.data { table := .quoteBinance, fhSeqNo := 2 } 5 = .data r width →
        Memory.Seen demoProcess.memory r :=
  upd_kept_iff_of_thrown (by decide)

/-- The log write of row 2 fails. TP has counted the row, so the handler that registers again
is told that row 2 is logged and sends row 3 next. -/
theorem unlogged_row_is_counted :
    let out := demoProcess.upd demoUpdConfig { logWrites := false } 3
      (.data { table := .quoteBinance, fhSeqNo := 2 } 5)
    out.2 = .thrown ∧ out.1.log = [] ∧ ¬ Memory.Kept demoProcess.memory out.1.memory ∧
      (TpTable.registerSession ⟨"quote_binance", 5⟩ (out.1.memory.tables .quoteBinance) 7 3 5).1
        = .ok 2 := by
  refine ⟨by decide, by decide, ?_, by decide⟩
  intro hkept
  have hlast := hkept.last .quoteBinance
  revert hlast
  decide

end TpProcess

end TickToSignal.Tp
