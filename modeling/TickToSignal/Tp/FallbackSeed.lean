import TickToSignal.Foundation.Neighbours
import TickToSignal.Foundation.Watermark
import TickToSignal.Tp.SeqNo
import TickToSignal.Utils.LogManager

/-!
# The seed of tpSeqNo without a reservation file

If the reservation file is missing or malformed, a start takes the counter from
the newest log: the largest number the scan of it counts. The scan skips gap
events, rows of unknown tables and rows of another width, all of which have a
number too, and it reads no other log.

## Implementation notes

A log is the whole chunks that `-11!` replays before it stops. The test against
WDB's checkpoint only prints. Reservation writes may fail or end the process;
the counter is what TP's memory holds then.
-/

namespace TickToSignal.Tp

open Foundation Utils

/-- `.tp.scanUpd`, its part about the largest number. -/
def scanUpdMax (cfg : LogConfig) (tpMax : Int) (r : LoggedRow) : Int :=
  match tableOf r.table with
  | none | some .tradeGap => tpMax
  | some t => if r.width ≠ cfg.width t then tpMax else max tpMax r.tpSeqNo

/-- `.tp.scanLog`, its first result. -/
def scanLogMax (cfg : LogConfig) (f : LogFile) : Int := f.chunks.foldl (scanUpdMax cfg) 0

/-- `.tp.newestLog`: the last of the sorted names. -/
def newestLog (dir : LogDir) : Option Wdb.Date := dir.list.getLast?

/-- What `.tp.seq.load` finds to migrate from. -/
def migrationSeed (cfg : LogConfig) (dir : LogDir) : Int :=
  match newestLog dir with
  | none => 0
  | some d => scanLogMax cfg (dir.content d)

/-- `.tp.recoverFhSeq`: without a log of today there is nothing to do. -/
def recoverToday (cfg : LogConfig) (seqReserve : Nat) (dir : LogDir) (today : Wdb.Date)
    (d : SeqDisk) (m : SeqMemory) (outcome : Outcome) : SeqDisk × SeqMemory × Ending Unit :=
  if .log today ∈ dir.names then
    recoverFhSeq seqReserve d m (scanLogMax cfg (dir.content today)) outcome
  else (d, m, .returned ())

/-- `.tp.seq.load`, then `.tp.recoverFhSeq`. -/
def startUp (cfg : LogConfig) (seqReserve : Nat) (dir : LogDir) (today : Wdb.Date) (d : SeqDisk)
    (loading recovering : Outcome) : SeqDisk × SeqMemory × Ending Unit :=
  match load seqReserve d (migrationSeed cfg dir) loading with
  | (d, m, .returned ()) => recoverToday cfg seqReserve dir today d m recovering
  | (d, m, e) => (d, m, e)

/-- The rows of all logs, in the order of their dates. -/
def allRows (dir : LogDir) : List LoggedRow := dir.list.flatMap fun d => (dir.content d).chunks

/-- The logs TP can have left: none of a later day, and over all of them the numbers increase. -/
structure LogsLeft (dir : LogDir) (today : Wdb.Date) : Prop where
  dates : ∀ d ∈ dir.list, d ≤ today
  positive : ∀ r ∈ allRows dir, 0 < r.tpSeqNo
  increasing : (allRows dir).Pairwise fun a b => a.tpSeqNo < b.tpSeqNo

/-- A row of a data table with the schema's width. -/
def counted (cfg : LogConfig) (r : LoggedRow) : Bool :=
  match tableOf r.table with
  | none | some .tradeGap => false
  | some t => decide (r.width = cfg.width t)

/-- No log holds a row, or the newest one ends with a row that is counted. -/
def EndsCounted (cfg : LogConfig) (dir : LogDir) : Prop :=
  allRows dir = [] ∨
    ∃ d r, newestLog dir = some d ∧ (dir.content d).chunks.getLast? = some r ∧
      counted cfg r = true

section
variable {cfg : LogConfig} {seqReserve : Nat} {dir : LogDir} {today : Wdb.Date}

theorem scanUpdMax_eq (tpMax : Int) (r : LoggedRow) :
    scanUpdMax cfg tpMax r = if counted cfg r then max tpMax r.tpSeqNo else tpMax := by
  unfold scanUpdMax counted
  cases tableOf r.table with
  | none => rfl
  | some t =>
      cases t with
      | tradeGap => rfl
      | tradeBinance | tradeBinanceFut | quoteBinance | quoteBinanceFut =>
          simp only [ne_eq, ite_not, decide_eq_true_eq]

/-- The scan counts the largest number among the rows it does not skip. -/
theorem scanLogMax_eq (f : LogFile) :
    scanLogMax cfg f = watermark (fun r : LoggedRow => r.tpSeqNo) 0 (f.chunks.filter (counted cfg)) := by
  have hfold : ∀ (l : List LoggedRow) (n : Int),
      l.foldl (scanUpdMax cfg) n =
        watermark (fun r : LoggedRow => r.tpSeqNo) n (l.filter (counted cfg)) := by
    intro l
    induction l with
    | nil => exact fun n => rfl
    | cons r l ih =>
        intro n
        rw [List.foldl_cons, scanUpdMax_eq, ih, List.filter_cons]
        split <;> rfl
  exact hfold f.chunks 0

theorem persist_tpSeqNo (d : SeqDisk) (m : SeqMemory) (reserved : Int) (o : Outcome) :
    (persist d m reserved o).2.1.tpSeqNo = m.tpSeqNo := by
  cases o <;> rfl

/-- The recovery takes the larger of the two. -/
theorem recoverFhSeq_tpSeqNo (d : SeqDisk) (m : SeqMemory) (logMax : Int) (o : Outcome) :
    (recoverFhSeq seqReserve d m logMax o).2.1.tpSeqNo = max m.tpSeqNo logMax := by
  unfold recoverFhSeq
  split
  next h => rw [persist_tpSeqNo, max_eq_right h.le]
  next h => rw [max_eq_left (not_lt.mp h)]

theorem mem_list_iff {d : Wdb.Date} : d ∈ dir.list ↔ .log d ∈ dir.names := by
  rw [LogDir.list, List.mem_insertionSort, List.mem_filterMap]
  constructor
  · rintro ⟨name, hname, hd⟩
    cases name with
    | log d' =>
        obtain rfl := Option.some.inj hd
        exact hname
    | idx d' | other name => cases hd
  · exact fun h => ⟨_, h, rfl⟩

/-- Today's log is the newest one, if there is one. -/
theorem newestLog_today (hdates : ∀ d ∈ dir.list, d ≤ today) (h : .log today ∈ dir.names) :
    newestLog dir = some today := by
  have hmem := mem_list_iff.mpr h
  obtain ⟨d, hd⟩ := List.getLast?_isSome.mpr (List.ne_nil_of_mem hmem) |> Option.isSome_iff_exists.mp
  have hsorted : dir.list.Pairwise (· ≤ ·) := List.pairwise_insertionSort _ _
  have hd' : d ≤ today := hdates d (List.mem_of_getLast? hd)
  obtain rfl | hle := eq_or_rel_getLast hsorted hd hmem
  · exact hd
  · rw [newestLog, hd, le_antisymm hd' hle]

/-- After the start-up the counter is what the scan of the newest log found. -/
theorem startUp_tpSeqNo (hdates : ∀ d ∈ dir.list, d ≤ today) {d : SeqDisk} (hd : d.seqFile = none)
    (loading recovering : Outcome) :
    (startUp cfg seqReserve dir today d loading recovering).2.1.tpSeqNo =
      migrationSeed cfg dir := by
  have hload : (load seqReserve d (migrationSeed cfg dir) loading).2.1.tpSeqNo =
      migrationSeed cfg dir := by
    simp only [load, hd]
    exact persist_tpSeqNo _ _ _ _
  unfold startUp
  rcases hcall : load seqReserve d (migrationSeed cfg dir) loading with ⟨d', m, e⟩
  rw [hcall] at hload
  cases e with
  | thrown | died => exact hload
  | returned =>
      dsimp only [recoverToday] at hload ⊢
      split
      next htoday =>
        rw [recoverFhSeq_tpSeqNo, hload]
        simp only [migrationSeed, newestLog_today hdates htoday, max_self]
      next => exact hload

/-- The scan of the newest log reaches the last number exactly if the last row is in it and
counts. -/
theorem migrationSeed_covers_iff (h : LogsLeft dir today) :
    (∀ r ∈ allRows dir, r.tpSeqNo ≤ migrationSeed cfg dir) ↔ EndsCounted cfg dir := by
  unfold migrationSeed EndsCounted
  cases hnew : newestLog dir with
  | none =>
      have hlist : dir.list = [] := List.getLast?_eq_none_iff.mp hnew
      have hnil : allRows dir = [] := by rw [allRows, hlist, List.flatMap_nil]
      exact iff_of_true (by simp [hnil]) (.inl hnil)
  | some d =>
      obtain ⟨front, hfront⟩ := List.getLast?_eq_some_iff.mp hnew
      obtain ⟨earlier, hrows⟩ : ∃ earlier, allRows dir = earlier ++ (dir.content d).chunks :=
        ⟨front.flatMap fun d => (dir.content d).chunks, by simp [allRows, hfront]⟩
      have hpos := h.positive
      have hinc := h.increasing
      dsimp only
      rw [scanLogMax_eq]
      constructor
      · intro hall
        by_cases hnil : allRows dir = []
        · exact .inl hnil
        obtain ⟨r, hr⟩ := List.getLast?_isSome.mpr hnil |> Option.isSome_iff_exists.mp
        have hmem : r ∈ allRows dir := List.mem_of_getLast? hr
        have hle := hall r hmem
        obtain hzero | ⟨a, ha, haw⟩ := watermark_eq_or_mem (fun r : LoggedRow => r.tpSeqNo) 0
          ((dir.content d).chunks.filter (counted cfg))
        · have := hpos r hmem
          omega
        · -- the row with the largest counted number is the last one of all
          rw [haw] at hle
          obtain ⟨hac, hcounted⟩ := List.mem_filter.mp ha
          have harows : a ∈ allRows dir := hrows ▸ List.mem_append_right _ hac
          obtain rfl : a = r :=
            (eq_or_rel_getLast hinc hr harows).resolve_right (not_lt.mpr hle)
          refine .inr ⟨d, a, rfl, ?_, hcounted⟩
          rw [hrows, List.getLast?_append_of_ne_nil _ (List.ne_nil_of_mem hac)] at hr
          exact hr
      · rintro (hnil | ⟨d', r, hd', hr, hcounted⟩) x hx
        · rw [hnil] at hx
          exact absurd hx List.not_mem_nil
        · obtain rfl := Option.some.inj hd'
          have hrmem := List.mem_of_getLast? hr
          have hrc : r ∈ (dir.content d).chunks.filter (counted cfg) :=
            List.mem_filter.mpr ⟨hrmem, hcounted⟩
          have hrw := num_le_watermark (fun r : LoggedRow => r.tpSeqNo) (w := (0 : Int)) hrc
          rw [← List.getLast?_append_of_ne_nil _ (List.ne_nil_of_mem hrmem), ← hrows] at hr
          obtain rfl | hlt := eq_or_rel_getLast hinc hr hx
          · exact hrw
          · exact hlt.le.trans hrw

/-- Without a reservation file the counter after the start-up is at or above every number in the
logs exactly if there is none, or the newest log ends with a row that the scan counts. -/
theorem fallback_seed_iff (h : LogsLeft dir today) {d : SeqDisk} (hd : d.seqFile = none)
    (loading recovering : Outcome) :
    (∀ r ∈ allRows dir,
        r.tpSeqNo ≤ (startUp cfg seqReserve dir today d loading recovering).2.1.tpSeqNo) ↔
      EndsCounted cfg dir := by
  rw [startUp_tpSeqNo h.dates hd]
  exact migrationSeed_covers_iff h

end

/-- Two trades yesterday, and today's log. -/
def twoDays (today : List LoggedRow) : LogDir where
  names := [.log 0, .log 1]
  content d :=
    { chunks := if d = 0 then [⟨"trade_binance", 14, 0, 1⟩, ⟨"trade_binance", 14, 0, 2⟩] else today }

theorem fallback_seed_trade :
    (LogsLeft (twoDays [⟨"trade_binance", 14, 86400000000000, 3⟩]) 1) ∧
      ∀ r ∈ allRows (twoDays [⟨"trade_binance", 14, 86400000000000, 3⟩]),
        r.tpSeqNo ≤ (startUp {} 10000 (twoDays [⟨"trade_binance", 14, 86400000000000, 3⟩]) 1
          { seqFile := none } .done .done).2.1.tpSeqNo := by
  have hleft : LogsLeft (twoDays [⟨"trade_binance", 14, 86400000000000, 3⟩]) 1 :=
    { dates := by decide, positive := by decide, increasing := by decide }
  have hends : EndsCounted {} (twoDays [⟨"trade_binance", 14, 86400000000000, 3⟩]) :=
    .inr ⟨1, ⟨"trade_binance", 14, 86400000000000, 3⟩, by decide⟩
  exact ⟨hleft, (fallback_seed_iff hleft rfl .done .done).mpr hends⟩

/-- Today's log is still empty: the counter starts from 0, below both numbers. -/
theorem fallback_seed_empty_log :
    LogsLeft (twoDays []) 1 ∧
      (startUp {} 10000 (twoDays []) 1 { seqFile := none } .done .done).2.1.tpSeqNo = 0 ∧
      ¬ ∀ r ∈ allRows (twoDays []),
        r.tpSeqNo ≤ (startUp {} 10000 (twoDays []) 1 { seqFile := none } .done .done).2.1.tpSeqNo :=
  ⟨{ dates := by decide, positive := by decide, increasing := by decide }, by decide, by decide⟩

end TickToSignal.Tp
