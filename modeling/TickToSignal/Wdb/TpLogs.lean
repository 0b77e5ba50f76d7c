import TickToSignal.Wdb.Store
import TickToSignal.Foundation.Machine

/-!
# TP's daily logs, their index, and the replay hints

TP appends every row to the log of the day, records a seek index next to it,
and keeps per table the first `tpSeqNo` it logged that day. At midnight it
rotates; at a start it reopens or creates the log of its date and scans it.

## Implementation notes

A log is its list of rows; an index entry says how many chunks precede the row
it was recorded for, which stands for its byte offset. `tornIndex` is a crash
after the index was saved and before the chunk was written. The index file is
taken to be written whenever an entry is recorded.
-/

namespace TickToSignal.Wdb

open Foundation

variable {δ : Type*}

/-- `.tp.tables`; `tradeGap` is an event table. -/
def tpTables : List WdbTable := [.tradeBinance, .tradeBinanceFut, .quoteBinance, .quoteBinanceFut]

structure IndexEntry where
  tpSeqNo : Nat
  chunk : Nat
  deriving DecidableEq, Repr

structure DailyLog (δ : Type*) where
  date : Date
  rows : List (WdbTable × Row δ) := []
  idx : List IndexEntry := []

/-- `.lr.firstSeq`: the number of the first row of any table. -/
def DailyLog.firstSeq (log : DailyLog δ) : Option Nat := log.rows.head?.map (·.2.tpSeqNo)

/-- `.tp.scanLog`, third part: the first number per data table. -/
def DailyLog.scanFirst (log : DailyLog δ) (t : WdbTable) : Option Nat :=
  if t ∈ tpTables then (log.rows.find? fun e => decide (e.1 = t)).map (·.2.tpSeqNo) else none

structure LogConfig where
  indexEvery : Nat
  seqReserve : Nat

/-- TP as far as its logs go; `current` is the log it writes. -/
structure Tp (δ : Type*) where
  closed : List (DailyLog δ) := []
  current : DailyLog δ
  up : Bool := false
  tpSeqNo : Nat := 0
  reserved : Nat := 0
  firstTp : WdbTable → Option Nat := fun _ => none
  forceNext : Bool := true

/-- What `.tp.replayInfo` answers; `committed` counts the chunks of today's log. -/
structure ReplayInfo where
  today : Date
  committed : Nat
  cutoff : Nat
  firstTp : WdbTable → Option Nat

inductive TpStep (δ : Type*)
  | start (today : Date)
  | upd (t : WdbTable) (date : Date) (data : δ)
  | tornIndex
  | crash
  | endOfDay (today : Date)

namespace Tp

def logs (tp : Tp δ) : List (DailyLog δ) := tp.closed ++ [tp.current]

/-- Everything logged, in order. -/
def logged (tp : Tp δ) : List (WdbTable × Row δ) := tp.logs.flatMap (·.rows)

/-- `.tp.nextSeqNo`. -/
def takeSeqNo (cfg : LogConfig) (tp : Tp δ) : Tp δ :=
  { tp with
    tpSeqNo := tp.tpSeqNo + 1
    reserved :=
      if tp.reserved < tp.tpSeqNo + 1 then tp.tpSeqNo + 1 + cfg.seqReserve else tp.reserved }

/-- `.tp.idx.maybeRecord` for the number just taken. -/
def maybeRecord (cfg : LogConfig) (tp : Tp δ) : Tp δ :=
  if tp.forceNext ∨ tp.current.rows.length % cfg.indexEvery = 0 then
    { tp with
      forceNext := false
      current :=
        { tp.current with
          idx := tp.current.idx
            ++ [{ tpSeqNo := tp.tpSeqNo, chunk := tp.current.rows.length }] } }
  else tp

/-- `upd` and `.tp.event`: the hint is kept for data tables only. -/
def upd (cfg : LogConfig) (t : WdbTable) (date : Date) (data : δ) (tp : Tp δ) : Tp δ :=
  let tp := tp.takeSeqNo cfg
  let row : Row δ := { tpSeqNo := tp.tpSeqNo, date := date, data := data }
  let tp :=
    { tp with
      firstTp :=
        if t ∈ tpTables ∧ tp.firstTp t = none then Function.update tp.firstTp t (some row.tpSeqNo)
        else tp.firstTp }
  let tp := tp.maybeRecord cfg
  { tp with current := { tp.current with rows := tp.current.rows ++ [(t, row)] } }

/-- The log of `today` is opened: the current one, or a new one. -/
def openLog (today : Date) (tp : Tp δ) : Tp δ :=
  if tp.current.date = today then { tp with forceNext := true }
  else
    { tp with
      closed := tp.closed ++ [tp.current], current := { date := today }, forceNext := true }

/-- The start-up: number from the reservation, hints from today's log. -/
def start (cfg : LogConfig) (today : Date) (tp : Tp δ) : Tp δ :=
  let tp := tp.openLog today
  { tp with
    up := true, tpSeqNo := tp.reserved, reserved := tp.reserved + cfg.seqReserve
    firstTp := tp.current.scanFirst }

/-- One step; the clock of TP does not go back over a day. -/
def step (cfg : LogConfig) (tp : Tp δ) : TpStep δ → Tp δ
  | .start today => if tp.up ∨ today < tp.current.date then tp else tp.start cfg today
  | .upd t date data => if tp.up then tp.upd cfg t date data else tp
  | .tornIndex => if tp.up then { (tp.takeSeqNo cfg).maybeRecord cfg with up := false } else tp
  | .crash => { tp with up := false }
  | .endOfDay today =>
      if tp.up ∧ tp.current.date < today then
        { tp.openLog today with firstTp := fun _ => none }
      else tp

/-- `.tp.replayInfo`, at a moment at which the clock shows `today`. -/
def replayInfo (today : Date) (tp : Tp δ) : ReplayInfo :=
  { today := today
    committed := if tp.current.date = today then tp.current.rows.length else 0
    cutoff := tp.tpSeqNo
    firstTp := tp.firstTp }

end Tp

/-! ## What the logs always satisfy -/

/-- An index entry splits its log: what precedes it has lower numbers, what follows has not. -/
structure IndexSound (log : DailyLog δ) : Prop where
  ascending : log.idx.Pairwise fun a b => a.tpSeqNo < b.tpSeqNo
  chunk_le : ∀ e ∈ log.idx, e.chunk ≤ log.rows.length
  before : ∀ e ∈ log.idx, ∀ x ∈ log.rows.take e.chunk, x.2.tpSeqNo < e.tpSeqNo
  after : ∀ e ∈ log.idx, ∀ x ∈ log.rows.drop e.chunk, e.tpSeqNo ≤ x.2.tpSeqNo

/-- Logs of ascending dates, with ascending numbers, and a sound index each. -/
structure LogsSound (logs : List (DailyLog δ)) : Prop where
  dates : logs.Pairwise fun a b => a.date < b.date
  rows : (logs.flatMap (·.rows)).Pairwise fun a b => a.2.tpSeqNo < b.2.tpSeqNo
  index : ∀ log ∈ logs, IndexSound log

namespace IndexSound

variable {log : DailyLog δ}

theorem empty (date : Date) : IndexSound ({ date := date } : DailyLog δ) :=
  { ascending := List.Pairwise.nil, chunk_le := by simp, before := by simp, after := by simp }

/-- The number a new entry is recorded for is above everything so far. -/
theorem record (h : IndexSound log) {n : Nat} (hrows : ∀ x ∈ log.rows, x.2.tpSeqNo < n)
    (hidx : ∀ e ∈ log.idx, e.tpSeqNo < n) :
    IndexSound
      { log with idx := log.idx ++ [{ tpSeqNo := n, chunk := log.rows.length }] } := by
  refine { ascending := ?_, chunk_le := ?_, before := ?_, after := ?_ }
  · apply List.pairwise_append.mpr
    refine ⟨h.ascending, List.pairwise_singleton _ _, ?_⟩
    intro a ha b hb
    rw [List.mem_singleton.mp hb]
    exact hidx a ha
  all_goals
    intro e he
    obtain he | he := List.mem_append.mp he
  · exact h.chunk_le e he
  · rw [List.mem_singleton.mp he]
  · exact h.before e he
  · rw [List.mem_singleton.mp he]
    exact fun x hx => hrows x (List.mem_of_mem_take hx)
  · exact h.after e he
  · rw [List.mem_singleton.mp he]
    simp

/-- A row is appended behind everything the entries point to. -/
theorem append (h : IndexSound log) {x : WdbTable × Row δ}
    (hidx : ∀ e ∈ log.idx, e.tpSeqNo ≤ x.2.tpSeqNo) :
    IndexSound { log with rows := log.rows ++ [x] } := by
  refine { ascending := h.ascending, chunk_le := ?_, before := ?_, after := ?_ }
  · intro e he
    simpa using Nat.le_succ_of_le (h.chunk_le e he)
  · intro e he y hy
    rw [List.take_append_of_le_length (h.chunk_le e he)] at hy
    exact h.before e he y hy
  · intro e he y hy
    rw [List.drop_append_of_le_length (h.chunk_le e he)] at hy
    obtain hy | hy := List.mem_append.mp hy
    · exact h.after e he y hy
    · rw [List.mem_singleton.mp hy]
      exact hidx e he

end IndexSound

namespace Tp

/-- The logs are sound, the counter and the reservation are above all numbers used, and
the hints are those of the current log. -/
structure Sound (tp : Tp δ) : Prop where
  logs : LogsSound tp.logs
  le_reserved : ∀ x ∈ tp.logged, x.2.tpSeqNo ≤ tp.reserved
  idx_le_reserved : ∀ e ∈ tp.current.idx, e.tpSeqNo ≤ tp.reserved
  le_counter : tp.up = true → ∀ x ∈ tp.logged, x.2.tpSeqNo ≤ tp.tpSeqNo
  idx_le_counter : tp.up = true → ∀ e ∈ tp.current.idx, e.tpSeqNo ≤ tp.tpSeqNo
  counter_le : tp.up = true → tp.tpSeqNo ≤ tp.reserved
  firstTp : tp.up = true → tp.firstTp = tp.current.scanFirst

theorem logged_append {tp tp' : Tp δ} {new : List (WdbTable × Row δ)}
    (hclosed : tp'.closed = tp.closed) (hrows : tp'.current.rows = tp.current.rows ++ new) :
    tp'.logged = tp.logged ++ new := by
  simp [logged, logs, hclosed, hrows]

theorem mem_logged {tp : Tp δ} {x : WdbTable × Row δ} (hx : x ∈ tp.current.rows) :
    x ∈ tp.logged := by
  simp only [logged, logs, List.flatMap_append, List.flatMap_cons, List.flatMap_nil,
    List.append_nil]
  exact List.mem_append_right _ hx

namespace Sound

variable {tp : Tp δ}

theorem first (date : Date) : Sound ({ current := { date := date } } : Tp δ) := by
  refine { logs := { dates := ?_, rows := ?_, index := ?_ }, le_reserved := ?_
           idx_le_reserved := ?_, le_counter := ?_, idx_le_counter := ?_, counter_le := ?_
           firstTp := ?_ }
  · simp [Tp.logs]
  · simp [Tp.logs]
  · intro log hlog
    obtain rfl : log = { date := date } := by simpa [Tp.logs] using hlog
    exact .empty date
  all_goals simp [Tp.logged, Tp.logs]

theorem crash (h : Sound tp) : Sound { tp with up := false } :=
  { h with
    le_counter := fun hup => absurd hup Bool.false_ne_true
    idx_le_counter := fun hup => absurd hup Bool.false_ne_true
    counter_le := fun hup => absurd hup Bool.false_ne_true
    firstTp := fun hup => absurd hup Bool.false_ne_true }

/-- A log with the same date, index and content plus rows above all others. -/
theorem setCurrent (h : LogsSound tp.logs) {log : DailyLog δ} (hdate : log.date = tp.current.date)
    {new : List (WdbTable × Row δ)} (hrows : log.rows = tp.current.rows ++ new)
    (hnew : new.Pairwise fun a b => a.2.tpSeqNo < b.2.tpSeqNo)
    (habove : ∀ x ∈ tp.logged, ∀ y ∈ new, x.2.tpSeqNo < y.2.tpSeqNo) (hidx : IndexSound log) :
    LogsSound (tp.closed ++ [log]) := by
  refine { dates := ?_, rows := ?_, index := ?_ }
  · have hdates := List.pairwise_append.mp h.dates
    apply List.pairwise_append.mpr
    refine ⟨hdates.1, List.pairwise_singleton _ _, fun a ha b hb => ?_⟩
    rw [List.mem_singleton.mp hb, hdate]
    exact hdates.2.2 a ha tp.current (List.mem_singleton_self _)
  · have hsplit : (tp.closed ++ [log]).flatMap (·.rows) = tp.logged ++ new := by
      simp [Tp.logged, Tp.logs, hrows]
    rw [hsplit]
    exact List.pairwise_append.mpr ⟨h.rows, hnew, habove⟩
  · intro l hl
    obtain hl | hl := List.mem_append.mp hl
    · exact h.index l (List.mem_append_left _ hl)
    · exact List.mem_singleton.mp hl ▸ hidx

/-- The number taken is above every row and every entry, and reserved. -/
theorem takeSeqNo (h : Sound tp) (hup : tp.up = true) (cfg : LogConfig) :
    (∀ x ∈ tp.logged, x.2.tpSeqNo < (tp.takeSeqNo cfg).tpSeqNo) ∧
      (∀ e ∈ tp.current.idx, e.tpSeqNo < (tp.takeSeqNo cfg).tpSeqNo) ∧
      (tp.takeSeqNo cfg).tpSeqNo ≤ (tp.takeSeqNo cfg).reserved := by
  refine ⟨fun x hx => Nat.lt_succ_of_le (h.le_counter hup x hx),
    fun e he => Nat.lt_succ_of_le (h.idx_le_counter hup e he), ?_⟩
  simp only [Tp.takeSeqNo]
  split_ifs <;> omega

end Sound

/-- Recording an entry for the number just taken. -/
structure Recorded (tp tp' : Tp δ) : Prop where
  closed : tp'.closed = tp.closed
  date : tp'.current.date = tp.current.date
  rows : tp'.current.rows = tp.current.rows
  index : IndexSound tp'.current
  idx_le : ∀ e ∈ tp'.current.idx, e.tpSeqNo ≤ tp.tpSeqNo
  tpSeqNo : tp'.tpSeqNo = tp.tpSeqNo
  reserved : tp'.reserved = tp.reserved
  up : tp'.up = tp.up
  firstTp : tp'.firstTp = tp.firstTp

theorem maybeRecord_recorded (cfg : LogConfig) (tp : Tp δ) (hindex : IndexSound tp.current)
    (hrows : ∀ x ∈ tp.current.rows, x.2.tpSeqNo < tp.tpSeqNo)
    (hidx : ∀ e ∈ tp.current.idx, e.tpSeqNo < tp.tpSeqNo) : Recorded tp (tp.maybeRecord cfg) := by
  simp only [Tp.maybeRecord]
  split_ifs
  · refine ⟨rfl, rfl, rfl, hindex.record hrows hidx, ?_, rfl, rfl, rfl, rfl⟩
    intro e he
    obtain he | he := List.mem_append.mp he
    · exact (hidx e he).le
    · rw [List.mem_singleton.mp he]
  · exact ⟨rfl, rfl, rfl, hindex, fun e he => (hidx e he).le, rfl, rfl, rfl, rfl⟩

/-- The hint after a row: the first number of a data table stays. -/
theorem scanFirst_append (log : DailyLog δ) (t : WdbTable) (row : Row δ) :
    ({ log with rows := log.rows ++ [(t, row)] } : DailyLog δ).scanFirst
      = if t ∈ tpTables ∧ log.scanFirst t = none then
          Function.update log.scanFirst t (some row.tpSeqNo)
        else log.scanFirst := by
  funext x
  by_cases hx : x = t
  · subst hx
    by_cases hdata : x ∈ tpTables
    · cases hfind : log.rows.find? fun e => decide (e.1 = x) with
      | none => simp [DailyLog.scanFirst, hdata, hfind, List.find?_append]
      | some e => simp [DailyLog.scanFirst, hdata, hfind, List.find?_append]
    · simp [DailyLog.scanFirst, hdata]
  · have hsame : ({ log with rows := log.rows ++ [(t, row)] } : DailyLog δ).scanFirst x
        = log.scanFirst x := by
      simp [DailyLog.scanFirst, List.find?_append, Ne.symm hx]
    rw [hsame]
    split_ifs
    · rw [Function.update_of_ne hx]
    · rfl

namespace Sound

variable {tp : Tp δ}

theorem current_index (h : Sound tp) : IndexSound tp.current :=
  h.logs.index _ (List.mem_append_right _ (List.mem_singleton_self _))

/-- The log a step of a running TP writes, with nothing or one row more. -/
theorem written (h : Sound tp) {tp' : Tp δ} (new : List (WdbTable × Row δ))
    (hclosed : tp'.closed = tp.closed) (hdate : tp'.current.date = tp.current.date)
    (hrows : tp'.current.rows = tp.current.rows ++ new) (hidx : IndexSound tp'.current)
    (hone : new.Pairwise fun a b => a.2.tpSeqNo < b.2.tpSeqNo)
    (hnew : ∀ x ∈ new, x.2.tpSeqNo = tp'.tpSeqNo)
    (hbelow : ∀ x ∈ tp.logged, x.2.tpSeqNo < tp'.tpSeqNo)
    (hidxle : ∀ e ∈ tp'.current.idx, e.tpSeqNo ≤ tp'.tpSeqNo)
    (hres : tp'.tpSeqNo ≤ tp'.reserved)
    (hfirst : tp'.up = true → tp'.firstTp = tp'.current.scanFirst) : Sound tp' := by
  have hlogged := logged_append hclosed hrows
  have hle : ∀ x ∈ tp'.logged, x.2.tpSeqNo ≤ tp'.tpSeqNo := by
    intro x hx
    rw [hlogged] at hx
    obtain hx | hx := List.mem_append.mp hx
    · exact (hbelow x hx).le
    · exact (hnew x hx).le
  refine
    { logs := ?_, le_reserved := fun x hx => (hle x hx).trans hres
      idx_le_reserved := fun e he => (hidxle e he).trans hres, le_counter := fun _ => hle
      idx_le_counter := fun _ => hidxle, counter_le := fun _ => hres, firstTp := hfirst }
  rw [Tp.logs, hclosed]
  exact setCurrent h.logs hdate hrows hone (fun x hx y hy => (hbelow x hx).trans_eq (hnew y hy).symm)
    hidx

theorem upd (h : Sound tp) (hup : tp.up = true) (cfg : LogConfig) (t : WdbTable) (date : Date)
    (data : δ) : Sound (tp.upd cfg t date data) := by
  obtain ⟨hrows, hidx, hres⟩ := h.takeSeqNo hup cfg
  simp only [Tp.upd]
  generalize hfirst : (if t ∈ tpTables ∧ (tp.takeSeqNo cfg).firstTp t = none then _ else _) = hints
  have hrec := maybeRecord_recorded cfg { tp.takeSeqNo cfg with firstTp := hints }
    h.current_index (fun x hx => hrows x (mem_logged hx)) hidx
  generalize Tp.maybeRecord cfg { tp.takeSeqNo cfg with firstTp := hints } = recorded at hrec ⊢
  obtain ⟨hclosed, hdate, hrecrows, hindex, hidxle, hseq, hreserved, -, hhints⟩ := hrec
  simp only at hclosed hdate hrecrows hidxle hseq hreserved hhints
  apply h.written [(t, { tpSeqNo := (tp.takeSeqNo cfg).tpSeqNo, date := date, data := data })]
  · exact hclosed
  · exact hdate
  · exact congrArg (· ++ _) hrecrows
  · exact hindex.append hidxle
  · exact List.pairwise_singleton _ _
  · intro x hx
    rw [List.mem_singleton.mp hx, hseq]
  · intro x hx
    rw [hseq]
    exact hrows x hx
  · intro e he
    rw [hseq]
    exact hidxle e he
  · rw [hseq, hreserved]
    exact hres
  intro _
  have hscan : recorded.current.scanFirst = tp.firstTp := by
    funext x
    simp only [DailyLog.scanFirst, hrecrows]
    exact (congrFun (h.firstTp hup) x).symm
  rw [scanFirst_append, hscan]
  exact hhints.trans hfirst.symm

theorem tornIndex (h : Sound tp) (hup : tp.up = true) (cfg : LogConfig) :
    Sound { (tp.takeSeqNo cfg).maybeRecord cfg with up := false } := by
  obtain ⟨hrows, hidx, hres⟩ := h.takeSeqNo hup cfg
  have hrec := maybeRecord_recorded cfg (tp.takeSeqNo cfg) h.current_index
    (fun x hx => hrows x (mem_logged hx)) hidx
  generalize Tp.maybeRecord cfg (tp.takeSeqNo cfg) = recorded at hrec ⊢
  apply h.written []
  · exact hrec.closed
  · exact hrec.date
  · rw [List.append_nil]
    exact hrec.rows
  · exact hrec.index
  · exact List.Pairwise.nil
  · simp
  · intro x hx
    rw [hrec.tpSeqNo]
    exact hrows x hx
  · intro e he
    rw [hrec.tpSeqNo]
    exact hrec.idx_le e he
  · rw [hrec.tpSeqNo, hrec.reserved]
    exact hres
  · exact fun hdown => absurd hdown Bool.false_ne_true

theorem logged_openLog (today : Date) (tp : Tp δ) : (tp.openLog today).logged = tp.logged := by
  simp only [Tp.openLog]
  split_ifs
  · rfl
  · simp [Tp.logged, Tp.logs]

theorem openLog (h : Sound tp) {today : Date} (hdate : tp.current.date ≤ today) :
    LogsSound (tp.openLog today).logs := by
  have hlogged := logged_openLog today tp
  simp only [Tp.openLog] at hlogged ⊢
  split_ifs at hlogged ⊢ with hsame
  · exact h.logs
  · refine { dates := ?_, rows := ?_, index := ?_ }
    · apply List.pairwise_append.mpr
      refine ⟨h.logs.dates, List.pairwise_singleton _ _, fun a ha b hb => ?_⟩
      rw [List.mem_singleton.mp hb]
      obtain ha | ha := List.mem_append.mp ha
      · have hbefore := (List.pairwise_append.mp h.logs.dates).2.2 a ha tp.current
          (List.mem_singleton_self _)
        exact hbefore.trans_le hdate
      · rw [List.mem_singleton.mp ha]
        exact lt_of_le_of_ne hdate hsame
    · rw [show List.flatMap _ _ = _ from hlogged]
      exact h.logs.rows
    · intro log hlog
      obtain hlog | hlog := List.mem_append.mp hlog
      · exact h.logs.index log hlog
      · exact List.mem_singleton.mp hlog ▸ .empty today

theorem idx_openLog {today : Date} {e : IndexEntry} (he : e ∈ (tp.openLog today).current.idx) :
    e ∈ tp.current.idx := by
  simp only [Tp.openLog] at he
  split_ifs at he
  · exact he
  · exact absurd he List.not_mem_nil

/-- Every step keeps logs, index and hints in order. -/
theorem step (h : Sound tp) (cfg : LogConfig) (i : TpStep δ) : Sound (tp.step cfg i) := by
  cases i with
  | start today =>
      simp only [Tp.step]
      split_ifs with hno
      · exact h
      · rw [not_or, not_lt] at hno
        have hlogged := logged_openLog today tp
        have hres : (tp.openLog today).reserved = tp.reserved := by
          simp only [Tp.openLog]
          split_ifs <;> rfl
        have hle : ∀ x ∈ (tp.openLog today).logged, x.2.tpSeqNo ≤ (tp.openLog today).reserved :=
          fun x hx => hres ▸ h.le_reserved x (hlogged ▸ hx)
        have hidx : ∀ e ∈ (tp.openLog today).current.idx,
            e.tpSeqNo ≤ (tp.openLog today).reserved :=
          fun e he => hres ▸ h.idx_le_reserved e (idx_openLog he)
        exact
          { logs := h.openLog hno.2
            le_reserved := fun x hx => Nat.le_add_right_of_le (hle x hx)
            idx_le_reserved := fun e he => Nat.le_add_right_of_le (hidx e he)
            le_counter := fun _ => hle, idx_le_counter := fun _ => hidx
            counter_le := fun _ => Nat.le_add_right _ _, firstTp := fun _ => rfl }
  | upd t date data =>
      simp only [Tp.step]
      split_ifs with hup
      · exact h.upd hup cfg t date data
      · exact h
  | tornIndex =>
      simp only [Tp.step]
      split_ifs with hup
      · exact h.tornIndex hup cfg
      · exact h
  | crash => exact h.crash
  | endOfDay today =>
      simp only [Tp.step]
      split_ifs with hday
      · have hlogged := logged_openLog today tp
        have hopen : tp.openLog today = { tp with
            closed := tp.closed ++ [tp.current], current := { date := today }, forceNext := true } := by
          simp only [Tp.openLog, if_neg hday.2.ne]
        have hlogs := h.openLog hday.2.le
        rw [hopen] at hlogged hlogs ⊢
        exact
          { logs := hlogs
            le_reserved := fun x hx => h.le_reserved x (hlogged ▸ hx)
            idx_le_reserved := fun e he => absurd he List.not_mem_nil
            le_counter := fun hup x hx => h.le_counter hup x (hlogged ▸ hx)
            idx_le_counter := fun _ e he => absurd he List.not_mem_nil
            counter_le := h.counter_le
            firstTp := fun _ => by
              funext t
              simp [DailyLog.scanFirst] }
      · exact h

end Sound

end Tp

end TickToSignal.Wdb
