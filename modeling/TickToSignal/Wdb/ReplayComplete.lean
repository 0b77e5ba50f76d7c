import TickToSignal.Wdb.ReadLogs

/-!
# Which rows a replay delivers

A replay that succeeds merges a row above its table's floor and up to the
cutoff exactly if the scan of some table starts low enough for it. A table
with a floor always does that for its own rows; a table without one depends on
TP's hint, which exists for data tables and for the current log only.

## Implementation notes

TP goes on while the logs are read: the hints and the cutoff are those of its
state `tp`, the logs those of a later state.
-/

namespace TickToSignal.Wdb

open Foundation

variable {δ : Type*}

namespace Tp

/-! ## TP goes on -/

/-- What TP logs from now on is numbered above the cutoff it gave. -/
structure Ahead (info : ReplayInfo) (tp : Tp δ) : Prop where
  covers : Covers info tp.logs
  cutoff_le : info.cutoff ≤ tp.reserved
  le_counter : tp.up = true → info.cutoff ≤ tp.tpSeqNo

/-- The current log grew by rows above the cutoff. -/
theorem Ahead.covers_append {info : ReplayInfo} {tp tp' : Tp δ} (h : Ahead info tp)
    {new : List (WdbTable × Row δ)} (hclosed : tp'.closed = tp.closed)
    (hdate : tp'.current.date = tp.current.date)
    (hrows : tp'.current.rows = tp.current.rows ++ new)
    (hnew : ∀ x ∈ new, info.cutoff < x.2.tpSeqNo) : Covers info tp'.logs := by
  intro l hl hday x hx
  rw [logs, hclosed] at hl
  obtain hl | hl := List.mem_append.mp hl
  · exact h.covers l (List.mem_append_left _ hl) hday x hx
  · rw [List.mem_singleton.mp hl] at hday hx
    rw [hrows, List.drop_append] at hx
    obtain hx | hx := List.mem_append.mp hx
    · exact h.covers tp.current (List.mem_append_right _ (List.mem_singleton_self _))
        (hdate ▸ hday) x hx
    · exact hnew x (List.mem_of_mem_drop hx)

theorem Ahead.openLog {info : ReplayInfo} {tp : Tp δ} (h : Ahead info tp) (today : Date) :
    Covers info (tp.openLog today).logs := by
  simp only [Tp.openLog]
  split_ifs
  · exact h.covers
  · intro log hlog hday x hx
    obtain hlog | hlog := List.mem_append.mp hlog
    · exact h.covers log hlog hday x hx
    · rw [List.mem_singleton.mp hlog] at hx
      exact absurd (List.mem_of_mem_drop hx) List.not_mem_nil

@[simp] theorem maybeRecord_closed (cfg : LogConfig) (tp : Tp δ) :
    (tp.maybeRecord cfg).closed = tp.closed := by
  simp only [maybeRecord]
  split_ifs <;> rfl

@[simp] theorem maybeRecord_date (cfg : LogConfig) (tp : Tp δ) :
    (tp.maybeRecord cfg).current.date = tp.current.date := by
  simp only [maybeRecord]
  split_ifs <;> rfl

@[simp] theorem maybeRecord_rows (cfg : LogConfig) (tp : Tp δ) :
    (tp.maybeRecord cfg).current.rows = tp.current.rows := by
  simp only [maybeRecord]
  split_ifs <;> rfl

@[simp] theorem maybeRecord_tpSeqNo (cfg : LogConfig) (tp : Tp δ) :
    (tp.maybeRecord cfg).tpSeqNo = tp.tpSeqNo := by
  simp only [maybeRecord]
  split_ifs <;> rfl

@[simp] theorem maybeRecord_reserved (cfg : LogConfig) (tp : Tp δ) :
    (tp.maybeRecord cfg).reserved = tp.reserved := by
  simp only [maybeRecord]
  split_ifs <;> rfl

@[simp] theorem openLog_reserved (today : Date) (tp : Tp δ) :
    (tp.openLog today).reserved = tp.reserved := by
  simp only [openLog]
  split_ifs <;> rfl

@[simp] theorem openLog_tpSeqNo (today : Date) (tp : Tp δ) :
    (tp.openLog today).tpSeqNo = tp.tpSeqNo := by
  simp only [openLog]
  split_ifs <;> rfl

theorem takeSeqNo_reserved (cfg : LogConfig) (tp : Tp δ) :
    tp.reserved ≤ (tp.takeSeqNo cfg).reserved := by
  simp only [takeSeqNo]
  split_ifs <;> omega

theorem upd_closed (cfg : LogConfig) (t : WdbTable) (date : Date) (data : δ) (tp : Tp δ) :
    (tp.upd cfg t date data).closed = tp.closed := by
  simp [upd, takeSeqNo]

theorem upd_date (cfg : LogConfig) (t : WdbTable) (date : Date) (data : δ) (tp : Tp δ) :
    (tp.upd cfg t date data).current.date = tp.current.date := by
  simp [upd, takeSeqNo]

theorem upd_rows (cfg : LogConfig) (t : WdbTable) (date : Date) (data : δ) (tp : Tp δ) :
    (tp.upd cfg t date data).current.rows
      = tp.current.rows ++ [(t, { tpSeqNo := tp.tpSeqNo + 1, date := date, data := data })] := by
  simp [upd, takeSeqNo]

theorem Ahead.step {info : ReplayInfo} {tp : Tp δ} (h : Ahead info tp) (cfg : LogConfig)
    (i : TpStep δ) : Ahead info (tp.step cfg i) := by
  cases i with
  | start today =>
      simp only [Tp.step]
      split_ifs
      · exact h
      · refine { covers := h.openLog today, cutoff_le := ?_, le_counter := fun _ => ?_ }
        · simpa [Tp.start] using Nat.le_add_right_of_le h.cutoff_le
        · simpa [Tp.start] using h.cutoff_le
  | upd t date data =>
      simp only [Tp.step]
      split_ifs with hup
      · have hle := h.le_counter hup
        refine { covers := ?_, cutoff_le := ?_, le_counter := fun _ => ?_ }
        · apply h.covers_append (upd_closed ..) (upd_date ..) (upd_rows ..)
          intro x hx
          rw [List.mem_singleton.mp hx]
          exact Nat.lt_succ_of_le hle
        · simpa [Tp.upd] using h.cutoff_le.trans (takeSeqNo_reserved cfg tp)
        · simpa [Tp.upd, Tp.takeSeqNo] using Nat.le_succ_of_le hle
      · exact h
  | tornIndex =>
      simp only [Tp.step]
      split_ifs
      · refine { covers := ?_, cutoff_le := ?_, le_counter := fun hup => absurd hup Bool.false_ne_true }
        · have hrows := (maybeRecord_rows cfg (tp.takeSeqNo cfg)).trans (List.append_nil _).symm
          refine h.covers_append (maybeRecord_closed cfg (tp.takeSeqNo cfg))
            (maybeRecord_date cfg (tp.takeSeqNo cfg)) hrows ?_
          simp
        · simpa using h.cutoff_le.trans (takeSeqNo_reserved cfg tp)
      · exact h
  | crash => exact { h with le_counter := fun hup => absurd hup Bool.false_ne_true }
  | endOfDay today =>
      simp only [Tp.step]
      split_ifs with hday
      · refine { covers := h.openLog today, cutoff_le := ?_, le_counter := fun hup => ?_ }
        · simpa using h.cutoff_le
        · simpa using h.le_counter hday.1
      · exact h

/-- The logs are read as far as the cutoff that TP gives at the same moment. -/
theorem Sound.ahead {tp : Tp δ} (h : Sound tp) (hup : tp.up = true) {today : Date}
    (hday : tp.current.date ≤ today) : Ahead (tp.replayInfo today) tp := by
  refine { covers := ?_, cutoff_le := h.counter_le hup, le_counter := fun _ => le_rfl }
  intro log hlog hdate x hx
  simp only [replayInfo] at hdate hx
  obtain hlog | hlog := List.mem_append.mp hlog
  · have hbefore := (List.pairwise_append.mp h.logs.dates).2.2 log hlog tp.current
      (List.mem_singleton_self _)
    exact absurd (hdate ▸ hbefore) (not_lt.mpr hday)
  · rw [List.mem_singleton.mp hlog] at hdate hx
    rw [if_pos hdate, List.drop_length] at hx
    exact absurd hx List.not_mem_nil

end Tp

/-! ## The rows of a successful replay -/

namespace WdbProcess

/-- A successful replay is a merge of what was staged. -/
theorem runReplay_succeeds {info : ReplayInfo} {logs : List (DailyLog δ)} {s : WdbProcess δ}
    {maxRows : Nat} {io : WdbTable → Nat → FlushIO}
    (hcounter : ∀ t ∈ tables, s.lastTpSeqNo t ≤ info.cutoff)
    (hok : (s.runReplay maxRows io info logs).1 = true) :
    ∃ stage, (s.beginReplay info.cutoff).readLogs info logs = some stage ∧
      (s.runReplay maxRows io info logs).2
        = (s.beginReplay info.cutoff).completeReplay maxRows io stage := by
  simp only [runReplay, if_pos hcounter] at hok ⊢
  cases hread : (s.beginReplay info.cutoff).readLogs info logs with
  | none =>
      rw [hread] at hok
      exact absurd hok Bool.false_ne_true
  | some stage => exact ⟨stage, rfl, rfl⟩

theorem beginReplay_of_le {cutoff : Nat} {s : WdbProcess δ}
    (h : ∀ t ∈ tables, s.lastTpSeqNo t ≤ cutoff) : s.beginReplay cutoff = { s with
      replayCutoff := cutoff, stageFloor := s.floor, stageCutoff := cutoff, conn := .replaying } :=
  if_pos h

/-- Row by row: a needed row is merged exactly if some table's scan starts low enough. -/
theorem merged_iff_reached {info : ReplayInfo} {logs : List (DailyLog δ)} (h : LogsSound logs)
    (hcov : Covers info logs) {s : WdbProcess δ} (hbuf : s.Buffered) {maxRows : Nat}
    {io : WdbTable → Nat → FlushIO} (hcounter : ∀ t ∈ tables, s.lastTpSeqNo t ≤ info.cutoff)
    (hok : (s.runReplay maxRows io info logs).1 = true) {x : WdbTable × Row δ}
    (hx : Needed info s x) :
    Merged s (s.runReplay maxRows io info logs).2 x ↔ Reached info logs s x := by
  obtain ⟨stage, hread, hrun⟩ := runReplay_succeeds hcounter hok
  rw [hrun]
  rw [beginReplay_of_le hcounter] at hread ⊢
  set begun : WdbProcess δ := { s with
    replayCutoff := info.cutoff, stageFloor := s.floor, stageCutoff := info.cutoff
    conn := .replaying }
  have hstaged := mem_readLogs h hcov (s := begun) rfl hread
  have habove : ∀ t, ∀ r ∈ stage t, s.floor t < r.tpSeqNo :=
    fun t r hr => ((hstaged (t, r)).mp hr).1.1
  have hbegun : begun.Buffered :=
    { ascending := hbuf.ascending, above := hbuf.above, le := hbuf.le }
  calc Merged s (begun.completeReplay maxRows io stage) x
      ↔ x.2 ∈ stage x.1 :=
        merged_iff hbegun maxRows io (readLogs_ascending h hread) habove hx.2
    _ ↔ Reached info logs s x := (hstaged x).trans (and_iff_right hx)

end WdbProcess

/-- A row is reached if the scan for any table starts at or below it. -/
theorem reached_of_start_le {info : ReplayInfo} {logs : List (DailyLog δ)} {s : WdbProcess δ}
    {x : WdbTable × Row δ} (hx : x ∈ logs.flatMap (·.rows)) (hneed : s.Needed info x)
    {t : WdbTable} {start : Nat} (hstart : s.startOf info.firstTp t = some start)
    (hle : start ≤ x.2.tpSeqNo) : Reached info logs s x := by
  obtain ⟨log, hlog, hrow⟩ := List.mem_flatMap.mp hx
  exact ⟨t, start, hstart, hle.trans hneed.2, log, hlog, hrow, not_skips_of_le hle⟩

/-- The rows of a table with a floor are always reached. -/
theorem reached_of_floor {info : ReplayInfo} {logs : List (DailyLog δ)} {s : WdbProcess δ}
    {x : WdbTable × Row δ} (hx : x ∈ logs.flatMap (·.rows)) (hneed : s.Needed info x)
    (hfloor : 0 < s.floor x.1) : Reached info logs s x := by
  have hstart : s.startOf info.firstTp x.1 = some (1 + s.floor x.1) := if_pos hfloor
  apply reached_of_start_le hx hneed hstart
  have habove := hneed.1
  omega

/-- TP gives no hint for events. -/
theorem Tp.Sound.firstTp_tradeGap {tp : Tp δ} (h : tp.Sound) (hup : tp.up = true) :
    tp.firstTp .tradeGap = none := by
  rw [h.firstTp hup]
  rfl

/-- A replay from the logs of TP, which may go on meanwhile, merges every row it has to deliver
if and only if the scan of some table starts low enough for each of them. -/
theorem replay_complete_iff (cfg : LogConfig) {tp tp' : Tp δ} (htp : tp.Sound) (today : Date)
    (hup : tp.up = true) (hday : tp.current.date ≤ today) (steps : List (TpStep δ))
    (hlater : tp' = exec (Tp.step cfg) tp steps) (s : WdbProcess δ) (hbuf : s.Buffered)
    (maxRows : Nat) (io : WdbTable → Nat → FlushIO)
    (hcounter : ∀ t ∈ tables, s.lastTpSeqNo t ≤ (tp.replayInfo today).cutoff)
    (hok : (s.runReplay maxRows io (tp.replayInfo today) tp'.logs).1 = true) :
    (∀ x ∈ tp'.logged, s.Needed (tp.replayInfo today) x →
        s.Merged (s.runReplay maxRows io (tp.replayInfo today) tp'.logs).2 x) ↔
      ∀ x ∈ tp'.logged, s.Needed (tp.replayInfo today) x →
        Reached (tp.replayInfo today) tp'.logs s x := by
  subst hlater
  have hlater : (exec (Tp.step cfg) tp steps).Sound :=
    exec_invariant (fun _ i h => h.step cfg i) steps htp
  have hahead : (exec (Tp.step cfg) tp steps).Ahead (tp.replayInfo today) :=
    exec_invariant (fun _ i h => h.step cfg i) steps (htp.ahead hup hday)
  constructor
  · intro h x hx hneed
    exact (WdbProcess.merged_iff_reached hlater.logs hahead.covers hbuf hcounter hok hneed).mp
      (h x hx hneed)
  · intro h x hx hneed
    exact (WdbProcess.merged_iff_reached hlater.logs hahead.covers hbuf hcounter hok hneed).mpr
      (h x hx hneed)

/-- TP on its first day: a gap event, then a trade. -/
private def eventThenTrade : Tp Unit :=
  exec (Tp.step { indexEvery := 10, seqReserve := 10 }) { current := { date := 0 } }
    [.start 0, .upd .tradeGap 0 (), .upd .tradeBinance 0 ()]

/-- A WDB that restarted with its trades stored up to `n`. -/
private def storedUpTo (n : Nat) (rows : List (Row Unit)) : WdbProcess Unit :=
  .start true
    { checkpoint := some { seq := Function.update (fun _ => 0) .tradeBinance n, date := some 0 }
      tmp := rows.map fun r => { dir := 0, table := .tradeBinance, row := r } }

private def saved : WdbTable → Nat → FlushIO :=
  fun _ _ => { today := 0, writes := fun _ => true, saves := true }

private theorem eventThenTrade_sound : eventThenTrade.Sound :=
  exec_invariant (fun _ i h => h.step _ i) _ (Tp.Sound.first 0)

/-- A WDB that has stored nothing starts at the trade and finds the event before it, since
no index entry lies between the two. -/
theorem replay_complete_sample :
    eventThenTrade.logged.length = 2 ∧
      ∀ x ∈ eventThenTrade.logged, (storedUpTo 0 []).Needed (eventThenTrade.replayInfo 0) x →
        (storedUpTo 0 []).Merged ((storedUpTo 0 []).runReplay 10 saved
          (eventThenTrade.replayInfo 0) eventThenTrade.logs).2 x := by
  refine ⟨by decide +kernel, ?_⟩
  refine (replay_complete_iff { indexEvery := 10, seqReserve := 10 } eventThenTrade_sound 0 rfl
    le_rfl [] rfl _ ?_ 10 saved (by decide +kernel) (by decide +kernel)).mpr ?_
  · have hbuffer : ∀ t, (storedUpTo 0 []).buffer t = [] := fun _ => rfl
    refine { ascending := ?_, above := ?_, le := ?_ }
    all_goals
      intro t
      simp [hbuffer t]
  · intro x hx _
    have hlogs : eventThenTrade.logs = [eventThenTrade.current] := rfl
    have hrow : x ∈ eventThenTrade.current.rows := by
      simpa [Tp.logged, hlogs] using hx
    have hidx : eventThenTrade.current.idx = [{ tpSeqNo := 1, chunk := 0 }] := by decide +kernel
    have hfirst : eventThenTrade.current.firstSeq = some 1 := by decide +kernel
    have hpos : ∀ x ∈ eventThenTrade.current.rows, 1 ≤ x.2.tpSeqNo := by decide +kernel
    refine ⟨.tradeBinance, 2, by decide +kernel, by decide +kernel, eventThenTrade.current,
      List.mem_singleton_self _, hrow, ?_⟩
    rintro (⟨l, hl, f, hf, hlt, -⟩ | ⟨e, he, hlt, -⟩)
    · rw [exec_nil, hlogs] at hl
      rw [List.mem_singleton.mp hl, hfirst] at hf
      exact absurd (hpos x hrow) (not_le.mpr (Option.some.inj hf ▸ hlt))
    · rw [hidx] at he
      rw [List.mem_singleton.mp he] at hlt
      exact absurd (hpos x hrow) (not_le.mpr hlt)

/-- With the trade stored the scan starts above the cutoff: there is no hint for events, and
the event that TP logged today is not merged. -/
theorem event_without_hint_not_merged :
    let s := storedUpTo 2 [{ tpSeqNo := 2, date := 0, data := () }]
    let info := eventThenTrade.replayInfo 0
    let event : WdbTable × Row Unit := (.tradeGap, { tpSeqNo := 1, date := 0, data := () })
    eventThenTrade.Sound ∧ s.held .tradeBinance = [{ tpSeqNo := 2, date := 0, data := () }] ∧
      event ∈ eventThenTrade.logged ∧ s.Needed info event ∧
      (s.runReplay 10 saved info eventThenTrade.logs).1 = true ∧
      ¬ s.Merged (s.runReplay 10 saved info eventThenTrade.logs).2 event := by
  intro s info event
  have hreceived : (s.runReplay 10 saved info eventThenTrade.logs).2.received event.1 = [] := by
    decide +kernel
  refine ⟨eventThenTrade_sound, by decide +kernel, by decide +kernel,
    ⟨by decide +kernel, by decide +kernel⟩, by decide +kernel, ?_⟩
  rintro ⟨rows, hrows, hmem⟩
  rw [hreceived] at hrows
  rw [(List.append_eq_nil_iff.mp hrows.symm).2] at hmem
  exact List.not_mem_nil hmem

end TickToSignal.Wdb
