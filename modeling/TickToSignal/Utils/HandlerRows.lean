import TickToSignal.Quote.PublishedRows
import TickToSignal.Utils.LossDetected

/-!
# The checker on what handlers publish

The rows of a handler run are what the checker takes a session's rows for:
numbered one by one, and on every symbol with ranges that continue and do not
overlap until an invalid row. On a day of handler processes of one table, stored
without loss, it therefore reports nothing but breaks between two processes.

## Implementation notes

TP numbers the rows of a process in the order of its `fhSeqNo`. The rows of the
days before are not in the table.
-/

namespace TickToSignal.Utils

open Foundation OrderBook Quote

variable {K : Type*}

/-- The table that a handler of this kind publishes to. -/
def quoteTable : DepthSync → QuoteTable
  | .Spot => .quoteBinance
  | .Futures => .quoteBinanceFut

/-- An update id as it is stored: null unless the row is valid. -/
def storedId (q : BookQuote K) (v : Int) : WithBot Int := if q.isValid then (v : WithBot Int) else ⊥

/-- A published quote as the checker reads it back. -/
def storedRow (sync : DepthSync) (q : BookQuote K) (tpSeqNo : Int) : QuoteRow String where
  sym := q.sym
  isValid := q.isValid
  exchFirstUpdateId := storedId q q.exchFirstUpdateId
  exchUpdateId := storedId q q.exchUpdateId
  exchPrevUpdateId := if sync = .Futures then storedId q q.exchPrevUpdateId else ⊥
  fhSeqNo := q.fhSeqNo
  tpSeqNo := tpSeqNo

section Rows
variable {sync : DepthSync} {p q : BookQuote K} {a b : Int}

theorem storedId_of_valid (hq : q.isValid = true) (v : Int) : storedId q v = (v : WithBot Int) :=
  if_pos hq

/-- The handler's rule is the checker's. -/
theorem cont_storedRow (hp : p.isValid = true) (hq : q.isValid = true)
    (hcont : Quote.cont sync p q = true) :
    QuoteRow.cont (quoteTable sync) (storedRow sync p a) (storedRow sync q b) = true := by
  cases sync with
  | Spot =>
      simp only [Quote.cont, Bool.and_eq_true, decide_eq_true_eq] at hcont
      simp only [quoteTable, QuoteRow.cont, storedRow, storedId_of_valid hp, storedId_of_valid hq,
        ← WithBot.coe_add, WithBot.coe_le_coe, Bool.and_eq_true, decide_eq_true_eq]
      exact hcont
  | Futures =>
      simp only [Quote.cont, Bool.or_eq_true, Bool.and_eq_true, decide_eq_true_eq] at hcont
      simp only [quoteTable, QuoteRow.cont, storedRow, storedId_of_valid hp, storedId_of_valid hq,
        if_true, WithBot.coe_inj, Bool.or_eq_true, Bool.and_eq_true, decide_eq_true_eq]
      exact hcont

/-- Consecutive valid rows of a symbol, as they are stored. -/
theorem continues_storedRow (hcont : Quote.Continues sync p q) (hapart : Apart sync p q)
    (hp : p.isValid = true) (hq : q.isValid = true) :
    QuoteRow.Continues (quoteTable sync) (storedRow sync p a) (storedRow sync q b) := by
  refine ⟨cont_storedRow hp hq (hcont hp hq), ?_⟩
  obtain ⟨hfirst, hlast, hprev⟩ | hlater := hapart hp hq
  · refine Or.inl ⟨?_, ?_, fun htable => ?_⟩
    · simp only [storedRow, storedId_of_valid hp, storedId_of_valid hq, hfirst]
    · simp only [storedRow, storedId_of_valid hp, storedId_of_valid hq, hlast]
    · have hfutures : sync = .Futures := by
        cases sync with
        | Spot => cases htable
        | Futures => rfl
      simp only [storedRow, storedId_of_valid hp, storedId_of_valid hq, hprev hfutures]
  · refine Or.inr ?_
    simp only [storedRow, storedId_of_valid hp, storedId_of_valid hq]
    exact WithBot.coe_lt_coe.mpr hlater

theorem hasRange_storedRow (hq : q.isValid = true) (hle : q.exchFirstUpdateId ≤ q.exchUpdateId) :
    (storedRow sync q b).HasRange :=
  ⟨q.exchFirstUpdateId, q.exchUpdateId, storedId_of_valid hq _, storedId_of_valid hq _, hle⟩

end Rows

/-- A process of the quote handler, and what TP made of its rows. -/
structure Process (sync : DepthSync) (K : Type*) where
  symbols : ℕ
  cfg : HandlerConfig symbols
  ofKind : cfg.book.sync = sync
  distinct : Function.Injective cfg.symbolsUpper
  startMs : Int
  events : List (Event symbols K)
  wellFormed : WellFormed cfg.book.sync (fun _ => none) events
  spans : ∀ e ∈ events, e.Spans cfg.book.sync
  /-- rows of the process on the days before -/
  start : ℕ := 0
  tpSeqNo : Int → Int
  increasing : ∀ a b : Int, a < b → tpSeqNo a < tpSeqNo b

namespace Process

variable [LinearOrder K] [Zero K] {sync : DepthSync}

/-- The handler at the end of the run. -/
def handler (p : Process sync K) : QuoteFeedHandler p.symbols K :=
  exec (QuoteFeedHandler.step p.cfg) (QuoteFeedHandler.init p.cfg p.startMs) p.events

/-- What it published on the day. -/
def published (p : Process sync K) : List (BookQuote K) :=
  (p.handler.published.drop p.start).map (·.2)

/-- The rows of the day. -/
def rows (p : Process sync K) : List (QuoteRow String) :=
  p.published.map fun q => storedRow sync q (p.tpSeqNo q.fhSeqNo)

theorem invariants (p : Process sync K) :
    Numbered p.cfg p.handler ∧ Recorded p.cfg p.handler ∧ Ranged p.cfg p.handler :=
  published_exec (numbered_init p.cfg p.startMs) (sound_init _) (ranged_init p.cfg p.startMs)
    p.wellFormed p.spans

theorem fhSeqNo_eq (p : Process sync K) {k : ℕ} {q : BookQuote K} (hq : p.published[k]? = some q) :
    q.fhSeqNo = p.start + k + 1 := by
  rw [published, List.getElem?_map, List.getElem?_drop, Option.map_eq_some_iff] at hq
  obtain ⟨row, hrow, rfl⟩ := hq
  have hseq := (p.invariants.1.row _ row hrow).1
  push_cast at hseq
  exact hseq

theorem rows_ordered (p : Process sync K) :
    p.rows.Pairwise fun a b => a.tpSeqNo < b.tpSeqNo ∧ a.fhSeqNo < b.fhSeqNo := by
  apply List.pairwise_map.mpr
  rw [List.pairwise_iff_getElem]
  intro i j hi hj hij
  have hbefore : p.published[i].fhSeqNo < p.published[j].fhSeqNo := by
    rw [p.fhSeqNo_eq (List.getElem?_eq_getElem hi), p.fhSeqNo_eq (List.getElem?_eq_getElem hj)]
    omega
  exact ⟨p.increasing _ _ hbefore, hbefore⟩

/-- The quotes of one symbol are a last part of those its book published. -/
theorem published_suffix (p : Process sync K) (i : Fin p.symbols) :
    (p.published.filter fun q => decide (q.sym = p.cfg.symbolsUpper i)) <:+ p.handler.rows i := by
  have hsym : ∀ row ∈ p.handler.published, row.2.sym = p.cfg.symbolsUpper row.1 := by
    intro row hrow
    obtain ⟨k, hk⟩ := List.mem_iff_getElem?.mp hrow
    exact (p.invariants.1.row k row hk).2
  have hfilter : (p.published.filter fun q => decide (q.sym = p.cfg.symbolsUpper i)) =
      ((p.handler.published.drop p.start).filter fun row => decide (row.1 = i)).map (·.2) := by
    rw [published, List.filter_map]
    congr 1
    apply List.filter_congr
    intro row hrow
    simp only [Function.comp_apply, hsym row (List.mem_of_mem_drop hrow), p.distinct.eq_iff]
  rw [hfilter]
  exact ((List.drop_suffix p.start p.handler.published).filter _).map _

/-- What the checker takes the rows of one symbol for. -/
def symbolSession (p : Process sync K) (i : Fin p.symbols) :
    SymbolSession (quoteTable sync) (p.cfg.symbolsUpper i) where
  rows := p.rows.filter fun r => decide (r.sym = p.cfg.symbolsUpper i)
  ofSym := fun r hr => of_decide_eq_true (List.mem_filter.mp hr).2
  ordered := p.rows_ordered.filter _
  ranges := by
    rw [rows, List.filter_map]
    intro r hr hv
    obtain ⟨q, hq, rfl⟩ := List.mem_map.mp hr
    exact hasRange_storedRow hv
      (p.invariants.2.2.nonempty i q ((p.published_suffix i).subset hq) hv)
  continues := by
    rw [rows, List.filter_map]
    obtain ⟨-, hrecorded, hranged⟩ := p.invariants
    have hcont := (hrecorded.chain i).suffix (p.published_suffix i)
    have hapart := (hranged.chain i).suffix (p.published_suffix i)
    rw [p.ofKind] at hcont hapart
    rw [List.isChain_map]
    apply List.isChain_iff_forall_rel_of_append_cons_cons.mpr
    intro a b before after heq ha hb
    exact continues_storedRow
      (List.isChain_iff_forall_rel_of_append_cons_cons.mp hcont heq)
      (List.isChain_iff_forall_rel_of_append_cons_cons.mp hapart heq) ha hb

/-- Every row is of one of the symbols. -/
theorem exists_symbol (p : Process sync K) {r : QuoteRow String} (hr : r ∈ p.rows) :
    ∃ i, r.sym = p.cfg.symbolsUpper i := by
  obtain ⟨q, hq, rfl⟩ := List.mem_map.mp hr
  obtain ⟨row, hrow, rfl⟩ := List.mem_map.mp hq
  obtain ⟨k, hk⟩ := List.mem_iff_getElem?.mp (List.mem_of_mem_drop hrow)
  exact ⟨row.1, (p.invariants.1.row k row hk).2⟩

/-- A valid row has ids that can be checked. -/
theorem hasRange (p : Process sync K) {r : QuoteRow String} (hr : r ∈ p.rows)
    (hv : r.isValid = true) : r.HasRange := by
  obtain ⟨i, hi⟩ := p.exists_symbol hr
  exact (p.symbolSession i).ranges r (List.mem_filter.mpr ⟨hr, decide_eq_true hi⟩) hv

/-- What the checker takes the rows of the process for. -/
def session (p : Process sync K) : Session (quoteTable sync) String where
  rows := p.rows
  start := p.start
  numbered := by
    intro k r hr
    rw [rows, List.getElem?_map, Option.map_eq_some_iff] at hr
    obtain ⟨q, hq, rfl⟩ := hr
    exact p.fhSeqNo_eq hq
  continues := by
    intro a b hab hunmarked
    obtain ⟨i, hi⟩ := p.exists_symbol hab.right.1
    let s := p.symbolSession i
    have ha : a ∈ s.rows := List.mem_filter.mpr ⟨hab.left.1, decide_eq_true (hab.same.trans hi)⟩
    have hb : b ∈ s.rows := List.mem_filter.mpr ⟨hab.right.1, decide_eq_true hi⟩
    have hva := (Bool.and_eq_true_iff.mp hab.left.2).1
    have hvb := (Bool.and_eq_true_iff.mp hab.right.2).1
    have hnone : ∀ c ∈ s.rows, a.tpSeqNo < c.tpSeqNo ∧ a.fhSeqNo < c.fhSeqNo →
        ¬ (c.tpSeqNo < b.tpSeqNo ∧ c.fhSeqNo < b.fhSeqNo) := by
      intro c hc hac hcb
      have hin := (List.mem_filter.mp hc).1
      have hsym : c.sym = b.sym := (s.ofSym c hc).trans hi.symm
      cases hvc : c.isValid with
      | true =>
          have hle := hab.between c hin ((p.hasRange hin hvc).hasIds hvc) hsym hac.1
          exact absurd hcb.1 (not_lt.mpr hle)
      | false => exact hunmarked ⟨c, hin, hvc, hsym, hac.1, hcb.1⟩
    exact (rel_of_adjacent tpSeqNo_asymm s.ordered s.continues ha hb
      (s.ordered_of_lt ha hb hab.before) hnone hva hvb).1

end Process

/-! ## A day of processes -/

/-- A break is a checked pair that does not continue; nothing explains one that is unmarked. -/
theorem checked_of_mem_breaks {t : QuoteTable} {rows : List (QuoteRow String)}
    (hnodup : (rows.map (·.tpSeqNo)).Nodup) {b : QuoteBreak String}
    (hb : b ∈ (check t (.stored (need t) rows)).breaks) :
    Precedes rows b.prev b.row ∧ QuoteRow.cont t b.prev b.row = false ∧
      (b.kind = .UNMARKED → ¬ Marked rows b.prev b.row ∧ b.prev.fhSeqNo ≤ b.row.fhSeqNo) := by
  rw [check_breaks, List.mem_filterMap] at hb
  obtain ⟨⟨q, prev⟩, hin, hbreak⟩ := hb
  cases prev with
  | none => simp [breakAt] at hbreak
  | some p =>
      have hchecked := (mem_checked_iff hnodup).mp hin
      simp only [breakAt] at hbreak
      split_ifs at hbreak with hcont hexcused
      · obtain rfl := Option.some.inj hbreak
        exact ⟨hchecked, Bool.eq_false_iff.mpr hcont, BreakKind.noConfusion⟩
      · obtain rfl := Option.some.inj hbreak
        rw [Bool.or_eq_true, invalidBetween_iff, decide_eq_true_eq, not_or, not_lt] at hexcused
        exact ⟨hchecked, Bool.eq_false_iff.mpr hcont, fun _ => hexcused⟩

/-- With a range of ids on every valid row, all of them are checked and no range is bad. -/
theorem check_counts (t : QuoteTable) {rows : List (QuoteRow String)}
    (hranges : ∀ r ∈ rows, r.isValid = true → r.HasRange) :
    (check t (.stored (need t) rows)).noIds = 0 ∧
      (check t (.stored (need t) rows)).badRange = 0 := by
  have hcolumns : ¬ ¬ ∀ c ∈ need t, c ∈ need t := not_not.mpr fun c hc => hc
  simp only [check]
  rw [if_neg hcolumns]
  simp only [List.countP_eq_zero, Bool.and_eq_true, decide_eq_true_eq, not_and, not_lt]
  constructor
  · intro r hr hv hnull
    obtain ⟨-, u, -, hu, -⟩ := hranges r (List.mem_insertionSort _ |>.mp hr) hv
    exact WithBot.coe_ne_bot (hu.symm.trans hnull)
  · intro r hr
    obtain ⟨hr, hids⟩ := List.mem_filter.mp hr
    exact (hranges r (List.mem_insertionSort _ |>.mp hr) (Bool.and_eq_true_iff.mp hids).1).le

/-- What the table adds to the exit code. -/
theorem report_eq (t : QuoteTable) (rows : List (QuoteRow String)) :
    (check t (.stored (need t) rows)).report =
      (check t (.stored (need t) rows)).unmarked + (check t (.stored (need t) rows)).badRange := by
  have hcolumns : ¬ ¬ ∀ c ∈ need t, c ∈ need t := not_not.mpr fun c hc => hc
  have hrows : (check t (.stored (need t) rows)).rows =
      some ((rows.insertionSort QuoteRow.le).length : Int) := by
    simp only [check]
    rw [if_neg hcolumns]
  rw [QsResult.report, hrows]
  exact if_neg (by omega)

/-- Within one session every unexplained pair continues. -/
theorem Session.cont_of_unmarked {t : QuoteTable} {day : QuoteDay t String} {s : Session t String}
    (hs : s ∈ day.sessions) {p q : QuoteRow String} (hpq : Precedes day.stored p q)
    (hunmarked : ¬ Marked day.stored p q) (hp : p ∈ s.rows) (hq : q ∈ s.rows) :
    QuoteRow.cont t p q = true := by
  apply s.continues p q (s.precedes hs hpq hp hq)
  rintro ⟨r, hr, hinvalid⟩
  refine hunmarked ⟨r, day.lossless.mem_iff.mpr ?_, hinvalid⟩
  exact List.mem_flatten.mpr ⟨s.rows, List.mem_map.mpr ⟨s, hs, rfl⟩, hr⟩

section Day
variable [LinearOrder K] [Zero K] {sync : DepthSync}

/-- The day that the checker is given: rows of any processes of one table, stored without loss. -/
def dayOf (ps : List (Process sync K)) {stored : List (QuoteRow String)}
    (hlossless : stored.Perm (ps.map Process.rows).flatten)
    (hordered : ((ps.map Process.rows).flatten.map (·.tpSeqNo)).Pairwise (· < ·)) :
    QuoteDay (quoteTable sync) String where
  sessions := ps.map Process.session
  stored := stored
  lossless := by
    rw [List.map_map]
    exact hlossless
  ordered := by
    rw [List.map_map]
    exact hordered

variable {ps : List (Process sync K)} {stored : List (QuoteRow String)}

/-- Every stored row that is valid has a range of ids. -/
theorem hasRange_of_stored (hlossless : stored.Perm (ps.map Process.rows).flatten)
    {r : QuoteRow String} (hr : r ∈ stored) (hv : r.isValid = true) : r.HasRange := by
  obtain ⟨rows, hrows, hr⟩ := List.mem_flatten.mp (hlossless.mem_iff.mp hr)
  obtain ⟨p, -, rfl⟩ := List.mem_map.mp hrows
  exact p.hasRange hr hv

/-- Quotes that handlers published and that were all stored: the checker can check every valid row,
finds no range that ends before it starts, and every break that it cannot explain is between two
processes, of which the later one had published as many rows at least. With a single process its
exit code is 0. -/
theorem handler_day_checked (ps : List (Process sync K)) {stored : List (QuoteRow String)}
    (hlossless : stored.Perm (ps.map Process.rows).flatten)
    (hordered : ((ps.map Process.rows).flatten.map (·.tpSeqNo)).Pairwise (· < ·)) :
    let result := check (quoteTable sync) (.stored (need (quoteTable sync)) stored)
    result.noIds = 0 ∧ result.badRange = 0 ∧
      (∀ b ∈ result.breaks, b.kind = .UNMARKED →
        (∀ p ∈ ps, b.prev ∈ p.rows → b.row ∉ p.rows) ∧ b.prev.fhSeqNo ≤ b.row.fhSeqNo) ∧
      (∀ p, ps = [p] → result.report = 0) := by
  intro result
  let day := dayOf ps hlossless hordered
  obtain ⟨hnoIds, hbadRange⟩ := check_counts (quoteTable sync) fun r hr hv =>
    hasRange_of_stored hlossless hr hv
  have hbreaks : ∀ b ∈ result.breaks, b.kind = .UNMARKED →
      (∀ p ∈ ps, b.prev ∈ p.rows → b.row ∉ p.rows) ∧ b.prev.fhSeqNo ≤ b.row.fhSeqNo := by
    intro b hb hkind
    obtain ⟨hchecked, hcont, hexcused⟩ := checked_of_mem_breaks day.nodup hb
    obtain ⟨hunmarked, hseq⟩ := hexcused hkind
    refine ⟨fun p hp hprev hrow => ?_, hseq⟩
    have hsession : p.session ∈ day.sessions := List.mem_map.mpr ⟨p, hp, rfl⟩
    have hcontinues := Session.cont_of_unmarked hsession hchecked hunmarked hprev hrow
    exact Bool.false_ne_true (hcont.symm.trans hcontinues)
  refine ⟨hnoIds, hbadRange, hbreaks, fun p hone => ?_⟩
  have hunmarked : result.unmarked = 0 := by
    rw [QsResult.unmarked, List.countP_eq_zero]
    intro b hb hkind
    obtain ⟨hprocesses, -⟩ := hbreaks b hb (of_decide_eq_true hkind)
    have hchecked := (checked_of_mem_breaks day.nodup hb).1
    have hrows : (ps.map Process.rows).flatten = p.rows := by simp [hone]
    rw [hrows] at hlossless
    exact hprocesses p (hone ▸ List.mem_singleton_self p)
      (hlossless.mem_iff.mp hchecked.left.1) (hlossless.mem_iff.mp hchecked.right.1)
  rw [report_eq, hbadRange]
  exact hunmarked

end Day

/-- A process that syncs one symbol and publishes two rows of it. -/
def sampleProcess : Process .Spot Int where
  symbols := 1
  cfg := sampleConfig
  ofKind := rfl
  distinct := Function.injective_of_subsingleton _
  startMs := 0
  events := sampleEvents
  wellFormed := by simp [WellFormed, Follows, sampleEvents, sampleConfig, BookConfig.oneLevel]
  spans := spans_sampleEvents
  tpSeqNo := fun fhSeqNo => 1000 + fhSeqNo
  increasing := fun _ _ h => by simpa using h

theorem handler_day_checked_sample :
    sampleProcess.rows.map (fun r => (r.isValid, r.fhSeqNo, r.tpSeqNo)) =
        [(true, 1, 1001), (true, 2, 1002)] ∧
      (check .quoteBinance (.stored (need .quoteBinance) sampleProcess.rows)).report = 0 := by
  constructor
  · decide +kernel
  · have hlossless : sampleProcess.rows.Perm ([sampleProcess].map Process.rows).flatten := by
      simp
    have hordered : (([sampleProcess].map Process.rows).flatten.map (·.tpSeqNo)).Pairwise
        (· < ·) := by
      simpa [List.pairwise_map] using sampleProcess.rows_ordered.imp And.left
    exact (handler_day_checked [sampleProcess] hlossless hordered).2.2.2 sampleProcess rfl

end TickToSignal.Utils
