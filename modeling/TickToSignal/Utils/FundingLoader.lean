import Mathlib.Data.Prod.Lex
import Mathlib.Data.String.Basic
import TickToSignal.Foundation.Catchup
import TickToSignal.Foundation.Machine

/-!
# The funding rate loader

Funding events are fetched page by page and merged into one table, by symbol and
time. A fetch since the last event asks for that event again and for what
follows it. Pages may fail and a fetch gives up after fifty of them, and still
the table holds of each symbol's history the first part without a hole.

## Implementation notes

Times of the exchange are milliseconds, times of the table nanoseconds since
1970. A table that is absent is empty. `long$` rounds the quotient of floats; the
model rounds the exact one, which is the same for every time of the table. The
page is what `curl` and `.j.k` make of the answer, and `parse` is the cast `"F"$`.
-/

namespace TickToSignal.Utils.FundingLoader

open Foundation

variable {F : Type*}

/-- An event as the exchange reports it. -/
structure Record where
  symbol : String
  fundingTime : ℤ
  fundingRate : String
  markPrice : String
  deriving DecidableEq, Repr

/-- A row of `.schema.funding`. -/
structure Funding (F : Type*) where
  sym : String
  fundingTime : ℤ
  fundingRate : F
  markPrice : F
  deriving DecidableEq, Repr

/-- The columns the table is merged and sorted by. -/
def Funding.key (r : Funding F) : String ×ₗ ℤ := toLex (r.sym, r.fundingTime)

/-! ## Configuration -/

def batchLimit : ℕ := 1000

def maxPages : ℕ := 50

/-- 2019.01.01 -/
def epochDefault : ℤ := 1546300800000000000

def tsToMs (ts : ℤ) : ℤ := (ts + 500000) / 1000000

def msToTs (ms : ℤ) : ℤ := 1000000 * ms

/-! ## Fetching -/

/-- Symbol, first and last time and limit of a page; no records if it fails. -/
abbrev FetchPage := String → ℤ → ℤ → ℕ → List Record

def shape (parse : String → F) (e : Record) : Funding F where
  sym := e.symbol
  fundingTime := msToTs e.fundingTime
  fundingRate := parse e.fundingRate
  markPrice := parse e.markPrice

def shapeRecords (parse : String → F) (records : List Record) : List (Funding F) :=
  records.map (shape parse)

/-- The loop of `.fn.paginateAll`, by the pages left before the cap. -/
def paginate (fetchPage : FetchPage) (sym : String) (endMs : ℤ) : ℕ → ℤ → List Record
  | 0, _ => []
  | page + 1, cursor =>
      let batch := fetchPage sym cursor endMs batchLimit
      match batch.getLast? with
      | none => []
      | some last =>
          if batch.length < batchLimit then batch
          else if endMs < 1 + last.fundingTime then batch
          else batch ++ paginate fetchPage sym endMs page (1 + last.fundingTime)

def paginateAll (fetchPage : FetchPage) (sym : String) (startMs endMs : ℤ) : List Record :=
  paginate fetchPage sym endMs maxPages startMs

/-! ## The table -/

def writeTable (t : List (Funding F)) : List (Funding F) :=
  t.mergeSort fun r r' => decide (r.key ≤ r'.key)

def lastFundingTime (s : String) (t : List (Funding F)) : Option ℤ :=
  ((t.filter fun r => r.sym = s).map (·.fundingTime)).max?

/-- The rows added, and the table. -/
def fetchWindow (parse : String → F) (fetchPage : FetchPage) (sym : String) (startTs endTs : ℤ)
    (t : List (Funding F)) : ℤ × List (Funding F) :=
  let raw := paginateAll fetchPage sym (tsToMs startTs) (tsToMs endTs)
  if raw = [] then (0, t)
  else
    let combined := keepLast Funding.key (t ++ shapeRecords parse raw)
    (combined.length - t.length, writeTable combined)

/-- Where a fetch since the last event starts. -/
def sinceLast (sym : String) (t : List (Funding F)) : ℤ :=
  match lastFundingTime sym t with
  | none => epochDefault
  | some lastTs => lastTs + 1

def fetchSinceLast (parse : String → F) (fetchPage : FetchPage) (sym : String) (now : ℤ)
    (t : List (Funding F)) : ℤ × List (Funding F) :=
  fetchWindow parse fetchPage sym (sinceLast sym t) now t

def fetchAllHistory (parse : String → F) (fetchPage : FetchPage) (sym : String) (now : ℤ)
    (t : List (Funding F)) : ℤ × List (Funding F) :=
  fetchWindow parse fetchPage sym epochDefault now t

/-- A call of the loader: since the last event, of all history, or of a window. `fetchSinceLastAll`
makes one of the first kind for each of its symbols. -/
inductive Call
  | sinceLast (sym : String)
  | allHistory (sym : String)
  | window (sym : String) (startTs endTs : ℤ)
  deriving DecidableEq, Repr

/-- A call, the time it is made at, and what the exchange answers during it. -/
structure Fetch where
  call : Call
  now : ℤ
  fetchPage : FetchPage

def step (parse : String → F) (t : List (Funding F)) (f : Fetch) : List (Funding F) :=
  match f.call with
  | .sinceLast sym => (fetchSinceLast parse f.fetchPage sym f.now t).2
  | .allHistory sym => (fetchAllHistory parse f.fetchPage sym f.now t).2
  | .window sym startTs endTs => (fetchWindow parse f.fetchPage sym startTs endTs t).2

/-! ## The exchange -/

/-- The events of each symbol, in order. -/
structure History where
  events : String → List Record
  ascending : ∀ s, Ascending Record.fundingTime (events s)
  symbols : ∀ s, ∀ e ∈ events s, e.symbol = s

/-- A page fails, or it holds the first of the events asked for, of as much of the history as there
is by then. -/
def History.Serves (H : History) (fetchPage : FetchPage) : Prop :=
  ∀ sym startMs endMs limit, fetchPage sym startMs endMs limit = [] ∨
    ∃ sofar, sofar <+: H.events sym ∧ fetchPage sym startMs endMs limit =
      (window Record.fundingTime sofar startMs endMs).take limit

/-- No page fails. -/
def History.Answers (H : History) (fetchPage : FetchPage) : Prop :=
  ∀ sym startMs endMs limit, fetchPage sym startMs endMs limit =
    (window Record.fundingTime (H.events sym) startMs endMs).take limit

theorem History.Answers.serves {H : History} {fetchPage : FetchPage} (h : H.Answers fetchPage) :
    H.Serves fetchPage :=
  fun sym startMs endMs limit => .inr ⟨_, List.prefix_rfl, h sym startMs endMs limit⟩

/-! ## Pages -/

section Pages
variable {H : History} {fetchPage : FetchPage} {sym : String} {endMs : ℤ}

/-- A page is a first part of what it was asked for. -/
theorem page_initial (hserves : H.Serves fetchPage) (cursor : ℤ) (limit : ℕ) :
    fetchPage sym cursor endMs limit <+:
      window Record.fundingTime (H.events sym) cursor endMs := by
  obtain hnone | ⟨sofar, hsofar, hpage⟩ := hserves sym cursor endMs limit
  · rw [hnone]
    exact List.nil_prefix
  · rw [hpage]
    exact (List.take_prefix _ _).trans (window_initial hsofar)

/-- Whatever pages fail, what a fetch gets reaches from where it starts to some event without a
hole. -/
theorem paginate_eq_window (hserves : H.Serves fetchPage) (sym : String) (endMs : ℤ) (page : ℕ)
    (cursor : ℤ) :
    paginate fetchPage sym endMs page cursor = [] ∨
      ∃ e ∈ H.events sym, cursor ≤ e.fundingTime ∧
        paginate fetchPage sym endMs page cursor =
          window Record.fundingTime (H.events sym) cursor e.fundingTime := by
  induction page generalizing cursor with
  | zero => exact .inl rfl
  | succ page ih =>
      simp only [paginate]
      cases hlast : (fetchPage sym cursor endMs batchLimit).getLast? with
      | none => exact .inl rfl
      | some e =>
          obtain ⟨hbatch, he, hcursor, -⟩ :=
            eq_window_of_prefix (H.ascending sym) (page_initial hserves cursor batchLimit) hlast
          right
          dsimp only
          split_ifs with hshort hpast
          · exact ⟨e, he, hcursor, hbatch⟩
          · exact ⟨e, he, hcursor, hbatch⟩
          · obtain hnone | ⟨e', he', hlow, hrest⟩ := ih (1 + e.fundingTime)
            · rw [hnone, List.append_nil]
              exact ⟨e, he, hcursor, hbatch⟩
            · refine ⟨e', he', by omega, ?_⟩
              rw [hrest, hbatch, add_comm 1]
              exact window_append (H.ascending sym) (by omega) (by omega)

/-- If no page fails, a fetch gets all it asks for, up to the cap. -/
theorem paginate_eq_take (hanswers : H.Answers fetchPage) (page : ℕ) (cursor : ℤ) :
    paginate fetchPage sym endMs page cursor =
      (window Record.fundingTime (H.events sym) cursor endMs).take (page * batchLimit) := by
  induction page generalizing cursor with
  | zero => simp [paginate]
  | succ page ih =>
      have hpage := hanswers sym cursor endMs batchLimit
      have hlimit : batchLimit ≤ (page + 1) * batchLimit := Nat.le_mul_of_pos_left _ page.succ_pos
      simp only [paginate]
      cases hlast : (fetchPage sym cursor endMs batchLimit).getLast? with
      | none =>
          have hnone : window Record.fundingTime (H.events sym) cursor endMs = [] := by
            rw [List.getLast?_eq_none_iff, hpage, List.take_eq_nil_iff] at hlast
            exact hlast.resolve_left (by decide)
          rw [hnone, List.take_nil]
      | some e =>
          obtain ⟨hbatch, -, hcursor, hend⟩ := eq_window_of_prefix (H.ascending sym)
            (page_initial hanswers.serves cursor batchLimit) hlast
          have hjoin := window_append (H.ascending sym) (a := cursor) (c := e.fundingTime)
            (by omega) hend
          dsimp only
          split_ifs with hshort hpast
          · rw [hpage, List.length_take] at hshort
            rw [hpage, List.take_of_length_le (by omega), List.take_of_length_le (by omega)]
          · rw [← hjoin, window_eq_nil (by omega : endMs < e.fundingTime + 1), List.append_nil,
              ← hbatch, List.take_of_length_le]
            rw [hpage]
            exact (List.length_take_le _ _).trans hlimit
          · have hfull : (fetchPage sym cursor endMs batchLimit).length = batchLimit := by
              have hle := List.length_take_le batchLimit
                (window Record.fundingTime (H.events sym) cursor endMs)
              rw [← hpage] at hle
              omega
            rw [ih, add_comm 1, ← hjoin, ← hbatch, List.take_append, hfull, Nat.succ_mul,
              Nat.add_sub_cancel]
            congr 1
            apply (List.take_of_length_le _).symm
            omega

end Pages

/-! ## Merging into the table -/

section Merge
variable {H : History} {parse : String → F} {t new : List (Funding F)}
  {fetchPage : FetchPage} {r : Funding F}

/-- The table is sorted by symbol and time, no key twice, and holds events of the history only. -/
structure Sound (H : History) (parse : String → F) (t : List (Funding F)) : Prop where
  sorted : Ascending Funding.key t
  events : ∀ r ∈ t, ∃ e ∈ H.events r.sym, shape parse e = r

/-- Events of a symbol are known by their time. -/
theorem History.shape_eq (H : History) {s : String} {e e' : Record} (he : e ∈ H.events s)
    (he' : e' ∈ H.events s)
    (htime : (shape parse e).fundingTime = (shape parse e').fundingTime) : e = e' := by
  refine (H.ascending s).eq_of_key_eq he he' ?_
  simp only [shape, msToTs] at htime
  omega

theorem Ascending.distinct {l : List (Funding F)} (hl : Ascending Funding.key l) :
    l.Pairwise fun r r' => r.key ≠ r'.key :=
  List.Pairwise.imp (fun hlt => hlt.ne) hl

theorem mem_writeTable : r ∈ writeTable t ↔ r ∈ t := List.mem_mergeSort

theorem writeTable_ascending (ht : t.Pairwise fun r r' => r.key ≠ r'.key) :
    Ascending Funding.key (writeTable t) := by
  have hsorted : (writeTable t).Pairwise fun r r' => r.key ≤ r'.key := by
    refine List.Pairwise.imp (fun hle => of_decide_eq_true hle) (List.pairwise_mergeSort ?_ ?_ t)
    · intro a b c hab hbc
      simp only [decide_eq_true_eq] at hab hbc ⊢
      exact hab.trans hbc
    · intro a b
      simpa using le_total a.key b.key
  have hdistinct : (writeTable t).Pairwise fun r r' => r.key ≠ r'.key :=
    (List.mergeSort_perm t _).symm.pairwise ht fun h => h.symm
  exact (hsorted.and hdistinct).imp fun h => lt_of_le_of_ne h.1 h.2

/-- A merge of events into a sound table holds the union. -/
theorem Sound.merge (ht : Sound H parse t) (hnew : Ascending Funding.key new)
    (hevents : ∀ r ∈ new, ∃ e ∈ H.events r.sym, shape parse e = r) :
    Sound H parse (writeTable (keepLast Funding.key (t ++ new))) ∧
      ∀ r, r ∈ writeTable (keepLast Funding.key (t ++ new)) ↔ r ∈ t ∨ r ∈ new := by
  have hmem : ∀ r, r ∈ writeTable (keepLast Funding.key (t ++ new)) ↔ r ∈ t ∨ r ∈ new := by
    intro r
    rw [mem_writeTable, mem_keepLast_append (Ascending.distinct ht.sorted)
      (Ascending.distinct hnew), or_comm]
    refine or_congr_left' fun hout => and_iff_left_of_imp fun hr r' hr' heq => hout ?_
    obtain ⟨hsym, htime⟩ := Prod.mk.inj (toLex.injective heq)
    obtain ⟨e, he, rfl⟩ := ht.events r hr
    obtain ⟨e', he', rfl⟩ := hevents r' hr'
    rw [← hsym] at he'
    rwa [H.shape_eq he he' htime]
  refine ⟨⟨writeTable_ascending keepLast_distinct, fun r hr => ?_⟩, hmem⟩
  obtain hr | hr := (hmem r).mp hr
  · exact ht.events r hr
  · exact hevents r hr

theorem shapeRecords_ascending (sym : String) {es : List Record}
    (hes : Ascending Record.fundingTime es) (hsym : ∀ e ∈ es, e.symbol = sym) :
    Ascending Funding.key (shapeRecords parse es) := by
  refine List.pairwise_map.mpr (List.Pairwise.imp_of_mem (fun he he' hlt => ?_) hes)
  refine Prod.Lex.toLex_lt_toLex.mpr (.inr ⟨?_, ?_⟩)
  · exact (hsym _ he).trans (hsym _ he').symm
  · simp only [shape, msToTs]
    omega

/-- What a fetch gets are the events from where it starts to some time. -/
theorem exists_fetched (hserves : H.Serves fetchPage) (sym : String) (startTs endTs : ℤ) :
    ∃ c, ∀ e, e ∈ paginateAll fetchPage sym (tsToMs startTs) (tsToMs endTs) ↔
      e ∈ H.events sym ∧ tsToMs startTs ≤ e.fundingTime ∧ e.fundingTime ≤ c := by
  obtain hnone | ⟨last, -, -, hraw⟩ := paginate_eq_window hserves sym (tsToMs endTs)
    maxPages (tsToMs startTs)
  · refine ⟨tsToMs startTs - 1, fun e => ?_⟩
    rw [paginateAll, hnone]
    constructor
    · intro he
      cases he
    · rintro ⟨-, hlow, hhigh⟩
      omega
  · refine ⟨last.fundingTime, fun e => ?_⟩
    rw [paginateAll, hraw]
    exact mem_window

/-- A fetch leaves the rows there were and the events it got. -/
theorem Sound.fetchWindow (ht : Sound H parse t) (hserves : H.Serves fetchPage) (sym : String)
    (startTs endTs : ℤ) :
    Sound H parse (fetchWindow parse fetchPage sym startTs endTs t).2 ∧
      ∀ r, r ∈ (FundingLoader.fetchWindow parse fetchPage sym startTs endTs t).2 ↔ r ∈ t ∨
        ∃ e ∈ paginateAll fetchPage sym (tsToMs startTs) (tsToMs endTs), shape parse e = r := by
  simp only [FundingLoader.fetchWindow]
  split_ifs with hempty
  · refine ⟨ht, fun r => (or_iff_left ?_).symm⟩
    rintro ⟨e, he, -⟩
    rw [hempty] at he
    cases he
  · obtain ⟨last, -, -, hraw⟩ :=
      (paginate_eq_window hserves sym (tsToMs endTs) maxPages (tsToMs startTs)).resolve_left hempty
    have hsym : ∀ e ∈ paginateAll fetchPage sym (tsToMs startTs) (tsToMs endTs),
        e ∈ H.events sym := by
      intro e he
      rw [paginateAll, hraw] at he
      exact (mem_window.mp he).1
    have hasc : Ascending Record.fundingTime
        (paginateAll fetchPage sym (tsToMs startTs) (tsToMs endTs)) := by
      rw [paginateAll, hraw]
      exact window_ascending (H.ascending sym)
    obtain ⟨hsound, hunion⟩ := ht.merge
      (shapeRecords_ascending sym hasc fun e he => H.symbols sym e (hsym e he)) fun r hr => by
        obtain ⟨e, he, rfl⟩ := List.mem_map.mp hr
        refine ⟨e, ?_, rfl⟩
        rw [shape, H.symbols sym e (hsym e he)]
        exact hsym e he
    exact ⟨hsound, fun r => (hunion r).trans (or_congr_right List.mem_map)⟩

end Merge

/-! ## Runs of the loader -/

section Runs
variable {H : History} {parse : String → F} {t : List (Funding F)} {c : String → ℤ}

/-- The table holds of each symbol the events from the beginning up to some time. -/
structure CaughtUp (H : History) (parse : String → F) (t : List (Funding F)) (c : String → ℤ) :
    Prop extends Sound H parse t where
  rows : ∀ s e, e ∈ H.events s →
    (shape parse e ∈ t ↔ tsToMs epochDefault ≤ e.fundingTime ∧ e.fundingTime ≤ c s)

theorem tsToMs_msToTs_succ (ms : ℤ) : tsToMs (msToTs ms + 1) = ms := by
  simp only [tsToMs, msToTs]
  omega

/-- A fetch since the last event starts where nothing is missing below. -/
theorem CaughtUp.sinceLast_covers (ht : CaughtUp H parse t c) (s : String) :
    tsToMs epochDefault ≤ tsToMs (sinceLast s t) ∧
      ∀ e ∈ H.events s, tsToMs epochDefault ≤ e.fundingTime →
        e.fundingTime < tsToMs (sinceLast s t) → e.fundingTime ≤ c s := by
  simp only [sinceLast, lastFundingTime]
  cases hmax : ((t.filter fun r => r.sym = s).map (·.fundingTime)).max? with
  | none => exact ⟨le_rfl, fun e _ hepoch hbelow => absurd hepoch hbelow.not_ge⟩
  | some lastTs =>
      obtain ⟨r, hr, hlast⟩ := List.mem_map.mp (List.max?_mem hmax)
      obtain ⟨hrt, hsym⟩ := List.mem_filter.mp hr
      obtain rfl : r.sym = s := of_decide_eq_true hsym
      obtain ⟨last, hin, hrow⟩ := ht.events r hrt
      have hstored := (ht.rows _ last hin).mp (hrow ▸ hrt)
      have hstart : tsToMs (lastTs + 1) = last.fundingTime := by
        rw [← hlast, ← hrow]
        exact tsToMs_msToTs_succ last.fundingTime
      dsimp only
      rw [hstart]
      exact ⟨hstored.1, fun e _ _ hbelow => hbelow.le.trans hstored.2⟩

/-- A fetch that starts where nothing is missing below leaves no hole. -/
theorem CaughtUp.fetchWindow (ht : CaughtUp H parse t c) {fetchPage : FetchPage}
    (hserves : H.Serves fetchPage) {sym : String} {startTs : ℤ} (endTs : ℤ)
    (hepoch : tsToMs epochDefault ≤ tsToMs startTs)
    (hcovers : ∀ e ∈ H.events sym, tsToMs epochDefault ≤ e.fundingTime →
      e.fundingTime < tsToMs startTs → e.fundingTime ≤ c sym) :
    ∃ c', CaughtUp H parse (fetchWindow parse fetchPage sym startTs endTs t).2 c' := by
  obtain ⟨upTo, hfetched⟩ := exists_fetched hserves sym startTs endTs
  obtain ⟨hsound, hrows⟩ := ht.toSound.fetchWindow hserves sym startTs endTs
  refine ⟨fun s => if s = sym then max (c sym) upTo else c s, hsound, fun s e he => ?_⟩
  rw [hrows, ht.rows s e he]
  simp only [hfetched, and_assoc]
  split_ifs with hs
  · subst hs
    rw [le_max_iff]
    constructor
    · rintro (⟨hlow, hhigh⟩ | ⟨e', he', hlow, hhigh, heq⟩)
      · exact ⟨hlow, .inl hhigh⟩
      · obtain rfl := H.shape_eq he' he (congrArg Funding.fundingTime heq)
        exact ⟨hepoch.trans hlow, .inr hhigh⟩
    · rintro ⟨hlow, hhigh | hhigh⟩
      · exact .inl ⟨hlow, hhigh⟩
      · rcases lt_or_ge e.fundingTime (tsToMs startTs) with hbelow | habove
        · exact .inl ⟨hlow, hcovers e he hlow hbelow⟩
        · exact .inr ⟨e, he, habove, hhigh, rfl⟩
  · refine or_iff_left ?_
    rintro ⟨e', he', -, -, heq⟩
    apply hs
    calc s = e.symbol := (H.symbols s e he).symm
      _ = e'.symbol := (congrArg Funding.sym heq).symm
      _ = sym := H.symbols sym e' he'

theorem caughtUp_nil (H : History) (parse : String → F) :
    CaughtUp H parse [] fun _ => tsToMs epochDefault - 1 where
  sorted := List.Pairwise.nil
  events r hr := by cases hr
  rows s e _ := by
    constructor
    · intro hin
      cases hin
    · rintro ⟨hlow, hhigh⟩
      omega

/-- The calls that do not choose where to start. -/
def Call.Incremental : Call → Prop
  | .window _ _ _ => False
  | _ => True

theorem CaughtUp.step (ht : CaughtUp H parse t c) {f : Fetch} (hserves : H.Serves f.fetchPage)
    (hcall : f.call.Incremental) : ∃ c', CaughtUp H parse (step parse t f) c' := by
  obtain ⟨call, now, fetchPage⟩ := f
  cases call with
  | sinceLast sym =>
      obtain ⟨hepoch, hcovers⟩ := ht.sinceLast_covers sym
      exact ht.fetchWindow hserves now hepoch hcovers
  | allHistory sym =>
      exact ht.fetchWindow hserves now le_rfl fun e _ hlow hbelow => absurd hlow hbelow.not_ge
  | window sym startTs endTs => exact hcall.elim

theorem caughtUp_exec (parse : String → F) {fs : List Fetch}
    (hfs : ∀ f ∈ fs, H.Serves f.fetchPage ∧ f.call.Incremental) :
    ∃ c, CaughtUp H parse (exec (FundingLoader.step parse) [] fs) c := by
  refine exec_invariant_of_mem (P := fun t => ∃ c, CaughtUp H parse t c) ?_
    ⟨_, caughtUp_nil H parse⟩
  rintro t f hf ⟨c, ht⟩
  exact ht.step (hfs f hf).1 (hfs f hf).2

/-- The events of a symbol the loader is after. -/
def History.sinceEpoch (H : History) (s : String) : List Record :=
  (H.events s).filter fun e => tsToMs epochDefault ≤ e.fundingTime

/-- The rows of a symbol are the events up to a time, in order. -/
theorem CaughtUp.rows_eq (ht : CaughtUp H parse t c) (s : String) :
    (t.filter fun r => r.sym = s) =
      shapeRecords parse ((H.sinceEpoch s).filter fun e => e.fundingTime ≤ c s) := by
  have hasc : Ascending Funding.key
      (shapeRecords parse ((H.sinceEpoch s).filter fun e => e.fundingTime ≤ c s)) := by
    apply shapeRecords_ascending s (((H.ascending s).filter _).filter _)
    intro e he
    exact H.symbols s e (List.mem_of_mem_filter (List.mem_of_mem_filter he))
  refine (ht.sorted.filter _).ext hasc fun r => ?_
  rw [List.mem_filter, decide_eq_true_eq, shapeRecords, List.mem_map]
  constructor
  · rintro ⟨hr, rfl⟩
    obtain ⟨e, he, hshape⟩ := ht.events r hr
    have hrow := (ht.rows _ e he).mp (hshape ▸ hr)
    refine ⟨e, List.mem_filter.mpr ⟨List.mem_filter.mpr ⟨he, ?_⟩, ?_⟩, hshape⟩
    · exact decide_eq_true hrow.1
    · exact decide_eq_true hrow.2
  · rintro ⟨e, he, rfl⟩
    simp only [History.sinceEpoch, List.mem_filter, decide_eq_true_eq] at he
    exact ⟨(ht.rows s e he.1.1).mpr ⟨he.1.2, he.2⟩, H.symbols s e he.1.1⟩

/-- After any number of fetches since the last event or of all history, of any symbols and with any
pages failing, the rows of a symbol are the first of its events, none missing in between, none
twice, and the table is sorted. -/
theorem stored_prefix_of_history (H : History) (parse : String → F) (s : String)
    {fs : List Fetch} (hfs : ∀ f ∈ fs, H.Serves f.fetchPage ∧ f.call.Incremental) :
    Ascending Funding.key (exec (FundingLoader.step parse) [] fs) ∧
      ((exec (FundingLoader.step parse) [] fs).filter fun r => r.sym = s) <+:
        shapeRecords parse (H.sinceEpoch s) := by
  obtain ⟨c, ht⟩ := caughtUp_exec parse hfs
  refine ⟨ht.sorted, ?_⟩
  rw [ht.rows_eq s]
  apply List.IsPrefix.map
  exact ((H.ascending s).filter _).filter_le_initial (c s)

/-- Every page as asked for. -/
def History.fetchPage (H : History) : FetchPage := fun sym startMs endMs limit =>
  (window Record.fundingTime (H.events sym) startMs endMs).take limit

theorem History.answers (H : History) : H.Answers H.fetchPage := fun _ _ _ _ => rfl

/-- Two events of one symbol, eight hours apart. -/
def twoEvents : History where
  events s := if s = "BTCUSDT" then
    [⟨"BTCUSDT", 1577836800000, "0.0001", "7200.1"⟩, ⟨"BTCUSDT", 1577865600000, "-0.0002", "7210"⟩]
    else []
  ascending s := by
    split_ifs
    · simp [Ascending]
    · exact List.Pairwise.nil
  symbols s e he := by
    split_ifs at he with hs
    · simp only [List.mem_cons, List.not_mem_nil, or_false] at he
      obtain rfl | rfl := he <;> exact hs.symm
    · cases he

/-- The first fetch is made between the two events, the next one gets no page. -/
theorem stored_prefix_of_history_two_events :
    Ascending Funding.key (exec (FundingLoader.step id) []
        [⟨.allHistory "BTCUSDT", 1577836900000000000, twoEvents.fetchPage⟩,
          ⟨.sinceLast "BTCUSDT", 1577866000000000000, fun _ _ _ _ => []⟩]) ∧
      ((exec (FundingLoader.step id) []
        [⟨.allHistory "BTCUSDT", 1577836900000000000, twoEvents.fetchPage⟩,
          ⟨.sinceLast "BTCUSDT", 1577866000000000000, fun _ _ _ _ => []⟩]).filter
            fun r => r.sym = "BTCUSDT") <+: shapeRecords id (twoEvents.sinceEpoch "BTCUSDT") :=
  stored_prefix_of_history twoEvents id "BTCUSDT" (by
    intro f hf
    simp only [List.mem_cons, List.not_mem_nil, or_false] at hf
    obtain rfl | rfl := hf
    · exact ⟨twoEvents.answers.serves, trivial⟩
    · exact ⟨fun _ _ _ _ => .inl rfl, trivial⟩)

/-- A fetch since the last event that no page of fails, of which the cap leaves nothing out, and
that is made after the last event, leaves all events of its symbol. -/
theorem stored_eq_history (H : History) (parse : String → F) (s : String) {fs : List Fetch}
    (hfs : ∀ f ∈ fs, H.Serves f.fetchPage ∧ f.call.Incremental) {fetchPage : FetchPage}
    (hanswers : H.Answers fetchPage) {now : ℤ} (hnow : ∀ e ∈ H.events s, e.fundingTime ≤ tsToMs now)
    (hcap : (window Record.fundingTime (H.events s)
      (tsToMs (sinceLast s (exec (FundingLoader.step parse) [] fs))) (tsToMs now)).length ≤
        maxPages * batchLimit) :
    ((fetchSinceLast parse fetchPage s now (exec (FundingLoader.step parse) [] fs)).2.filter
      fun r => r.sym = s) = shapeRecords parse (H.sinceEpoch s) := by
  obtain ⟨c, ht⟩ := caughtUp_exec parse hfs
  obtain ⟨hepoch, hcovers⟩ := ht.sinceLast_covers s
  obtain ⟨c', ht'⟩ := ht.fetchWindow hanswers.serves now hepoch hcovers
  obtain ⟨-, hrows⟩ := ht.toSound.fetchWindow hanswers.serves s
    (sinceLast s (exec (FundingLoader.step parse) [] fs)) now
  have hall : ∀ e ∈ H.sinceEpoch s, e.fundingTime ≤ c' s := by
    intro e he
    obtain ⟨hin, hlow⟩ := List.mem_filter.mp he
    have hlow := of_decide_eq_true hlow
    refine ((ht'.rows s e hin).mp ((hrows _).mpr ?_)).2
    rcases lt_or_ge e.fundingTime
      (tsToMs (sinceLast s (exec (FundingLoader.step parse) [] fs))) with hbelow | habove
    · exact .inl ((ht.rows s e hin).mpr ⟨hlow, hcovers e hin hlow hbelow⟩)
    · refine .inr ⟨e, ?_, rfl⟩
      rw [paginateAll, paginate_eq_take hanswers, List.take_of_length_le hcap]
      exact mem_window.mpr ⟨hin, habove, hnow e hin⟩
  rw [fetchSinceLast, ht'.rows_eq s, List.filter_eq_self.mpr fun e he =>
    decide_eq_true (hall e he)]

theorem stored_eq_history_two_events :
    ((fetchSinceLast id twoEvents.fetchPage "BTCUSDT" 1577866000000000000
        (exec (FundingLoader.step id) []
          [⟨.allHistory "BTCUSDT", 1577836900000000000, twoEvents.fetchPage⟩])).2.filter
      fun r => r.sym = "BTCUSDT") = shapeRecords id (twoEvents.sinceEpoch "BTCUSDT") :=
  stored_eq_history twoEvents id "BTCUSDT" (by
      intro f hf
      obtain rfl := List.mem_singleton.mp hf
      exact ⟨twoEvents.answers.serves, trivial⟩)
    twoEvents.answers (by
      intro e he
      simp only [twoEvents, if_true, List.mem_cons, List.not_mem_nil, or_false] at he
      obtain rfl | rfl := he <;> decide)
    ((List.length_filter_le _ _).trans (by decide))

theorem sound_exec {fs : List Fetch} (ht : Sound H parse t) (hfs : ∀ f ∈ fs, H.Serves f.fetchPage) :
    Sound H parse (exec (FundingLoader.step parse) t fs) ∧
      t ⊆ exec (FundingLoader.step parse) t fs := by
  refine exec_invariant_of_mem (P := fun u => Sound H parse u ∧ t ⊆ u) ?_
    ⟨ht, List.Subset.refl t⟩
  rintro u ⟨call, now, fetchPage⟩ hf ⟨hu, hsub⟩
  have hfetch : ∀ sym startTs endTs,
      Sound H parse (fetchWindow parse fetchPage sym startTs endTs u).2 ∧
        t ⊆ (fetchWindow parse fetchPage sym startTs endTs u).2 := by
    intro sym startTs endTs
    obtain ⟨hsound, hrows⟩ := hu.fetchWindow (hfs _ hf) sym startTs endTs
    exact ⟨hsound, fun r hr => (hrows r).mpr (.inl (hsub hr))⟩
  cases call with
  | sinceLast sym => exact hfetch sym _ now
  | allHistory sym => exact hfetch sym _ now
  | window sym startTs endTs => exact hfetch sym startTs endTs

/-- Also when windows are fetched at will, the table stays sorted with no event twice, every row is
an event of the history, and no row is ever lost. -/
theorem rows_never_lost (H : History) (parse : String → F) {fs gs : List Fetch}
    (hfs : ∀ f ∈ fs ++ gs, H.Serves f.fetchPage) :
    Sound H parse (exec (FundingLoader.step parse) [] (fs ++ gs)) ∧
      exec (FundingLoader.step parse) [] fs ⊆ exec (FundingLoader.step parse) [] (fs ++ gs) := by
  have hempty : Sound H parse [] := ⟨List.Pairwise.nil, fun r hr => by cases hr⟩
  obtain ⟨hfirst, -⟩ := sound_exec hempty fun f hf => hfs f (List.mem_append_left gs hf)
  rw [exec_append]
  exact sound_exec hfirst fun g hg => hfs g (List.mem_append_right fs hg)

theorem rows_never_lost_two_events :
    Sound twoEvents id (exec (FundingLoader.step id) []
        ([⟨.window "BTCUSDT" 1577865000000000000 1577866000000000000, 0, twoEvents.fetchPage⟩] ++
          [⟨.allHistory "BTCUSDT", 1577836900000000000, twoEvents.fetchPage⟩])) ∧
      exec (FundingLoader.step id) []
          [⟨.window "BTCUSDT" 1577865000000000000 1577866000000000000, 0, twoEvents.fetchPage⟩] ⊆
        exec (FundingLoader.step id) []
          ([⟨.window "BTCUSDT" 1577865000000000000 1577866000000000000, 0, twoEvents.fetchPage⟩] ++
            [⟨.allHistory "BTCUSDT", 1577836900000000000, twoEvents.fetchPage⟩]) :=
  rows_never_lost twoEvents id (by
    intro f hf
    simp only [List.cons_append, List.nil_append, List.mem_cons, List.not_mem_nil, or_false] at hf
    obtain rfl | rfl := hf <;> exact twoEvents.answers.serves)

end Runs

end TickToSignal.Utils.FundingLoader
