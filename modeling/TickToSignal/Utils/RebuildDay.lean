import TickToSignal.Utils.LogManager

/-!
# Rebuilding a day of the HDB from the logs

`rebuild_day` collects the rows of a day from its log and the two next to it,
writes them to a staging directory and moves that into the HDB. `.rb.verify`
compares a directory with the collected rows, before the build counts as done
and before and after the swap.

## Implementation notes

In the source the check of one table is a function inside `.rb.verify`, and a
function does not see the locals of the one around it: its `ok::0b` sets the
global `ok`, while `.rb.verify` returns its own. Both are in the model. A
directory is the two columns that are read back; `.rb.say` and the other columns
are left out.
-/

namespace TickToSignal.Utils

open Wdb

/-- A logged row with the column the partition is sorted by. -/
structure DayRow extends LoggedRow where
  sym : String
  deriving DecidableEq, Repr

/-- A log: its chunks, and whether bytes follow that are none. -/
structure DayLog where
  chunks : List DayRow
  torn : Bool := false

/-! ## Collecting -/

/-- `.rb.acc`, `.rb.buf` and the two counters. -/
structure Collecting where
  acc : WdbTable → List DayRow := fun _ => []
  buf : WdbTable → List DayRow := fun _ => []
  unknown : Nat := 0
  scanned : Nat := 0

/-- `.rb.cfg.batch`. -/
def batch : Nat := 50000

namespace Collecting

/-- `.rb.flushBuf`. -/
def flushBuf (s : Collecting) (t : WdbTable) : Collecting :=
  if s.buf t = [] then s
  else
    { s with
      acc := Function.update s.acc t (s.acc t ++ s.buf t)
      buf := Function.update s.buf t [] }

/-- `.rb.collectUpd`. -/
def collectUpd (cfg : LogConfig) (day : Date) (s : Collecting) (r : DayRow) : Collecting :=
  let s := { s with scanned := s.scanned + 1 }
  match cfg.known r.toLoggedRow with
  | none => { s with unknown := s.unknown + 1 }
  | some t =>
      if r.date ≠ day then s
      else
        let s := { s with buf := Function.update s.buf t (s.buf t ++ [r]) }
        if batch ≤ (s.buf t).length then s.flushBuf t else s

end Collecting

/-- `.rb.collect`: the rows of a day in the logs of the day and its neighbours. -/
def collect (cfg : LogConfig) (logs : Date → Option DayLog) (d : Date) :
    Except String (WdbTable → List DayRow) :=
  let found := [d - 1, d, d + 1].filterMap logs
  if found = [] then .error "no log for the day or its neighbours"
  else if found.any fun f => f.torn then .error "badtail"
  else
    let s := (found.flatMap fun f => f.chunks).foldl (Collecting.collectUpd cfg d) {}
    .ok (tables.foldl Collecting.flushBuf s).acc

/-! ## Reading and verifying a directory -/

/-- The columns of a splayed table that are read back. -/
structure TableDir where
  tpSeqNo : ColumnFile := .absent
  time : ColumnFile := .absent
  deriving DecidableEq, Repr

/-- A partition, a staging directory or a copy of either. -/
abbrev DayDir := WdbTable → TableDir

/-- `.rb.dirSeqs`. -/
def dirSeqs (dir : DayDir) (t : WdbTable) : List Int := (dir t).tpSeqNo.read

/-- `distinct` keeps the first of equal ones. -/
def distinct {α : Type*} [DecidableEq α] (l : List α) : List α := l.reverse.dedup.reverse

/-- `.rb.dirDates`. -/
def dirDates (dir : DayDir) (t : WdbTable) : List Date :=
  distinct ((dir t).time.read.map fun ns => ns / 86400000000000)

/-- `except`. -/
def except (a b : List Int) : List Int := a.filter fun x => decide (x ∉ b)

/-- The collected numbers of a table. -/
def want (acc : WdbTable → List DayRow) (t : WdbTable) : List Int :=
  (acc t).map fun r => r.tpSeqNo

/-- The check of one table. -/
def good (acc : WdbTable → List DayRow) (d : Date) (dir : DayDir) (t : WdbTable) : Bool :=
  let have_ := dirSeqs dir t
  decide (have_.length = (want acc t).length) &&
    decide (have_.length = (distinct have_).length) &&
    decide ((except (want acc t) have_).length = 0) &&
    decide ((except have_ (want acc t)).length = 0) &&
    decide (dirDates dir t = if have_ = [] then [] else [d])

/-- `.rb.verify`: what it returns, and the global `ok` afterwards. -/
def verify (acc : WdbTable → List DayRow) (d : Date) (dir : DayDir) (globalOk : Bool) :
    Bool × Bool :=
  let ok := true
  let globalOk := tables.foldl (fun g t => if good acc d dir t then g else false) globalOk
  (ok, globalOk)

/-! ## Building and swapping -/

/-- The partition of the day, the staging directory, and the partitions moved away. -/
structure DayStore where
  part : Option DayDir := none
  stage : Option DayDir := none
  backups : List DayDir := []

/-- The splay that `.rb.build` writes: the rows sorted by symbol. -/
def written (acc : WdbTable → List DayRow) : DayDir := fun t =>
  let rows := (acc t).mergeSort fun a b => decide (a.sym ≤ b.sym)
  { tpSeqNo := .stored (rows.map fun r => r.tpSeqNo), time := .stored (rows.map fun r => r.time) }

/-- `.rb.build`: the previous staging directory is removed, the new one written and verified. -/
def build (acc : WdbTable → List DayRow) (d : Date) (globalOk : Bool) (st : DayStore) :
    Bool × DayStore :=
  let stage := written acc
  ((verify acc d stage globalOk).1, { st with stage := some stage })

/-- `.rb.swap`: the store afterwards, and the text of the failure. -/
def swap (acc : WdbTable → List DayRow) (d : Date) (globalOk : Bool) (st : DayStore) :
    DayStore × Option String :=
  match st.stage with
  | none => (st, some "no staging dir")
  | some stage =>
      let (ok, globalOk) := verify acc d stage globalOk
      if ok = false then (st, some "staging does not match the logs - not swapping")
      else
        let st : DayStore :=
          { part := some stage, stage := none, backups := st.part.toList ++ st.backups }
        if (verify acc d stage globalOk).1 = false then
          (st, some "partition does not match the logs after the swap")
        else (st, none)

/-! ## What the verification should say -/

/-- The table's directory holds exactly the collected numbers, none twice, and only rows of the
day. -/
structure TableMatches (acc : WdbTable → List DayRow) (d : Date) (dir : DayDir) (t : WdbTable) :
    Prop where
  rows : (dirSeqs dir t).Perm (want acc t)
  nodup : (dirSeqs dir t).Nodup
  dated : ∀ ns ∈ (dir t).time.read, ns / 86400000000000 = d
  filled : (dir t).time.read = [] ↔ dirSeqs dir t = []

/-- Every table's directory matches. -/
def Matches (acc : WdbTable → List DayRow) (d : Date) (dir : DayDir) : Prop :=
  ∀ t, TableMatches acc d dir t

section
variable {acc : WdbTable → List DayRow} {d : Date} {dir : DayDir} {t : WdbTable}

theorem length_distinct_iff {α : Type*} [DecidableEq α] (l : List α) :
    l.length = (distinct l).length ↔ l.Nodup := by
  rw [distinct, List.length_reverse, ← @List.length_reverse _ l, ← List.nodup_reverse]
  constructor
  · intro h
    exact List.dedup_eq_self.mp ((List.dedup_sublist _).eq_of_length h.symm)
  · intro h
    rw [h.dedup]

theorem length_except_iff (a b : List Int) : (except a b).length = 0 ↔ a ⊆ b := by
  rw [List.length_eq_zero_iff, except, List.filter_eq_nil_iff]
  simp only [decide_eq_true_eq, not_not]
  rfl

theorem nodup_distinct {α : Type*} [DecidableEq α] (l : List α) : (distinct l).Nodup :=
  List.nodup_reverse.mpr (List.nodup_dedup _)

theorem mem_distinct {α : Type*} [DecidableEq α] {l : List α} {a : α} :
    a ∈ distinct l ↔ a ∈ l := by
  simp [distinct]

/-- The date check. -/
theorem dirDates_eq_iff :
    dirDates dir t = (if dirSeqs dir t = [] then [] else [d]) ↔
      (∀ ns ∈ (dir t).time.read, ns / 86400000000000 = d) ∧
        ((dir t).time.read = [] ↔ dirSeqs dir t = []) := by
  have hmem : ∀ x, x ∈ dirDates dir t ↔ ∃ ns ∈ (dir t).time.read, ns / 86400000000000 = x := by
    simp [dirDates, mem_distinct]
  have hnil : dirDates dir t = [] ↔ (dir t).time.read = [] := by
    simp [dirDates, distinct, List.dedup_eq_nil]
  split
  next hseqs =>
    rw [hnil, hseqs]
    simp only [iff_true]
    constructor
    · intro h
      exact ⟨by rw [h]; exact fun ns hns => absurd hns List.not_mem_nil, h⟩
    · exact fun h => h.2
  next hseqs =>
    simp only [hseqs, iff_false, ← hnil]
    constructor
    · intro h
      refine ⟨fun ns hns => ?_, by simp [h]⟩
      exact List.mem_singleton.mp (h ▸ (hmem _).mpr ⟨ns, hns, rfl⟩)
    · rintro ⟨hdated, hne⟩
      have hall : ∀ x ∈ dirDates dir t, x = d := by
        intro x hx
        obtain ⟨ns, hns, rfl⟩ := (hmem x).mp hx
        exact hdated ns hns
      obtain ⟨x, hx⟩ := List.exists_mem_of_ne_nil _ hne
      obtain rfl := hall x hx
      refine List.perm_singleton.mp ((List.perm_ext_iff_of_nodup (nodup_distinct _)
        (List.nodup_singleton x)).mpr fun y => ?_)
      exact ⟨fun hy => List.mem_singleton.mpr (hall y hy),
        fun hy => List.mem_singleton.mp hy ▸ hx⟩

/-- The check of one table says what it should. -/
theorem good_iff : good acc d dir t = true ↔ TableMatches acc d dir t := by
  simp only [good, Bool.and_eq_true, decide_eq_true_eq, length_distinct_iff, length_except_iff,
    dirDates_eq_iff, and_assoc]
  constructor
  · rintro ⟨hlength, hnodup, -, hsub, hdated, hfilled⟩
    refine ⟨?_, hnodup, hdated, hfilled⟩
    exact (List.subperm_of_subset hnodup hsub).perm_of_length_le hlength.ge
  · intro h
    exact ⟨h.rows.length_eq, h.nodup, h.rows.symm.subset, h.rows.subset, h.dated, h.filled⟩

/-- The verdict goes into the global variable. -/
theorem verify_global_iff (globalOk : Bool) :
    (verify acc d dir globalOk).2 = true ↔ globalOk = true ∧ Matches acc d dir := by
  have hfold : ∀ (l : List WdbTable) (g : Bool),
      l.foldl (fun g t => if good acc d dir t then g else false) g = true ↔
        g = true ∧ ∀ t ∈ l, TableMatches acc d dir t := by
    intro l
    induction l with
    | nil => simp
    | cons t l ih =>
        intro g
        rw [List.foldl_cons, ih, List.forall_mem_cons, ← good_iff]
        cases good acc d dir t <;> simp
  rw [verify]
  dsimp only
  rw [hfold]
  simp [Matches]

/-- What the caller sees is the local one. -/
theorem verify_returns (globalOk : Bool) : (verify acc d dir globalOk).1 = true := rfl

end

/-! ## What is collected -/

/-- The rows of the day that go into a table's partition. -/
def belongs (cfg : LogConfig) (d : Date) (t : WdbTable) (r : DayRow) : Bool :=
  decide (cfg.known r.toLoggedRow = some t) && decide (r.date = d)

namespace Collecting

variable {cfg : LogConfig} {d : Date}

/-- Rows of a table so far, appended to the table or waiting for it. -/
def rows (s : Collecting) (t : WdbTable) : List DayRow := s.acc t ++ s.buf t

theorem flushBuf_rows (s : Collecting) (u t : WdbTable) : (s.flushBuf u).rows t = s.rows t := by
  unfold flushBuf rows
  split
  · rfl
  · by_cases h : t = u
    · subst h
      simp
    · simp [Function.update_of_ne h]

theorem flushBuf_buf (s : Collecting) (u t : WdbTable) :
    (s.flushBuf u).buf t = if t = u then [] else s.buf t := by
  unfold flushBuf
  split
  next h =>
    split
    next ht => rw [ht, h]
    next => rfl
  next => simp [Function.update_apply]

theorem collectUpd_rows (s : Collecting) (r : DayRow) (t : WdbTable) :
    (s.collectUpd cfg d r).rows t = s.rows t ++ [r].filter (belongs cfg d t) := by
  unfold collectUpd
  cases hk : cfg.known r.toLoggedRow with
  | none => simp [rows, belongs, hk]
  | some u =>
      by_cases hd : r.date = d
      · have hadd : ∀ buf, buf = Function.update s.buf u (s.buf u ++ [r]) →
            s.acc t ++ buf t = s.rows t ++ [r].filter (belongs cfg d t) := by
          rintro buf rfl
          by_cases ht : t = u
          · subst ht
            simp [rows, belongs, hk, hd]
          · simp [rows, belongs, hk, Function.update_of_ne ht, Ne.symm ht]
        simp only [hd, ne_eq, not_true, if_false]
        split
        · rw [flushBuf_rows]
          exact hadd _ rfl
        · exact hadd _ rfl
      · simp [rows, belongs, hd]

theorem foldl_collectUpd_rows (l : List DayRow) (s : Collecting) (t : WdbTable) :
    (l.foldl (Collecting.collectUpd cfg d) s).rows t = s.rows t ++ l.filter (belongs cfg d t) := by
  induction l generalizing s with
  | nil => simp
  | cons r l ih =>
      rw [List.foldl_cons, ih, collectUpd_rows, List.append_assoc, ← List.filter_append,
        List.singleton_append]

/-- Flushing a table that is in the list empties its buffer. -/
theorem foldl_flushBuf (l : List WdbTable) (s : Collecting) (t : WdbTable) :
    (l.foldl Collecting.flushBuf s).rows t = s.rows t ∧
      (t ∈ l ∨ s.buf t = [] → (l.foldl Collecting.flushBuf s).buf t = []) := by
  induction l generalizing s with
  | nil => simp
  | cons u l ih =>
      obtain ⟨hrows, hbuf⟩ := ih (s.flushBuf u)
      refine ⟨hrows.trans (flushBuf_rows s u t), fun h => hbuf ?_⟩
      rw [flushBuf_buf]
      obtain hmem | hnil := h
      · obtain rfl | hl := List.mem_cons.mp hmem
        · exact Or.inr (if_pos rfl)
        · exact Or.inl hl
      · exact Or.inr (by rw [hnil]; split <;> rfl)

end Collecting

/-- The collected rows are those of the day, in the order of the logs. -/
theorem collect_rows {cfg : LogConfig} {logs : Date → Option DayLog} {d : Date}
    {acc : WdbTable → List DayRow} (h : collect cfg logs d = .ok acc) (t : WdbTable) :
    acc t = (([d - 1, d, d + 1].filterMap logs).flatMap fun f => f.chunks).filter
      (belongs cfg d t) := by
  unfold collect at h
  dsimp only at h
  split at h
  next => cases h
  next =>
    split at h
    next => cases h
    next =>
      obtain rfl := Except.ok.inj h
      obtain ⟨hrows, hbuf⟩ := Collecting.foldl_flushBuf tables
        (((([d - 1, d, d + 1].filterMap logs).flatMap fun f => f.chunks)).foldl
          (Collecting.collectUpd cfg d) {}) t
      rw [Collecting.foldl_collectUpd_rows] at hrows
      rw [Collecting.rows, hbuf (Or.inl (mem_tables t)), List.append_nil] at hrows
      exact hrows

/-- Rows of the day, as they are collected from some logs. -/
structure Collected (d : Date) where
  rows : WdbTable → List DayRow
  dated : ∀ t, ∀ r ∈ rows t, r.date = d

/-- What `collect` returns. -/
def Collected.ofCollect {cfg : LogConfig} {logs : Date → Option DayLog} {d : Date}
    {acc : WdbTable → List DayRow} (h : collect cfg logs d = .ok acc) : Collected d where
  rows := acc
  dated := by
    intro t r hr
    rw [collect_rows h t, List.mem_filter] at hr
    simpa using (Bool.and_eq_true_iff.mp hr.2).2

/-! ## The verdict of the tool -/

/-- What the tool promises about a directory: the verdict is right, a build that succeeds left a
directory that matches, and a swap installs no other. -/
structure Gated {d : Date} (acc : Collected d) (dir : DayDir) : Prop where
  verdict : ∀ globalOk, (verify acc.rows d dir globalOk).1 = true ↔ Matches acc.rows d dir
  build : ∀ globalOk st, (build acc.rows d globalOk st).1 = true →
    ∃ stage, (build acc.rows d globalOk st).2.stage = some stage ∧ Matches acc.rows d stage
  swap : ∀ globalOk st, st.stage = some dir →
    (swap acc.rows d globalOk st).1.part = some dir → st.part ≠ some dir → Matches acc.rows d dir

/-- What the build writes matches if no number was collected twice. -/
theorem written_matches {d : Date} (acc : Collected d) (h : ∀ t, (want acc.rows t).Nodup) :
    Matches acc.rows d (written acc.rows) := by
  intro t
  have hperm : ((acc.rows t).mergeSort fun a b => decide (a.sym ≤ b.sym)).Perm (acc.rows t) :=
    List.mergeSort_perm _ _
  have hrows : (dirSeqs (written acc.rows) t).Perm (want acc.rows t) := hperm.map _
  refine ⟨hrows, hrows.nodup_iff.mpr (h t), ?_, ?_⟩
  · intro ns hns
    obtain ⟨r, hr, rfl⟩ := List.mem_map.mp hns
    exact acc.dated t r (hperm.mem_iff.mp hr)
  · simp [written, dirSeqs, ColumnFile.read]

/-- The tool keeps its promise about a directory exactly if that directory matches the logs. -/
theorem gated_iff {d : Date} (acc : Collected d) (dir : DayDir) :
    Gated acc dir ↔ Matches acc.rows d dir := by
  constructor
  · intro h
    exact (h.verdict true).mp rfl
  · intro h
    refine ⟨fun _ => iff_of_true rfl h, fun _ _ _ => ⟨_, rfl, ?_⟩, fun _ _ _ _ _ => h⟩
    exact written_matches acc fun t => (h t).rows.nodup_iff.mp (h t).nodup

/-- One collected trade, and an empty directory: the verdict is positive, and a swap would install
it. -/
theorem verify_accepts_empty :
    ∃ (acc : Collected 0) (dir : DayDir), (verify acc.rows 0 dir true).1 = true ∧
      (swap acc.rows 0 true { stage := some dir }).1.part = some dir ∧
      ¬ Matches acc.rows 0 dir := by
  refine ⟨⟨fun t => if t = .tradeBinance then [⟨⟨"trade_binance", 14, 0, 1⟩, "BTCUSDT"⟩] else [],
    ?_⟩, fun _ => {}, rfl, rfl, ?_⟩
  · intro t r hr
    split at hr
    · obtain rfl := List.mem_singleton.mp hr
      rfl
    · exact absurd hr List.not_mem_nil
  · intro h
    exact absurd (h .tradeBinance).rows.length_eq (by decide)

end TickToSignal.Utils
