import TickToSignal.Utils.LogManager

/-!
# Log retention deletes only what is safe

The assessment counts; `SafeToDelete` says what the counts are about. They are
equivalent, so a log that is deleted is safe to delete, and a safe one is marked.
-/

namespace TickToSignal.Utils

open Wdb

variable {cfg : LogConfig} {env : LogEnv} {d : Date} {sc : Scan} {f : LogFile}

/-- A table's number is stored in the partition of the day or of a neighbour. -/
def StoredNear (env : LogEnv) (d : Date) (t : WdbTable) (seq : Int) : Prop :=
  ∃ dd, (dd = d - 1 ∨ dd = d ∨ dd = d + 1) ∧ ∃ partition, env.hdb dd = some partition ∧
    ∃ seqs, partition t = .stored seqs ∧ seq ∈ seqs

/-- A row of a known table and width that is stored. -/
def RowStored (cfg : LogConfig) (env : LogEnv) (d : Date) (r : LoggedRow) : Prop :=
  ∃ t, tableOf r.table = some t ∧ r.width = cfg.width t ∧ StoredNear env d t r.tpSeqNo

/-- What deleting a day's log may rely on. -/
structure SafeToDelete (cfg : LogConfig) (env : LogEnv) (d : Date) : Prop where
  readable : (env.dir.content d).torn = false
  aged : cfg.retentionDays < env.today - d
  not_today : d ≠ env.today
  not_protected : d ∉ cfg.protectedDates
  partition : ∃ p, env.hdb d = some p
  stored : ∀ r ∈ (env.dir.content d).chunks, RowStored cfg env d r

/-! ## What is on disk -/

theorem ColumnFile.mem_read (c : ColumnFile) (seq : Int) :
    seq ∈ c.read ↔ ∃ seqs, c = .stored seqs ∧ seq ∈ seqs := by
  cases c <;> simp [ColumnFile.read]

theorem mem_diskSeqs (t : WdbTable) (seq : Int) :
    seq ∈ diskSeqs env d t ↔ StoredNear env d t seq := by
  simp only [diskSeqs, List.mem_flatten, List.mem_map, StoredNear]
  constructor
  · rintro ⟨_, ⟨dd, hdd, rfl⟩, hseq⟩
    refine ⟨dd, by simpa using hdd, ?_⟩
    cases hp : env.hdb dd with
    | none => simp [hp] at hseq
    | some p =>
        simp only [hp, ColumnFile.mem_read] at hseq
        exact ⟨p, rfl, hseq⟩
  · rintro ⟨dd, hdd, p, hp, hseq⟩
    refine ⟨_, ⟨dd, by simpa using hdd, rfl⟩, ?_⟩
    simp only [hp]
    exact (ColumnFile.mem_read _ _).mpr hseq

/-! ## What a scan collects -/

/-- A table's rows in a log. -/
def rowsOf (cfg : LogConfig) (f : LogFile) (t : WdbTable) : List LoggedRow :=
  f.chunks.filter fun r => cfg.known r = some t

theorem foldl_upd (rs : List LoggedRow) (sc : Scan) (t : WdbTable) :
    let sc' := rs.foldl (Scan.upd cfg) sc
    sc'.seqs t = sc.seqs t ++ (rs.filter fun r => cfg.known r = some t).map (·.tpSeqNo) ∧
      sc'.dates t = sc.dates t ++ (rs.filter fun r => cfg.known r = some t).map (·.date) ∧
      sc'.unknownShape = sc.unknownShape + rs.countP fun r => cfg.known r = none := by
  induction rs generalizing sc with
  | nil => simp
  | cons r rs ih =>
      obtain ⟨hseqs, hdates, hunknown⟩ := ih (sc.upd cfg r)
      simp only [List.foldl_cons]
      rw [hseqs, hdates, hunknown]
      cases hk : cfg.known r with
      | none =>
          refine ⟨by simp [Scan.upd, hk], by simp [Scan.upd, hk], ?_⟩
          simp only [Scan.upd, hk, List.countP_cons, decide_true, if_true]
          omega
      | some u =>
          by_cases hu : u = t
          · subst hu
            simp [Scan.upd, hk]
          · have hne : t ≠ u := Ne.symm hu
            simp [Scan.upd, hk, hu, Function.update_of_ne hne]

theorem scan_ok (h : scan cfg f = .ok sc) :
    f.torn = false ∧ (∀ t, sc.seqs t = (rowsOf cfg f t).map (·.tpSeqNo)) ∧
      (∀ t, sc.dates t = (rowsOf cfg f t).map (·.date)) ∧
      (sc.unknownShape = 0 ↔ ∀ r ∈ f.chunks, ∃ t, cfg.known r = some t) := by
  simp only [scan] at h
  split_ifs at h with htorn
  have hsc : f.chunks.foldl (Scan.upd cfg) {} = sc := Except.ok.inj h
  have hspec := fun t => @foldl_upd cfg f.chunks {} t
  simp only [hsc] at hspec
  refine ⟨Bool.eq_false_iff.mpr htorn, fun t => by simpa [rowsOf] using (hspec t).1,
    fun t => by simpa [rowsOf] using (hspec t).2.1, ?_⟩
  rw [(hspec .tradeBinance).2.2]
  simp [Option.ne_none_iff_exists', List.countP_eq_zero]

theorem known_eq_some_iff {r : LoggedRow} {t : WdbTable} :
    cfg.known r = some t ↔ tableOf r.table = some t ∧ r.width = cfg.width t := by
  simp [LogConfig.known, Option.filter_eq_some_iff]

/-! ## What the counts are about -/

theorem total_eq_zero_iff {g : WdbTable → Int} (hg : ∀ t, 0 ≤ g t) :
    total g = 0 ↔ ∀ t, g t = 0 := by
  have hspot := hg .tradeBinance
  have hfut := hg .tradeBinanceFut
  have hquote := hg .quoteBinance
  have hquoteFut := hg .quoteBinanceFut
  have hgap := hg .tradeGap
  simp only [total, tables, List.foldr_cons, List.foldr_nil]
  constructor
  · intro hsum t
    cases t <;> omega
  · intro hzero
    simp only [hzero]
    rfl

theorem mem_positions {bs : List Bool} {i : Nat} : i ∈ positions bs ↔ bs[i]? = some true := by
  simp only [positions, List.mem_filter, List.mem_range, List.getD_eq_getElem?_getD]
  constructor
  · rintro ⟨hi, h⟩
    simpa [List.getElem?_eq_getElem hi] using h
  · intro h
    obtain ⟨hi, -⟩ := List.getElem?_eq_some_iff.mp h
    exact ⟨hi, by simp [h]⟩

/-- The positions a table's rows are missing at. -/
theorem mem_missingIdx {t : WdbTable} {rows : List LoggedRow}
    (hseqs : sc.seqs t = rows.map (·.tpSeqNo)) {i : Nat} :
    i ∈ missingIdx env d sc t ↔ ∃ r, rows[i]? = some r ∧ ¬ StoredNear env d t r.tpSeqNo := by
  rw [missingIdx, mem_positions, hseqs]
  simp only [List.map_map, List.getElem?_map, Option.map_eq_some_iff, Function.comp,
    decide_eq_true_eq, mem_diskSeqs]

theorem missing_eq_zero_iff {t : WdbTable} {rows : List LoggedRow}
    (hseqs : sc.seqs t = rows.map (·.tpSeqNo)) :
    missing env d sc t = 0 ↔ ∀ r ∈ rows, StoredNear env d t r.tpSeqNo := by
  rw [missing, Int.natCast_eq_zero, List.length_eq_zero_iff, List.eq_nil_iff_forall_not_mem]
  simp only [mem_missingIdx hseqs, not_exists, not_and, not_not]
  constructor
  · intro h r hr
    obtain ⟨i, hi⟩ := List.mem_iff_getElem?.mp hr
    exact h i r hi
  · intro h i r hi
    exact h r (List.mem_of_getElem? hi)

/-- The rows of the next day are among the missing ones; without them nothing is missing exactly
if every row of the day or before is stored. -/
theorem missing_eq_nextDay_iff {t : WdbTable} {rows : List LoggedRow}
    (hseqs : sc.seqs t = rows.map (·.tpSeqNo)) (hdates : sc.dates t = rows.map (·.date)) :
    missing env d sc t - nextDay env d sc t = 0 ↔
      ∀ r ∈ rows, r.date ≤ d → StoredNear env d t r.tpSeqNo := by
  have hall : missing env d sc t - nextDay env d sc t = 0 ↔
      ∀ i ∈ missingIdx env d sc t, d < (sc.dates t).getD i 0 := by
    rw [missing, nextDay, nextIdx, Int.sub_eq_zero, Int.natCast_inj, eq_comm,
      List.length_filter_eq_length_iff]
    simp
  have hdate : ∀ i r, rows[i]? = some r → (sc.dates t).getD i 0 = r.date := by
    intro i r hi
    simp [hdates, List.getD_eq_getElem?_getD, List.getElem?_map, hi]
  rw [hall]
  constructor
  · intro h r hr hold
    by_contra hmissing
    obtain ⟨i, hi⟩ := List.mem_iff_getElem?.mp hr
    have hlater := h i ((mem_missingIdx hseqs).mpr ⟨r, hi, hmissing⟩)
    rw [hdate i r hi] at hlater
    exact absurd hold (not_le.mpr hlater)
  · intro h i hi
    obtain ⟨r, hir, hmissing⟩ := (mem_missingIdx hseqs).mp hi
    rw [hdate i r hir]
    by_contra hold
    exact hmissing (h r (List.mem_of_getElem? hir) (not_lt.mp hold))

theorem nextDay_le_missing (t : WdbTable) : nextDay env d sc t ≤ missing env d sc t := by
  simp only [nextDay, missing, nextIdx]
  exact_mod_cast List.length_filter_le _ _

/-! ## The assessment -/

/-- A scan with nothing unknown splits the log into the rows of the tables. -/
theorem forall_rowStored_iff (hknown : ∀ r ∈ f.chunks, ∃ t, cfg.known r = some t)
    (keep : LoggedRow → Prop) :
    (∀ r ∈ f.chunks, keep r → RowStored cfg env d r) ↔
      ∀ t, ∀ r ∈ rowsOf cfg f t, keep r → StoredNear env d t r.tpSeqNo := by
  constructor
  · intro h t r hr hkeep
    simp only [rowsOf, List.mem_filter, decide_eq_true_eq] at hr
    obtain ⟨u, hu, hw, hstored⟩ := h r hr.1 hkeep
    have hsame : cfg.known r = some u := known_eq_some_iff.mpr ⟨hu, hw⟩
    obtain rfl : u = t := Option.some.inj (hsame.symm.trans hr.2)
    exact hstored
  · intro h r hr hkeep
    obtain ⟨t, ht⟩ := hknown r hr
    obtain ⟨htable, hwidth⟩ := known_eq_some_iff.mp ht
    refine ⟨t, htable, hwidth, h t r ?_ hkeep⟩
    simpa [rowsOf] using ⟨hr, ht⟩

theorem complete_iff (h : scan cfg f = .ok sc) :
    complete env d sc = true ↔
      (∃ p, env.hdb d = some p) ∧ ∀ r ∈ f.chunks, RowStored cfg env d r := by
  obtain ⟨-, hseqs, -, hunknown⟩ := scan_ok h
  simp only [complete, partitionExists, Bool.and_eq_true, decide_eq_true_eq,
    Option.isSome_iff_exists, hunknown, and_assoc]
  have htotal : total (missing env d sc) = 0 ↔ ∀ t, missing env d sc t = 0 :=
    total_eq_zero_iff fun t => Int.natCast_nonneg _
  rw [htotal]
  apply and_congr_right
  rintro -
  constructor
  · rintro ⟨hmissing, hknown⟩ r hr
    refine (forall_rowStored_iff hknown fun _ => True).mpr ?_ r hr trivial
    exact fun t r hr _ => (missing_eq_zero_iff (hseqs t)).mp (hmissing t) r hr
  · intro hstored
    have hknown : ∀ r ∈ f.chunks, ∃ t, cfg.known r = some t := by
      intro r hr
      obtain ⟨t, htable, hwidth, -⟩ := hstored r hr
      exact ⟨t, known_eq_some_iff.mpr ⟨htable, hwidth⟩⟩
    refine ⟨fun t => (missing_eq_zero_iff (hseqs t)).mpr fun r hr => ?_, hknown⟩
    exact (forall_rowStored_iff hknown fun _ => True).mp (fun r hr _ => hstored r hr) t r hr trivial

theorem dayComplete_iff (h : scan cfg f = .ok sc) :
    dayComplete env d sc = true ↔
      (∃ p, env.hdb d = some p) ∧ (∀ r ∈ f.chunks, ∃ t, cfg.known r = some t) ∧
        ∀ r ∈ f.chunks, r.date ≤ d → RowStored cfg env d r := by
  obtain ⟨-, hseqs, hdates, hunknown⟩ := scan_ok h
  simp only [dayComplete, partitionExists, Bool.and_eq_true, decide_eq_true_eq,
    Option.isSome_iff_exists, hunknown, and_assoc]
  rw [total_eq_zero_iff fun t => Int.sub_nonneg.mpr (nextDay_le_missing t)]
  apply and_congr_right
  rintro -
  rw [and_comm]
  apply and_congr_right
  intro hknown
  rw [forall_rowStored_iff hknown fun r => r.date ≤ d]
  exact forall_congr' fun t => missing_eq_nextDay_iff (hseqs t) (hdates t)

/-- A log is marked exactly if it is safe to delete. -/
theorem assess_delete_iff : (assess cfg env d).status = .delete ↔ SafeToDelete cfg env d := by
  rcases hsc : scan cfg (env.dir.content d) with e | sc
  · simp only [assess, hsc]
    refine iff_of_false (by decide) fun hsafe => ?_
    simp [scan, hsafe.readable] at hsc
  · have hdelete : (assess cfg env d).status = .delete ↔
        d ≠ env.today ∧ d ∉ cfg.protectedDates ∧ complete env d sc = true ∧
          cfg.retentionDays < env.today - d := by
      simp only [assess, hsc]
      split_ifs with hmark
      · exact iff_of_true rfl hmark
      · exact iff_of_false (by decide) hmark
    rw [hdelete, complete_iff hsc]
    constructor
    · rintro ⟨htoday, hprotected, ⟨hpartition, hstored⟩, haged⟩
      exact
        { readable := (scan_ok hsc).1, aged := haged, not_today := htoday
          not_protected := hprotected, partition := hpartition, stored := hstored }
    · intro hsafe
      exact ⟨hsafe.not_today, hsafe.not_protected, ⟨hsafe.partition, hsafe.stored⟩, hsafe.aged⟩

/-- A day reported complete has every row of the day or before in the HDB. -/
theorem rowStored_of_dayComplete (h : (assess cfg env d).dayComplete = true) :
    ∀ r ∈ (env.dir.content d).chunks, r.date ≤ d → RowStored cfg env d r := by
  rcases hsc : scan cfg (env.dir.content d) with e | sc
  · simp [assess, hsc] at h
  · simp only [assess, hsc] at h
    exact ((dayComplete_iff hsc).mp h).2.2

/-! ## Retention -/

/-- Deleting a day removes nothing but its log and its index. -/
theorem mem_deleteDay {succeeds : FileName → Bool} {dir : LogDir} {name : FileName}
    (hmem : name ∈ dir.names) :
    name ∈ (dir.deleteDay succeeds d).names ∨ name = .log d ∨ name = .idx d := by
  have hone : ∀ (dir : LogDir) (victim : FileName), name ∈ dir.names →
      name ∈ (dir.hdel succeeds victim).names ∨ name = victim := by
    intro dir victim hin
    simp only [LogDir.hdel]
    split_ifs
    · by_cases hname : name = victim
      · exact Or.inr hname
      · exact Or.inl (List.mem_filter.mpr ⟨hin, by simpa using hname⟩)
    · exact Or.inl hin
  simp only [LogDir.deleteDay]
  obtain hlog | hlog := hone dir (.log d) hmem
  · split_ifs
    · exact (hone _ (.idx d) hlog).imp_right Or.inr
    · exact Or.inl hlog
  · exact Or.inr (Or.inl hlog)

/-- What is gone after some days were deleted was the log or the index of one of them. -/
theorem gone_of_deleteDays {succeeds : FileName → Bool} {dir : LogDir} {ds : List Date}
    {name : FileName} (hmem : name ∈ dir.names)
    (hgone : name ∉ (ds.foldl (LogDir.deleteDay succeeds) dir).names) :
    ∃ d ∈ ds, name = .log d ∨ name = .idx d := by
  induction ds generalizing dir with
  | nil => exact absurd hmem hgone
  | cons d ds ih =>
      obtain hkept | hown := @mem_deleteDay d succeeds dir name hmem
      · obtain ⟨d', hd', hname⟩ := ih hkept hgone
        exact ⟨d', List.mem_cons_of_mem d hd', hname⟩
      · exact ⟨d, List.mem_cons_self, hown⟩

/-- Whatever the directory, the HDB, the clock and the configuration: a file that a retention run
deletes is the log or the index of a day whose log is safe to delete; and a day that the
assessment reports complete has all its rows in the HDB. -/
theorem retention_deletes_only_safe (cfg : LogConfig) (env : LogEnv) (succeeds : FileName → Bool)
    (apply : Bool) :
    (∀ name ∈ env.dir.names, name ∉ (retention cfg env succeeds apply).2.names →
      apply = true ∧ ∃ d, (name = .log d ∨ name = .idx d) ∧ .log d ∈ env.dir.names ∧
        SafeToDelete cfg env d) ∧
    ∀ a ∈ (retention cfg env succeeds apply).1, a.dayComplete = true →
      ∀ r ∈ (env.dir.content a.date).chunks, r.date ≤ a.date → RowStored cfg env a.date r := by
  have hdate : ∀ d, (assess cfg env d).date = d := by
    intro d
    simp only [assess]
    split <;> rfl
  constructor
  · intro name hmem hgone
    cases apply with
    | false => exact absurd hmem hgone
    | true =>
        refine ⟨rfl, ?_⟩
        obtain ⟨d, hd, hname⟩ := gone_of_deleteDays hmem hgone
        simp only [summary, List.mem_map, List.mem_filter, decide_eq_true_eq] at hd
        obtain ⟨_, ⟨⟨d', hlisted, rfl⟩, hdelete⟩, hsame⟩ := hd
        obtain rfl : d' = d := (hdate d').symm.trans hsame
        refine ⟨d', hname, ?_, assess_delete_iff.mp hdelete⟩
        simp only [LogDir.list, List.mem_insertionSort, List.mem_filterMap] at hlisted
        obtain ⟨file, hfile, hlog⟩ := hlisted
        cases file <;> simp_all [FileName.logDate]
  · intro a ha hday
    have hlisted : a ∈ summary cfg env := by
      cases apply <;> exact ha
    obtain ⟨d, -, rfl⟩ := List.mem_map.mp hlisted
    rw [hdate d]
    exact rowStored_of_dayComplete hday

/-- Two logs on day 20: the row of day 9, received on day 10, is stored on day 10. -/
def twoLogs : LogEnv :=
  { dir :=
      { names := [.log 19, .log 9, .idx 9, .other "tp.tpSeqNo"]
        content := fun d => { chunks := [⟨"trade_gap", 12, (d + 1) * 86400000000000, d⟩] } }
    hdb := fun _ => some fun _ => .stored [9]
    tmp := fun _ _ => .absent
    today := 20
    showDate := toString }

example : (retention {} twoLogs (fun _ => true) true).2.names = [.log 19, .other "tp.tpSeqNo"] := by
  decide

end TickToSignal.Utils
