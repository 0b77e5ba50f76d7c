import TickToSignal.Foundation.Refold
import TickToSignal.Tp.TradeState

/-!
# TP's rebuilt state is what the logs say

Each thing TP remembers follows the logged rows through a step function of its
own, and for each only the last time a row is noted counts. So a session file
that is at least as new as the first row of the scanned log gives, with that
log, exactly what all logs give, however far the two overlap.
-/

namespace TickToSignal.Tp

open Foundation Publisher Trade

/-- What one logged row does to the last number of table `t`. -/
def lastAt (t : Table) (x : Option Int) : Logged → Option Int
  | .gap _ => x
  | .data r => if r.table = t then some r.fhSeqNo else x

/-- What one logged row does to the highest trade id of symbol `s`. -/
def lastIdAt (t : Table) (s : String) (x : Option Int) : Logged → Option Int
  | .gap _ => x
  | .data r =>
      if r.table.isTrade = true ∧ r.table = t ∧ r.sym = s then some (orMax r.tradeId x) else x

/-- What one logged row does to the gap at `key`, if it is open. -/
def gapAt (key : GapKey) (x : Option GapRow) : Logged → Option GapRow
  | .gap e => if e.key = key then (some e.row).filter GapRow.isOpen else x
  | .data r =>
      if r.table.isTrade = true ∧ r.exchEventTimeMs.isNone = true ∧ key.srcTable = r.table ∧
          key.sym = r.sym then
        x.map (GapRow.backfilled key r.tradeId)
      else x

section LastCounts

theorem lastCounts_lastAt (t : Table) : LastCounts (lastAt t) where
  twice := by
    intro x i
    cases i <;> simp only [lastAt]
    split_ifs <;> rfl
  between := by
    intro x i j
    cases i <;> cases j <;> simp only [lastAt] <;> split_ifs <;> rfl

theorem orMax_twice (i : Int) (x : Option Int) : orMax i (some (orMax i x)) = orMax i x := by
  cases x <;> simp [orMax]

theorem orMax_between (i j : Int) (x : Option Int) :
    orMax i (some (orMax j (some (orMax i x)))) = orMax i (some (orMax j x)) := by
  cases x <;> simp only [orMax] <;> omega

theorem lastCounts_lastIdAt (t : Table) (s : String) : LastCounts (lastIdAt t s) where
  twice := by
    intro x i
    cases i <;> simp only [lastIdAt]
    split_ifs
    · rw [orMax_twice]
    · rfl
  between := by
    intro x i j
    cases i <;> cases j <;> simp only [lastIdAt] <;> split_ifs <;>
      simp only [orMax_twice, orMax_between]

@[simp] theorem backfilled_isOpen (key : GapKey) (id : Int) (g : GapRow) :
    (g.backfilled key id).isOpen = g.isOpen := by
  simp only [GapRow.backfilled]
  split_ifs <;> rfl

theorem backfilled_between (key : GapKey) (i j : Int) (g : GapRow) :
    ((g.backfilled key i).backfilled key j).backfilled key i =
      (g.backfilled key j).backfilled key i := by
  simp only [GapRow.backfilled]
  split_ifs <;> simp only [GapRow.mk.injEq, true_and, and_true] <;> omega

theorem backfilled_twice (key : GapKey) (i : Int) (g : GapRow) :
    (g.backfilled key i).backfilled key i = g.backfilled key i := by
  simp only [GapRow.backfilled]
  split_ifs <;> simp

theorem lastCounts_gapAt (key : GapKey) : LastCounts (gapAt key) where
  twice := by
    intro x i
    cases i with
    | gap e =>
        simp only [gapAt]
        split_ifs <;> rfl
    | data r =>
        simp only [gapAt]
        split_ifs
        · simp [Function.comp_def, backfilled_twice]
        · rfl
  between := by
    intro x i j
    cases i with
    | gap e =>
        simp only [gapAt]
        split_ifs
        · rfl
        · rfl
    | data r =>
        cases j with
        | gap e =>
            simp only [gapAt]
            split_ifs
            · rfl
            · simp [Function.comp_def, backfilled_twice]
            · rfl
            · rfl
        | data r' =>
            simp only [gapAt]
            split_ifs
            · simp [Function.comp_def, backfilled_between]
            · simp [Function.comp_def, backfilled_twice]
            · rfl
            · rfl

end LastCounts

/-- TP's memory is what these rows say: the last number of every table that has
a row, the highest trade ids, and the open gaps. -/
structure Agrees (m : Memory) (rows : List Logged) : Prop where
  last : ∀ t x, rows.foldl (lastAt t) none = some x → (m.tables t).last = some x
  lastId : ∀ t s, m.lastId t s = rows.foldl (lastIdAt t s) none
  gaps : ∀ key, Memory.keepOpen m.gaps key = rows.foldl (gapAt key) none

section Notes
variable {m : Memory} {rows log : List Logged}

theorem filter_map_backfilled (key : GapKey) (id : Int) (x : Option GapRow) :
    (x.map (GapRow.backfilled key id)).filter GapRow.isOpen =
      (x.filter GapRow.isOpen).map (GapRow.backfilled key id) := by
  cases x with
  | none => rfl
  | some g =>
      simp only [Option.map_some, Option.filter_some, backfilled_isOpen]
      split_ifs <;> rfl

theorem noteTradeId_lastId (m : Memory) (r : DataRow) (t : Table) (s : String) :
    (m.noteTradeId r).lastId t s =
      if r.table = t ∧ r.sym = s then some (orMax r.tradeId (m.lastId t s)) else m.lastId t s := by
  have hnote : (m.noteTradeId r).lastId t s = Function.update m.lastId r.table
      (Function.update (m.lastId r.table) r.sym
        (some (orMax r.tradeId (m.lastId r.table r.sym)))) t s := by
    simp only [Memory.noteTradeId]
    split_ifs <;> rfl
  rw [hnote]
  by_cases ht : r.table = t
  · subst ht
    by_cases hs : r.sym = s
    · subst hs
      simp
    · simp [hs, Function.update_of_ne (Ne.symm hs)]
  · simp [ht, Function.update_of_ne (Ne.symm ht)]

theorem noteTradeId_gaps (m : Memory) (r : DataRow) (key : GapKey) :
    Memory.keepOpen (m.noteTradeId r).gaps key =
      if r.exchEventTimeMs.isNone = true ∧ key.srcTable = r.table ∧ key.sym = r.sym then
        (Memory.keepOpen m.gaps key).map (GapRow.backfilled key r.tradeId)
      else Memory.keepOpen m.gaps key := by
  simp only [Memory.noteTradeId, Memory.keepOpen]
  by_cases hb : r.exchEventTimeMs.isNone
  · by_cases hkey : key.srcTable = r.table ∧ key.sym = r.sym
    · simp [hb, hkey, Memory.noteBackfill, filter_map_backfilled]
    · simp [hb, hkey, Memory.noteBackfill]
  · simp [hb]

/-- What scanning one row does to each of the three. -/
theorem scanUpd_spec (st : Memory × (Table → Option Int)) (x : Logged) :
    (Memory.scanUpd st x).1.tables = st.1.tables ∧
      (∀ t s, (Memory.scanUpd st x).1.lastId t s = lastIdAt t s (st.1.lastId t s) x) ∧
      (∀ key, Memory.keepOpen (Memory.scanUpd st x).1.gaps key =
        gapAt key (Memory.keepOpen st.1.gaps key) x) ∧
      ∀ t, (Memory.scanUpd st x).2 t = lastAt t (st.2 t) x := by
  cases x with
  | gap e =>
      refine ⟨rfl, fun _ _ => rfl, fun key => ?_, fun _ => rfl⟩
      simp only [Memory.scanUpd, Memory.noteGap, Memory.keepOpen, gapAt]
      by_cases hkey : e.key = key
      · subst hkey
        simp
      · simp [hkey, Function.update_of_ne (Ne.symm hkey)]
  | data r =>
      have hlast : ∀ t, (Memory.scanUpd st (.data r)).2 t = lastAt t (st.2 t) (.data r) := by
        intro t
        simp only [Memory.scanUpd, lastAt]
        by_cases ht : r.table = t
        · subst ht
          simp
        · simp [ht, Function.update_of_ne (Ne.symm ht)]
      by_cases htrade : r.table.isTrade
      · refine ⟨?_, fun t s => ?_, fun key => ?_, hlast⟩
        · simp only [Memory.scanUpd, htrade, if_true, Memory.noteTradeId]
          split_ifs <;> rfl
        · simp [Memory.scanUpd, htrade, lastIdAt, noteTradeId_lastId]
        · simp [Memory.scanUpd, htrade, gapAt, noteTradeId_gaps]
      · refine ⟨?_, fun t s => ?_, fun key => ?_, hlast⟩
        · simp [Memory.scanUpd, htrade]
        · simp [Memory.scanUpd, htrade, lastIdAt]
        · simp [Memory.scanUpd, htrade, gapAt]

/-- The same for a whole log. -/
theorem foldl_scanUpd (st : Memory × (Table → Option Int)) (log : List Logged) :
    (log.foldl Memory.scanUpd st).1.tables = st.1.tables ∧
      (∀ t s, (log.foldl Memory.scanUpd st).1.lastId t s =
        log.foldl (lastIdAt t s) (st.1.lastId t s)) ∧
      (∀ key, Memory.keepOpen (log.foldl Memory.scanUpd st).1.gaps key =
        log.foldl (gapAt key) (Memory.keepOpen st.1.gaps key)) ∧
      ∀ t, (log.foldl Memory.scanUpd st).2 t = log.foldl (lastAt t) (st.2 t) := by
  induction log generalizing st with
  | nil => exact ⟨rfl, fun _ _ => rfl, fun _ => rfl, fun _ => rfl⟩
  | cons x log ih =>
      obtain ⟨htables, hid, hgaps, hlast⟩ := ih (Memory.scanUpd st x)
      obtain ⟨htables', hid', hgaps', hlast'⟩ := scanUpd_spec st x
      refine ⟨htables.trans htables', fun t s => ?_, fun key => ?_, fun t => ?_⟩
      · rw [List.foldl_cons, hid, hid', List.foldl_cons]
      · rw [List.foldl_cons, hgaps, hgaps', List.foldl_cons]
      · rw [List.foldl_cons, hlast, hlast', List.foldl_cons]

/-- A row in the log decides, otherwise what was known before. -/
theorem foldl_lastAt (t : Table) (x : Option Int) (log : List Logged) :
    log.foldl (lastAt t) x = (log.foldl (lastAt t) none <|> x) := by
  induction log using List.reverseRecOn with
  | nil => rfl
  | append_singleton log y ih =>
      rw [List.foldl_append, List.foldl_append, ih]
      cases y with
      | gap e => rfl
      | data r =>
          simp only [List.foldl_cons, List.foldl_nil, lastAt]
          split_ifs <;> rfl

/-- A start: the file, then the rows of one log, of which the file may know some. -/
theorem Agrees.recoverFhSeq {older known : List Logged} (h : Agrees m (older ++ known))
    (new : List Logged) :
    Agrees (m.recoverFhSeq (known ++ new)) (older ++ known ++ new) := by
  obtain ⟨htables, hid, hgaps, hlast⟩ := foldl_scanUpd (m, fun _ => none) (known ++ new)
  constructor
  · intro t x hx
    rw [← (lastCounts_lastAt t).refold_overlap, foldl_lastAt] at hx
    have htables' : ((m.scanLog (known ++ new)).1.tables t).last = (m.tables t).last :=
      congrArg (fun tables => (tables t).last) htables
    have hfile := h.last t
    simp only [Memory.recoverFhSeq, TpTable.recoverFhSeq, htables']
    rw [show (m.scanLog (known ++ new)).2 t = (known ++ new).foldl (lastAt t) none from hlast t]
    cases hlog : (known ++ new).foldl (lastAt t) none with
    | some y => simpa [hlog] using hx
    | none =>
        rw [hlog] at hx
        simpa using hfile x (by simpa using hx)
  · intro t s
    rw [← (lastCounts_lastIdAt t s).refold_overlap, ← h.lastId t s]
    exact hid t s
  · intro key
    rw [← (lastCounts_gapAt key).refold_overlap, ← h.gaps key]
    exact hgaps key

end Notes

/-- What the handlers promise while none of them restarts: a table has one
session, whose rows and registrations go on above what TP has. -/
def OneSession (w : World) : Step → Prop
  | .register tbl sessionId nextSeq _ _ => ∀ m ∈ w.tp,
      ((m.tables tbl).sessionId = none ∨ (m.tables tbl).sessionId = some sessionId) ∧
        ∀ l ∈ (m.tables tbl).last, l < nextSeq
  | .row r => ∀ m ∈ w.tp, ∀ l ∈ (m.tables r.table).last, l < r.fhSeqNo
  | _ => True

instance (w : World) : ∀ a, Decidable (OneSession w a)
  | .register tbl sessionId nextSeq _ _ =>
      inferInstanceAs (Decidable (∀ m ∈ w.tp,
        ((m.tables tbl).sessionId = none ∨ (m.tables tbl).sessionId = some sessionId) ∧
          ∀ l ∈ (m.tables tbl).last, l < nextSeq))
  | .row r => inferInstanceAs (Decidable (∀ m ∈ w.tp, ∀ l ∈ (m.tables r.table).last, l < r.fhSeqNo))
  | .event _ _ | .endOfDay _ _ | .exit _ | .crash | .start _ => inferInstanceAs (Decidable True)

/-- At a start, every row in a log older than today's was logged before the
session file was last written. -/
def FileCovers (w : World) : Step → Prop
  | .start today => (w.openLog today).older.length ≤ w.savedRows
  | _ => True

instance (w : World) : ∀ a, Decidable (FileCovers w a)
  | .start today => inferInstanceAs (Decidable ((w.openLog today).older.length ≤ w.savedRows))
  | .register _ _ _ _ _ | .row _ | .event _ _ | .endOfDay _ _ | .exit _ | .crash =>
      inferInstanceAs (Decidable True)

/-- The invariant of a run: memory and file are each what some of the rows say. -/
structure World.Sound (w : World) : Prop where
  running : ∀ m ∈ w.tp, Agrees m w.rows
  file : Agrees (Memory.load w.file) (w.rows.take w.savedRows)
  saved_le : w.savedRows ≤ w.rows.length

section Runs
variable {cfg : Table → TpConfig} {w : World} {m : Memory} {rows : List Logged}

theorem Agrees.load (h : Agrees m rows) : Agrees (Memory.load (some m.session)) rows :=
  ⟨h.last, h.lastId, h.gaps⟩

/-- A change to the tables that keeps every last number that was known. -/
theorem Agrees.setTable (h : Agrees m rows) {tbl : Table} {t : TpTable}
    (ht : ∀ x ∈ (m.tables tbl).last, t.last = some x) :
    Agrees { m with tables := Function.update m.tables tbl t } rows where
  last := by
    intro t' x hx
    have hlast := h.last t' x hx
    by_cases heq : t' = tbl
    · subst heq
      simpa using ht x hlast
    · simpa [Function.update_of_ne heq] using hlast
  lastId := h.lastId
  gaps := h.gaps

theorem Agrees.upd (h : Agrees m rows) {r : DataRow}
    (hr : ∀ l ∈ (m.tables r.table).last, l < r.fhSeqNo) :
    Agrees (m.upd r) (rows ++ [.data r]) := by
  have hchecked : ((m.tables r.table).checkSeq r.fhSeqNo).last = some r.fhSeqNo := by
    cases hl : (m.tables r.table).last with
    | none => simp [TpTable.checkSeq, hl]
    | some l => exact (TpTable.checkSeq_above hl (hr l hl)).1
  obtain ⟨htables, hid, hgaps, -⟩ := scanUpd_spec
    ({ m with
        tables := Function.update m.tables r.table ((m.tables r.table).checkSeq r.fhSeqNo) },
      fun _ => none) (.data r)
  constructor
  · intro t x hx
    have htables' : ((m.upd r).tables t) =
        Function.update m.tables r.table ((m.tables r.table).checkSeq r.fhSeqNo) t :=
      congrFun htables t
    rw [List.foldl_append, List.foldl_cons, List.foldl_nil] at hx
    rw [htables']
    by_cases ht : t = r.table
    · subst ht
      simp only [lastAt, if_true] at hx
      rw [Function.update_self, hchecked, hx]
    · rw [Function.update_of_ne ht]
      simp only [lastAt, if_neg (Ne.symm ht)] at hx
      exact h.last t x hx
  · intro t s
    rw [List.foldl_append, ← h.lastId t s]
    exact hid t s
  · intro key
    rw [List.foldl_append, ← h.gaps key]
    exact hgaps key

theorem Agrees.noteGap (h : Agrees m rows) (e : GapEvent) :
    Agrees (m.noteGap e) (rows ++ [.gap e]) := by
  obtain ⟨-, hid, hgaps, -⟩ := scanUpd_spec (m, fun _ => none) (.gap e)
  constructor
  · intro t x hx
    rw [List.foldl_append] at hx
    exact h.last t x hx
  · intro t s
    rw [List.foldl_append, ← h.lastId t s]
    exact hid t s
  · intro key
    rw [List.foldl_append, ← h.gaps key]
    exact hgaps key

theorem Agrees.keepOpen (h : Agrees m rows) :
    Agrees { m with gaps := Memory.keepOpen m.gaps } rows where
  last := h.last
  lastId := h.lastId
  gaps := by
    intro key
    rw [← h.gaps key]
    simp only [Memory.keepOpen]
    cases hg : m.gaps key with
    | none => rfl
    | some g => by_cases ho : g.isOpen <;> simp [Option.filter, ho]

theorem rows_openLog (w : World) (today : Nat) : (w.openLog today).rows = w.rows := by
  simp only [World.openLog, World.rows]
  split_ifs <;> simp

theorem rows_save (w : World) (m : Memory) (saved : Bool) : (w.save m saved).rows = w.rows := by
  simp only [World.save]
  split_ifs <;> rfl

theorem World.Sound.openLog (hw : w.Sound) (today : Nat) : (w.openLog today).Sound := by
  have hrows := rows_openLog w today
  have hsame : (w.openLog today).tp = w.tp ∧ (w.openLog today).file = w.file ∧
      (w.openLog today).savedRows = w.savedRows := by
    simp only [World.openLog]
    split_ifs <;> exact ⟨rfl, rfl, rfl⟩
  obtain ⟨htp, hfile, hsaved⟩ := hsame
  constructor
  · rw [hrows, htp]
    exact hw.running
  · rw [hrows, hfile, hsaved]
    exact hw.file
  · rw [hrows, hsaved]
    exact hw.saved_le

/-- A write of the session file, successful or not, of a memory that agrees. -/
theorem World.Sound.save {saved : Bool} (hw : w.Sound) (hm : Agrees m w.rows) :
    (w.save m saved).Sound := by
  cases saved
  · exact hw
  · refine ⟨hw.running, ?_, Nat.le_refl _⟩
    change Agrees (Memory.load (some m.session)) (w.rows.take w.rows.length)
    rw [List.take_length]
    exact hm.load

/-- TP went on, or was gone, and the log grew. -/
theorem World.Sound.grow (hw : w.Sound) {log : List Logged} {tp : Option Memory}
    (htp : ∀ m ∈ tp, Agrees m (w.rows ++ log)) :
    World.Sound { w with tp := tp, log := w.log ++ log } := by
  have hrows : World.rows { w with tp := tp, log := w.log ++ log } = w.rows ++ log := by
    simp [World.rows]
  constructor
  · rw [hrows]
    exact htp
  · rw [hrows, List.take_append_of_le_length hw.saved_le]
    exact hw.file
  · rw [hrows, List.length_append]
    exact Nat.le_trans hw.saved_le (Nat.le_add_right _ _)

theorem World.Sound.setTp (hw : w.Sound) {tp : Option Memory} (htp : ∀ m ∈ tp, Agrees m w.rows) :
    World.Sound { w with tp := tp } := by
  have hgrown : World.Sound { w with tp := tp, log := w.log ++ [] } :=
    hw.grow (by simpa using htp)
  simpa using hgrown

/-- A registration of the session TP knows, or of the first one, keeps the last number. -/
theorem registerSession_last {t : TpTable} {c : TpConfig} {sessionId nextSeq : Int} {width : Nat}
    (hid : t.sessionId = none ∨ t.sessionId = some sessionId) (hseq : ∀ l ∈ t.last, l < nextSeq) :
    ∀ x ∈ t.last, (TpTable.registerSession c t sessionId nextSeq width).2.last = some x := by
  intro x hx
  have hlt := hseq x hx
  obtain ⟨tp, hlast⟩ : ∃ last, t.last = last := ⟨_, rfl⟩
  simp only [TpTable.registerSession]
  split_ifs
  · exact hx
  · obtain hid | hid := hid
    · have hback : ¬nextSeq - 1 < x := by omega
      simp [TpTable.registrationKind, hid, Option.mem_def.mp hx, hback]
    · simp [TpTable.registrationKind, hid, Option.mem_def.mp hx]

theorem World.Sound.step (hw : w.Sound) (a : Step) (h1 : OneSession w a) (h2 : FileCovers w a) :
    (w.step cfg a).Sound := by
  cases a with
  | crash => exact hw.setTp (by simp)
  | register tbl sessionId nextSeq width saved =>
      simp only [World.step]
      split
      · exact hw
      · rename_i m hm
        obtain ⟨hid, hseq⟩ := h1 m hm
        have hkept : ∀ x ∈ (m.tables tbl).last,
            (TpTable.registerSession (cfg tbl) (m.tables tbl) sessionId nextSeq width).2.last =
              some x := registerSession_last hid hseq
        have hset := (hw.running m hm).setTable hkept
        rcases hreg : (m.tables tbl).registerSession (cfg tbl) sessionId nextSeq width with ⟨r, t⟩
        rw [hreg] at hset
        have hw' : World.Sound { w with tp := some { m with
            tables := Function.update m.tables tbl t } } :=
          hw.setTp (by rintro _ ⟨⟩; exact hset)
        cases r with
        | error e => exact hw'
        | ok reply => exact hw'.save hset
  | row r =>
      simp only [World.step]
      split
      · exact hw
      · rename_i m hm
        apply hw.grow
        rintro _ ⟨⟩
        exact (hw.running m hm).upd (h1 m hm)
  | event e saved =>
      simp only [World.step]
      split
      · exact hw
      · rename_i m hm
        have hnoted := (hw.running m hm).noteGap e
        have hw' : World.Sound { w with tp := some (m.noteGap e), log := w.log ++ [.gap e] } :=
          hw.grow (by rintro _ ⟨⟩; exact hnoted)
        apply hw'.save
        simpa [World.rows] using hnoted
  | endOfDay today saved =>
      simp only [World.step]
      split
      · exact hw
      · rename_i m hm
        split_ifs
        · have hm' : Agrees m (w.openLog today).rows := by
            rw [rows_openLog]
            exact hw.running m hm
          apply ((hw.openLog today).save hm').setTp
          rintro _ ⟨⟩
          rw [rows_save]
          exact hm'.keepOpen
        · exact hw
  | exit saved =>
      simp only [World.step]
      split
      · exact hw
      · rename_i m hm
        exact (hw.save (hw.running m hm)).setTp (by simp)
  | start today =>
      simp only [World.step]
      split_ifs
      · exact hw
      · have hopened := hw.openLog today
        have hcovers : (w.openLog today).older.length ≤ (w.openLog today).savedRows := by
          apply Nat.le_trans h2
          simp only [World.openLog]
          split_ifs <;> exact Nat.le_refl _
        generalize w.openLog today = w' at hopened hcovers
        apply hopened.setTp
        rintro _ ⟨⟩
        have hfile := hopened.file
        rw [World.rows, List.take_append, List.take_of_length_le hcovers] at hfile
        have hrebuilt := hfile.recoverFhSeq
          (w'.log.drop (w'.savedRows - w'.older.length))
        rwa [List.append_assoc, List.take_append_drop] at hrebuilt

end Runs

/-- TP's rebuilt state is what the logs say: in every run whose starts find a
session file that covers all older logs, TP's memory is, whenever it runs, what
scanning all logs in order gives. -/
theorem memory_is_logged (cfg : Table → TpConfig) (date : Nat) (as : List Step)
    (hrun : Admits (World.step cfg) (fun w a => OneSession w a ∧ FileCovers w a)
      { date := date } as) :
    let w := exec (World.step cfg) { date := date } as
    let scan := Memory.scanLog {} w.rows
    ∀ m ∈ w.tp,
      (∀ t x, scan.2 t = some x → (m.tables t).last = some x) ∧ m.lastId = scan.1.lastId ∧
        Memory.keepOpen m.gaps = Memory.keepOpen scan.1.gaps := by
  intro w scan m hm
  have hfirst : ({ date := date } : World).Sound :=
    ⟨by simp, ⟨by simp, fun _ _ => rfl, fun _ => rfl⟩, Nat.le_refl _⟩
  have hw : w.Sound :=
    hrun.invariant (P := World.Sound) (fun w a hw hg => hw.step a hg.1 hg.2) hfirst
  have hagrees := hw.running m hm
  obtain ⟨-, hid, hgaps, hlast⟩ := foldl_scanUpd ({}, fun _ => none) w.rows
  refine ⟨fun t x hx => hagrees.last t x ?_, ?_, ?_⟩
  · rw [← hx]
    exact (hlast t).symm
  · ext1 t
    ext1 s
    exact (hagrees.lastId t s).trans (hid t s).symm
  · ext1 key
    exact (hagrees.gaps key).trans (hgaps key).symm

def sampleTables (t : Table) : TpConfig := { tbl := reprStr t, fhWidth := 3 }

/-- A day with a trade, a gap and part of its backfill, a clean exit, and a start on
the next day. -/
def exitRun : List Step :=
  [.start 0, .register .tradeBinance 7 1 3 true,
    .row { table := .tradeBinance, fhSeqNo := 1, sym := "BTCUSDT", tradeId := 5 },
    .event ⟨⟨.tradeBinance, "BTCUSDT", 6⟩, ⟨8, .detected, 0, 0, "", 0⟩⟩ true,
    .row { table := .tradeBinance, fhSeqNo := 2, sym := "BTCUSDT", tradeId := 9 },
    .row { table := .tradeBinance, fhSeqNo := 3, sym := "BTCUSDT", tradeId := 6,
           exchEventTimeMs := none },
    .exit true, .start 1]

theorem memory_is_logged_sample :
    ∃ m ∈ (exec (World.step sampleTables) { date := 0 } exitRun).tp,
      m.lastId .tradeBinance "BTCUSDT" = some 9 ∧
        m.lastId = (Memory.scanLog {}
          (exec (World.step sampleTables) { date := 0 } exitRun).rows).1.lastId := by
  refine ⟨_, rfl, by decide, ?_⟩
  exact (memory_is_logged sampleTables 0 exitRun (by decide) _ rfl).2.1

/-- TP crashes after the first trade of the day, and starts again on the next day. -/
def crashRun : List Step :=
  [.start 0, .register .tradeBinance 7 1 3 true,
    .row { table := .tradeBinance, fhSeqNo := 1, sym := "BTCUSDT", tradeId := 5 },
    .crash, .start 1]

/-- The session file was written at the registration; the trade is in no log that
the start scans. -/
theorem rebuilt_without_older_log :
    ∃ m ∈ (exec (World.step sampleTables) { date := 0 } crashRun).tp,
      let scan := Memory.scanLog {} (exec (World.step sampleTables) { date := 0 } crashRun).rows
      scan.2 .tradeBinance = some 1 ∧ (m.tables .tradeBinance).last = some 0 ∧
        scan.1.lastId .tradeBinance "BTCUSDT" = some 5 ∧
        m.lastId .tradeBinance "BTCUSDT" = none :=
  ⟨_, rfl, by decide⟩

end TickToSignal.Tp
