import TickToSignal.Foundation.Neighbours
import TickToSignal.Publisher.World
import Mathlib.Data.List.Range
import Mathlib.Data.List.Nodup

/-!
# Exactly-once delivery to the log

`Consistent` ties the stores together: the file and TP's memory name the same
session, TP's last number for the running session is that session's last logged
row, and the rows in flight or still to be resent are all rows of the session
above a mark up to which every row is logged or known to be gone. Every step
keeps it, except a TP start that takes the last number of the log from another
session than the file's; `RestartAgrees` excludes exactly that.
-/

namespace TickToSignal.Publisher

open Foundation

variable {α : Type*}

/-- When TP starts, the last row of the day's log is of the session in the file. -/
def RestartAgrees (w : World α) : Step α → Prop
  | .tpStart => w.tp = none → ∀ e ∈ w.log.getLast?, w.fileId = some e.1
  | _ => True

instance (w : World α) (s : Step α) : Decidable (RestartAgrees w s) := by
  cases s <;> simp only [RestartAgrees] <;> infer_instance

/-- A row of the running session that is still on its way: in flight, waiting in a
resend, or waiting in the ring for the next connection. -/
def World.Pending (w : World α) (e : Int × Row α) : Prop :=
  ∃ h, w.handler = some h ∧ e.1 = h.sessionId ∧ lastLogged w.log e.1 < e.2.fhSeqNo ∧
    (w.linkUp = true → e.2 ∈ w.wire ++ h.conn.unsent)

/-- Every published row is in the log once, in order, unless a resend found it gone
from the ring, or it is still on its way, or its process ended before TP had it; and
the rows that were gone are counted as missed at the next row of their session. -/
structure ExactlyOnce (w : World α) : Prop where
  logged : ∀ e ∈ w.log, e ∈ w.published
  ordered : w.log.Pairwise fun e f => e.1 = f.1 → e.2.fhSeqNo < f.2.fhSeqNo
  accounted : ∀ e ∈ w.published, e ∈ w.log ∨ key e ∈ w.gone ∨ key e ∈ w.ended ∨ w.Pending e
  gone : ∀ e ∈ w.log, key e ∉ w.gone
  counted : ∀ h tp row rest, w.handler = some h → w.tp = some tp → w.wire = row :: rest →
    (tp.checkSeq row.fhSeqNo).missed =
        tp.missed + (row.fhSeqNo - lastLogged w.log h.sessionId - 1) ∧
      ∀ n, lastLogged w.log h.sessionId < n → n < row.fhSeqNo → (h.sessionId, n) ∈ w.gone

/-- Rows in publication order: sessions one after the other, numbers rising. -/
def Before (e f : Int × Row α) : Prop :=
  e.1 < f.1 ∨ e.1 = f.1 ∧ e.2.fhSeqNo < f.2.fhSeqNo

/-- The rows a session has published. -/
def World.rowsOf (w : World α) (session : Int) : List (Row α) :=
  (w.published.filter fun e => e.1 = session).map (·.2)

/-- Rows numbered from 1 without a hole. -/
def Numbered (rows : List (Row α)) : Prop :=
  rows.map (·.fhSeqNo) = (List.range rows.length).map fun (k : Nat) => (k : Int) + 1

/-- What is on its way to TP is all the session's rows above a mark; up to the mark
every row is logged or gone. -/
structure Flowing (w : World α) (h : TpPublisher α) (mark : Int) : Prop where
  above : lastLogged w.log h.sessionId ≤ mark
  below : mark ≤ h.fhSeqNo
  flow : w.wire ++ h.conn.unsent =
    (w.rowsOf h.sessionId).filter fun r => decide (mark < r.fhSeqNo)
  gone : ∀ n, lastLogged w.log h.sessionId < n → n ≤ mark → (h.sessionId, n) ∈ w.gone
  kept : ∀ n, mark < n → (h.sessionId, n) ∉ w.gone

/-- The running session and what TP knows of it. -/
structure Running (w : World α) (h : TpPublisher α) : Prop where
  session : h.sessionId = w.started
  numbered : Numbered (w.rowsOf h.sessionId)
  count : (w.rowsOf h.sessionId).length = h.fhSeqNo
  ring : h.ring.rows <:+ w.rowsOf h.sessionId
  ringFull : h.ring.rows = [] → w.rowsOf h.sessionId = []
  unknown : w.fileId ≠ some h.sessionId → h.conn = .connecting ∧ h.fhSeqNo = 0
  tpLast : w.fileId = some h.sessionId →
    ∀ tp ∈ w.tp, tp.last = some (lastLogged w.log h.sessionId)
  fileLast : w.fileId = some h.sessionId → ∀ f ∈ w.file,
    ∃ l, f.lastSeq = some l ∧ 0 ≤ l ∧ l ≤ lastLogged w.log h.sessionId
  settled : ∀ n, 1 ≤ n → n ≤ lastLogged w.log h.sessionId →
    (h.sessionId, n) ∈ w.log.map key ∨ (h.sessionId, n) ∈ w.gone
  goneOld : ∀ n, (h.sessionId, n) ∈ w.gone →
    n ≤ h.fhSeqNo ∧ ∀ r ∈ h.ring.rows, n < r.fhSeqNo
  linked : w.linkUp = true → w.fileId = some h.sessionId ∧ w.tp.isSome ∧
    (h.conn = .connected ∨ ∃ rest sent, h.conn = .resending rest sent) ∧
    ∃ mark, Flowing w h mark

/-- The invariant of a run. -/
structure Consistent (w : World α) : Prop where
  tpId : ∀ tp ∈ w.tp, tp.sessionId = w.fileId
  noSession : w.fileId = none →
    w.log = [] ∧ (∀ f ∈ w.file, f.lastSeq = none) ∧ ∀ tp ∈ w.tp, tp.last = none
  fileOld : ∀ id ∈ w.fileId, id ≤ w.started
  publishedOld : ∀ e ∈ w.published, e.1 ≤ w.started
  goneOld : ∀ k ∈ w.gone, k.1 ≤ w.started
  published : w.published.Pairwise Before
  log : w.log.Pairwise Before
  logged : ∀ e ∈ w.log, e ∈ w.published ∧ key e ∉ w.gone
  past : ∀ e ∈ w.published, (∀ h ∈ w.handler, e.1 ≠ h.sessionId) →
    e ∈ w.log ∨ key e ∈ w.gone ∨ key e ∈ w.ended
  down : w.linkUp = false → w.wire = []
  running : ∀ h ∈ w.handler, Running w h

section Numbering
variable {rows before rest : List (Row α)} {r : Row α} {n : Int}

theorem numbered_nil : Numbered ([] : List (Row α)) := rfl

theorem Numbered.snoc (h : Numbered rows) (data : α) :
    Numbered (rows ++ [{ fhSeqNo := (rows.length : Int) + 1, data := data }]) := by
  simp only [Numbered, List.map_append, List.length_append, List.length_singleton,
    List.range_succ] at h ⊢
  rw [h]
  rfl

theorem Numbered.fhSeqNo_getElem (h : Numbered rows) {i : Nat} (hi : i < rows.length) :
    rows[i].fhSeqNo = (i : Int) + 1 := by
  have hget := congrArg (fun l => l[i]?) h
  simpa [hi] using hget

theorem Numbered.bounds (h : Numbered rows) (hr : r ∈ rows) :
    1 ≤ r.fhSeqNo ∧ r.fhSeqNo ≤ rows.length := by
  obtain ⟨i, hi, rfl⟩ := List.getElem_of_mem hr
  rw [h.fhSeqNo_getElem hi]
  omega

theorem Numbered.exists_of_bounds (h : Numbered rows) (hpos : 1 ≤ n) (hn : n ≤ rows.length) :
    ∃ r ∈ rows, r.fhSeqNo = n := by
  obtain ⟨i, rfl⟩ : ∃ i : Nat, n = (i : Int) + 1 := ⟨(n - 1).toNat, by omega⟩
  have hi : i < rows.length := by omega
  exact ⟨rows[i], List.getElem_mem hi, h.fhSeqNo_getElem hi⟩

theorem Numbered.pairwise (h : Numbered rows) :
    rows.Pairwise fun r s => r.fhSeqNo < s.fhSeqNo := by
  rw [List.pairwise_iff_getElem]
  intro i j hi hj hij
  rw [h.fhSeqNo_getElem hi, h.fhSeqNo_getElem hj]
  omega

/-- The rows after the first ones are those with a number above their count. -/
theorem Numbered.filter_above (h : Numbered (before ++ rest)) :
    (before ++ rest).filter (fun r => decide ((before.length : Int) < r.fhSeqNo)) = rest := by
  have hget : ∀ r ∈ rest, (before.length : Int) < r.fhSeqNo := by
    intro r hr
    obtain ⟨i, hi, rfl⟩ := List.getElem_of_mem hr
    have hi' : before.length + i < (before ++ rest).length := by
      rw [List.length_append]
      omega
    have hnum := h.fhSeqNo_getElem hi'
    rw [List.getElem_append_right (by omega)] at hnum
    simp only [Nat.add_sub_cancel_left] at hnum
    rw [hnum]
    omega
  have hbefore : ∀ r ∈ before, ¬ (before.length : Int) < r.fhSeqNo := by
    intro r hr
    obtain ⟨i, hi, rfl⟩ := List.getElem_of_mem hr
    have hnum := h.fhSeqNo_getElem (i := i) (by rw [List.length_append]; omega)
    rw [List.getElem_append_left hi] at hnum
    rw [hnum]
    omega
  rw [List.filter_append, List.filter_eq_nil_iff.mpr (by simpa using hbefore),
    List.filter_eq_self.mpr (by simpa using hget), List.nil_append]

end Numbering

section Log
variable {log : List (Int × Row α)} {e f : Int × Row α} {s : Int}

theorem nodup_map_key (h : log.Pairwise Before) : (log.map key).Nodup := by
  rw [List.Nodup, List.pairwise_map]
  apply h.imp
  intro x y hxy hkey
  simp only [key, Prod.mk.injEq] at hkey
  rcases hxy with hxy | ⟨-, hxy⟩ <;> omega

/-- Two published rows with one key are one row. -/
theorem eq_of_key_eq (h : log.Pairwise Before) (he : e ∈ log) (hf : f ∈ log)
    (hkey : key e = key f) : e = f :=
  List.inj_on_of_nodup_map (nodup_map_key h) he hf hkey

theorem lastLogged_append (log : List (Int × Row α)) (s t : Int) (row : Row α) :
    lastLogged (log ++ [(s, row)]) t = if s = t then row.fhSeqNo else lastLogged log t := by
  simp only [lastLogged, List.filter_append]
  split_ifs with hst <;> simp [hst]

/-- A session's last logged number is that of one of its rows, or 0. -/
theorem lastLogged_mem (log : List (Int × Row α)) (s : Int) :
    lastLogged log s = 0 ∨ ∃ e ∈ log, e.1 = s ∧ e.2.fhSeqNo = lastLogged log s := by
  cases hlast : (log.filter fun e => e.1 = s).getLast? with
  | none => exact Or.inl (by simp [lastLogged, hlast])
  | some e =>
      have he := List.mem_filter.mp (List.mem_of_getLast? hlast)
      exact Or.inr ⟨e, he.1, by simpa using he.2, by simp [lastLogged, hlast]⟩

theorem lastLogged_of_getLast (h : log.getLast? = some e) :
    lastLogged log e.1 = e.2.fhSeqNo := by
  obtain ⟨before, rfl⟩ := List.getLast?_eq_some_iff.mp h
  simp [lastLogged]

/-- In a log in publication order no row of the session is above its last one. -/
theorem fhSeqNo_le_lastLogged (h : log.Pairwise Before) (he : e ∈ log) :
    e.2.fhSeqNo ≤ lastLogged log e.1 := by
  have hmem : e ∈ log.filter fun f => f.1 = e.1 := List.mem_filter.mpr ⟨he, by simp⟩
  cases hlast : (log.filter fun f => f.1 = e.1).getLast? with
  | none => simp [List.getLast?_eq_none_iff.mp hlast] at hmem
  | some f =>
      have hf : f.1 = e.1 := by
        simpa using (List.mem_filter.mp (List.mem_of_getLast? hlast)).2
      have hle : e.2.fhSeqNo ≤ f.2.fhSeqNo := by
        rcases eq_or_rel_getLast (h.filter _) hlast hmem with rfl | hbefore
        · exact Int.le_refl _
        · rcases hbefore with hlt | ⟨-, hlt⟩ <;> omega
      simpa [lastLogged, hlast] using hle

end Log

section Steps
variable {w : World α} {h : TpPublisher α} {tp : TpTable}

theorem mem_rowsOf {e : Int × Row α} (he : e ∈ w.published) : e.2 ∈ w.rowsOf e.1 :=
  List.mem_map.mpr ⟨e, List.mem_filter.mpr ⟨he, by simp⟩, rfl⟩

theorem exists_of_mem_rowsOf {s : Int} {r : Row α} (hr : r ∈ w.rowsOf s) :
    (s, r) ∈ w.published := by
  obtain ⟨⟨s', r'⟩, he, rfl⟩ := List.mem_map.mp hr
  obtain ⟨hmem, hs⟩ := List.mem_filter.mp he
  have hs' : s' = s := by simpa using hs
  exact hs' ▸ hmem

/-- The last logged number of the running session is between 0 and its last row. -/
theorem Consistent.lastLogged_bounds (hc : Consistent w) (hr : Running w h) :
    0 ≤ lastLogged w.log h.sessionId ∧ lastLogged w.log h.sessionId ≤ h.fhSeqNo := by
  rcases lastLogged_mem w.log h.sessionId with hzero | ⟨e, he, hs, hseq⟩
  · have hcount := hr.count
    omega
  · have hmem := mem_rowsOf (hc.logged e he).1
    rw [hs] at hmem
    have hbounds := hr.numbered.bounds hmem
    rw [hr.count] at hbounds
    omega

theorem consistent_init : Consistent ({} : World α) := by
  constructor <;> simp [World.fileId]

/-- TP's counters are not part of the invariant. -/
theorem Consistent.setTp {tp' : TpTable} (hc : Consistent w) (htp : w.tp = some tp)
    (hid : tp'.sessionId = tp.sessionId) (hlast : tp'.last = tp.last) :
    Consistent { w with tp := some tp' } := by
  refine { hc with tpId := ?_, noSession := ?_, running := ?_ }
  · rintro _ ⟨⟩
    exact hid.trans (hc.tpId tp htp)
  · intro hnone
    obtain ⟨hlog, hfile, htps⟩ := hc.noSession hnone
    refine ⟨hlog, hfile, ?_⟩
    rintro _ ⟨⟩
    exact hlast.trans (htps tp htp)
  · intro h hh
    have hr := hc.running h hh
    refine { hr with tpLast := ?_, linked := ?_ }
    · rintro hknown _ ⟨⟩
      exact hlast.trans (hr.tpLast hknown tp htp)
    · intro hup
      obtain ⟨hfile, -, hconn, mark, hflow⟩ := hr.linked hup
      exact ⟨hfile, rfl, hconn, mark, { hflow with }⟩

theorem Consistent.tpStart (hc : Consistent w) (hguard : RestartAgrees w (.tpStart : Step α)) :
    Consistent w.tpStart := by
  unfold World.tpStart
  cases htp : w.tp with
  | some tp => exact hc
  | none =>
      have hagree := hguard htp
      refine { hc with tpId := ?_, noSession := ?_, running := ?_ }
      · rintro _ ⟨⟩
        cases hfile : w.file <;>
          simp [TpTable.recoverFhSeq, TpTable.sessionLoad, World.fileId]
      · intro hnone
        obtain ⟨hlog, hfile, -⟩ := hc.noSession hnone
        refine ⟨hlog, hfile, ?_⟩
        rintro _ ⟨⟩
        cases hf : w.file with
        | none => simp [TpTable.recoverFhSeq, TpTable.sessionLoad, hlog]
        | some f => simp [TpTable.recoverFhSeq, TpTable.sessionLoad, hlog, hfile f hf]
      · intro h hh
        have hr := hc.running h hh
        refine { hr with tpLast := ?_, linked := ?_ }
        · rintro hknown _ ⟨⟩
          cases hlast : w.log.getLast? with
          | some e =>
              have hs : h.sessionId = e.1 :=
                Option.some.inj (hknown.symm.trans (hagree e hlast))
              rw [hs, lastLogged_of_getLast hlast]
              simp [TpTable.recoverFhSeq]
          | none =>
              have hlog : w.log = [] := List.getLast?_eq_none_iff.mp hlast
              obtain ⟨f, hf⟩ : ∃ f, w.file = some f := by
                cases hf : w.file with
                | none => simp [World.fileId, hf] at hknown
                | some f => exact ⟨f, rfl⟩
              obtain ⟨l, hl, hlow, hhigh⟩ := hr.fileLast hknown f hf
              simp only [hlog, lastLogged] at hhigh
              have hzero : l = 0 := by
                simp at hhigh
                omega
              simp [TpTable.recoverFhSeq, TpTable.sessionLoad, hf, hl, hzero, lastLogged, hlog]
        · intro hup
          have htp' := (hr.linked hup).2.1
          simp [htp] at htp'

/-- A dead connection: nothing is in flight. -/
theorem Consistent.connLost (hc : Consistent w) : Consistent w.connLost := by
  refine { hc with down := fun _ => rfl, running := ?_ }
  intro h hh
  exact { hc.running h hh with linked := by simp [World.connLost] }

theorem Consistent.tpCrash (hc : Consistent w) : Consistent w.tpCrash := by
  refine { hc with
    tpId := by simp [World.tpCrash], noSession := ?_, down := fun _ => rfl, running := ?_ }
  · intro hnone
    obtain ⟨hlog, hfile, -⟩ := hc.noSession hnone
    exact ⟨hlog, hfile, by simp [World.tpCrash]⟩
  · intro h hh
    exact { hc.running h hh with
      tpLast := by simp [World.tpCrash], linked := by simp [World.tpCrash] }

/-- Saving what TP holds in memory. -/
theorem Consistent.saveFile (hc : Consistent w) (htp : w.tp = some tp) :
    Consistent { w with file := some tp.sessionSave } := by
  have hid : tp.sessionId = w.fileId := hc.tpId tp htp
  have hsame : ({ w with file := some tp.sessionSave } : World α).fileId = w.fileId := hid
  refine { hc with tpId := ?_, noSession := ?_, fileOld := ?_, running := ?_ }
  · rw [hsame]
    exact hc.tpId
  · rw [hsame]
    intro hnone
    obtain ⟨hlog, -, htps⟩ := hc.noSession hnone
    refine ⟨hlog, ?_, htps⟩
    rintro _ ⟨⟩
    exact htps tp htp
  · rw [hsame]
    exact hc.fileOld
  · intro h hh
    have hr := hc.running h hh
    refine { hr with unknown := ?_, tpLast := ?_, fileLast := ?_, linked := ?_ }
    · rw [hsame]
      exact hr.unknown
    · rw [hsame]
      exact hr.tpLast
    · rw [hsame]
      rintro hknown _ ⟨⟩
      exact ⟨_, hr.tpLast hknown tp htp, (hc.lastLogged_bounds hr).1, Int.le_refl _⟩
    · rw [hsame]
      intro hup
      obtain ⟨hfile, htp', hconn, mark, hflow⟩ := hr.linked hup
      exact ⟨hfile, htp', hconn, mark, { hflow with }⟩

theorem Consistent.sessionSave (hc : Consistent w) : Consistent w.sessionSave := by
  cases htp : w.tp with
  | none => simpa only [World.sessionSave, htp] using hc
  | some tp => simpa only [World.sessionSave, htp] using hc.saveFile htp

theorem Consistent.handlerStart (cfg : PublisherConfig) (hc : Consistent w) (id : Int)
    (width : Nat) : Consistent (w.handlerStart cfg id width) := by
  unfold World.handlerStart
  split_ifs with hstart
  · obtain ⟨hnone, hlt⟩ := hstart
    have hh : w.handler = none := Option.isNone_iff_eq_none.mp hnone
    have hold : ∀ e ∈ w.published, e.1 ≠ id := by
      intro e he
      have hle := hc.publishedOld e he
      omega
    have hrows : w.rowsOf id = [] := by
      simp only [World.rowsOf, List.map_eq_nil_iff, List.filter_eq_nil_iff]
      intro e he
      simpa using hold e he
    have hlast : lastLogged w.log id = 0 := by
      rcases lastLogged_mem w.log id with hzero | ⟨e, he, hs, -⟩
      · exact hzero
      · exact absurd hs (hold e (hc.logged e he).1)
    have hfile : w.fileId ≠ some id := by
      intro hfile
      have hle := hc.fileOld id hfile
      omega
    refine { hc with
      fileOld := fun id' hid' => Int.le_trans (hc.fileOld id' hid') (Int.le_of_lt hlt)
      publishedOld := fun e he => Int.le_trans (hc.publishedOld e he) (Int.le_of_lt hlt)
      goneOld := fun k hk => Int.le_trans (hc.goneOld k hk) (Int.le_of_lt hlt)
      past := fun e he _ => hc.past e he (by simp [hh])
      down := fun _ => rfl
      running := ?_ }
    rintro h ⟨⟩
    constructor
    case session => rfl
    case numbered => exact hrows ▸ numbered_nil
    case count => exact congrArg (fun l : List (Row α) => (l.length : Int)) hrows
    case ring => exact List.nil_suffix
    case ringFull => exact fun _ => hrows
    case unknown => exact fun _ => ⟨rfl, rfl⟩
    case tpLast => exact fun hid => absurd hid hfile
    case fileLast => exact fun hid => absurd hid hfile
    case settled =>
      intro n hpos hn
      simp only [hlast] at hn
      omega
    case goneOld =>
      intro n hn
      have hle := hc.goneOld _ hn
      simp only at hle
      omega
    case linked => simp
  · exact hc

theorem Consistent.handlerExit (hc : Consistent w) : Consistent w.handlerExit := by
  unfold World.handlerExit
  cases hh : w.handler with
  | none => exact hc
  | some h =>
      refine { hc with past := ?_, down := fun _ => rfl, running := by simp }
      intro e he _
      by_cases hlive : e.1 = h.sessionId
      · by_cases hlog : key e ∈ w.log.map key
        · obtain ⟨f, hf, hkey⟩ := List.mem_map.mp hlog
          exact Or.inl (eq_of_key_eq hc.published (hc.logged f hf).1 he hkey ▸ hf)
        · by_cases hgone : key e ∈ w.gone
          · exact Or.inr (Or.inl hgone)
          · refine Or.inr (Or.inr (List.mem_append_right _ (List.mem_map_of_mem ?_)))
            exact List.mem_filter.mpr ⟨he, by simpa using ⟨hlive, by simpa using hlog, hgone⟩⟩
      · rcases hc.past e he (by simpa [hh] using hlive) with h₁ | h₂ | h₃
        · exact Or.inl h₁
        · exact Or.inr (Or.inl h₂)
        · exact Or.inr (Or.inr (List.mem_append_left _ h₃))

/-- Only the connection state of a registered publisher changes, and with it at most which
of the rows on their way are in flight already. -/
theorem Consistent.setConn (hc : Consistent w) (hh : w.handler = some h) {h' : TpPublisher α}
    {wire : List (Row α)} (hknown : w.fileId = some h.sessionId)
    (hid : h'.sessionId = h.sessionId) (hseq : h'.fhSeqNo = h.fhSeqNo) (hring : h'.ring = h.ring)
    (hdown : w.linkUp = false → wire = [])
    (hup : w.linkUp = true →
      (h'.conn = .connected ∨ ∃ rest sent, h'.conn = .resending rest sent) ∧
        wire ++ h'.conn.unsent = w.wire ++ h.conn.unsent) :
    Consistent { w with handler := some h', wire := wire } := by
  have hr := hc.running h hh
  refine { hc with past := ?_, down := hdown, running := ?_ }
  · intro e he hne
    apply hc.past e he
    rw [hh]
    rintro _ ⟨⟩
    exact hid ▸ hne h' rfl
  · rintro _ ⟨⟩
    obtain ⟨id, width, ring, seq, conn, c₁, c₂, c₃, c₄⟩ := h'
    obtain rfl : id = h.sessionId := hid
    obtain rfl : seq = h.fhSeqNo := hseq
    obtain rfl : ring = h.ring := hring
    refine { hr with unknown := fun hne => absurd hknown hne, linked := ?_ }
    intro hlink
    obtain ⟨hconn, hsame⟩ := hup hlink
    obtain ⟨-, htp, -, mark, hflow⟩ := hr.linked hlink
    exact ⟨hknown, htp, hconn, mark, { hflow with flow := hsame.trans hflow.flow }⟩

/-- A handler that is past its registration is the session TP has on file. -/
theorem Running.known (hr : Running w h) (hconn : h.conn ≠ .connecting) :
    w.fileId = some h.sessionId := by
  by_contra hne
  exact hconn (hr.unknown hne).1

/-- The rows a resend finds gone. -/
theorem mem_gone_iff {s reply m n s' : Int} :
    (s', n) ∈ (List.range m.toNat).map (fun (k : Nat) => (s, reply + 1 + k)) ↔
      s' = s ∧ reply < n ∧ n ≤ reply + m := by
  simp only [List.mem_map, List.mem_range, Prod.mk.injEq]
  constructor
  · rintro ⟨k, hk, rfl, rfl⟩
    omega
  · rintro ⟨rfl, hlow, hhigh⟩
    exact ⟨(n - reply - 1).toNat, by omega, rfl, by omega⟩

/-- The newest ring row is the newest row of the session. -/
theorem newestSeq_eq {ring : ResendRing α} {rows : List (Row α)} (hsuffix : ring.rows <:+ rows)
    (hnum : Numbered rows) (hne : ring.rows ≠ []) : ring.newestSeq = rows.length := by
  obtain ⟨before, rfl⟩ := hsuffix
  have hpos : 0 < ring.rows.length := List.length_pos_iff.mpr hne
  have hlast : (before ++ ring.rows).length - 1 < (before ++ ring.rows).length := by
    rw [List.length_append]
    omega
  have hseq := hnum.fhSeqNo_getElem hlast
  have hget : ring.rows.getLast? = some (before ++ ring.rows)[(before ++ ring.rows).length - 1] := by
    rw [← List.getLast?_append_of_ne_nil before hne, List.getLast?_eq_getElem?]
    exact List.getElem?_eq_getElem hlast
  simp only [ResendRing.newestSeq, hget, Option.map_some, Option.getD_some, hseq]
  rw [List.length_append]
  omega

/-- What `resend` decides for the running session: rows up to a mark are logged or found
gone, the rows above it are to be sent. -/
theorem Running.resend_spec (hr : Running w h) {reply : Int}
    (hlow : 0 ≤ lastLogged w.log h.sessionId) (hhigh : lastLogged w.log h.sessionId ≤ h.fhSeqNo)
    (hreply : reply = lastLogged w.log h.sessionId ∨ reply = -1 ∧ h.fhSeqNo = 0) :
    ∃ mark, lastLogged w.log h.sessionId ≤ mark ∧ mark ≤ h.fhSeqNo ∧
      (h.resend reply).2.conn.unsent =
        (w.rowsOf h.sessionId).filter (fun r => decide (mark < r.fhSeqNo)) ∧
      ((h.resend reply).2.conn = .connected ∨
        ∃ rest sent, (h.resend reply).2.conn = .resending rest sent) ∧
      (∀ n, reply < n ∧ n ≤ reply + (h.resend reply).1 ↔
        lastLogged w.log h.sessionId < n ∧ n ≤ mark) ∧
      (∀ n, lastLogged w.log h.sessionId < n → n ≤ mark → ∀ r ∈ h.ring.rows, n < r.fhSeqNo) ∧
      ∀ n, n ≤ h.fhSeqNo → (∀ r ∈ h.ring.rows, n < r.fhSeqNo) → n ≤ mark := by
  have hcount := hr.count
  by_cases hnothing : reply < 0 ∨ h.ring.rows = [] ∨ h.ring.newestSeq ≤ reply
  · -- TP has everything the session published
    have hall : lastLogged w.log h.sessionId = h.fhSeqNo := by
      rcases hreply with rfl | ⟨-, hzero⟩
      · by_cases hempty : h.ring.rows = []
        · have hrows := hr.ringFull hempty
          simp only [hrows, List.length_nil] at hcount
          omega
        · have hnewest := newestSeq_eq hr.ring hr.numbered hempty
          rcases hnothing with hneg | hempty' | hle
          · omega
          · exact absurd hempty' hempty
          · omega
      · omega
    refine ⟨h.fhSeqNo, hhigh, Int.le_refl _, ?_, ?_, ?_, ?_, fun n hn _ => hn⟩
    · have hnone : (w.rowsOf h.sessionId).filter (fun r => decide (h.fhSeqNo < r.fhSeqNo)) = [] := by
        rw [List.filter_eq_nil_iff]
        intro r hmem
        have hbounds := hr.numbered.bounds hmem
        simp only [decide_eq_true_eq]
        omega
      rw [hnone]
      simp [TpPublisher.resend, hnothing, Conn.unsent]
    · exact Or.inl (by simp [TpPublisher.resend, hnothing])
    · intro n
      simp only [TpPublisher.resend, hnothing, if_true]
      omega
    · intro n hn hle
      omega
  · obtain ⟨hpos, hne, hnewer⟩ : ¬ reply < 0 ∧ h.ring.rows ≠ [] ∧ ¬ h.ring.newestSeq ≤ reply := by
      simpa [not_or] using hnothing
    have hrep : reply = lastLogged w.log h.sessionId := by
      rcases hreply with hrep | ⟨hneg, -⟩
      · exact hrep
      · omega
    obtain ⟨before, hsplit⟩ := hr.ring
    have hnum : Numbered (before ++ h.ring.rows) := hsplit ▸ hr.numbered
    have hlength : (before.length : Int) + h.ring.rows.length = h.fhSeqNo := by
      rw [← hcount, ← hsplit, List.length_append]
      omega
    have habove : ∀ r ∈ h.ring.rows, (before.length : Int) < r.fhSeqNo := by
      intro r hmem
      rw [← hnum.filter_above] at hmem
      simpa using (List.mem_filter.mp hmem).2
    obtain ⟨oldest, tail, hrows⟩ := List.exists_cons_of_ne_nil hne
    have holdest : oldest.fhSeqNo = before.length + 1 := by
      have hget := hnum.fhSeqNo_getElem (i := before.length) (by rw [hrows]; simp)
      simpa [hrows] using hget
    have hmissing : h.ring.missingAfter reply =
        max (before.length : Int) (lastLogged w.log h.sessionId) -
          lastLogged w.log h.sessionId := by
      simp only [ResendRing.missingAfter, hrows, holdest, hrep]
      split_ifs <;> omega
    refine ⟨max before.length (lastLogged w.log h.sessionId), by omega, by omega, ?_, ?_, ?_, ?_, ?_⟩
    · have hafter : h.ring.after reply = (before ++ h.ring.rows).filter
          fun r => decide (max (before.length : Int) (lastLogged w.log h.sessionId) <
            r.fhSeqNo) := by
        rw [ResendRing.after]
        conv_lhs => rw [← hnum.filter_above, List.filter_filter]
        apply List.filter_congr
        intro r _
        rw [Bool.eq_iff_iff]
        simp only [Bool.and_eq_true, decide_eq_true_eq]
        omega
      rw [← hsplit, ← hafter]
      simp [TpPublisher.resend, hnothing, Conn.unsent]
    · exact Or.inr ⟨h.ring.after reply, 0, by simp [TpPublisher.resend, hnothing]⟩
    · intro n
      simp only [TpPublisher.resend, hnothing, if_false, hmissing]
      omega
    · intro n hn hle r hmem
      have hr' := habove r hmem
      omega
    · intro n _ hbelow
      have hlt := hbelow oldest (by simp [hrows])
      omega

/-- A registration that TP answered starts the resend: what is not in the ring any more
is gone, the rest is on its way. -/
theorem Consistent.startResend (hc : Consistent w) (hh : w.handler = some h)
    (hknown : w.fileId = some h.sessionId) (htp : w.tp.isSome) {reply : Int}
    (hreply : reply = lastLogged w.log h.sessionId ∨ reply = -1 ∧ h.fhSeqNo = 0) :
    Consistent { w with
      handler := some (h.resend reply).2, linkUp := true, wire := []
      gone := w.gone ++
        (List.range (h.resend reply).1.toNat).map
          fun (k : Nat) => (h.sessionId, reply + 1 + k) } := by
  have hr := hc.running h hh
  obtain ⟨hlow, hhigh⟩ := hc.lastLogged_bounds hr
  obtain ⟨mark, habove, hbelow, hunsent, hconn, hgone, hring, hkept⟩ :=
    hr.resend_spec hlow hhigh hreply
  have hfound : ∀ k : Int × Int, k ∈ (List.range (h.resend reply).1.toNat).map
      (fun (k : Nat) => (h.sessionId, reply + 1 + k)) ↔
        k.1 = h.sessionId ∧ lastLogged w.log h.sessionId < k.2 ∧ k.2 ≤ mark := by
    rintro ⟨s, n⟩
    rw [mem_gone_iff, ← hgone n]
  have hsame : (h.resend reply).2.sessionId = h.sessionId ∧
      (h.resend reply).2.fhSeqNo = h.fhSeqNo ∧ (h.resend reply).2.ring = h.ring := by
    simp only [TpPublisher.resend]
    split_ifs <;> exact ⟨rfl, rfl, rfl⟩
  generalize (h.resend reply).2 = h' at hunsent hconn hsame ⊢
  generalize (List.range (h.resend reply).1.toNat).map
    (fun (k : Nat) => (h.sessionId, reply + 1 + k)) = found at hfound ⊢
  obtain ⟨hid, hseq, hring'⟩ := hsame
  have hrows : ({ w with
      handler := some h', linkUp := true, wire := [], gone := w.gone ++ found } : World α).rowsOf
        h'.sessionId = w.rowsOf h.sessionId := by
    rw [hid]
    rfl
  refine { hc with goneOld := ?_, logged := ?_, past := ?_, down := by simp, running := ?_ }
  · intro k hk
    rcases List.mem_append.mp hk with hk | hk
    · exact hc.goneOld k hk
    · exact ((hfound k).mp hk).1 ▸ hr.session ▸ Int.le_refl _
  · intro e he
    obtain ⟨hpub, hnot⟩ := hc.logged e he
    refine ⟨hpub, ?_⟩
    rw [List.mem_append, not_or]
    refine ⟨hnot, fun hk => ?_⟩
    obtain ⟨hs, hlt, -⟩ := (hfound _).mp hk
    have hle := fhSeqNo_le_lastLogged hc.log he
    simp only [key] at hs hlt
    rw [hs] at hle
    omega
  · intro e he hne
    have hne' : ∀ h ∈ w.handler, e.1 ≠ h.sessionId := by
      rw [hh]
      rintro _ ⟨⟩
      exact hid ▸ hne h' rfl
    rcases hc.past e he hne' with h₁ | h₂ | h₃
    · exact Or.inl h₁
    · exact Or.inr (Or.inl (List.mem_append_left _ h₂))
    · exact Or.inr (Or.inr h₃)
  · rintro _ ⟨⟩
    constructor
    case session => exact hid.trans hr.session
    case numbered => exact hrows ▸ hr.numbered
    case count => rw [hrows, hseq]; exact hr.count
    case ring => rw [hrows, hring']; exact hr.ring
    case ringFull => rw [hrows, hring']; exact hr.ringFull
    case unknown => exact fun hne => absurd (hid ▸ hknown) hne
    case tpLast => rw [hid]; exact hr.tpLast
    case fileLast => rw [hid]; exact hr.fileLast
    case settled =>
      rw [hid]
      intro n hpos hn
      rcases hr.settled n hpos hn with h₁ | h₂
      · exact Or.inl h₁
      · exact Or.inr (List.mem_append_left _ h₂)
    case goneOld =>
      rw [hid, hseq, hring']
      intro n hn
      rcases List.mem_append.mp hn with hn | hn
      · exact hr.goneOld n hn
      · obtain ⟨-, hlt, hle⟩ := (hfound _).mp hn
        exact ⟨Int.le_trans hle hbelow, hring n hlt hle⟩
    case linked =>
      intro _
      refine ⟨hid ▸ hknown, htp, hconn, mark, ?_⟩
      constructor
      case above => rw [hid]; exact habove
      case below => rw [hseq]; exact hbelow
      case flow => rw [hrows]; exact hunsent
      case gone =>
        rw [hid]
        intro n hlt hle
        exact List.mem_append_right _ ((hfound _).mpr ⟨rfl, hlt, hle⟩)
      case kept =>
        rw [hid]
        intro n hlt hn
        rcases List.mem_append.mp hn with hn | hn
        · obtain ⟨hle, hrs⟩ := hr.goneOld n hn
          have hmark := hkept n hle hrs
          omega
        · have hle := ((hfound _).mp hn).2.2
          simp only at hle
          omega

/-- A session TP had nothing of: it starts over from the first row. -/
theorem Consistent.adopt (hc : Consistent w) (hh : w.handler = some h) {tp' : TpTable}
    (hunknown : w.fileId ≠ some h.sessionId) (hid : tp'.sessionId = some h.sessionId)
    (hlast : tp'.last = some 0) :
    Consistent { w with tp := some tp', file := some tp'.sessionSave } := by
  have hr := hc.running h hh
  obtain ⟨hconn, hzero⟩ := hr.unknown hunknown
  obtain ⟨hlow, hhigh⟩ := hc.lastLogged_bounds hr
  have hL : lastLogged w.log h.sessionId = 0 := by omega
  refine { hc with
    tpId := ?_, noSession := ?_, fileOld := ?_, running := ?_ }
  · rintro _ ⟨⟩
    rfl
  · intro hnone
    exact absurd (hid.symm.trans hnone) (by simp)
  · intro id hid'
    obtain rfl : h.sessionId = id := Option.some.inj (hid.symm.trans hid')
    exact hr.session ▸ Int.le_refl _
  · intro g hg
    obtain rfl : h = g := Option.some.inj (hh.symm.trans hg)
    refine { hr with unknown := ?_, tpLast := ?_, fileLast := ?_, linked := ?_ }
    · exact fun _ => ⟨hconn, hzero⟩
    · rintro - _ ⟨⟩
      exact hL ▸ hlast
    · rintro - _ ⟨⟩
      exact ⟨0, hlast, Int.le_refl _, hL ▸ Int.le_refl _⟩
    · intro hup
      exact absurd (hr.linked hup).1 hunknown

/-- What TP does with a registration, and what the handler is told. -/
theorem Consistent.registerSession (cfg : PublisherConfig) (hc : Consistent w)
    (hh : w.handler = some h) (htp : w.tp = some tp) (hwidth : h.width = cfg.tp.fhWidth) :
    ∃ reply tp', tp.registerSession cfg.tp h.sessionId (h.fhSeqNo + 1) h.width = (.ok reply, tp') ∧
      Consistent { w with tp := some tp', file := some tp'.sessionSave } ∧
      tp'.sessionId = some h.sessionId ∧
      (reply = lastLogged w.log h.sessionId ∨ reply = -1 ∧ h.fhSeqNo = 0) := by
  have hr := hc.running h hh
  have hid := hc.tpId tp htp
  rw [hwidth]
  by_cases hknown : w.fileId = some h.sessionId
  · have hlast := hr.tpLast hknown tp htp
    obtain ⟨tp', heq, hid', hlast'⟩ := TpTable.registerSession_known cfg.tp
      (h.fhSeqNo + 1) (hid.trans hknown) hlast
    have hset := hc.setTp htp (hid'.trans (hid.trans hknown).symm) (hlast'.trans hlast.symm)
    exact ⟨_, tp', heq, hset.saveFile rfl, hid', Or.inl rfl⟩
  · have hzero := (hr.unknown hknown).2
    obtain ⟨tp', heq, hid', hlast'⟩ := TpTable.registerSession_unknown cfg.tp
      (h.fhSeqNo + 1) (hid ▸ hknown)
      fun hnone => (hc.noSession (hid ▸ hnone)).2.2 tp htp
    refine ⟨_, tp', heq, hc.adopt hh hknown hid' ?_, hid', Or.inr ⟨rfl, hzero⟩⟩
    rw [hlast', hzero]
    rfl

theorem Consistent.register (cfg : PublisherConfig) (hc : Consistent w) (replyLost : Bool) :
    Consistent (w.register cfg replyLost) := by
  cases hh : w.handler with
  | none => simpa only [World.register, hh] using hc
  | some h =>
  cases htp : w.tp with
  | none => simpa only [World.register, hh, htp] using hc
  | some tp =>
  cases hconn : h.conn with
  | resending rest sent => simpa only [World.register, hh, htp, hconn] using hc
  | connected => simpa only [World.register, hh, htp, hconn] using hc
  | lost => simpa only [World.register, hh, htp, hconn] using hc
  | connecting =>
  by_cases hwidth : h.width = cfg.tp.fhWidth
  · obtain ⟨reply, tp', heq, hsaved, hid, hreply⟩ := hc.registerSession cfg hh htp hwidth
    have hresent := hsaved.startResend hh hid rfl hreply
    cases replyLost with
    | true => simpa only [World.register, hh, htp, hconn, heq, if_true] using hsaved
    | false =>
        simpa only [World.register, hh, htp, hconn, heq, Bool.false_eq_true, if_false]
          using hresent
  · have hrejected : Consistent { w with
        tp := some { tp with rejectedRegistrations := tp.rejectedRegistrations + 1 } } :=
      hc.setTp htp rfl rfl
    cases replyLost with
    | true =>
        simpa only [World.register, hh, htp, hconn, TpTable.registerSession, ne_eq, hwidth,
          not_false_eq_true, if_true] using hrejected
    | false =>
        have hexit := hrejected.handlerExit
        simpa [World.register, hh, htp, hconn, TpTable.registerSession, hwidth] using hexit

theorem Consistent.resendRow (hc : Consistent w) (accepted : Bool) :
    Consistent (w.resendRow accepted) := by
  cases hh : w.handler with
  | none => simpa only [World.resendRow, hh] using hc
  | some h =>
  have hr := hc.running h hh
  cases hconn : h.conn with
  | connecting => simpa only [World.resendRow, hh, hconn] using hc
  | connected => simpa only [World.resendRow, hh, hconn] using hc
  | lost => simpa only [World.resendRow, hh, hconn] using hc
  | resending rows sent =>
  cases rows with
  | nil => simpa only [World.resendRow, hh, hconn] using hc
  | cons row rest =>
      have hknown := hr.known (by simp [hconn])
      simp only [World.resendRow, hh, hconn]
      split_ifs with hsent hdone hup hup
      · refine hc.setConn hh hknown rfl rfl rfl (by simp [hup]) fun _ => ⟨Or.inl rfl, ?_⟩
        simp [hconn, hdone, Conn.unsent]
      · exact hc.setConn hh hknown rfl rfl rfl hc.down fun hlink => absurd hlink hup
      · refine hc.setConn hh hknown rfl rfl rfl (by simp [hup]) fun _ => ⟨Or.inr ⟨_, _, rfl⟩, ?_⟩
        simp [hconn, Conn.unsent]
      · exact hc.setConn hh hknown rfl rfl rfl hc.down fun hlink => absurd hlink hup
      · exact hc.setConn hh hknown rfl rfl rfl hc.down
          fun hlink => absurd (Or.inl hlink) hsent

theorem Consistent.eventFailed (hc : Consistent w) : Consistent w.eventFailed := by
  cases hh : w.handler with
  | none => simpa only [World.eventFailed, hh] using hc
  | some h =>
  cases hconn : h.conn with
  | connecting => simpa only [World.eventFailed, hh, hconn] using hc
  | resending rest sent => simpa only [World.eventFailed, hh, hconn] using hc
  | lost => simpa only [World.eventFailed, hh, hconn] using hc
  | connected =>
      have hknown := (hc.running h hh).known (by simp [hconn])
      simp only [World.eventFailed, hh, hconn]
      split_ifs with hup
      · exact hc
      · exact hc.setConn hh hknown rfl rfl rfl hc.down fun hlink => absurd hlink hup

/-- One more row of the running session. -/
theorem Consistent.publishRow (hc : Consistent w) (hh : w.handler = some h)
    (hknown : w.fileId = some h.sessionId) (data : α) {h' : TpPublisher α} {wire : List (Row α)}
    (hid : h'.sessionId = h.sessionId) (hseq : h'.fhSeqNo = h.fhSeqNo + 1)
    (hring : h'.ring = h.ring.push { fhSeqNo := h.fhSeqNo + 1, data := data })
    (hdown : w.linkUp = false → wire = [])
    (hup : w.linkUp = true → h'.conn = .connected ∧ h.conn.unsent = [] ∧
      wire = w.wire ++ [{ fhSeqNo := h.fhSeqNo + 1, data := data }]) :
    Consistent { w with
      handler := some h', wire := wire
      published := w.published ++
        [(h.sessionId, { fhSeqNo := h.fhSeqNo + 1, data := data })] } := by
  have hr := hc.running h hh
  have hrows : ∀ w' : World α, w'.published = w.published ++
      [(h.sessionId, { fhSeqNo := h.fhSeqNo + 1, data := data })] →
      w'.rowsOf h.sessionId =
        w.rowsOf h.sessionId ++ [{ fhSeqNo := h.fhSeqNo + 1, data := data }] := by
    intro w' hw'
    simp [World.rowsOf, hw', List.filter_append]
  refine { hc with
    publishedOld := ?_, published := ?_, logged := ?_, past := ?_, down := hdown, running := ?_ }
  · intro e he
    rcases List.mem_append.mp he with he | he
    · exact hc.publishedOld e he
    · rw [List.mem_singleton.mp he]
      exact hr.session ▸ Int.le_refl _
  · apply List.pairwise_append.mpr
    refine ⟨hc.published, List.pairwise_singleton _ _, ?_⟩
    intro e he f hf
    rw [List.mem_singleton.mp hf]
    have hle := hc.publishedOld e he
    rw [← hr.session] at hle
    rcases Int.lt_or_eq_of_le hle with hlt | heq
    · exact Or.inl hlt
    · have hbounds := hr.numbered.bounds (heq ▸ mem_rowsOf he)
      rw [hr.count] at hbounds
      refine Or.inr ⟨heq, ?_⟩
      simp only
      omega
  · intro e he
    exact ⟨List.mem_append_left _ (hc.logged e he).1, (hc.logged e he).2⟩
  · intro e he hne
    rcases List.mem_append.mp he with he | he
    · apply hc.past e he
      rw [hh]
      rintro _ ⟨⟩
      exact hid ▸ hne h' rfl
    · rw [List.mem_singleton.mp he] at hne
      exact absurd hid.symm (hne h' rfl)
  · rintro _ ⟨⟩
    obtain ⟨id, width, ring, seq, conn, c₁, c₂, c₃, c₄⟩ := h'
    obtain rfl : id = h.sessionId := hid
    obtain rfl : seq = h.fhSeqNo + 1 := hseq
    obtain rfl : ring = h.ring.push { fhSeqNo := h.fhSeqNo + 1, data := data } := hring
    refine { hr with
      numbered := ?_, count := ?_, ring := ?_, ringFull := ?_
      unknown := fun hne => absurd hknown hne, goneOld := ?_, linked := ?_ }
    · rw [hrows _ rfl, ← hr.count]
      exact hr.numbered.snoc data
    · rw [hrows _ rfl, ← hr.count, List.length_append]
      rfl
    · rw [hrows _ rfl]
      exact ResendRing.push_suffix hr.ring _
    · exact fun hempty => absurd hempty (ResendRing.push_ne_nil _ _)
    · intro n hn
      obtain ⟨hle, hrs⟩ := hr.goneOld n hn
      refine ⟨by simp only; omega, fun r hmem => ?_⟩
      rcases ResendRing.mem_push hmem with hmem | rfl
      · exact hrs r hmem
      · simp only
        omega
    · intro hlink
      obtain ⟨hconn, hsent, rfl⟩ := hup hlink
      obtain ⟨-, htp, -, mark, hflow⟩ := hr.linked hlink
      refine ⟨hknown, htp, Or.inl hconn, mark, { hflow with below := ?_, flow := ?_ }⟩
      · have hbelow := hflow.below
        simp only
        omega
      · have hflow' := hflow.flow
        have hbelow := hflow.below
        have hnew : mark < h.fhSeqNo + 1 := by omega
        simp only [hsent, List.append_nil] at hflow'
        rw [hrows _ rfl, List.filter_append, ← hflow']
        obtain rfl : conn = .connected := hconn
        simp [hnew, Conn.unsent]

theorem Consistent.publish (hc : Consistent w) (data : α) (accepted : Bool) :
    Consistent (w.publish data accepted) := by
  cases hh : w.handler with
  | none => simpa only [World.publish, hh] using hc
  | some h =>
  cases hconn : h.conn with
  | connecting => simpa only [World.publish, hh, hconn] using hc
  | resending rest sent => simpa only [World.publish, hh, hconn] using hc
  | connected =>
      have hknown := (hc.running h hh).known (by simp [hconn])
      simp only [World.publish, hh, hconn]
      split_ifs with hup
      · exact hc.publishRow hh hknown data rfl rfl rfl (by simp [hup])
          fun _ => ⟨rfl, by simp [hconn, Conn.unsent], rfl⟩
      · exact hc.publishRow hh hknown data rfl rfl rfl hc.down fun hlink => absurd hlink hup
      · exact hc.publishRow hh hknown data rfl rfl rfl hc.down fun hlink => absurd hlink hup
  | lost =>
      have hr := hc.running h hh
      simp only [World.publish, hh, hconn]
      refine hc.publishRow hh (hr.known (by simp [hconn])) data rfl rfl rfl hc.down ?_
      intro hlink
      rcases (hr.linked hlink).2.2.1 with hc' | ⟨rest, sent, hc'⟩ <;> simp [hconn] at hc'

/-- The next row in flight is the first one above the mark. -/
theorem Flowing.head_eq {mark : Int} {row : Row α} {rest : List (Row α)} (hr : Running w h)
    (hflow : Flowing w h mark) (hlow : 0 ≤ lastLogged w.log h.sessionId)
    (hwire : w.wire = row :: rest) :
    row ∈ w.rowsOf h.sessionId ∧ row.fhSeqNo = mark + 1 ∧
      rest ++ h.conn.unsent =
        (w.rowsOf h.sessionId).filter fun r => decide (row.fhSeqNo < r.fhSeqNo) := by
  have hfilter := hflow.flow
  rw [hwire, List.cons_append] at hfilter
  have hsorted := hr.numbered.pairwise.filter fun r => decide (mark < r.fhSeqNo)
  rw [← hfilter, List.pairwise_cons] at hsorted
  have hmem : row ∈ (w.rowsOf h.sessionId).filter fun r => decide (mark < r.fhSeqNo) :=
    hfilter ▸ List.mem_cons_self
  obtain ⟨hrow, hmark⟩ := List.mem_filter.mp hmem
  have hbounds := hr.numbered.bounds hrow
  have habove := hflow.above
  simp only [decide_eq_true_eq] at hmark
  have hseq : row.fhSeqNo = mark + 1 := by
    obtain ⟨r, hr', hrseq⟩ :=
      hr.numbered.exists_of_bounds (n := mark + 1) (by omega) (by omega)
    have hin : r ∈ row :: (rest ++ h.conn.unsent) :=
      hfilter ▸ List.mem_filter.mpr ⟨hr', by simp only [hrseq, decide_eq_true_eq]; omega⟩
    rcases List.mem_cons.mp hin with rfl | hin
    · exact hrseq
    · have hlt := hsorted.1 r hin
      omega
  refine ⟨hrow, hseq, ?_⟩
  have hrefilter : (w.rowsOf h.sessionId).filter (fun r => decide (row.fhSeqNo < r.fhSeqNo)) =
      (row :: (rest ++ h.conn.unsent)).filter fun r => decide (row.fhSeqNo < r.fhSeqNo) := by
    rw [hfilter, List.filter_filter]
    apply List.filter_congr
    intro r _
    rw [Bool.eq_iff_iff]
    simp only [Bool.and_eq_true, decide_eq_true_eq]
    omega
  rw [hrefilter, List.filter_cons_of_neg (by simp)]
  exact (List.filter_eq_self.mpr fun r hin => by simpa using hsorted.1 r hin).symm

/-- TP takes the next row: it counts what was gone, and logs it. -/
theorem Consistent.tpProcess (hc : Consistent w) : Consistent w.tpProcess := by
  cases hh : w.handler with
  | none => simpa only [World.tpProcess, hh] using hc
  | some h =>
  cases htp : w.tp with
  | none => simpa only [World.tpProcess, hh, htp] using hc
  | some tp =>
  cases hwire : w.wire with
  | nil => simpa only [World.tpProcess, hh, htp, hwire] using hc
  | cons row rest =>
  have hr := hc.running h hh
  have hlink : w.linkUp = true := by
    by_contra hdown
    simp [hc.down (by simpa using hdown)] at hwire
  obtain ⟨hknown, -, hconn, mark, hflow⟩ := hr.linked hlink
  obtain ⟨hlow, hhigh⟩ := hc.lastLogged_bounds hr
  obtain ⟨hrow, hseq, hrest⟩ := hflow.head_eq hr hlow hwire
  have hmark := hflow.above
  have hlast' : lastLogged (w.log ++ [(h.sessionId, row)]) h.sessionId = row.fhSeqNo := by
    simp [lastLogged_append]
  obtain ⟨hlast, -⟩ := TpTable.checkSeq_above (hr.tpLast hknown tp htp)
    (show lastLogged w.log h.sessionId < row.fhSeqNo by omega)
  simp only [World.tpProcess, hh, htp, hwire]
  refine { hc with
    tpId := ?_, noSession := ?_, log := ?_, logged := ?_, past := ?_
    down := fun hdown => absurd (hlink.symm.trans hdown) (by simp), running := ?_ }
  · rintro _ ⟨⟩
    rw [TpTable.checkSeq_sessionId]
    exact hc.tpId tp htp
  · exact fun hnone => absurd (hknown.symm.trans hnone) (by simp)
  · apply List.pairwise_append.mpr
    refine ⟨hc.log, List.pairwise_singleton _ _, ?_⟩
    intro e he f hf
    rw [List.mem_singleton.mp hf]
    have hle := hc.publishedOld e (hc.logged e he).1
    rw [← hr.session] at hle
    rcases Int.lt_or_eq_of_le hle with hlt | heq
    · exact Or.inl hlt
    · have hle' := fhSeqNo_le_lastLogged hc.log he
      rw [heq] at hle'
      refine Or.inr ⟨heq, ?_⟩
      simp only
      omega
  · intro e he
    rcases List.mem_append.mp he with he | he
    · exact hc.logged e he
    · rw [List.mem_singleton.mp he]
      exact ⟨exists_of_mem_rowsOf hrow, hflow.kept row.fhSeqNo (by omega)⟩
  · intro e he hne
    rcases hc.past e he (by rw [hh]; exact hne) with h₁ | h₂ | h₃
    · exact Or.inl (List.mem_append_left _ h₁)
    · exact Or.inr (Or.inl h₂)
    · exact Or.inr (Or.inr h₃)
  · intro g hg
    obtain rfl : h = g := Option.some.inj hg
    refine { hr with tpLast := ?_, fileLast := ?_, settled := ?_, linked := ?_ }
    · rintro - _ ⟨⟩
      rw [hlast']
      exact hlast
    · rintro - f hf
      obtain ⟨l, hl, hpos, hle⟩ := hr.fileLast hknown f hf
      refine ⟨l, hl, hpos, ?_⟩
      rw [hlast']
      omega
    · rw [hlast']
      intro n hpos hn
      by_cases hold : n ≤ lastLogged w.log h.sessionId
      · rcases hr.settled n hpos hold with h₁ | h₂
        · exact Or.inl (by simpa using Or.inl (by simpa using h₁))
        · exact Or.inr h₂
      · by_cases hnew : n = row.fhSeqNo
        · exact Or.inl (List.mem_map.mpr ⟨(h.sessionId, row), by simp, by rw [hnew]; rfl⟩)
        · exact Or.inr (hflow.gone n (by omega) (by omega))
    · intro _
      have hbounds := hr.numbered.bounds hrow
      rw [hr.count] at hbounds
      refine ⟨hknown, rfl, hconn, row.fhSeqNo, ?_⟩
      constructor
      case above => exact Int.le_of_eq hlast'
      case below => exact hbounds.2
      case flow => exact hrest
      case gone =>
        rw [hlast']
        intro n hlt hle
        omega
      case kept =>
        intro n hlt
        exact hflow.kept n (by omega)

/-- Every step whose TP start agrees keeps the invariant. -/
theorem Consistent.step (cfg : PublisherConfig) (hc : Consistent w) (s : Step α)
    (hguard : RestartAgrees w s) : Consistent (w.step cfg s) := by
  cases s with
  | tpStart => exact hc.tpStart hguard
  | tpCrash => exact hc.tpCrash
  | sessionSave => exact hc.sessionSave
  | handlerStart sessionId width => exact hc.handlerStart cfg sessionId width
  | handlerExit => exact hc.handlerExit
  | register replyLost => exact hc.register cfg replyLost
  | resendRow accepted => exact hc.resendRow accepted
  | publish data accepted => exact hc.publish data accepted
  | eventFailed => exact hc.eventFailed
  | connLost => exact hc.connLost
  | tpProcess => exact hc.tpProcess

/-- What the invariant says about the rows. -/
theorem Consistent.exactlyOnce (hc : Consistent w) : ExactlyOnce w := by
  constructor
  case logged => exact fun e he => (hc.logged e he).1
  case gone => exact fun e he => (hc.logged e he).2
  case ordered =>
    apply hc.log.imp
    rintro e f (hlt | ⟨-, hlt⟩) hs
    · omega
    · exact hlt
  case accounted =>
    intro e he
    by_cases hlive : ∀ h ∈ w.handler, e.1 ≠ h.sessionId
    · rcases hc.past e he hlive with h₁ | h₂ | h₃
      · exact Or.inl h₁
      · exact Or.inr (Or.inl h₂)
      · exact Or.inr (Or.inr (Or.inl h₃))
    · obtain ⟨h, hh, hs⟩ : ∃ h, w.handler = some h ∧ e.1 = h.sessionId := by
        simpa using hlive
      have hr := hc.running h hh
      have hrow := hs ▸ mem_rowsOf he
      have hbounds := hr.numbered.bounds hrow
      by_cases hold : e.2.fhSeqNo ≤ lastLogged w.log h.sessionId
      · rcases hr.settled _ hbounds.1 hold with h₁ | h₂
        · obtain ⟨f, hf, hkey⟩ := List.mem_map.mp h₁
          have hsame : f = e :=
            eq_of_key_eq hc.published (hc.logged f hf).1 he (hkey.trans (by rw [← hs]; rfl))
          exact Or.inl (hsame ▸ hf)
        · exact Or.inr (Or.inl (by rw [key, hs]; exact h₂))
      · by_cases hgone : key e ∈ w.gone
        · exact Or.inr (Or.inl hgone)
        · refine Or.inr (Or.inr (Or.inr ⟨h, hh, hs, by rw [hs]; omega, ?_⟩))
          intro hlink
          obtain ⟨-, -, -, mark, hflow⟩ := hr.linked hlink
          rw [hflow.flow]
          refine List.mem_filter.mpr ⟨hrow, ?_⟩
          by_contra hmark
          apply hgone
          rw [key, hs]
          exact hflow.gone _ (by omega) (by simpa using hmark)
  case counted =>
    intro h tp row rest hh htp hwire
    have hr := hc.running h hh
    have hlink : w.linkUp = true := by
      by_contra hdown
      simp [hc.down (by simpa using hdown)] at hwire
    obtain ⟨hknown, -, -, mark, hflow⟩ := hr.linked hlink
    obtain ⟨-, hseq, -⟩ := hflow.head_eq hr (hc.lastLogged_bounds hr).1 hwire
    have hmark := hflow.above
    refine ⟨(TpTable.checkSeq_above (hr.tpLast hknown tp htp) (by omega)).2, fun n hlt hn => ?_⟩
    exact hflow.gone n hlt (by omega)

end Steps

/-- Exactly-once delivery, in every run in which each TP start finds the last row of the
day's log to be of the session in the session file. -/
theorem delivered_exactly_once (cfg : PublisherConfig) (steps : List (Step α))
    (hrun : Admits (World.step cfg) RestartAgrees {} steps) :
    ExactlyOnce (exec (World.step cfg) {} steps) :=
  (hrun.invariant (fun _ s hc hguard => hc.step cfg s hguard) consistent_init).exactlyOnce

/-- A configuration for runs on fixed inputs. -/
def sampleConfig : PublisherConfig :=
  { tp := { tbl := "trade_binance", fhWidth := 3 }, ringSize := 2 }

/-- A connection lost with a row in flight, a TP crash, and a resend that finds one row gone. -/
def sampleSteps : List (Step Unit) :=
  [.tpStart, .handlerStart 1 3, .register false, .publish () true, .tpProcess,
    .publish () true, .connLost, .publish () true, .tpCrash, .tpStart, .publish () false,
    .register false, .resendRow true, .resendRow true, .tpProcess, .tpProcess]

theorem delivered_exactly_once_sample :
    let w := exec (World.step sampleConfig) {} sampleSteps
    w.log.map key = [(1, 1), (1, 3), (1, 4)] ∧ w.gone = [(1, 2)] ∧ ExactlyOnce w :=
  ⟨by decide, by decide, delivered_exactly_once sampleConfig sampleSteps (by decide)⟩

/-- Session 2 registers and has its first row in flight when TP crashes; TP restarts with
the last number of session 1, whose rows end the log. -/
def crossedSteps : List (Step Unit) :=
  [.tpStart, .handlerStart 1 3, .register false, .publish () true, .tpProcess,
    .publish () true, .tpProcess, .handlerExit, .handlerStart 2 3, .register false,
    .publish () true, .tpCrash, .tpStart, .publish () false, .register false]

/-- The two rows of session 2 are then neither logged nor known gone nor on their way. -/
theorem crossed_not_exactly_once :
    ¬ ExactlyOnce (exec (World.step sampleConfig) {} crossedSteps) := by
  intro h
  rcases h.accounted (2, { fhSeqNo := 1, data := () }) (by decide) with h₁ | h₂ | h₃ | h₄
  · exact absurd h₁ (by decide)
  · exact absurd h₂ (by decide)
  · exact absurd h₃ (by decide)
  · obtain ⟨p, hp, -, -, hsent⟩ := h₄
    have hidle : (exec (World.step sampleConfig) {} crossedSteps).handler.map
        (fun p => (exec (World.step sampleConfig) {} crossedSteps).wire ++ p.conn.unsent) =
          some [] := by decide
    rw [hp, Option.map_some, Option.some.injEq] at hidle
    have hmem := hsent (by decide)
    rw [hidle] at hmem
    exact absurd hmem List.not_mem_nil

end TickToSignal.Publisher
