import TickToSignal.Foundation.Machine
import Mathlib.Algebra.Order.Group.Int

/-!
# Durable tpSeqNo

TP hands out a number only once a reservation that covers it is on disk. The
reservation file is written to a temp file and renamed, so every write has four
stages a crash or an error can fall between. A start resumes at the reservation,
since every number below it may have been handed out before a crash.

## Implementation notes

`seqReserve` is 10000 in the source. `outcome` arguments say how far a write
gets when one is made; a write that fails leaves TP's memory as it was, and the
error ends the call but not the process. `seed` is what the migration finds in
the newest log, `logMax` the highest number in today's log.
-/

namespace TickToSignal.Tp

open Foundation

/-- The payload of the reservation file. -/
structure Reservation where
  reserved : Int
  tpSeqNo : Int
  deriving DecidableEq, Repr

/-- What a temp file holds: part of a payload, or all of it. -/
inductive TempFile
  | torn
  | whole (r : Reservation)
  deriving DecidableEq, Repr

/-- `none` for a file that does not exist or cannot be read. -/
structure SeqDisk where
  seqFile : Option Reservation
  tmpFile : Option TempFile := none
  deriving DecidableEq, Repr

/-- How far a write of the reservation got. -/
inductive Progress
  | start
  | writing
  | written
  | renamed
  deriving DecidableEq, Repr

/-- How a write of the reservation ended. -/
inductive Outcome
  | done
  | throws (reached : Progress)
  | dies (reached : Progress)
  deriving DecidableEq, Repr

def SeqDisk.after (d : SeqDisk) (r : Reservation) : Progress → SeqDisk
  | .start => d
  | .writing => { d with tmpFile := some .torn }
  | .written => { d with tmpFile := some (.whole r) }
  | .renamed => { seqFile := some r, tmpFile := none }

/-- TP's counter and the highest number it may hand out without touching disk. -/
structure SeqMemory where
  tpSeqNo : Int := 0
  reserved : Int := 0
  deriving DecidableEq, Repr

/-- How a call ended: with a value, with an error, or with the process. -/
inductive Ending (α : Type*)
  | returned (value : α)
  | thrown
  | died
  deriving DecidableEq, Repr

section
variable (seqReserve : Nat)

/-- `.tp.seq.persist`. -/
def persist (d : SeqDisk) (m : SeqMemory) (reserved : Int) :
    Outcome → SeqDisk × SeqMemory × Ending Unit
  | .done => (d.after ⟨reserved, m.tpSeqNo⟩ .renamed, { m with reserved := reserved }, .returned ())
  | .throws p => (d.after ⟨reserved, m.tpSeqNo⟩ p, m, .thrown)
  | .dies p => (d.after ⟨reserved, m.tpSeqNo⟩ p, m, .died)

/-- `.tp.nextSeqNo`. -/
def nextSeqNo (d : SeqDisk) (m : SeqMemory) (outcome : Outcome) :
    SeqDisk × SeqMemory × Ending Int :=
  let n := m.tpSeqNo + 1
  if n > m.reserved then
    match persist d m (n + seqReserve) outcome with
    | (d, m, .returned ()) => (d, { m with tpSeqNo := n }, .returned n)
    | (d, m, .thrown) => (d, m, .thrown)
    | (d, m, .died) => (d, m, .died)
  else (d, { m with tpSeqNo := n }, .returned n)

/-- `.tp.seq.load`. -/
def load (d : SeqDisk) (seed : Int) (outcome : Outcome) : SeqDisk × SeqMemory × Ending Unit :=
  match d.seqFile with
  | some r =>
      let m : SeqMemory := { tpSeqNo := r.reserved, reserved := r.reserved }
      persist d m (m.tpSeqNo + seqReserve) outcome
  | none =>
      let m : SeqMemory := { tpSeqNo := seed }
      persist d m (seed + seqReserve) outcome

/-- `.tp.recoverFhSeq`, its part about the counter. -/
def recoverFhSeq (d : SeqDisk) (m : SeqMemory) (logMax : Int) (outcome : Outcome) :
    SeqDisk × SeqMemory × Ending Unit :=
  if logMax > m.tpSeqNo then
    let m := { m with tpSeqNo := logMax }
    persist d m (m.tpSeqNo + seqReserve) outcome
  else (d, m, .returned ())

/-- The file, the memory of a running TP, and the numbers handed out so far with
the reservation that was on disk at that moment. -/
structure SeqState where
  disk : SeqDisk
  tp : Option SeqMemory := none
  handedOut : List (Int × Option Int) := []
  deriving DecidableEq, Repr

inductive SeqStep
  | start (seed : Int) (loading : Outcome) (logMax : Int) (recovering : Outcome)
  | next (outcome : Outcome)
  | crash
  deriving DecidableEq, Repr

/-- TP's memory after a call: gone with the process. -/
def Ending.memory {α : Type*} (m : SeqMemory) : Ending α → Option SeqMemory
  | .died => none
  | _ => some m

/-- One start of TP, one number asked for, or a crash. A start-up that throws
stays in memory: handlers may already be connected to it. -/
def SeqState.step (s : SeqState) : SeqStep → SeqState
  | .start seed loading logMax recovering =>
      match load seqReserve s.disk seed loading with
      | (d, m, .returned ()) =>
          match recoverFhSeq seqReserve d m logMax recovering with
          | (d, m, e) => { s with disk := d, tp := e.memory m }
      | (d, m, e) => { s with disk := d, tp := e.memory m }
  | .next outcome =>
      match s.tp with
      | none => s
      | some m =>
          match nextSeqNo seqReserve s.disk m outcome with
          | (d, m, .returned n) =>
              { disk := d
                tp := some m
                handedOut := s.handedOut ++ [(n, d.seqFile.map (·.reserved))] }
          | (d, m, e) => { s with disk := d, tp := e.memory m }
  | .crash => { s with tp := none }

end

/-- The reservation on disk is at or above TP's own and every number handed out,
and TP's counter is at or above every number handed out. -/
structure Covered (handedOut : List Int) (d : SeqDisk) (m : SeqMemory) : Prop where
  onDisk : ∃ r, d.seqFile = some r ∧ m.reserved ≤ r.reserved ∧ ∀ n ∈ handedOut, n ≤ r.reserved
  counted : ∀ n ∈ handedOut, n ≤ m.tpSeqNo

section
variable {seqReserve : Nat} {handedOut : List Int} {d : SeqDisk} {m : SeqMemory}

/-- A write ends with the new reservation on disk and in memory, or with an
error that leaves memory alone and at most the disk new. -/
theorem persist_cases (d : SeqDisk) (m : SeqMemory) (reserved : Int) (o : Outcome) :
    ∃ d', d'.seqFile = some ⟨reserved, m.tpSeqNo⟩ ∧
        persist d m reserved o = (d', { m with reserved := reserved }, .returned ()) ∨
      (d'.seqFile = d.seqFile ∨ d'.seqFile = some ⟨reserved, m.tpSeqNo⟩) ∧
        (persist d m reserved o = (d', m, .thrown) ∨ persist d m reserved o = (d', m, .died)) := by
  cases o with
  | done => exact ⟨_, .inl ⟨rfl, rfl⟩⟩
  | throws p =>
      refine ⟨_, .inr ⟨?_, .inl rfl⟩⟩
      cases p <;> simp [SeqDisk.after]
  | dies p =>
      refine ⟨_, .inr ⟨?_, .inr rfl⟩⟩
      cases p <;> simp [SeqDisk.after]

/-- Whatever a write does, what is on disk covers at least what it covered. -/
theorem Covered.persist (hc : Covered handedOut d m) {reserved : Int}
    (hm : m.reserved ≤ reserved) (hn : m.tpSeqNo ≤ reserved) (o : Outcome) :
    Covered handedOut (persist d m reserved o).1 (persist d m reserved o).2.1 := by
  obtain ⟨r, hr, hle, hall⟩ := hc.onDisk
  have hnew : ∀ n ∈ handedOut, n ≤ reserved := fun n hin => (hc.counted n hin).trans hn
  obtain ⟨d', ⟨hd, h⟩ | ⟨hd | hd, h | h⟩⟩ := persist_cases d m reserved o
  · rw [h]
    exact ⟨⟨_, hd, le_rfl, hnew⟩, hc.counted⟩
  all_goals rw [h]
  · exact ⟨⟨r, hd.trans hr, hle, hall⟩, hc.counted⟩
  · exact ⟨⟨r, hd.trans hr, hle, hall⟩, hc.counted⟩
  · exact ⟨⟨_, hd, hm, hnew⟩, hc.counted⟩
  · exact ⟨⟨_, hd, hm, hnew⟩, hc.counted⟩

variable (seqReserve) in
/-- A number that is handed out is new, and covered by what is on disk then. -/
theorem Covered.nextSeqNo (hc : Covered handedOut d m) (o : Outcome) :
    match nextSeqNo seqReserve d m o with
    | (d', m', .returned n) =>
        Covered (handedOut ++ [n]) d' m' ∧ (∀ k ∈ handedOut, k < n) ∧
          ∃ r ∈ d'.seqFile.map (·.reserved), n ≤ r
    | (d', m', _) => Covered handedOut d' m' := by
  obtain ⟨r, hr, hle, hall⟩ := hc.onDisk
  have hnew : ∀ k ∈ handedOut, k < m.tpSeqNo + 1 := fun k hk => Int.lt_add_one_of_le (hc.counted k hk)
  have hmore : ∀ k ∈ handedOut ++ [m.tpSeqNo + 1], k ≤ m.tpSeqNo + 1 := by
    intro k hk
    obtain hk | hk := List.mem_append.mp hk
    · exact (hnew k hk).le
    · exact (List.mem_singleton.mp hk).le
  simp only [Tp.nextSeqNo]
  split_ifs with hused
  · have hroom : m.reserved ≤ m.tpSeqNo + 1 + seqReserve := by omega
    have hkept := hc.persist hroom (by omega) o
    obtain ⟨d', ⟨hd, h⟩ | ⟨-, h | h⟩⟩ :=
      persist_cases d m (m.tpSeqNo + 1 + seqReserve) o
    · rw [h]
      refine ⟨⟨⟨_, hd, le_rfl, fun k hk => ?_⟩, hmore⟩, hnew, _, by rw [hd]; rfl, ?_⟩
      · exact (hmore k hk).trans (Int.le_add_of_nonneg_right (Int.natCast_nonneg _))
      · exact Int.le_add_of_nonneg_right (Int.natCast_nonneg _)
    all_goals
      rw [h] at hkept ⊢
      exact hkept
  · have hfits : m.tpSeqNo + 1 ≤ r.reserved := by omega
    refine ⟨⟨⟨r, hr, hle, fun k hk => (hmore k hk).trans hfits⟩, hmore⟩, hnew, ?_⟩
    exact ⟨r.reserved, by rw [hr]; rfl, hfits⟩

variable (seqReserve) in
/-- A start resumes at the reservation, above every number handed out before. -/
theorem Covered.load {r : Reservation} (hr : d.seqFile = some r)
    (hall : ∀ n ∈ handedOut, n ≤ r.reserved) (seed : Int) (o : Outcome) :
    let out := load seqReserve d seed o
    Covered handedOut out.1 out.2.1 ∧
      (out.2.2 = .returned () → out.2.1.reserved = out.2.1.tpSeqNo + seqReserve) := by
  have hc : Covered handedOut d ⟨r.reserved, r.reserved⟩ := ⟨⟨r, hr, le_rfl, hall⟩, hall⟩
  have hbound : r.reserved ≤ r.reserved + (seqReserve : Int) :=
    Int.le_add_of_nonneg_right (Int.natCast_nonneg _)
  simp only [Tp.load, hr]
  refine ⟨hc.persist hbound hbound o, ?_⟩
  obtain ⟨d', ⟨-, h⟩ | ⟨-, h | h⟩⟩ :=
    persist_cases d ⟨r.reserved, r.reserved⟩ (r.reserved + seqReserve) o <;> simp [h]

/-- The recovery branch raises the counter, never lowers it. -/
theorem Covered.recoverFhSeq (hc : Covered handedOut d m)
    (hm : m.reserved ≤ m.tpSeqNo + seqReserve) (logMax : Int) (o : Outcome) :
    let out := recoverFhSeq seqReserve d m logMax o
    Covered handedOut out.1 out.2.1 := by
  simp only [Tp.recoverFhSeq]
  split_ifs with hraise
  · have hraised : Covered handedOut d { m with tpSeqNo := logMax } :=
      ⟨hc.onDisk, fun n hn => (hc.counted n hn).trans hraise.le⟩
    apply hraised.persist
    · dsimp only
      omega
    · exact Int.le_add_of_nonneg_right (Int.natCast_nonneg _)
  · exact hc

/-- The invariant of all runs of TP: numbers increase, each was covered when it
was handed out, and the file covers all of them. -/
structure SeqState.Sound (s : SeqState) : Prop where
  onDisk : ∃ r, s.disk.seqFile = some r ∧ ∀ p ∈ s.handedOut, p.1 ≤ r.reserved
  running : ∀ m ∈ s.tp, Covered (s.handedOut.map (·.1)) s.disk m
  increasing : (s.handedOut.map (·.1)).Pairwise (· < ·)
  covered : ∀ p ∈ s.handedOut, ∃ r ∈ p.2, p.1 ≤ r

/-- A call that hands out nothing. -/
theorem SeqState.Sound.quiet {s : SeqState} (hs : s.Sound)
    (hc : Covered (s.handedOut.map (·.1)) d m) {α : Type*} (e : Ending α) :
    SeqState.Sound { s with disk := d, tp := e.memory m } where
  onDisk := by
    obtain ⟨r, hr, -, hall⟩ := hc.onDisk
    exact ⟨r, hr, fun p hp => hall p.1 (List.mem_map_of_mem hp)⟩
  running := by
    intro m' hm'
    cases e with
    | died => simp [Ending.memory] at hm'
    | returned | thrown =>
        obtain rfl : m = m' := by simpa [Ending.memory] using hm'
        exact hc
  increasing := hs.increasing
  covered := hs.covered

theorem SeqState.Sound.step {s : SeqState} (hs : s.Sound) (a : SeqStep) :
    (s.step seqReserve a).Sound := by
  cases a with
  | crash => exact ⟨hs.onDisk, by simp [SeqState.step], hs.increasing, hs.covered⟩
  | start seed loading logMax recovering =>
      obtain ⟨r, hr, hall⟩ := hs.onDisk
      have hbelow : ∀ n ∈ s.handedOut.map (·.1), n ≤ r.reserved := by simpa using hall
      obtain ⟨hloaded, hreserved⟩ := Covered.load seqReserve hr hbelow seed loading
      simp only [SeqState.step]
      rcases hload : load seqReserve s.disk seed loading with ⟨d, m, e⟩
      rw [hload] at hloaded hreserved
      cases e with
      | returned u =>
          have hrecovered := hloaded.recoverFhSeq
            (Int.le_of_eq (hreserved rfl)) logMax recovering
          exact hs.quiet hrecovered _
      | thrown => exact hs.quiet hloaded (Ending.thrown : Ending Unit)
      | died => exact hs.quiet hloaded (Ending.died : Ending Unit)
  | next outcome =>
      simp only [SeqState.step]
      split
      · exact hs
      · rename_i m hm
        have hnext := (hs.running m hm).nextSeqNo seqReserve outcome
        rcases hcall : nextSeqNo seqReserve s.disk m outcome with ⟨d', m', e⟩
        rw [hcall] at hnext
        cases e with
        | returned n =>
            obtain ⟨hcov, hnew, r, hr, hle⟩ := hnext
            obtain ⟨r', hr', -, hall⟩ := hcov.onDisk
            constructor
            · refine ⟨r', hr', fun p hp => hall p.1 ?_⟩
              simpa using List.mem_map_of_mem (f := (·.1)) hp
            · rintro m'' ⟨⟩
              simpa using hcov
            · rw [List.map_append, List.pairwise_append]
              exact ⟨hs.increasing, by simp, by simpa using hnew⟩
            · intro p hp
              obtain hp | hp := List.mem_append.mp hp
              · exact hs.covered p hp
              · obtain rfl := List.mem_singleton.mp hp
                exact ⟨r, hr, hle⟩
        | thrown => exact hs.quiet hnext (Ending.thrown : Ending Int)
        | died => exact hs.quiet hnext (Ending.died : Ending Int)

end

/-- tpSeqNo is never reused: over all runs of TP from a reservation file, the
numbers handed out strictly increase, and each was covered by the reservation
on disk when it was handed out. -/
theorem tpSeqNo_never_reused (seqReserve : Nat) (r : Reservation) (tmpFile : Option TempFile)
    (as : List SeqStep) :
    let s := exec (SeqState.step seqReserve) { disk := { seqFile := some r, tmpFile := tmpFile } } as
    (s.handedOut.map (·.1)).Pairwise (· < ·) ∧
      ∀ p ∈ s.handedOut, ∃ reserved ∈ p.2, p.1 ≤ reserved := by
  have hfresh : SeqState.Sound { disk := { seqFile := some r, tmpFile := tmpFile } } :=
    ⟨⟨r, rfl, by simp⟩, by simp, by simp, by simp⟩
  have hs : SeqState.Sound (exec (SeqState.step seqReserve) _ as) :=
    exec_invariant (P := SeqState.Sound) (fun _ a h => h.step a) as hfresh
  exact ⟨hs.increasing, hs.covered⟩

/-- A crash between the rename and the use of the number skips numbers, and reuses none. -/
example :
    (exec (SeqState.step 2) { disk := { seqFile := some ⟨5, 3⟩ } }
      [.start 0 .done 0 .done, .next .done, .next .done, .next (.dies .renamed),
        .start 0 .done 0 .done, .next .done]).handedOut =
      [(6, some 7), (7, some 7), (11, some 12)] := by decide

end TickToSignal.Tp
