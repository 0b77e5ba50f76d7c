import Mathlib.Algebra.Order.Monoid.WithTop
import Mathlib.Data.List.Sort
import Mathlib.Data.String.Basic
import TickToSignal.Foundation.Neighbours

/-!
# The quote sequence checker

`.qs.check` compares every valid row of a symbol with the valid row before it
and reports the breaks: rows whose exchange update ids do not continue. A break
is excused by an invalid row in between, or if the row's `fhSeqNo` is lower than
that of the row before it, which is how the tool recognises that the handler
was restarted.

## Implementation notes

A null long is the bottom of `WithBot Int`: it is below every number, and adding
to it gives a null. Rows carry the columns the tool reads except `time`, which
is only printed; the printed lines are left out. The update ids of a spot row
are compared without the column that only futures rows have.
-/

namespace TickToSignal.Utils

open Foundation

/- Longs are compared by their own order, not by the one that a lattice of `Int` induces. -/
instance longLE : LE (WithBot Int) := WithBot.instLE

instance longLT : LT (WithBot Int) := WithBot.instLT

inductive QuoteTable
  | quoteBinance
  | quoteBinanceFut
  deriving DecidableEq, Repr

/-- A stored quote row of a symbol of type `S`. -/
structure QuoteRow (S : Type*) where
  sym : S
  isValid : Bool
  exchFirstUpdateId : WithBot Int := ⊥
  exchUpdateId : WithBot Int := ⊥
  exchPrevUpdateId : WithBot Int := ⊥
  fhSeqNo : Int
  tpSeqNo : Int
  deriving DecidableEq

/-- A quote table in the directory that is checked. -/
inductive Splay (S : Type*)
  | absent
  | stored (columns : List String) (rows : List (QuoteRow S))

/-- The columns the tool reads. -/
def need : QuoteTable → List String
  | .quoteBinance =>
      ["time", "sym", "isValid", "exchFirstUpdateId", "exchUpdateId", "fhSeqNo", "tpSeqNo"]
  | .quoteBinanceFut =>
      ["time", "sym", "isValid", "exchFirstUpdateId", "exchUpdateId", "fhSeqNo", "tpSeqNo",
        "exchPrevUpdateId"]

inductive BreakKind
  | marked
  | UNMARKED
  deriving DecidableEq, Repr

/-- A row that does not continue its predecessor. -/
structure QuoteBreak (S : Type*) where
  row : QuoteRow S
  prev : QuoteRow S
  restart : Bool
  invalidBetween : Bool
  kind : BreakKind
  deriving DecidableEq

/-- What `.qs.check` returns; `rows` is null without the table and -1 without its columns. -/
structure QsResult (S : Type*) where
  table : QuoteTable
  rows : Option Int := none
  valid : Nat := 0
  invalid : Nat := 0
  noIds : Nat := 0
  checked : Nat := 0
  badRange : Nat := 0
  breaks : List (QuoteBreak S) := []

namespace QuoteRow

variable {S : Type*} [LinearOrder S]

/-- The order of `` `sym`tpSeqNo xasc ``. -/
def le (a b : QuoteRow S) : Prop := a.sym < b.sym ∨ a.sym = b.sym ∧ a.tpSeqNo ≤ b.tpSeqNo

instance : DecidableRel (le (S := S)) := fun a b =>
  inferInstanceAs (Decidable (a.sym < b.sym ∨ a.sym = b.sym ∧ a.tpSeqNo ≤ b.tpSeqNo))

omit [LinearOrder S] in
/-- A row that takes part in the check. -/
def hasIds (r : QuoteRow S) : Bool := r.isValid && decide (r.exchUpdateId ≠ ⊥)

/-- The update ids of `q` continue those of the row `p` before it. -/
def cont (t : QuoteTable) (p q : QuoteRow S) : Bool :=
  match t with
  | .quoteBinanceFut =>
      decide (q.exchPrevUpdateId = p.exchUpdateId) ||
        decide (q.exchFirstUpdateId = p.exchFirstUpdateId) &&
          decide (q.exchUpdateId = p.exchUpdateId)
  | .quoteBinance =>
      decide (q.exchFirstUpdateId ≤ p.exchUpdateId + (1 : Int)) &&
        decide (p.exchUpdateId ≤ q.exchUpdateId)

/-- An invalid row of the symbol lies between two rows. -/
def invalidBetween (invRows : List (QuoteRow S)) (p q : QuoteRow S) : Bool :=
  invRows.any fun r =>
    decide (r.sym = q.sym) && decide (p.tpSeqNo < r.tpSeqNo) && decide (r.tpSeqNo < q.tpSeqNo)

end QuoteRow

section
variable {S : Type*} [LinearOrder S]

/-- The break at a row, given the row before it in the check. -/
def breakAt (t : QuoteTable) (invRows : List (QuoteRow S)) :
    QuoteRow S × Option (QuoteRow S) → Option (QuoteBreak S)
  | (_, none) => none
  | (q, some p) =>
      if QuoteRow.cont t p q then none
      else
        let restart := decide (q.fhSeqNo < p.fhSeqNo)
        let between := QuoteRow.invalidBetween invRows p q
        some
          { row := q, prev := p, restart := restart, invalidBetween := between
            kind := if between || restart then .marked else .UNMARKED }

/-- `.qs.check`. -/
def check (t : QuoteTable) : Splay S → QsResult S
  | .absent => { table := t }
  | .stored columns rows =>
      if ¬ ∀ c ∈ need t, c ∈ columns then { table := t, rows := some (-1) }
      else
        let x := rows.insertionSort QuoteRow.le
        let v := x.filter QuoteRow.hasIds
        { table := t
          rows := some x.length
          valid := x.countP fun r => r.isValid
          invalid := x.countP fun r => !r.isValid
          noIds := x.countP fun r => r.isValid && decide (r.exchUpdateId = ⊥)
          checked := v.length
          badRange := v.countP fun r => decide (r.exchUpdateId < r.exchFirstUpdateId)
          breaks := (prevBy (·.sym) v).filterMap (breakAt t (x.filter fun r => !r.isValid)) }

/-- The number of breaks that nothing explains. -/
def QsResult.unmarked (r : QsResult S) : Nat := r.breaks.countP fun b => decide (b.kind = .UNMARKED)

/-- `.qs.report`: what the table adds to the exit code. -/
def QsResult.report (r : QsResult S) : Nat :=
  match r.rows with
  | none => 0
  | some n => if n = -1 then 0 else r.unmarked + r.badRange

end

/-! ## What a break is -/

section
variable {S : Type*} [LinearOrder S]

/-- `q` is checked against `p`: the valid row of the symbol before it. -/
structure Precedes (rows : List (QuoteRow S)) (p q : QuoteRow S) : Prop where
  left : p ∈ rows ∧ p.hasIds = true
  right : q ∈ rows ∧ q.hasIds = true
  same : p.sym = q.sym
  before : p.tpSeqNo < q.tpSeqNo
  between : ∀ r ∈ rows, r.hasIds = true → r.sym = q.sym → p.tpSeqNo < r.tpSeqNo →
    q.tpSeqNo ≤ r.tpSeqNo

/-- An invalid row of the symbol was published between the two. -/
def Marked (rows : List (QuoteRow S)) (p q : QuoteRow S) : Prop :=
  ∃ r ∈ rows, r.isValid = false ∧ r.sym = q.sym ∧ p.tpSeqNo < r.tpSeqNo ∧ r.tpSeqNo < q.tpSeqNo

/-- The strict order of the sorted rows. -/
def QuoteRow.lt (a b : QuoteRow S) : Prop := a.sym < b.sym ∨ a.sym = b.sym ∧ a.tpSeqNo < b.tpSeqNo

theorem QuoteRow.lt_asymm (a b : QuoteRow S) (hab : a.lt b) : ¬ b.lt a := by
  rintro (hba | ⟨hsym, hba⟩)
  · obtain hab | ⟨hsym', -⟩ := hab
    · exact absurd hba (not_lt.mpr hab.le)
    · exact absurd hba (hsym' ▸ lt_irrefl _)
  · obtain hab | ⟨-, hab⟩ := hab
    · exact absurd hab (hsym ▸ lt_irrefl _)
    · omega

theorem QuoteRow.lt_iff_of_sym_eq {a b : QuoteRow S} (h : a.sym = b.sym) :
    a.lt b ↔ a.tpSeqNo < b.tpSeqNo := by
  simp [QuoteRow.lt, h]

/-- Sorting by symbol and number is strict, because no number occurs twice. -/
theorem sorted_lt {rows : List (QuoteRow S)} (hnodup : (rows.map (·.tpSeqNo)).Nodup) :
    (rows.insertionSort QuoteRow.le).Pairwise QuoteRow.lt := by
  have htotal : ∀ a b : QuoteRow S, a.le b ∨ b.le a := by
    intro a b
    obtain h | h | h := lt_trichotomy a.sym b.sym
    · exact Or.inl (Or.inl h)
    · obtain hle | hle := le_total a.tpSeqNo b.tpSeqNo
      · exact Or.inl (Or.inr ⟨h, hle⟩)
      · exact Or.inr (Or.inr ⟨h.symm, hle⟩)
    · exact Or.inr (Or.inl h)
  have htrans : ∀ a b c : QuoteRow S, a.le b → b.le c → a.le c := by
    rintro a b c (hab | ⟨hab, hle⟩) (hbc | ⟨hbc, hle'⟩)
    · exact Or.inl (hab.trans hbc)
    · exact Or.inl (hbc ▸ hab)
    · exact Or.inl (hab ▸ hbc)
    · exact Or.inr ⟨hab.trans hbc, hle.trans hle'⟩
  have : Std.Total (QuoteRow.le (S := S)) := ⟨htotal⟩
  have : IsTrans (QuoteRow S) QuoteRow.le := ⟨htrans⟩
  have hsorted := List.pairwise_insertionSort (QuoteRow.le (S := S)) rows
  have hdistinct : (rows.insertionSort QuoteRow.le).Pairwise fun a b => a.tpSeqNo ≠ b.tpSeqNo := by
    have hperm := (List.perm_insertionSort (QuoteRow.le (S := S)) rows).map (·.tpSeqNo)
    exact List.pairwise_map.mp (hperm.nodup_iff.mpr hnodup)
  refine (hsorted.and hdistinct).imp ?_
  rintro a b ⟨hlt | ⟨hsym, hle⟩, hne⟩
  · exact Or.inl hlt
  · exact Or.inr ⟨hsym, lt_of_le_of_ne hle hne⟩

/-- The pairs that are checked. -/
theorem mem_checked_iff {rows : List (QuoteRow S)} (hnodup : (rows.map (·.tpSeqNo)).Nodup)
    {p q : QuoteRow S} :
    (q, some p) ∈ prevBy (·.sym) ((rows.insertionSort QuoteRow.le).filter QuoteRow.hasIds) ↔
      Precedes rows p q := by
  rw [mem_prevBy_iff QuoteRow.lt_asymm ((sorted_lt hnodup).filter _)]
  have hmem : ∀ r : QuoteRow S,
      r ∈ (rows.insertionSort QuoteRow.le).filter QuoteRow.hasIds ↔ r ∈ rows ∧ r.hasIds = true := by
    simp [List.mem_filter, List.mem_insertionSort]
  constructor
  · intro h
    refine ⟨(hmem p).mp h.left, (hmem q).mp h.right, h.same,
      (QuoteRow.lt_iff_of_sym_eq h.same).mp h.before, ?_⟩
    intro r hr hids hsym hpr
    have hnot := h.between r ((hmem r).mpr ⟨hr, hids⟩) hsym
      ((QuoteRow.lt_iff_of_sym_eq (h.same.trans hsym.symm)).mpr hpr)
    rw [QuoteRow.lt_iff_of_sym_eq hsym] at hnot
    exact not_lt.mp hnot
  · intro h
    refine ⟨(hmem p).mpr h.left, (hmem q).mpr h.right, h.same,
      (QuoteRow.lt_iff_of_sym_eq h.same).mpr h.before, ?_⟩
    intro r hr hsym hpr hrq
    obtain ⟨hin, hids⟩ := (hmem r).mp hr
    have hle := h.between r hin hids hsym
      ((QuoteRow.lt_iff_of_sym_eq (h.same.trans hsym.symm)).mp hpr)
    exact absurd ((QuoteRow.lt_iff_of_sym_eq hsym).mp hrq) (not_lt.mpr hle)

theorem invalidBetween_iff {rows : List (QuoteRow S)} {p q : QuoteRow S} :
    QuoteRow.invalidBetween ((rows.insertionSort QuoteRow.le).filter fun r => !r.isValid) p q = true
      ↔ Marked rows p q := by
  simp [QuoteRow.invalidBetween, Marked, List.any_eq_true, List.mem_insertionSort, and_assoc]

theorem check_breaks (t : QuoteTable) (rows : List (QuoteRow S)) :
    (check t (.stored (need t) rows)).breaks =
      (prevBy (·.sym) ((rows.insertionSort QuoteRow.le).filter QuoteRow.hasIds)).filterMap
        (breakAt t ((rows.insertionSort QuoteRow.le).filter fun r => !r.isValid)) := by
  have hcolumns : ¬ ¬ ∀ c ∈ need t, c ∈ need t := not_not.mpr fun c hc => hc
  simp only [check]
  rw [if_neg hcolumns]

/-- A checked pair is left alone, or excused, or unmarked. -/
theorem breakAt_ne_unmarked_iff (t : QuoteTable) {rows : List (QuoteRow S)} {p q : QuoteRow S} :
    (∀ b ∈ breakAt t ((rows.insertionSort QuoteRow.le).filter fun r => !r.isValid) (q, some p),
        b.kind ≠ .UNMARKED) ↔
      (¬ Marked rows p q → QuoteRow.cont t p q = false → q.fhSeqNo < p.fhSeqNo) := by
  simp only [breakAt]
  by_cases hcont : QuoteRow.cont t p q = true
  · simp [hcont]
  · rw [if_neg hcont]
    simp only [Option.mem_some_iff, forall_eq', Bool.eq_false_iff.mpr hcont, true_imp_iff]
    split_ifs with hkind <;>
      rw [Bool.or_eq_true, invalidBetween_iff, decide_eq_true_eq] at hkind
    · exact iff_of_true (by decide) fun hnot => hkind.resolve_left hnot
    · obtain ⟨hmarked, hrestart⟩ := not_or.mp hkind
      exact iff_of_false (by simp) fun h => hrestart (h hmarked)

/-- Nothing is reported as unmarked exactly if every checked pair continues, is marked or has a
lower `fhSeqNo` behind. -/
theorem unmarked_eq_zero_iff (t : QuoteTable) {rows : List (QuoteRow S)}
    (hnodup : (rows.map (·.tpSeqNo)).Nodup) :
    (check t (.stored (need t) rows)).unmarked = 0 ↔
      ∀ p q, Precedes rows p q → ¬ Marked rows p q → QuoteRow.cont t p q = false →
        q.fhSeqNo < p.fhSeqNo := by
  simp only [QsResult.unmarked, check_breaks, List.countP_eq_zero, List.mem_filterMap,
    decide_eq_true_eq]
  constructor
  · intro h p q hpq
    refine (breakAt_ne_unmarked_iff t).mp fun b hb => ?_
    exact h b ⟨_, (mem_checked_iff hnodup).mpr hpq, hb⟩
  · rintro h b ⟨⟨q, prev⟩, hin, hb⟩
    cases prev with
    | none => simp [breakAt] at hb
    | some p => exact (breakAt_ne_unmarked_iff t).mpr (h p q ((mem_checked_iff hnodup).mp hin)) b hb

/-! ## A day of handler sessions -/

/-- What one handler process published of a quote table on a day: rows numbered one by one over
all symbols, whose ids continue where no invalid row says otherwise. -/
structure Session (t : QuoteTable) (S : Type*) where
  rows : List (QuoteRow S)
  /-- rows of the process on the day before -/
  start : Nat := 0
  numbered : ∀ (i : Nat) (r : QuoteRow S), rows[i]? = some r → r.fhSeqNo = start + i + 1
  continues : ∀ p q, Precedes rows p q → ¬ Marked rows p q → QuoteRow.cont t p q = true

/-- A day of sessions, and the rows as they are stored, without loss and in any order. -/
structure QuoteDay (t : QuoteTable) (S : Type*) [LinearOrder S] where
  sessions : List (Session t S)
  stored : List (QuoteRow S)
  lossless : stored.Perm (sessions.map (·.rows)).flatten
  ordered : ((sessions.map (·.rows)).flatten.map (·.tpSeqNo)).Pairwise (· < ·)

theorem QuoteDay.nodup {t : QuoteTable} (day : QuoteDay t S) :
    (day.stored.map (·.tpSeqNo)).Nodup := by
  have hperm := day.lossless.map fun r : QuoteRow S => r.tpSeqNo
  exact hperm.nodup_iff.mpr (day.ordered.imp fun h => h.ne)

/-- A pair that is checked over the day, both rows from one session, is one over the session. -/
theorem Session.precedes {t : QuoteTable} {day : QuoteDay t S} {s : Session t S}
    (hs : s ∈ day.sessions) {p q : QuoteRow S} (hpq : Precedes day.stored p q)
    (hp : p ∈ s.rows) (hq : q ∈ s.rows) : Precedes s.rows p q where
  left := ⟨hp, hpq.left.2⟩
  right := ⟨hq, hpq.right.2⟩
  same := hpq.same
  before := hpq.before
  between := fun r hr => hpq.between r
    (day.lossless.mem_iff.mpr (List.mem_flatten.mpr ⟨s.rows, List.mem_map.mpr ⟨s, hs, rfl⟩, hr⟩))

/-- The tool raises no false alarm on a day exactly if at every change of the handler process that
breaks the ids of a symbol, no invalid row in between, the symbol's first valid row of the new
process has a lower `fhSeqNo` than its last one of the old. -/
theorem no_false_alarm_iff (t : QuoteTable) (day : QuoteDay t S) :
    (check t (.stored (need t) day.stored)).unmarked = 0 ↔
      ∀ p q, Precedes day.stored p q → ¬ Marked day.stored p q → QuoteRow.cont t p q = false →
        (∀ s ∈ day.sessions, p ∈ s.rows → q ∉ s.rows) → q.fhSeqNo < p.fhSeqNo := by
  rw [unmarked_eq_zero_iff t day.nodup]
  constructor
  · intro h p q hpq hmarked hcont _
    exact h p q hpq hmarked hcont
  · intro h p q hpq hmarked hcont
    apply h p q hpq hmarked hcont
    -- within a session an unmarked pair continues
    intro s hs hp hq
    have hunmarked : ¬ Marked s.rows p q := by
      rintro ⟨r, hr, hinvalid⟩
      exact hmarked ⟨r, day.lossless.mem_iff.mpr
        (List.mem_flatten.mpr ⟨s.rows, List.mem_map.mpr ⟨s, hs, rfl⟩, hr⟩), hinvalid⟩
    exact absurd (s.continues p q (s.precedes hs hpq hp hq) hunmarked) (by simp [hcont])

end

/-- A process that published one quote, and one that published another symbol first. -/
def shortSession : QuoteDay .quoteBinance String where
  sessions :=
    [{ rows := [⟨"BTCUSDT", true, (100 : Int), (104 : Int), ⊥, 1, 1000⟩]
       numbered := by
         intro i r hr
         obtain _ | i := i
         · obtain rfl := Option.some.inj hr
           rfl
         · simp at hr
       continues := by
         rintro p q ⟨⟨hp, -⟩, ⟨hq, -⟩, -, hlt, -⟩
         obtain rfl := List.mem_singleton.mp hp
         obtain rfl := List.mem_singleton.mp hq
         exact absurd hlt (lt_irrefl _) },
      { rows :=
          [⟨"ETHUSDT", true, (500 : Int), (500 : Int), ⊥, 1, 1001⟩,
            ⟨"BTCUSDT", true, (300 : Int), (301 : Int), ⊥, 2, 1002⟩]
        numbered := by
          intro i r hr
          obtain _ | _ | i := i
          · obtain rfl := Option.some.inj hr
            rfl
          · obtain rfl := Option.some.inj hr
            rfl
          · simp at hr
        continues := by
          rintro p q ⟨⟨hp, -⟩, ⟨hq, -⟩, hsym, hlt, -⟩
          simp only [List.mem_cons, List.not_mem_nil, or_false] at hp hq
          obtain rfl | rfl := hp <;> obtain rfl | rfl := hq <;> simp_all }]
  stored :=
    [⟨"BTCUSDT", true, (100 : Int), (104 : Int), ⊥, 1, 1000⟩, ⟨"BTCUSDT", true, 300, 301, ⊥, 2, 1002⟩,
      ⟨"ETHUSDT", true, 500, 500, ⊥, 1, 1001⟩]
  lossless := by
    apply List.Perm.cons
    exact List.Perm.swap _ _ _
  ordered := by decide

/-- Both processes count from 1, no row is lost, and the tool reports a break it cannot explain. -/
theorem short_session_raises_alarm :
    (∀ s ∈ shortSession.sessions, s.start = 0) ∧
      (check .quoteBinance (.stored (need .quoteBinance) shortSession.stored)).unmarked = 1 := by
  decide

end TickToSignal.Utils
