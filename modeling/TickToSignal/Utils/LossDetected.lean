import Mathlib.Data.List.MinMax
import TickToSignal.Utils.CheckQuoteSeq

/-!
# What the quote sequence checker finds

A handler session stores rows of a symbol whose update ids continue. If valid
rows are deleted afterwards and an update id between two kept ones is gone with
them, some kept row no longer continues the one before it: its ids start after
the lost ones, or on futures its previous id is not older than they are.

## Implementation notes

A run of valid rows is compared through `After`, which the continuity of
neighbours implies and which is transitive. An invalid row ends the run.
-/

namespace TickToSignal.Utils

open Foundation

variable {S : Type*} [LinearOrder S]

namespace QuoteRow

omit [LinearOrder S]

/-- The update ids are a range. -/
def HasRange (r : QuoteRow S) : Prop :=
  ∃ U u : Int, r.exchFirstUpdateId = U ∧ r.exchUpdateId = u ∧ U ≤ u

/-- A heartbeat has the ids of the row before it. -/
def Repeats (t : QuoteTable) (p q : QuoteRow S) : Prop :=
  q.exchFirstUpdateId = p.exchFirstUpdateId ∧ q.exchUpdateId = p.exchUpdateId ∧
    (t = .quoteBinanceFut → q.exchPrevUpdateId = p.exchPrevUpdateId)

/-- The row continues its predecessor, as a heartbeat or with ids that are all new. -/
def Continues (t : QuoteTable) (p q : QuoteRow S) : Prop :=
  cont t p q = true ∧ (Repeats t p q ∨ p.exchUpdateId < q.exchFirstUpdateId)

/-- `q` has the ids of the earlier `p`, or later ones only. -/
def After (t : QuoteTable) (p q : QuoteRow S) : Prop :=
  Repeats t p q ∨
    p.exchUpdateId < q.exchFirstUpdateId ∧ q.exchFirstUpdateId ≤ q.exchUpdateId ∧
      (t = .quoteBinanceFut → p.exchUpdateId ≤ q.exchPrevUpdateId)

theorem HasRange.le {r : QuoteRow S} (h : r.HasRange) : r.exchFirstUpdateId ≤ r.exchUpdateId := by
  obtain ⟨U, u, hU, hu, hle⟩ := h
  rw [hU, hu]
  exact WithBot.coe_le_coe.mpr hle

theorem HasRange.hasIds {r : QuoteRow S} (h : r.HasRange) (hv : r.isValid = true) :
    r.hasIds = true := by
  obtain ⟨U, u, -, hu, -⟩ := h
  simp [QuoteRow.hasIds, hv, hu]

/-- A futures row with new ids names the last id of its predecessor. -/
theorem prev_of_cont {p q : QuoteRow S} (hcont : cont .quoteBinanceFut p q = true)
    (hnew : p.exchUpdateId < q.exchUpdateId) : q.exchPrevUpdateId = p.exchUpdateId := by
  simp only [cont, Bool.or_eq_true, Bool.and_eq_true, decide_eq_true_eq] at hcont
  obtain h | ⟨-, hu⟩ := hcont
  · exact h
  · exact absurd hnew (hu ▸ lt_irrefl _)

theorem After.of_continues {t : QuoteTable} {p q : QuoteRow S} (hq : q.HasRange)
    (h : Continues t p q) : After t p q := by
  obtain ⟨hcont, hrep | hnew⟩ := h
  · exact Or.inl hrep
  · refine Or.inr ⟨hnew, hq.le, ?_⟩
    rintro rfl
    exact (prev_of_cont hcont (lt_of_lt_of_le hnew hq.le)).ge

theorem After.trans {t : QuoteTable} {a b c : QuoteRow S} (hab : After t a b)
    (hbc : After t b c) : After t a c := by
  obtain ⟨hU, hu, hpu⟩ | ⟨hlt, hle, hpu⟩ := hab
  · obtain ⟨hU', hu', hpu'⟩ | ⟨hlt', hle', hpu'⟩ := hbc
    · exact Or.inl ⟨hU'.trans hU, hu'.trans hu, fun ht => (hpu' ht).trans (hpu ht)⟩
    · exact Or.inr ⟨hu ▸ hlt', hle', fun ht => hu ▸ hpu' ht⟩
  · obtain ⟨hU', hu', hpu'⟩ | ⟨hlt', hle', hpu'⟩ := hbc
    · exact Or.inr ⟨hU' ▸ hlt, by rw [hU', hu']; exact hle, fun ht => (hpu' ht) ▸ hpu ht⟩
    · have hlast : a.exchUpdateId < b.exchUpdateId := lt_of_lt_of_le hlt hle
      exact Or.inr ⟨hlast.trans hlt', hle', fun ht => hlast.le.trans (hpu' ht)⟩

/-- Ids that differ are later ones. -/
theorem After.new {t : QuoteTable} {p q : QuoteRow S} (h : After t p q)
    (hne : p.exchUpdateId ≠ q.exchUpdateId) :
    p.exchUpdateId < q.exchFirstUpdateId ∧ q.exchFirstUpdateId ≤ q.exchUpdateId ∧
      (t = .quoteBinanceFut → p.exchUpdateId ≤ q.exchPrevUpdateId) :=
  h.resolve_left fun hrep => hne hrep.2.1.symm

/-- With a row of other ids gone from between them, two rows do not continue. -/
theorem not_cont_of_between {t : QuoteTable} {p r q : QuoteRow S} (hp : p.HasRange)
    (hr : r.HasRange) (hq : q.HasRange) (hpr : After t p r) (hrq : After t r q)
    (hpne : p.exchUpdateId ≠ r.exchUpdateId) (hqne : q.exchUpdateId ≠ r.exchUpdateId) :
    cont t p q = false := by
  obtain ⟨hlt, hle, -⟩ := hpr.new hpne
  obtain ⟨hlt', hle', hpu⟩ := hrq.new hqne.symm
  have hlast : p.exchUpdateId < r.exchUpdateId := lt_of_lt_of_le hlt hle
  cases t with
  | quoteBinance =>
      obtain ⟨-, pu, -, hpu, -⟩ := hp
      obtain ⟨rU, ru, hrU, hru, -⟩ := hr
      obtain ⟨qU, qu, hqU, hqu, -⟩ := hq
      rw [hpu, hrU] at hlt
      rw [hru, hqU] at hlt'
      rw [hrU, hru] at hle
      simp only [cont, hqU, hpu, ← WithBot.coe_add, WithBot.coe_le_coe, Bool.and_eq_false_iff,
        decide_eq_false_iff_not]
      have := WithBot.coe_lt_coe.mp hlt
      have := WithBot.coe_lt_coe.mp hlt'
      have := WithBot.coe_le_coe.mp hle
      exact Or.inl (by omega)
  | quoteBinanceFut =>
      have hne : q.exchPrevUpdateId ≠ p.exchUpdateId :=
        (lt_of_lt_of_le hlast (hpu rfl)).ne'
      have hne' : q.exchUpdateId ≠ p.exchUpdateId :=
        (hlast.trans (lt_of_lt_of_le hlt' hle')).ne'
      simp [cont, hne, hne']

end QuoteRow

/-- What one handler session stored of a symbol, in order. -/
structure SymbolSession (t : QuoteTable) (sym : S) where
  rows : List (QuoteRow S)
  ofSym : ∀ r ∈ rows, r.sym = sym
  ordered : rows.Pairwise fun p q => p.tpSeqNo < q.tpSeqNo ∧ p.fhSeqNo < q.fhSeqNo
  ranges : ∀ r ∈ rows, r.isValid = true → r.HasRange
  continues : rows.IsChain fun p q => p.isValid = true → q.isValid = true →
    QuoteRow.Continues t p q

/-- What is stored after valid rows of the session are deleted, among rows of other symbols. -/
structure Remaining {t : QuoteTable} {sym : S} (s : SymbolSession t sym) (kept : List (QuoteRow S))
    (stored : List (QuoteRow S)) : Prop where
  sublist : kept.Sublist s.rows
  invalid : ∀ r ∈ s.rows, r.isValid = false → r ∈ kept
  rest : (stored.filter fun r => decide (r.sym = sym)).Perm kept
  nodup : (stored.map (·.tpSeqNo)).Nodup

/-- The update id of `r` lies between the kept rows `p` and `q`, no invalid row does, and no kept
row has it. -/
structure Lost {t : QuoteTable} {sym : S} (s : SymbolSession t sym) (kept : List (QuoteRow S))
    (p r q : QuoteRow S) : Prop where
  left : p ∈ kept ∧ p.isValid = true
  right : q ∈ kept ∧ q.isValid = true
  row : r ∈ s.rows ∧ r.isValid = true
  after : p.tpSeqNo < r.tpSeqNo
  before : r.tpSeqNo < q.tpSeqNo
  valid : ∀ x ∈ s.rows, p.tpSeqNo < x.tpSeqNo → x.tpSeqNo < q.tpSeqNo → x.isValid = true
  gone : ∀ x ∈ kept, x.exchUpdateId ≠ r.exchUpdateId

variable {t : QuoteTable} {sym : S} {s : SymbolSession t sym} {kept stored : List (QuoteRow S)}
  {p r q : QuoteRow S}

omit [LinearOrder S] in
theorem tpSeqNo_asymm (a b : QuoteRow S) (hab : a.tpSeqNo < b.tpSeqNo ∧ a.fhSeqNo < b.fhSeqNo) :
    ¬ (b.tpSeqNo < a.tpSeqNo ∧ b.fhSeqNo < a.fhSeqNo) := by
  omega

omit [LinearOrder S] in
/-- The session's rows stand in the order of their numbers. -/
theorem SymbolSession.ordered_of_lt (s : SymbolSession t sym) {a b : QuoteRow S} (ha : a ∈ s.rows)
    (hb : b ∈ s.rows) (h : a.tpSeqNo < b.tpSeqNo) :
    a.tpSeqNo < b.tpSeqNo ∧ a.fhSeqNo < b.fhSeqNo := by
  obtain ⟨front, post, heq⟩ := List.append_of_mem hb
  have hord := s.ordered
  rw [heq, List.pairwise_append] at hord
  rw [heq, List.mem_append, List.mem_cons] at ha
  obtain hfront | rfl | hpost := ha
  · exact hord.2.2 a hfront b List.mem_cons_self
  · exact absurd h (lt_irrefl _)
  · exact absurd h ((List.pairwise_cons.mp hord.2.1).1 a hpost).1.asymm

omit [LinearOrder S] in
theorem SymbolSession.eq_of_tpSeqNo (s : SymbolSession t sym) {a b : QuoteRow S}
    (ha : a ∈ s.rows) (hb : b ∈ s.rows) (h : a.tpSeqNo = b.tpSeqNo) : a = b := by
  have hnodup : (s.rows.map (·.tpSeqNo)).Nodup :=
    List.pairwise_map.mpr (s.ordered.imp fun hab => hab.1.ne)
  exact List.inj_on_of_nodup_map hnodup ha hb h

omit [LinearOrder S] in
/-- A run of valid rows has ids in order. -/
theorem SymbolSession.after (s : SymbolSession t sym) {a b : QuoteRow S} (ha : a ∈ s.rows)
    (hb : b ∈ s.rows) (hab : a.tpSeqNo < b.tpSeqNo) (hva : a.isValid = true)
    (hvb : b.isValid = true)
    (hbetween : ∀ x ∈ s.rows, a.tpSeqNo < x.tpSeqNo → x.tpSeqNo < b.tpSeqNo → x.isValid = true) :
    QuoteRow.After t a b := by
  refine related_of_sorted (V := fun x => x ∈ s.rows ∧ x.isValid = true) tpSeqNo_asymm ?_
    (fun _ _ _ h h' => h.trans h') s.ordered s.continues ha hb (s.ordered_of_lt ha hb hab)
    ⟨ha, hva⟩ ⟨hb, hvb⟩ (fun x hx hax hxb => ⟨hx, hbetween x hx hax.1 hxb.1⟩)
  intro a b ha hb h
  exact QuoteRow.After.of_continues (s.ranges b hb.1 hb.2) (h ha.2 hb.2)

theorem Remaining.mem_iff (h : Remaining s kept stored) (x : QuoteRow S) :
    x ∈ stored ∧ x.sym = sym ↔ x ∈ kept := by
  rw [← h.rest.mem_iff, List.mem_filter, decide_eq_true_eq]

/-- The kept rows next to the lost one: they stand between the two of `Lost`, and no valid kept
row between them. -/
theorem exists_adjacent (h : Remaining s kept stored) (hlost : Lost s kept p r q) :
    ∃ p' q', Precedes stored p' q' ∧ p' ∈ kept ∧ q' ∈ kept ∧ p.tpSeqNo ≤ p'.tpSeqNo ∧
      p'.tpSeqNo < r.tpSeqNo ∧ r.tpSeqNo < q'.tpSeqNo ∧ q'.tpSeqNo ≤ q.tpSeqNo := by
  have hsub : ∀ x ∈ kept, x ∈ s.rows := fun x hx => h.sublist.subset hx
  have hids : ∀ x ∈ kept, x.isValid = true → x.hasIds = true := fun x hx hv =>
    (s.ranges x (hsub x hx) hv).hasIds hv
  -- the last valid row before the lost one
  obtain ⟨p', hp'⟩ : ∃ p', p' ∈ (kept.filter fun x =>
      x.isValid && decide (x.tpSeqNo < r.tpSeqNo)).argmax (·.tpSeqNo) := by
    refine Option.ne_none_iff_exists'.mp fun hnone => ?_
    refine List.ne_nil_of_mem (List.mem_filter.mpr ⟨hlost.left.1, ?_⟩) (List.argmax_eq_none.mp hnone)
    simp [hlost.left.2, hlost.after]
  -- and the first one after it
  obtain ⟨q', hq'⟩ : ∃ q', q' ∈ (kept.filter fun x =>
      x.isValid && decide (r.tpSeqNo < x.tpSeqNo)).argmin (·.tpSeqNo) := by
    refine Option.ne_none_iff_exists'.mp fun hnone => ?_
    refine List.ne_nil_of_mem (List.mem_filter.mpr ⟨hlost.right.1, ?_⟩) (List.argmin_eq_none.mp hnone)
    simp [hlost.right.2, hlost.before]
  obtain ⟨hpk, hpv⟩ := List.mem_filter.mp (List.argmax_mem hp')
  obtain ⟨hqk, hqv⟩ := List.mem_filter.mp (List.argmin_mem hq')
  simp only [Bool.and_eq_true, decide_eq_true_eq] at hpv hqv
  have hmax : ∀ x ∈ kept, x.isValid = true → x.tpSeqNo < r.tpSeqNo → x.tpSeqNo ≤ p'.tpSeqNo :=
    fun x hx hv hlt => List.le_of_mem_argmax (List.mem_filter.mpr ⟨hx, by simp [hv, hlt]⟩) hp'
  have hmin : ∀ x ∈ kept, x.isValid = true → r.tpSeqNo < x.tpSeqNo → q'.tpSeqNo ≤ x.tpSeqNo :=
    fun x hx hv hlt => List.le_of_mem_argmin (List.mem_filter.mpr ⟨hx, by simp [hv, hlt]⟩) hq'
  refine ⟨p', q', ?_, hpk, hqk, hmax p hlost.left.1 hlost.left.2 hlost.after, hpv.2, hqv.2,
    hmin q hlost.right.1 hlost.right.2 hlost.before⟩
  have hps := (h.mem_iff p').mpr hpk
  have hqs := (h.mem_iff q').mpr hqk
  refine ⟨⟨hps.1, hids p' hpk hpv.1⟩, ⟨hqs.1, hids q' hqk hqv.1⟩, hps.2.trans hqs.2.symm,
    hpv.2.trans hqv.2, ?_⟩
  intro x hx hxids hxsym hpx
  have hxk : x ∈ kept := (h.mem_iff x).mp ⟨hx, hxsym.trans hqs.2⟩
  have hxv : x.isValid = true := by
    rw [QuoteRow.hasIds, Bool.and_eq_true] at hxids
    exact hxids.1
  obtain hlt | heq | hgt := lt_trichotomy x.tpSeqNo r.tpSeqNo
  · exact absurd (hmax x hxk hxv hlt) (not_le.mpr hpx)
  · -- it would be the lost row itself
    obtain rfl := s.eq_of_tpSeqNo (hsub x hxk) hlost.row.1 heq
    exact absurd rfl (hlost.gone x hxk)
  · exact hmin x hxk hxv hgt

/-- A loss of update ids, with valid rows before and after it and no invalid row between these,
is reported as an unmarked break. -/
theorem loss_detected (s : SymbolSession t sym) (h : Remaining s kept stored)
    (hlost : Lost s kept p r q) :
    0 < (check t (.stored (need t) stored)).unmarked := by
  obtain ⟨p', q', hprec, hpk, hqk, hpp, hpr, hrq, hqq⟩ := exists_adjacent h hlost
  have hp := h.sublist.subset hpk
  have hq := h.sublist.subset hqk
  have hvalid : ∀ x ∈ s.rows, p'.tpSeqNo < x.tpSeqNo → x.tpSeqNo < q'.tpSeqNo →
      x.isValid = true := fun x hx hpx hxq =>
    hlost.valid x hx (hpp.trans_lt hpx) (hxq.trans_le hqq)
  have hpv : p'.isValid = true := (Bool.and_eq_true_iff.mp hprec.left.2).1
  have hqv : q'.isValid = true := (Bool.and_eq_true_iff.mp hprec.right.2).1
  have hbefore := s.after hp hlost.row.1 hpr hpv hlost.row.2
    fun x hx hpx hxr => hvalid x hx hpx (hxr.trans hrq)
  have hafter := s.after hlost.row.1 hq hrq hlost.row.2 hqv
    fun x hx hrx hxq => hvalid x hx (hpr.trans hrx) hxq
  have hcont : QuoteRow.cont t p' q' = false :=
    QuoteRow.not_cont_of_between (s.ranges p' hp hpv) (s.ranges r hlost.row.1 hlost.row.2)
      (s.ranges q' hq hqv) hbefore hafter (hlost.gone p' hpk) (hlost.gone q' hqk)
  have hmarked : ¬ Marked stored p' q' := by
    rintro ⟨x, hx, hinvalid, hsym, hpx, hxq⟩
    have hxk : x ∈ kept := (h.mem_iff x).mp ⟨hx, hsym.trans ((h.mem_iff q').mpr hqk).2⟩
    have := hvalid x (h.sublist.subset hxk) hpx hxq
    rw [hinvalid] at this
    exact Bool.noConfusion this
  refine Nat.pos_of_ne_zero fun hzero => ?_
  have hfh := (unmarked_eq_zero_iff t h.nodup).mp hzero p' q' hprec hmarked hcont
  exact absurd hfh (s.ordered_of_lt hp hq hprec.before).2.asymm

/-- Futures rows that chain by their previous ids. -/
def chainedRow (U u pu : Int) (n : Nat) : QuoteRow String :=
  { sym := "BTCUSDT", isValid := true, exchFirstUpdateId := U, exchUpdateId := u
    exchPrevUpdateId := pu, fhSeqNo := n, tpSeqNo := 1000 + n }

def chainedSession : SymbolSession .quoteBinanceFut "BTCUSDT" where
  rows := [chainedRow 990 1010 985 1, chainedRow 1500 1520 1010 2, chainedRow 2900 2950 1520 3]
  ofSym := by decide
  ordered := by decide
  ranges := by
    simp only [List.forall_mem_cons]
    exact ⟨fun _ => ⟨990, 1010, rfl, rfl, by decide⟩, fun _ => ⟨1500, 1520, rfl, rfl, by decide⟩,
      fun _ => ⟨2900, 2950, rfl, rfl, by decide⟩, fun _ h => absurd h List.not_mem_nil⟩
  continues := by
    rw [List.isChain_cons_cons, List.isChain_cons_cons]
    exact ⟨fun _ _ => ⟨by decide, Or.inr (WithBot.coe_lt_coe.mpr (by decide))⟩,
      fun _ _ => ⟨by decide, Or.inr (WithBot.coe_lt_coe.mpr (by decide))⟩, List.isChain_singleton _⟩

/-- The row in the middle is deleted. -/
theorem loss_detected_middle :
    0 < (check .quoteBinanceFut (.stored (need .quoteBinanceFut)
      [chainedRow 990 1010 985 1, chainedRow 2900 2950 1520 3])).unmarked := by
  have hremaining : Remaining chainedSession [chainedRow 990 1010 985 1, chainedRow 2900 2950 1520 3]
      [chainedRow 990 1010 985 1, chainedRow 2900 2950 1520 3] :=
    { sublist := by decide, invalid := by decide, rest := by decide, nodup := by decide }
  have hlost : Lost chainedSession [chainedRow 990 1010 985 1, chainedRow 2900 2950 1520 3]
      (chainedRow 990 1010 985 1) (chainedRow 1500 1520 1010 2) (chainedRow 2900 2950 1520 3) :=
    { left := by decide
      right := by decide
      row := by decide
      after := by decide
      before := by decide
      valid := by decide
      gone := by decide }
  exact loss_detected chainedSession hremaining hlost

end TickToSignal.Utils
