import TickToSignal.Foundation.Machine
import TickToSignal.Trade.Backfill

/-!
# What the backfill hands out

Read from left to right, the outputs of one gap carry its ids one after the
other, every report says how far they got, and nothing follows a terminal
report. A page in flight is always the next page of the gap at the head of the
queue.

## Implementation notes

`Delivers` reads the outputs of one gap like an acceptor, with the number of
rows so far as its state. A gap in the queue has an `Open` trace, a gap that
left it a `Closed` one.
-/

namespace TickToSignal.Trade

open Foundation

variable {φ δ : Type*}

/-- The ids handed to `publishRow`. -/
def rowIds (out : List (Out δ)) : List Int :=
  out.filterMap fun
    | .row _ _ t _ => some t.id
    | _ => none

/-- The outputs that are for one job. -/
def traceOf (job : Nat) (out : List (Out δ)) : List (Out δ) :=
  out.filter fun o => decide (o.job = job)

/-- The outputs a gap may have once `n` of its ids were published. -/
def Delivers (gap : TradeGap) : Nat → List (Out δ) → Prop
  | _, [] => True
  | n, .applied _ _ :: rest => Delivers gap n rest
  | n, .row _ sym t _ :: rest =>
      sym = gap.sym ∧ t.id = gap.nextNeededId + n ∧ t.id ≤ gap.lastId ∧ Delivers gap (n + 1) rest
  | n, .event _ g status _ :: rest =>
      g = gap.advance n ∧ (status = .recovered → gap.lastId < gap.nextNeededId + n) ∧
        (0 < n → gap.lastId < gap.nextNeededId + n → status = .recovered) ∧
        (status.terminal = true → rest = []) ∧ Delivers gap n rest

/-- No output ends the gap. -/
def Unfinished (out : List (Out δ)) : Prop :=
  ∀ job g status reason, Out.event job g status reason ∈ out → status.terminal = false

/-- The trace of a gap that is still queued, as `cur`. -/
structure Open (gap : TradeGap) (out : List (Out δ)) (cur : TradeGap) : Prop where
  delivers : Delivers gap 0 out
  unfinished : Unfinished out
  cur_eq : cur = gap.advance (rowIds out).length
  needed : 0 < (rowIds out).length → gap.nextNeededId + (rowIds out).length ≤ gap.lastId

/-- The trace of a gap that left the queue. -/
structure Closed (gap : TradeGap) (out : List (Out δ)) : Prop where
  delivers : Delivers gap 0 out
  ended : ∃ pre job g status reason, out = pre ++ [.event job g status reason] ∧
    status.terminal = true

/-! ## Reading a trace -/

@[simp] theorem rowIds_append (out out' : List (Out δ)) :
    rowIds (out ++ out') = rowIds out ++ rowIds out' :=
  List.filterMap_append

@[simp] theorem rowIds_row (job : Nat) (sym : String) (t : BackfillTrade δ) (recvTimeUtcNs : Int)
    (out : List (Out δ)) : rowIds (.row job sym t recvTimeUtcNs :: out) = t.id :: rowIds out := rfl

@[simp] theorem rowIds_event (job : Nat) (g : TradeGap) (status : GapStatus) (reason : String)
    (out : List (Out δ)) : rowIds (.event job g status reason :: out) = rowIds out := rfl

@[simp] theorem rowIds_applied (job : Nat) (r : Request) (out : List (Out δ)) :
    rowIds (.applied job r :: out) = rowIds out := rfl

@[simp] theorem rowIds_nil : rowIds ([] : List (Out δ)) = [] := rfl

theorem rowIds_rows (job : Nat) (sym : String) (recvTimeUtcNs : Int)
    (ts : List (BackfillTrade δ)) :
    rowIds (ts.map fun t => Out.row job sym t recvTimeUtcNs) = ts.map (·.id) := by
  induction ts with
  | nil => rfl
  | cons t ts ih => simp [ih]

namespace Delivers

variable {gap : TradeGap} {n : Nat} {out out' : List (Out δ)}

theorem append (h : Delivers gap n out) (hopen : Unfinished out)
    (h' : Delivers gap (n + (rowIds out).length) out') : Delivers gap n (out ++ out') := by
  induction out generalizing n with
  | nil => exact h'
  | cons o out ih =>
      have hrest : Unfinished out := fun job g status reason hmem =>
        hopen job g status reason (List.mem_cons_of_mem o hmem)
      cases o with
      | applied job r => exact ih h hrest h'
      | row job sym t recv =>
          refine ⟨h.1, h.2.1, h.2.2.1, ih h.2.2.2 hrest ?_⟩
          rwa [rowIds_row, List.length_cons, Nat.add_comm _ 1, ← Nat.add_assoc] at h'
      | event job g status reason =>
          have hstatus := hopen job g status reason List.mem_cons_self
          exact ⟨h.1, h.2.1, h.2.2.1, fun hend => absurd hend (Bool.eq_false_iff.mp hstatus),
            ih h.2.2.2.2 hrest h'⟩

/-- The rows carry consecutive ids. -/
theorem rowIds_eq (h : Delivers gap n out) :
    rowIds out = (List.range (rowIds out).length).map fun i : Nat => gap.nextNeededId + n + i := by
  induction out generalizing n with
  | nil => rfl
  | cons o out ih =>
      cases o with
      | applied job r => exact ih h
      | event job g status reason => exact ih h.2.2.2.2
      | row job sym t recv =>
          rw [rowIds_row, List.length_cons, List.range_succ_eq_map, List.map_cons, List.map_map]
          congr 1
          · simpa using h.2.1
          · rw [ih h.2.2.2]
            simp only [List.length_map, List.length_range]
            apply List.map_congr_left
            intro i _
            simp only [Function.comp_apply]
            push_cast
            omega

/-- No row is above the gap. -/
theorem le_last (h : Delivers gap n out) : ∀ id ∈ rowIds out, id ≤ gap.lastId := by
  induction out generalizing n with
  | nil => simp
  | cons o out ih =>
      cases o with
      | applied job r => exact ih h
      | event job g status reason => exact ih h.2.2.2.2
      | row job sym t recv =>
          intro id hid
          obtain rfl | hid := List.mem_cons.mp hid
          · exact h.2.2.1
          · exact ih h.2.2.2 id hid

/-- Where a report stands: it says how far the rows before it got. -/
theorem event (h : Delivers gap n out) {pre post : List (Out δ)} {job : Nat} {g : TradeGap}
    {status : GapStatus} {reason : String}
    (hout : out = pre ++ .event job g status reason :: post) :
    g = gap.advance (n + (rowIds pre).length) ∧
      (status = .recovered → gap.lastId < gap.nextNeededId + (n + (rowIds pre).length : Nat)) ∧
      (0 < n + (rowIds pre).length →
        gap.lastId < gap.nextNeededId + (n + (rowIds pre).length : Nat) → status = .recovered) ∧
      (status.terminal = true → post = []) := by
  induction pre generalizing n out with
  | nil =>
      subst hout
      exact ⟨h.1, h.2.1, h.2.2.1, h.2.2.2.1⟩
  | cons o pre ih =>
      subst hout
      cases o with
      | applied job r =>
          have hrest : Delivers gap n (pre ++ .event _ g status reason :: post) := h
          exact ih hrest rfl
      | event job g status reason => exact ih h.2.2.2.2 rfl
      | row job sym t recv =>
          rw [rowIds_row, List.length_cons, Nat.add_comm _ 1, ← Nat.add_assoc]
          exact ih h.2.2.2 rfl

end Delivers

/-- The part of a page that is published continues the gap. -/
theorem served_delivers {gap : TradeGap} {n : Nat} (job : Nat) (recvTimeUtcNs : Int)
    (ts : List (BackfillTrade δ)) :
    Delivers gap n ((served gap.lastId (gap.nextNeededId + n) ts).map fun t =>
      Out.row job gap.sym t recvTimeUtcNs) := by
  induction ts generalizing n with
  | nil => trivial
  | cons t ts ih =>
      simp only [served]
      split_ifs with hlow hout
      · exact ih
      · trivial
      · rw [not_or, not_not, not_lt] at hout
        refine ⟨rfl, hout.1, hout.2, ?_⟩
        have hnext : gap.nextNeededId + n + 1 = gap.nextNeededId + (n + 1 : Nat) := by
          push_cast
          omega
        rw [hnext]
        exact ih

/-! ## One output after the other -/

namespace Open

variable {gap cur : TradeGap} {out : List (Out δ)}

theorem first (gap : TradeGap) : Open gap ([] : List (Out δ)) gap :=
  { delivers := trivial, unfinished := by simp [Unfinished], cur_eq := rfl, needed := by simp }

theorem applied (h : Open gap out cur) (job : Nat) (r : Request) :
    Open gap (out ++ [.applied job r]) cur := by
  refine
    { delivers := h.delivers.append h.unfinished trivial, unfinished := ?_, cur_eq := ?_
      needed := ?_ }
  · intro job' g status reason hmem
    apply h.unfinished job' g status reason
    simpa using hmem
  · simpa using h.cur_eq
  · simpa using h.needed

theorem next_eq (h : Open gap out cur) (hgap : gap.Valid) :
    cur.nextNeededId = gap.nextNeededId + (rowIds out).length := by
  rw [h.cur_eq, hgap.advance_next]

theorem lastId_eq (h : Open gap out cur) : cur.lastId = gap.lastId := by
  rw [h.cur_eq, TradeGap.advance_lastId]

theorem sym_eq (h : Open gap out cur) : cur.sym = gap.sym := by
  rw [h.cur_eq, TradeGap.advance_sym]

theorem valid (h : Open gap out cur) (hgap : gap.Valid) : cur.Valid := by
  rw [h.cur_eq]
  apply hgap.advance
  have hnext := hgap.next_le
  by_cases hrows : 0 < (rowIds out).length
  · have hneeded := h.needed hrows
    omega
  · omega

/-- A terminal report closes the gap; it is `recovered` only if nothing is missing. -/
theorem finish (h : Open gap out cur) (hgap : gap.Valid) (job : Nat) {status : GapStatus}
    (hterm : status.terminal = true)
    (hrecovered : status = .recovered → cur.lastId < cur.nextNeededId) (reason : String) :
    Closed gap (out ++ [.event job cur status reason]) := by
  rw [h.next_eq hgap, h.lastId_eq] at hrecovered
  refine { delivers := h.delivers.append h.unfinished ?_, ended := ⟨out, job, cur, status, reason,
    rfl, hterm⟩ }
  rw [Nat.zero_add]
  refine ⟨h.cur_eq, hrecovered, fun hrows hdone => ?_, fun _ => rfl, trivial⟩
  exact absurd (h.needed hrows) (not_le.mpr hdone)

section

variable (job : Nat) (recvTimeUtcNs : Int) (ts : List (BackfillTrade δ))

/-- The rows a page adds, with the gap they lead to. -/
theorem rows (h : Open gap out cur) (hgap : gap.Valid) :
    Delivers gap 0 (out ++ (served cur.lastId cur.nextNeededId ts).map fun t =>
        Out.row job cur.sym t recvTimeUtcNs) ∧
      Unfinished (out ++ (served cur.lastId cur.nextNeededId ts).map fun t =>
        Out.row job cur.sym t recvTimeUtcNs) ∧
      (rowIds (out ++ (served cur.lastId cur.nextNeededId ts).map fun t =>
        Out.row job cur.sym t recvTimeUtcNs)).length
        = (rowIds out).length + (served cur.lastId cur.nextNeededId ts).length := by
  refine ⟨h.delivers.append h.unfinished ?_, ?_, ?_⟩
  · rw [Nat.zero_add, h.lastId_eq, h.sym_eq, h.next_eq hgap]
    exact served_delivers job recvTimeUtcNs ts
  · intro job' g status reason hmem
    apply h.unfinished job' g status reason
    simpa using hmem
  · simp [rowIds_rows]

theorem page_cur (h : Open gap out cur) (hgap : gap.Valid) (n : Nat) :
    cur.advance n = gap.advance ((rowIds out).length + n) := by
  rw [h.cur_eq, hgap.advance_advance]

/-- A page that leaves something missing. -/
theorem partly (h : Open gap out cur) (hgap : gap.Valid)
    (hleft : (cur.advance (served cur.lastId cur.nextNeededId ts).length).nextNeededId
      ≤ cur.lastId) (reason : String) :
    Open gap (out ++ (served cur.lastId cur.nextNeededId ts).map (fun t =>
        Out.row job cur.sym t recvTimeUtcNs) ++
          [.event job (cur.advance (served cur.lastId cur.nextNeededId ts).length) .partly reason])
      (cur.advance (served cur.lastId cur.nextNeededId ts).length) := by
  obtain ⟨hdelivers, hopen, hcount⟩ := h.rows job recvTimeUtcNs ts hgap
  rw [h.page_cur hgap, hgap.advance_next] at hleft
  rw [h.page_cur hgap]
  generalize served cur.lastId cur.nextNeededId ts = page at *
  refine { delivers := hdelivers.append hopen ?_, unfinished := ?_, cur_eq := ?_, needed := ?_ }
  · rw [Nat.zero_add, hcount]
    refine ⟨rfl, nofun, fun _ hdone => ?_, nofun, trivial⟩
    rw [h.lastId_eq] at hleft
    omega
  · intro job' g status reason' hmem
    obtain hmem | hmem := List.mem_append.mp hmem
    · exact hopen job' g status reason' hmem
    · cases List.mem_singleton.mp hmem
      rfl
  · rw [rowIds_append, List.length_append, hcount]
    rfl
  · intro _
    rw [rowIds_append, List.length_append, hcount, ← h.lastId_eq]
    simpa using hleft

/-- A page that reaches the end. -/
theorem recovered (h : Open gap out cur) (hgap : gap.Valid)
    (hdone : cur.lastId
      < (cur.advance (served cur.lastId cur.nextNeededId ts).length).nextNeededId)
    (reason : String) :
    Closed gap (out ++ (served cur.lastId cur.nextNeededId ts).map (fun t =>
        Out.row job cur.sym t recvTimeUtcNs) ++ [.event job
          (cur.advance (served cur.lastId cur.nextNeededId ts).length) .recovered reason]) := by
  obtain ⟨hdelivers, hopen, hcount⟩ := h.rows job recvTimeUtcNs ts hgap
  rw [h.page_cur hgap, hgap.advance_next] at hdone
  rw [h.page_cur hgap]
  generalize served cur.lastId cur.nextNeededId ts = page at *
  refine { delivers := hdelivers.append hopen ?_, ended := ⟨_, _, _, _, _, rfl, rfl⟩ }
  rw [Nat.zero_add, hcount]
  exact ⟨rfl, fun _ => h.lastId_eq ▸ hdone, fun _ _ => rfl, fun _ => rfl, trivial⟩

end

end Open

/-! ## All jobs -/

/-- The queue holds the gaps added last, in order; each gap's outputs fit it. -/
structure JobsSound (added : List TradeGap) (queue : List Job) (out : List (Out δ)) : Prop where
  valid : ∀ gap ∈ added, gap.Valid
  length_le : queue.length ≤ added.length
  nos : queue.map (·.no) = List.range' (added.length - queue.length) queue.length
  opened : ∀ job ∈ queue, ∃ gap, added[job.no]? = some gap ∧ Open gap (traceOf job.no out) job.gap
  closed : ∀ k gap, added[k]? = some gap → k < added.length - queue.length →
    Closed gap (traceOf k out)
  known : ∀ o ∈ out, o.job < added.length
  applied : ∀ job r, Out.applied job r ∈ out → r.job = job

theorem traceOf_append_self {job : Nat} {out new : List (Out δ)} (h : ∀ o ∈ new, o.job = job) :
    traceOf job (out ++ new) = traceOf job out ++ new := by
  have hall : new.filter (fun o => decide (o.job = job)) = new :=
    List.filter_eq_self.mpr fun o ho => by simpa using h o ho
  simp only [traceOf, List.filter_append, hall]

theorem traceOf_append_other {job k : Nat} {out new : List (Out δ)} (h : ∀ o ∈ new, o.job = job)
    (hk : k ≠ job) : traceOf k (out ++ new) = traceOf k out := by
  have hnone : new.filter (fun o => decide (o.job = k)) = [] :=
    List.filter_eq_nil_iff.mpr fun o ho => by simpa [h o ho] using hk.symm
  simp only [traceOf, List.filter_append, hnone, List.append_nil]

namespace JobsSound

variable {added : List TradeGap} {job : Job} {rest queue : List Job} {out new : List (Out δ)}

theorem no_lt (h : JobsSound added queue out) (hjob : job ∈ queue) :
    added.length - queue.length ≤ job.no ∧ job.no < added.length := by
  have hmem : job.no ∈ queue.map (·.no) := List.mem_map_of_mem hjob
  rw [h.nos, List.mem_range'_1] at hmem
  have hle := h.length_le
  omega

theorem head_no (h : JobsSound added (job :: rest) out) :
    job.no = added.length - (job :: rest).length := by
  have hnos := h.nos
  rw [List.map_cons, List.length_cons, List.range'_succ, List.cons.injEq] at hnos
  exact hnos.1

theorem rest_no_ne (h : JobsSound added (job :: rest) out) : ∀ j ∈ rest, j.no ≠ job.no := by
  have hnos : ((job :: rest).map (·.no)).Nodup := h.nos ▸ List.nodup_range'
  rw [List.map_cons, List.nodup_cons] at hnos
  exact fun j hj heq => hnos.1 (heq ▸ List.mem_map_of_mem hj)

theorem head_gap (h : JobsSound added (job :: rest) out) : ∃ gap, gap.Valid ∧
    added[job.no]? = some gap ∧ Open gap (traceOf job.no out) job.gap := by
  obtain ⟨gap, hgap, hopen⟩ := h.opened job List.mem_cons_self
  exact ⟨gap, h.valid gap (List.mem_of_getElem? hgap), hgap, hopen⟩

/-- Outputs for the job at the head that leave it open. -/
theorem front (h : JobsSound added (job :: rest) out) {job' : Job} (hno : job'.no = job.no)
    (hnew : ∀ o ∈ new, o.job = job.no) (happlied : ∀ r, Out.applied job.no r ∈ new → r.job = job.no)
    (hopen : ∀ gap, gap.Valid → Open gap (traceOf job.no out) job.gap →
      Open gap (traceOf job.no out ++ new) job'.gap) :
    JobsSound added (job' :: rest) (out ++ new) := by
  have hlt := (h.no_lt List.mem_cons_self).2
  refine
    { valid := h.valid, length_le := h.length_le, nos := ?_, opened := ?_, closed := ?_
      known := ?_, applied := ?_ }
  · have hnos := h.nos
    rw [List.map_cons] at hnos ⊢
    rw [hno]
    exact hnos
  · intro j hj
    obtain rfl | hj := List.mem_cons.mp hj
    · obtain ⟨gap, hvalid, hgap, hcur⟩ := h.head_gap
      rw [hno, traceOf_append_self hnew]
      exact ⟨gap, hgap, hopen gap hvalid hcur⟩
    · obtain ⟨gap, hgap, hcur⟩ := h.opened j (List.mem_cons_of_mem job hj)
      rw [traceOf_append_other hnew (h.rest_no_ne j hj)]
      exact ⟨gap, hgap, hcur⟩
  · intro k gap hgap hk
    rw [traceOf_append_other hnew (by have := h.head_no; simp only [List.length_cons] at *; omega)]
    exact h.closed k gap hgap hk
  · intro o ho
    obtain ho | ho := List.mem_append.mp ho
    · exact h.known o ho
    · exact hnew o ho ▸ hlt
  · intro k r hr
    obtain hr | hr := List.mem_append.mp hr
    · exact h.applied k r hr
    · obtain rfl : k = job.no := hnew _ hr
      exact happlied r hr

/-- Outputs for the job at the head that close it. -/
theorem close (h : JobsSound added (job :: rest) out) (hnew : ∀ o ∈ new, o.job = job.no)
    (happlied : ∀ r, Out.applied job.no r ∈ new → r.job = job.no)
    (hclosed : ∀ gap, gap.Valid → Open gap (traceOf job.no out) job.gap →
      Closed gap (traceOf job.no out ++ new)) :
    JobsSound added rest (out ++ new) := by
  have hlt := (h.no_lt List.mem_cons_self).2
  have hno := h.head_no
  have hle := h.length_le
  rw [List.length_cons] at hno hle
  refine
    { valid := h.valid, length_le := by omega, nos := ?_, opened := ?_, closed := ?_
      known := ?_, applied := ?_ }
  · have hnos := h.nos
    rw [List.map_cons, List.length_cons, List.range'_succ, List.cons.injEq] at hnos
    rw [hnos.2]
    congr 1
    omega
  · intro j hj
    obtain ⟨gap, hgap, hcur⟩ := h.opened j (List.mem_cons_of_mem job hj)
    rw [traceOf_append_other hnew (h.rest_no_ne j hj)]
    exact ⟨gap, hgap, hcur⟩
  · intro k gap hgap hk
    by_cases heq : k = job.no
    · obtain ⟨gap', hvalid, hgap', hcur⟩ := h.head_gap
      rw [heq, hgap', Option.some.injEq] at hgap
      rw [heq, traceOf_append_self hnew, ← hgap]
      exact hclosed gap' hvalid hcur
    · rw [traceOf_append_other hnew heq]
      exact h.closed k gap hgap (by rw [List.length_cons]; omega)
  · intro o ho
    obtain ho | ho := List.mem_append.mp ho
    · exact h.known o ho
    · exact hnew o ho ▸ hlt
  · intro k r hr
    obtain hr | hr := List.mem_append.mp hr
    · exact h.applied k r hr
    · obtain rfl : k = job.no := hnew _ hr
      exact happlied r hr

theorem addGap (h : JobsSound added queue out) {gap : TradeGap} (hgap : gap.Valid) :
    JobsSound (added ++ [gap]) (queue ++ [{ no := added.length, gap := gap }]) out := by
  have hle := h.length_le
  have hget : ∀ k, k < added.length → (added ++ [gap])[k]? = added[k]? := fun k hk =>
    List.getElem?_append_left hk
  refine
    { valid := ?_, length_le := by simpa using hle, nos := ?_, opened := ?_, closed := ?_
      known := ?_, applied := h.applied }
  · intro g hg
    obtain hg | hg := List.mem_append.mp hg
    · exact h.valid g hg
    · exact List.mem_singleton.mp hg ▸ hgap
  · rw [List.map_append, h.nos]
    simp only [List.map_cons, List.map_nil, List.length_append, List.length_singleton,
      Nat.add_sub_add_right, List.range'_concat]
    congr 2
    omega
  · intro job hjob
    obtain hjob | hjob := List.mem_append.mp hjob
    · obtain ⟨g, hg, hcur⟩ := h.opened job hjob
      exact ⟨g, (hget job.no (h.no_lt hjob).2).trans hg, hcur⟩
    · rw [List.mem_singleton.mp hjob]
      have hnone : traceOf added.length out = [] :=
        List.filter_eq_nil_iff.mpr fun o ho => by simpa using (h.known o ho).ne
      refine ⟨gap, by simp, ?_⟩
      rw [hnone]
      exact Open.first gap
  · intro k g hg hk
    simp only [List.length_append, List.length_singleton, Nat.add_sub_add_right] at hk
    rw [hget k (by omega)] at hg
    exact h.closed k g hg hk
  · intro o ho
    rw [List.length_append]
    exact Nat.lt_add_right _ (h.known o ho)

end JobsSound

/-! ## The machine -/

namespace TradeBackfill

/-- What was requested and not yet applied. -/
def pending (s : TradeBackfill φ δ) : List Request :=
  s.requests.items ++ s.fetching.toList ++ s.results.items.map (·.request) ++
    s.inlinePage.toList.map (·.request)

/-- The jobs' part of the state. -/
def Jobs (s : TradeBackfill φ δ) : Prop := JobsSound s.added s.queue s.out

/-- At most one request is under way, for the next page of the job at the head. -/
structure Pipeline (cfg : TradeBackfillConfig) (s : TradeBackfill φ δ) : Prop where
  one : s.pending.length ≤ 1
  head : ∀ r ∈ s.pending, s.inFlight = true ∧
    ∃ job, s.queue.head? = some job ∧ r = nextRequest cfg job

structure Sound (cfg : TradeBackfillConfig) (s : TradeBackfill φ δ) : Prop where
  jobs : s.Jobs
  pipeline : s.Pipeline cfg

/-- What the handling of a page leaves alone. -/
structure SamePipeline (s s' : TradeBackfill φ δ) : Prop where
  inFlight : s'.inFlight = s.inFlight
  inlinePage : s'.inlinePage = s.inlinePage
  requests : s'.requests = s.requests
  results : s'.results = s.results
  fetching : s'.fetching = s.fetching
  added : s'.added = s.added

theorem SamePipeline.refl (s : TradeBackfill φ δ) : SamePipeline s s := ⟨rfl, rfl, rfl, rfl, rfl, rfl⟩

theorem SamePipeline.trans {s s' s'' : TradeBackfill φ δ} (h : SamePipeline s s')
    (h' : SamePipeline s' s'') : SamePipeline s s'' :=
  ⟨h'.inFlight.trans h.inFlight, h'.inlinePage.trans h.inlinePage, h'.requests.trans h.requests,
    h'.results.trans h.results, h'.fetching.trans h.fetching, h'.added.trans h.added⟩

theorem SamePipeline.pending {s s' : TradeBackfill φ δ} (h : SamePipeline s s') :
    s'.pending = s.pending := by
  simp only [TradeBackfill.pending, h.requests, h.fetching, h.results, h.inlinePage]

/-- With nothing under way the queue may change. -/
theorem Pipeline.of_idle (cfg : TradeBackfillConfig) {s : TradeBackfill φ δ}
    (hidle : s.pending = []) : s.Pipeline cfg :=
  { one := by simp [hidle], head := by simp [hidle] }

/-- A request may get lost. -/
theorem Pipeline.of_subperm {cfg : TradeBackfillConfig} {s s' : TradeBackfill φ δ}
    (h : s.Pipeline cfg) (hsub : s'.pending.Subperm s.pending) (hflight : s'.inFlight = s.inFlight)
    (hqueue : s'.queue = s.queue) : s'.Pipeline cfg :=
  { one := hsub.length_le.trans h.one
    head := fun r hr => hflight ▸ hqueue ▸ h.head r (hsub.subset hr) }

theorem Pipeline.idle {cfg : TradeBackfillConfig} {s : TradeBackfill φ δ} (h : s.Pipeline cfg)
    (hflight : s.inFlight = false) : s.pending = [] := by
  rw [List.eq_nil_iff_forall_not_mem]
  exact fun r hr => absurd (h.head r hr).1 (by simp [hflight])

/-! ### A page -/

section

variable {s : TradeBackfill φ δ} {job : Job} {rest : List Job}

theorem finish_same (status : GapStatus) (reason : String) (s : TradeBackfill φ δ) :
    SamePipeline s (s.finish status reason) := by
  simp only [finish]
  split <;> exact ⟨rfl, rfl, rfl, rfl, rfl, rfl⟩

theorem finish_jobs (h : s.Jobs) {status : GapStatus} (hterm : status.terminal = true)
    (hrecovered : status = .recovered → ∀ job, s.queue.head? = some job →
      job.gap.lastId < job.gap.nextNeededId) (reason : String) : (s.finish status reason).Jobs := by
  simp only [finish]
  split
  · exact h
  · next job rest hqueue =>
      simp only [Jobs, hqueue] at h ⊢
      refine h.close ?_ (by simp) ?_
      · simp [Out.job]
      · intro gap hgap hopen
        apply hopen.finish hgap job.no hterm
        exact fun hstatus => hrecovered hstatus job (by simp [hqueue])

theorem countFailure_same (cfg : TradeBackfillConfig) (page : BackfillPage δ) (nowMs : Int)
    (s : TradeBackfill φ δ) : SamePipeline s (s.countFailure cfg page nowMs) :=
  ⟨rfl, rfl, rfl, rfl, rfl, rfl⟩

theorem countFailure_jobs (h : s.Jobs) (cfg : TradeBackfillConfig) (page : BackfillPage δ)
    (nowMs : Int) : (s.countFailure cfg page nowMs).Jobs := by
  simp only [Jobs, countFailure]
  cases hqueue : s.queue with
  | nil => simpa [Jobs, hqueue] using h
  | cons job rest =>
      simp only [Jobs, hqueue] at h
      rw [← List.append_nil s.out]
      exact h.front rfl (by simp) (by simp) fun gap _ hopen => by simpa using hopen

theorem fail_same (cfg : TradeBackfillConfig) (page : BackfillPage δ) (nowMs : Int)
    (giveUpReason : String) (s : TradeBackfill φ δ) :
    SamePipeline s (s.fail cfg page nowMs giveUpReason) := by
  have hcount := countFailure_same cfg page nowMs s
  simp only [fail]
  split
  · exact hcount
  · split_ifs
    · exact hcount.trans (finish_same _ _ _)
    · exact hcount

theorem fail_jobs (h : s.Jobs) (cfg : TradeBackfillConfig) (page : BackfillPage δ) (nowMs : Int)
    (giveUpReason : String) : (s.fail cfg page nowMs giveUpReason).Jobs := by
  have hcount := countFailure_jobs h cfg page nowMs
  simp only [fail]
  split
  · exact hcount
  · split_ifs
    · exact finish_jobs hcount rfl (fun hstatus => absurd hstatus (by decide)) giveUpReason
    · exact hcount

theorem report_same (s : TradeBackfill φ δ) : SamePipeline s s.report := by
  simp only [report]
  split
  · exact .refl s
  · split_ifs
    · exact finish_same _ _ _
    · exact ⟨rfl, rfl, rfl, rfl, rfl, rfl⟩

theorem publishRows_same (job : Job) (rest : List Job) (page : BackfillPage δ)
    (ts : List (BackfillTrade δ)) (s : TradeBackfill φ δ) :
    SamePipeline s (s.publishRows job rest page ts) :=
  ⟨rfl, rfl, rfl, rfl, rfl, rfl⟩

/-- A page that has what the gap needs next is published and reported. -/
theorem publish_jobs (h : s.Jobs) (hqueue : s.queue = job :: rest) (page : BackfillPage δ)
    (hts : served job.gap.lastId job.gap.nextNeededId page.trades ≠ []) :
    (s.publishRows job rest page
      (served job.gap.lastId job.gap.nextNeededId page.trades)).report.Jobs := by
  simp only [Jobs, hqueue] at h
  have hlen : (served job.gap.lastId job.gap.nextNeededId page.trades).length ≠ 0 := by
    simpa using hts
  have hadvance : ({ job.gap with
      recovered := job.gap.recovered
        + (served job.gap.lastId job.gap.nextNeededId page.trades).length
      recoveredThroughId := job.gap.nextNeededId
        + (served job.gap.lastId job.gap.nextNeededId page.trades).length - 1 } : TradeGap)
      = job.gap.advance (served job.gap.lastId job.gap.nextNeededId page.trades).length := by
    rw [TradeGap.advance, if_neg hlen]
  have hnext : ∀ gap : TradeGap, gap.Valid → Open gap (traceOf job.no s.out) job.gap →
      (job.gap.advance (served job.gap.lastId job.gap.nextNeededId page.trades).length).nextNeededId
        = (job.gap.advance
            (served job.gap.lastId job.gap.nextNeededId page.trades).length).recoveredThroughId
          + 1 := by
    intro gap hgap hopen
    have hvalid := hopen.valid hgap
    rw [hvalid.advance_next, TradeGap.advance, if_neg hlen]
    simp only
    omega
  have hjob : ∀ g status reason, ∀ o ∈ (served job.gap.lastId job.gap.nextNeededId
      page.trades).map (fun t => Out.row job.no job.gap.sym t page.recvTimeUtcNs) ++
        [.event job.no g status reason], o.job = job.no := by
    intro g status reason o ho
    rw [List.mem_append, List.mem_map, List.mem_singleton] at ho
    obtain ⟨t, -, rfl⟩ | rfl := ho <;> rfl
  simp only [report, publishRows, hadvance, TradeGap.advance_lastId]
  split_ifs with hdone
  · simp only [Jobs, finish]
    rw [List.append_assoc]
    refine h.close (hjob _ _ _) (by simp) ?_
    · intro gap hgap hopen
      rw [← List.append_assoc]
      apply hopen.recovered job.no page.recvTimeUtcNs page.trades hgap
      rw [hnext gap hgap hopen]
      omega
  · simp only [Jobs, emit]
    rw [List.append_assoc]
    refine h.front rfl (hjob _ _ _) (by simp) ?_
    · intro gap hgap hopen
      rw [← List.append_assoc]
      apply hopen.partly job.no page.recvTimeUtcNs page.trades hgap
      rw [hnext gap hgap hopen]
      omega

theorem onPage_same (cfg : TradeBackfillConfig) (page : BackfillPage δ) (nowMs : Int)
    (s : TradeBackfill φ δ) : SamePipeline s (s.onPage cfg page nowMs) := by
  have hok : SamePipeline s
      { s with sched := s.sched.onFetchOk cfg.sched slot nowMs page.usedWeight1m } :=
    ⟨rfl, rfl, rfl, rfl, rfl, rfl⟩
  simp only [onPage]
  split
  · exact .refl s
  split
  · split
    · exact hok.trans (finish_same _ _ _)
    · exact fail_same ..
  split
  · exact hok.trans (fail_same ..)
  split_ifs
  · exact hok.trans (finish_same _ _ _)
  · exact hok.trans (fail_same ..)
  · exact (hok.trans (publishRows_same ..)).trans (report_same _)

theorem onPage_jobs (h : s.Jobs) (cfg : TradeBackfillConfig) (page : BackfillPage δ) (nowMs : Int) :
    (s.onPage cfg page nowMs).Jobs := by
  have hnot : GapStatus.unrecoverable = .recovered → ∀ job, s.queue.head? = some job →
      job.gap.lastId < job.gap.nextNeededId := fun hstatus => absurd hstatus (by decide)
  have hok : Jobs { s with sched := s.sched.onFetchOk cfg.sched slot nowMs page.usedWeight1m } := h
  simp only [onPage]
  split
  · exact h
  next job rest hqueue =>
  split
  · split
    · exact finish_jobs hok rfl hnot _
    · exact fail_jobs h ..
  split
  · exact fail_jobs hok ..
  split_ifs with hlate hnone
  · exact finish_jobs hok rfl hnot _
  · exact fail_jobs hok ..
  · rw [List.isEmpty_iff] at hnone
    exact publish_jobs hok hqueue page hnone

/-! ### One round of `pump` -/

theorem settled_spec {cfg : TradeBackfillConfig} {gap : TradeGap} {status : GapStatus}
    {reason : String} (h : settled cfg gap = some (status, reason)) :
    status.terminal = true ∧ (status = .recovered → gap.lastId < gap.nextNeededId) := by
  simp only [settled] at h
  split_ifs at h with hoff hlarge hdone
  · cases h
    exact ⟨rfl, fun hstatus => absurd hstatus (by decide)⟩
  · cases h
    exact ⟨rfl, fun hstatus => absurd hstatus (by decide)⟩
  · cases h
    exact ⟨rfl, fun _ => hdone⟩

theorem settleHeads_spec (cfg : TradeBackfillConfig) (k : Nat) (h : s.Jobs) :
    SamePipeline s (s.settleHeads cfg k).2 ∧ (s.settleHeads cfg k).2.Jobs := by
  induction k generalizing s with
  | zero => exact ⟨.refl s, h⟩
  | succ k ih =>
      simp only [settleHeads]
      split
      · exact ⟨.refl s, h⟩
      next job rest hqueue =>
      split
      · exact ⟨.refl s, h⟩
      next status reason hsettled =>
      obtain ⟨hterm, hrecovered⟩ := settled_spec hsettled
      have hjobs : (s.finish status reason).Jobs := by
        apply finish_jobs h hterm
        intro hstatus job' hjob'
        rw [hqueue, List.head?_cons, Option.some.injEq] at hjob'
        exact hjob' ▸ hrecovered hstatus
      exact ⟨(finish_same status reason s).trans (ih hjobs).1, (ih hjobs).2⟩

theorem Sound.settle {cfg : TradeBackfillConfig} (h : s.Sound cfg) : (s.settle cfg).2.Sound cfg := by
  simp only [TradeBackfill.settle]
  split_ifs with hflight
  · exact h
  · have hidle := h.pipeline.idle (Bool.eq_false_iff.mpr hflight)
    obtain ⟨hsame, hjobs⟩ := settleHeads_spec cfg s.queue.length h.jobs
    exact { jobs := hjobs, pipeline := .of_idle cfg (hsame.pending.trans hidle) }

theorem tryPop_items {α : Type*} (q : BoundedQueue α) :
    q.items = q.tryPop.1.toList ++ q.tryPop.2.items := by
  simp only [BoundedQueue.tryPop]
  split <;> simp_all

theorem push_items {α : Type*} (item : α) (q : BoundedQueue α) :
    (q.push item).items.Sublist (q.items ++ [item]) := by
  simp only [BoundedQueue.push]
  split_ifs
  · exact List.sublist_append_left _ _
  · exact (List.tail_sublist _).append_right _
  · exact List.Sublist.refl _

theorem poll_spec (cfg : TradeBackfillConfig) (s : TradeBackfill φ δ) :
    ((s.poll cfg).1.toList.map (·.request) ++ (s.poll cfg).2.pending).Subperm s.pending ∧
      (s.poll cfg).2.inFlight = s.inFlight ∧ (s.poll cfg).2.queue = s.queue ∧
      (s.poll cfg).2.added = s.added ∧ (s.poll cfg).2.out = s.out := by
  simp only [poll]
  split_ifs
  · refine ⟨?_, rfl, rfl, rfl, rfl⟩
    simp only [pending, Option.toList_none, List.map_nil, List.append_nil]
    exact List.perm_append_comm.subperm
  · refine ⟨?_, rfl, rfl, rfl, rfl⟩
    have hitems := tryPop_items s.results
    generalize s.results.tryPop = popped at hitems ⊢
    simp only [pending, hitems, List.map_append, Option.toList_none, List.map_nil, List.append_nil]
    exact (List.perm_append_comm_assoc ..).subperm.trans (List.sublist_append_left _ _).subperm

/-- A page that arrived is the one asked for the gap at the head. -/
theorem applyReply_sound {cfg : TradeBackfillConfig} {reply : Reply δ} (h : s.Jobs)
    (hhead : ∃ job, s.queue.head? = some job ∧ reply.request = nextRequest cfg job)
    (hidle : s.pending = []) (nowMs : Int) : (s.applyReply cfg reply nowMs).Sound cfg := by
  obtain ⟨job, hhead, hrequest⟩ := hhead
  obtain ⟨rest, hcons⟩ : ∃ rest, s.queue = job :: rest := List.head?_eq_some_iff.mp hhead
  set landed : TradeBackfill φ δ := { s with inFlight := false }
  have happly : s.applyReply cfg reply nowMs
      = (landed.emit [.applied job.no reply.request]).onPage cfg reply.page nowMs := by
    simp only [applyReply]
    split
    · next hnil => exact absurd (hnil.symm.trans hcons) (List.cons_ne_nil _ _).symm
    · next job' rest' hcons' =>
        obtain ⟨rfl, -⟩ := List.cons.inj (hcons'.symm.trans hcons)
        rfl
  rw [happly]
  have happlied : (landed.emit [.applied job.no reply.request]).Jobs := by
    simp only [Jobs, hcons] at h
    simp only [Jobs, emit, landed, hcons]
    refine h.front rfl ?_ ?_ ?_
    · simp [Out.job]
    · simp [hrequest, nextRequest]
    · exact fun gap _ hopen => hopen.applied _ _
  have hsame := onPage_same cfg reply.page nowMs (landed.emit [.applied job.no reply.request])
  exact
    { jobs := onPage_jobs happlied cfg reply.page nowMs
      pipeline := .of_idle cfg (hsame.pending.trans hidle) }

theorem Sound.takePage {cfg : TradeBackfillConfig} (h : s.Sound cfg) (nowMs : Int) :
    (s.takePage cfg nowMs).2.Sound cfg := by
  obtain ⟨hpending, hflight, hqueue, hadded, hout⟩ := poll_spec cfg s
  have hjobs : (s.poll cfg).2.Jobs := by
    simp only [Jobs, hadded, hqueue, hout]
    exact h.jobs
  simp only [TradeBackfill.takePage]
  split_ifs
  · split
    · next polled hpoll =>
        rw [hpoll] at hpending hflight hqueue hjobs
        exact { jobs := hjobs, pipeline := h.pipeline.of_subperm (by simpa using hpending) hflight hqueue }
    · next reply polled hpoll =>
        rw [hpoll] at hpending hqueue hjobs
        have hlen := hpending.length_le.trans h.pipeline.one
        have hmem : reply.request ∈ s.pending := hpending.subset (by simp)
        simp only [Option.toList_some, List.map_cons, List.map_nil, List.length_append,
          List.length_singleton] at hlen
        apply applyReply_sound hjobs
        · exact hqueue ▸ (h.pipeline.head _ hmem).2
        · have hnone : polled.pending.length = 0 := by omega
          exact List.length_eq_zero_iff.mp hnone
  · exact h

/-- The next request is for the gap at the head, and the only one. -/
theorem Sound.request {cfg : TradeBackfillConfig} (h : s.Sound cfg) (fetch : Fetcher φ δ)
    (nowMs : Int) : (s.request cfg fetch nowMs).2.Sound cfg := by
  simp only [TradeBackfill.request]
  split
  · next job rest hflight hqueue =>
      have hidle := h.pipeline.idle hflight
      simp only [pending, List.append_eq_nil_iff] at hidle
      obtain ⟨⟨⟨hrequests, hfetching⟩, hresults⟩, hinline⟩ := hidle
      have hasked : ∀ s' : TradeBackfill φ δ, s'.Jobs → s'.queue = s.queue → s'.inFlight = true →
          s'.pending.Sublist [nextRequest cfg job] → s'.Sound cfg := by
        intro s' hjobs hqueue' hflight' hsub
        refine { jobs := hjobs, pipeline := { one := hsub.length_le, head := fun r hr => ?_ } }
        refine ⟨hflight', job, by simp [hqueue', hqueue], ?_⟩
        exact List.mem_singleton.mp (hsub.subset hr)
      split_ifs with hgranted hmode
      · refine hasked _ ?_ rfl rfl ?_
        · exact h.jobs
        · simp [pending, hrequests, hfetching, hresults]
      · refine hasked _ ?_ rfl rfl ?_
        · exact h.jobs
        have hpush := push_items (nextRequest cfg job) s.requests
        simpa [pending, hrequests, hfetching, hresults, hinline] using hpush
      · exact { jobs := h.jobs, pipeline := { one := h.pipeline.one, head := h.pipeline.head } }
  · exact h

theorem Sound.pumpLoop {cfg : TradeBackfillConfig} (fetch : Fetcher φ δ) (nowMs : Int) (guard : Nat)
    (h : s.Sound cfg) : (s.pumpLoop cfg fetch nowMs guard).Sound cfg := by
  induction guard generalizing s with
  | zero => exact h
  | succ guard ih =>
      have honce : (s.pumpOnce cfg fetch nowMs).2.Sound cfg :=
        ((h.takePage nowMs).settle).request fetch nowMs
      simp only [TradeBackfill.pumpLoop]
      split_ifs
      · exact ih honce
      · exact honce

/-! ### Every step -/

theorem Sound.addGap {cfg : TradeBackfillConfig} (h : s.Sound cfg) {gap : TradeGap}
    (hgap : gap.Valid) : (s.addGap gap).Sound cfg := by
  refine
    { jobs := JobsSound.addGap h.jobs hgap
      pipeline := { one := h.pipeline.one, head := fun r hr => ?_ } }
  obtain ⟨hflight, job, hhead, hr⟩ := h.pipeline.head r hr
  refine ⟨hflight, job, ?_, hr⟩
  simp [TradeBackfill.addGap, List.head?_append, hhead]

theorem Sound.workerPop {cfg : TradeBackfillConfig} (h : s.Sound cfg) :
    s.workerPop.Sound cfg := by
  simp only [TradeBackfill.workerPop]
  split
  · next hrunning hfetching =>
      refine { jobs := h.jobs, pipeline := h.pipeline.of_subperm ?_ rfl rfl }
      have hitems := tryPop_items s.requests
      generalize s.requests.tryPop = popped at hitems ⊢
      simp only [pending, hitems, hfetching, Option.toList_none, List.append_nil]
      exact (List.perm_append_comm.append_right _).append_right _ |>.subperm
  · exact h

theorem Sound.workerPush {cfg : TradeBackfillConfig} (h : s.Sound cfg) (fetch : Fetcher φ δ) :
    (s.workerPush fetch).Sound cfg := by
  simp only [TradeBackfill.workerPush]
  split
  · exact h
  · next r hfetching =>
      refine { jobs := h.jobs, pipeline := h.pipeline.of_subperm ?_ rfl rfl }
      have hpush := (push_items { request := r, page := (fetch r.sym r.fromId r.limit s.fetcher).1 }
        s.results).map (·.request)
      rw [List.map_append, List.map_singleton] at hpush
      have hswap : (s.results.items.map (·.request) ++ [r]).Perm
          ([r] ++ s.results.items.map (·.request)) := List.perm_append_comm
      simp only [pending, hfetching, Option.toList_none, Option.toList_some, List.append_nil,
        List.append_assoc]
      rw [← List.append_assoc [r]]
      apply (List.subperm_append_left _).mpr
      exact (List.subperm_append_right _).mpr (hpush.subperm.trans hswap.subperm)

/-- Every step keeps the jobs' traces and the one request in order. -/
theorem Sound.step {cfg : TradeBackfillConfig} (h : s.Sound cfg) (fetch : Fetcher φ δ)
    {i : BackfillStep} (hvalid : ∀ gap, i = .addGap gap → gap.Valid) :
    (s.step cfg fetch i).Sound cfg := by
  cases i with
  | addGap gap => exact h.addGap (hvalid gap rfl)
  | pump nowMs => exact h.pumpLoop fetch nowMs 100000
  | start =>
      simp only [TradeBackfill.step, TradeBackfill.start]
      split_ifs
      · exact h
      · exact { jobs := h.jobs, pipeline := { one := h.pipeline.one, head := h.pipeline.head } }
  | stop =>
      simp only [TradeBackfill.step, TradeBackfill.stop]
      split_ifs
      · exact { jobs := h.jobs, pipeline := { one := h.pipeline.one, head := h.pipeline.head } }
      · exact h
  | workerPop => exact h.workerPop
  | workerPush => exact h.workerPush fetch

theorem Sound.init (cfg : TradeBackfillConfig) (fetcher : φ) :
    (init cfg fetcher : TradeBackfill φ δ).Sound cfg :=
  { jobs :=
      { valid := by simp [TradeBackfill.init], length_le := le_rfl, nos := rfl
        opened := by simp [TradeBackfill.init], closed := by simp [TradeBackfill.init]
        known := by simp [TradeBackfill.init], applied := by simp [TradeBackfill.init] }
    pipeline := .of_idle cfg rfl }

end

end TradeBackfill

/-! ## The result -/

/-- What `out`, the outputs of one gap so far, may be. -/
structure Delivered (gap : TradeGap) (out : List (Out δ)) : Prop where
  /-- the ids from the first one needed on, each once, in order -/
  consecutive :
    rowIds out = (List.range (rowIds out).length).map fun i : Nat => gap.nextNeededId + i
  inside : ∀ id ∈ rowIds out, gap.firstId ≤ id ∧ id ≤ gap.lastId
  /-- a report has the range of the gap, and progress that adds up with the rows before it -/
  progress : ∀ pre job g status reason post, out = pre ++ .event job g status reason :: post →
    g.sym = gap.sym ∧ g.firstId = gap.firstId ∧ g.lastId = gap.lastId ∧
      (rowIds pre ≠ [] → g.recoveredThroughId = gap.nextNeededId + (rowIds pre).length - 1 ∧
        g.recovered = g.recoveredThroughId - g.firstId + 1)
  /-- nothing follows a terminal report -/
  last : ∀ pre job g status reason post, out = pre ++ .event job g status reason :: post →
    status.terminal = true → post = []
  recovered : ∀ pre job g reason post, out = pre ++ .event job g .recovered reason :: post →
    g.recoveredThroughId = g.lastId
  complete : gap.lastId ∈ rowIds out →
    ∃ pre job g reason, out = pre ++ [.event job g .recovered reason]

namespace Delivers

variable {gap : TradeGap} {out : List (Out δ)}

theorem recovered_eq (hgap : gap.Valid) {n : Nat} (hpos : 0 < n) :
    (gap.advance n).recoveredThroughId = gap.nextNeededId + n - 1 ∧
      (gap.advance n).recovered =
        (gap.advance n).recoveredThroughId - (gap.advance n).firstId + 1 := by
  have hadd := hgap.recovered_eq
  simp only [TradeGap.advance, if_neg hpos.ne', true_and]
  omega

/-- The bound that the rows of a trace keep. -/
theorem next_le (hgap : gap.Valid) (h : Delivers gap 0 out) :
    gap.nextNeededId + (rowIds out).length ≤ gap.lastId + 1 := by
  have hnext := hgap.next_le
  have hids := h.rowIds_eq
  have hlast := h.le_last
  cases hlen : (rowIds out).length with
  | zero => simpa using hnext
  | succ n =>
      rw [hlen] at hids
      have hmem : gap.nextNeededId + (0 : Nat) + (n : Int) ∈ rowIds out := by
        rw [hids, List.mem_map]
        exact ⟨n, by simp, rfl⟩
      have hle := hlast _ hmem
      push_cast at hle ⊢
      omega

theorem before_next_le (hgap : gap.Valid) (h : Delivers gap 0 out) {pre post : List (Out δ)}
    (hout : out = pre ++ post) : gap.nextNeededId + (rowIds pre).length ≤ gap.lastId + 1 := by
  have hle := next_le hgap h
  rw [hout, rowIds_append, List.length_append] at hle
  push_cast at hle
  omega

theorem delivered (hgap : gap.Valid) (h : Delivers gap 0 out)
    (hcomplete : gap.lastId ∈ rowIds out →
      ∃ pre job g reason, out = pre ++ [.event job g .recovered reason]) : Delivered gap out := by
  have hids := h.rowIds_eq
  have hfirst := hgap.firstId_le_next
  refine
    { consecutive := by simpa using hids, inside := ?_, progress := ?_, last := ?_, recovered := ?_
      complete := hcomplete }
  · intro id hid
    refine ⟨?_, h.le_last id hid⟩
    rw [hids, List.mem_map] at hid
    obtain ⟨i, -, rfl⟩ := hid
    push_cast
    omega
  · intro pre job g status reason post hout
    have hbound := before_next_le hgap h hout
    obtain ⟨hg, -, -, -⟩ := h.event hout
    rw [Nat.zero_add] at hg
    refine ⟨by simp [hg], by simp [hg], by simp [hg], fun hrows => ?_⟩
    rw [hg]
    exact recovered_eq hgap (List.length_pos_iff.mpr hrows)
  · exact fun pre job g status reason post hout => (h.event hout).2.2.2
  · intro pre job g reason post hout
    have hbound := before_next_le hgap h hout
    obtain ⟨hg, hdone, -, -⟩ := h.event hout
    have hlast := hdone rfl
    rw [Nat.zero_add] at hg hlast
    have hnext := hgap.advance_next (rowIds pre).length
    rw [hg]
    apply (hgap.advance hbound).recoveredThroughId_eq
    rw [hnext, TradeGap.advance_lastId]
    exact hlast

end Delivers

theorem Open.delivered {gap cur : TradeGap} {out : List (Out δ)} (h : Open gap out cur)
    (hgap : gap.Valid) : Delivered gap out := by
  apply h.delivers.delivered hgap
  intro hlast
  have hids := h.delivers.rowIds_eq
  have hneeded := h.needed (List.length_pos_of_mem hlast)
  rw [hids, List.mem_map] at hlast
  obtain ⟨i, hi, heq⟩ := hlast
  rw [List.mem_range] at hi
  push_cast at heq
  omega

theorem Closed.delivered {gap : TradeGap} {out : List (Out δ)} (h : Closed gap out)
    (hgap : gap.Valid) : Delivered gap out := by
  apply h.delivers.delivered hgap
  intro hlast
  obtain ⟨pre, job, g, status, reason, hout, hterm⟩ := h.ended
  obtain ⟨-, -, hrecovered, -⟩ := h.delivers.event hout
  have hrows : rowIds out = rowIds pre := by simp [hout]
  have hids := h.delivers.rowIds_eq
  have hpos : 0 < (rowIds pre).length := hrows ▸ List.length_pos_of_mem hlast
  rw [hids, List.mem_map] at hlast
  obtain ⟨i, hi, heq⟩ := hlast
  rw [List.mem_range, hrows] at hi
  rw [Nat.zero_add] at hrecovered
  push_cast at heq hrecovered
  obtain rfl := hrecovered hpos (by omega)
  exact ⟨pre, job, g, reason, hout⟩

/-- Whatever the fetcher returns and whenever it does: each gap is handed out id by id up to a
terminal report, one request is under way at a time, and its page goes to its own gap. -/
theorem backfill_delivery (cfg : TradeBackfillConfig) (fetch : Fetcher φ δ) (fetcher : φ)
    (steps : List BackfillStep) (hvalid : ∀ gap, .addGap gap ∈ steps → gap.Valid) :
    let s := exec (TradeBackfill.step cfg fetch) (.init cfg fetcher) steps
    (∀ (k : Nat) gap, s.added[k]? = some gap → Delivered gap (traceOf k s.out)) ∧
      (∀ job ∈ s.queue, rowIds (traceOf job.no s.out) ≠ [] →
        job.gap.recovered = job.gap.recoveredThroughId - job.gap.firstId + 1) ∧
      s.pending.length ≤ 1 ∧ ∀ job r, Out.applied job r ∈ s.out → r.job = job := by
  intro s
  have hsound : s.Sound cfg :=
    exec_invariant_of_mem (fun _ i hi h => h.step fetch fun gap heq => hvalid gap (heq ▸ hi))
      (.init cfg fetcher)
  have hjobs : JobsSound s.added s.queue s.out := hsound.jobs
  refine ⟨?_, ?_, hsound.pipeline.one, hjobs.applied⟩
  · intro k gap hgap
    have hgapvalid := hjobs.valid gap (List.mem_of_getElem? hgap)
    by_cases hk : k < s.added.length - s.queue.length
    · exact (hjobs.closed k gap hgap hk).delivered hgapvalid
    · have hmem : k ∈ s.queue.map (·.no) := by
        have hlt := (List.getElem?_eq_some_iff.mp hgap).1
        have hle := hjobs.length_le
        rw [hjobs.nos, List.mem_range'_1]
        omega
      obtain ⟨job, hjob, rfl⟩ := List.mem_map.mp hmem
      obtain ⟨gap', hgap', hopen⟩ := hjobs.opened job hjob
      rw [hgap', Option.some.injEq] at hgap
      exact hgap ▸ hopen.delivered (hgap ▸ hgapvalid)
  · intro job hjob hrows
    obtain ⟨gap, hgap, hopen⟩ := hjobs.opened job hjob
    have hgapvalid := hjobs.valid gap (List.mem_of_getElem? hgap)
    rw [hopen.cur_eq]
    exact (Delivers.recovered_eq hgapvalid (List.length_pos_iff.mpr hrows)).2

private def sampleCfg : TradeBackfillConfig := { sched := { jitter := fun _ => 0 } }

/-- The first page has an id before the gap and stops early, the second goes past its end. -/
private def sampleFetch : Fetcher Nat Unit := fun _ _ _ n =>
  ({ ok := true
     trades := (if n = 0 then [0, 1, 2, 2] else [3, 4]).map fun id => { id := id, data := () } },
    n + 1)

private def sampleSteps : List BackfillStep :=
  [.start, .addGap { sym := "BTCUSDT", firstId := 1, lastId := 3 }, .pump 0, .workerPop,
    .workerPush, .pump 1, .workerPop, .workerPush, .pump 2]

theorem backfill_delivery_sample :
    let s := exec (TradeBackfill.step sampleCfg sampleFetch) (.init sampleCfg 0) sampleSteps
    rowIds (traceOf 0 s.out) = [1, 2, 3] ∧ Delivered { sym := "BTCUSDT", firstId := 1, lastId := 3 }
      (traceOf 0 s.out) := by
  have hvalid : ∀ gap, BackfillStep.addGap gap ∈ sampleSteps → gap.Valid := by
    intro gap hgap
    obtain rfl : gap = { sym := "BTCUSDT", firstId := 1, lastId := 3 } := by
      simpa [sampleSteps] using hgap
    exact { firstId_pos := by decide, first_le_last := by decide, progress := Or.inl ⟨rfl, rfl⟩ }
  exact ⟨by decide +kernel,
    (backfill_delivery sampleCfg sampleFetch 0 sampleSteps hvalid).1 0 _ (by decide +kernel)⟩

end TickToSignal.Trade
