import TickToSignal.Foundation.Counted
import TickToSignal.Publisher.Ring

/-!
# Who owns a K row

A row is a counted K object. The resend ring and the queue of gap events keep
references to rows, `k` takes over the references it is given, and the handler
gives up the one it built the row with. Here the ring and the queue hold
addresses, and every `r1`, `r0` and `k` of the source is a step on the heap.
The same calls over the rows themselves, without a heap, are what they are
compared with.

## Implementation notes

Opening a connection and registering are given by their outcome, one for each
turn of the loop in `connect`; when the outcomes end, shutdown was requested.
Whether `k` releases its arguments on a synchronous call too is a parameter:
`sendEvent` relies on it. What such a call would keep is recorded in `leaked`,
which no step reads. Counters, replies and log lines are left out.
-/

namespace TickToSignal.Publisher

open Foundation

variable {ι β κ μ : Type}

/-- The same row with other data. -/
def Row.map (f : κ → μ) (row : Row κ) : Row μ := { fhSeqNo := row.fhSeqNo, data := f row.data }

namespace ResendRing

def map (f : κ → μ) (ring : ResendRing κ) : ResendRing μ :=
  { capacity := ring.capacity, rows := ring.rows.map (Row.map f) }

/-- What the ring holds, without the numbers. -/
def data (ring : ResendRing κ) : List κ := ring.rows.map (·.data)

variable (f : κ → μ)

@[simp] theorem map_ofCapacity (capacity : ℕ) :
    (ofCapacity capacity : ResendRing κ).map f = ofCapacity capacity := rfl

@[simp] theorem data_map (ring : ResendRing κ) : (ring.map f).data = ring.data.map f := by
  simp only [data, map, List.map_map, Function.comp_def, Row.map]

theorem map_push (ring : ResendRing κ) (row : Row κ) :
    (ring.push row).map f = (ring.map f).push (row.map f) := by
  simp only [push, map, List.length_map, List.map_append, List.map_cons, List.map_nil]
  split_ifs
  · rw [List.map_tail]
  · rfl

theorem newestSeq_map (ring : ResendRing κ) : (ring.map f).newestSeq = ring.newestSeq := by
  simp only [newestSeq, map, List.getLast?_map, Option.map_map, Function.comp_def, Row.map]

theorem after_map (ring : ResendRing κ) (afterSeq : Int) :
    (ring.map f).after afterSeq = (ring.after afterSeq).map (Row.map f) := by
  simp only [after, map, List.filter_map, Function.comp_def]
  rfl

theorem rows_map_eq_nil (ring : ResendRing κ) : (ring.map f).rows = [] ↔ ring.rows = [] :=
  List.map_eq_nil_iff

end ResendRing

/-- What holds rows in a handler: the ring of its publisher and its queue of gap events. -/
structure RowHolder (κ : Type) where
  ring : ResendRing κ
  pending : List κ := []
  leaked : List κ := []
  connected : Bool := false
  running : Bool := true

namespace RowHolder

def start (ringSize : ℕ) : RowHolder κ := { ring := ResendRing.ofCapacity ringSize }

def map (f : κ → μ) (s : RowHolder κ) : RowHolder μ :=
  { ring := s.ring.map f, pending := s.pending.map f, leaked := s.leaked.map f
    connected := s.connected, running := s.running }

/-- What a synchronous call leaves of the reference it was given. -/
def keep (syncReleases : Bool) (row : κ) (s : RowHolder κ) : RowHolder κ :=
  if syncReleases then s else { s with leaked := row :: s.leaked }

/-- Every reference a handler has between two calls. -/
def held (s : RowHolder κ) : List κ := s.ring.data ++ s.pending ++ s.leaked

theorem held_map (f : κ → μ) (s : RowHolder κ) : (s.map f).held = s.held.map f := by
  simp only [held, map, ResendRing.data_map, List.map_append]

theorem map_map {ν : Type} (f : κ → μ) (g : μ → ν) (s : RowHolder κ) :
    (s.map f).map g = s.map (g ∘ f) := by
  simp only [map, ResendRing.map, List.map_map]
  rfl

theorem map_congr {f g : κ → μ} {s : RowHolder κ} (h : ∀ a ∈ s.held, f a = g a) :
    s.map f = s.map g := by
  have hring : s.ring.map f = s.ring.map g := by
    simp only [ResendRing.map]
    congr 1
    apply List.map_congr_left
    intro row hrow
    simp only [Row.map]
    rw [h row.data]
    simp only [held, ResendRing.data, List.mem_append, List.mem_map]
    exact Or.inl (Or.inl ⟨row, hrow, rfl⟩)
  simp only [map, hring]
  congr 1
  · exact List.map_congr_left fun a ha => h a (by simp [held, ha])
  · exact List.map_congr_left fun a ha => h a (by simp [held, ha])

end RowHolder

/-- What TP is sent. -/
inductive Sent (β : Type)
  | upd (row : β)
  | event (row : β)
  | health (row : β)
  deriving DecidableEq, Repr

/-- How one turn of the loop in `connect` goes. -/
inductive Attempt
  | refused
  | registrationLost
  | rejected
  /-- registered; the connection takes `accepts` rows of a resend before it dies -/
  | registered (lastLogged : Int) (accepts : ℕ)
  deriving DecidableEq, Repr

/-- TP's answer to a gap event. -/
inductive EventResult
  | acked
  | connectionLost
  | rejected
  deriving DecidableEq, Repr

/-- The calls of a handler that touch rows; a row is built by the call that sends it. -/
inductive RowCall (β : Type)
  | connect (attempts : List Attempt)
  | publish (row : β) (fhSeqNo : Int) (accepted : Bool) (attempts : List Attempt)
  | pushEvent (row : β)
  | flush (results : List EventResult)
  | publishHealth (row : β) (accepted : Bool)
  | close

/-! ### The calls over the rows themselves -/

namespace RowHolder

/-- The rows a resend gets through, and whether that is all of them. -/
def resend (ring : ResendRing β) (lastLogged : Int) (accepts : ℕ) : List β × Bool :=
  if lastLogged < 0 ∨ ring.rows = [] ∨ ring.newestSeq ≤ lastLogged then ([], true)
  else
    let rows := (ring.after lastLogged).map (·.data)
    (rows.take accepts, decide (rows.length ≤ accepts))

def connectLoop (s : RowHolder β) : List Attempt → List (Sent β) × RowHolder β
  | [] => ([], { s with running := false })
  | .refused :: rest => connectLoop s rest
  | .registrationLost :: rest => connectLoop s rest
  | .rejected :: _ => ([], { s with running := false })
  | .registered lastLogged accepts :: rest =>
      let (rows, ok) := resend s.ring lastLogged accepts
      if ok then (rows.map .upd, { s with connected := true })
      else
        let (out, s') := connectLoop s rest
        (rows.map .upd ++ out, s')

def connect (s : RowHolder β) (attempts : List Attempt) : List (Sent β) × RowHolder β :=
  if s.running then connectLoop s attempts else ([], s)

def publish (s : RowHolder β) (row : β) (fhSeqNo : Int) (accepted : Bool)
    (attempts : List Attempt) : List (Sent β) × RowHolder β :=
  let s := { s with ring := s.ring.push { fhSeqNo := fhSeqNo, data := row } }
  if s.connected then
    if accepted then ([.upd row], s) else connect { s with connected := false } attempts
  else connect s attempts

/-- The queue after the results: what was answered is out of it. -/
def flushRows (syncReleases : Bool) (s : RowHolder β) :
    List β → List EventResult → List (Sent β) × List β × RowHolder β
  | [], _ => ([], [], s)
  | row :: rows, results =>
      if s.connected then
        let s := s.keep syncReleases row
        match results with
        | [] => ([], row :: rows, { s with connected := false })
        | .connectionLost :: _ => ([], row :: rows, { s with connected := false })
        | _ :: results =>
            let (out, left, s') := flushRows syncReleases s rows results
            (.event row :: out, left, s')
      else ([], row :: rows, s)

def flush (syncReleases : Bool) (s : RowHolder β) (results : List EventResult) :
    List (Sent β) × RowHolder β :=
  let (out, left, s') := flushRows syncReleases s s.pending results
  (out, { s' with pending := left })

/-- One call, over the rows. -/
def call (syncReleases : Bool) (s : RowHolder β) : RowCall β → List (Sent β) × RowHolder β
  | .connect attempts => s.connect attempts
  | .publish row fhSeqNo accepted attempts => s.publish row fhSeqNo accepted attempts
  | .pushEvent row => ([], { s with pending := s.pending ++ [row] })
  | .flush results => s.flush syncReleases results
  | .publishHealth row accepted => (if s.connected ∧ accepted then [.health row] else [], s)
  | .close => ([], { s with connected := false })

def calls (syncReleases : Bool) (s : RowHolder β) : List (RowCall β) → List (Sent β) × RowHolder β
  | [] => ([], s)
  | c :: cs =>
      let (out, s') := call syncReleases s c
      let (out', s'') := calls syncReleases s' cs
      (out ++ out', s'')

end RowHolder

/-! ### The calls over addresses -/

namespace KRows

open Counted

variable [DecidableEq ι]

/-- `k`: the row goes out, and the reference given with it is taken over. -/
def k (row : ι) : Counted ι β β := do
  let v ← read row
  r0 row
  pure v

/-- The front of a full ring is released. -/
def evict (ring : ResendRing ι) : Counted ι β Unit :=
  if ring.capacity ≤ ring.rows.length then
    match ring.rows with
    | [] => fun _ => none
    | oldest :: _ => r0 oldest.data
  else pure ()

/-- `ResendRing::push`: takes over one reference to the row. -/
def push (ring : ResendRing ι) (row : Row ι) : Counted ι β (ResendRing ι) := do
  evict ring
  pure (ring.push row)

/-- The loop of `resend`: each row is sent with a reference of its own. -/
def sendRows : ℕ → List ι → Counted ι β (List β × Bool)
  | _, [] => pure ([], true)
  | 0, row :: _ => do
      r1 row
      let _ ← k row
      pure ([], false)
  | accepts + 1, row :: rows => do
      r1 row
      let v ← k row
      let (vs, ok) ← sendRows accepts rows
      pure (v :: vs, ok)

def resend (ring : ResendRing ι) (lastLogged : Int) (accepts : ℕ) : Counted ι β (List β × Bool) :=
  if lastLogged < 0 ∨ ring.rows = [] ∨ ring.newestSeq ≤ lastLogged then pure ([], true)
  else sendRows accepts ((ring.after lastLogged).map (·.data))

def connectLoop (s : RowHolder ι) :
    List Attempt → Counted ι β (List (Sent β) × RowHolder ι)
  | [] => pure ([], { s with running := false })
  | .refused :: rest => connectLoop s rest
  | .registrationLost :: rest => connectLoop s rest
  | .rejected :: _ => pure ([], { s with running := false })
  | .registered lastLogged accepts :: rest => do
      let (rows, ok) ← resend s.ring lastLogged accepts
      if ok then pure (rows.map .upd, { s with connected := true })
      else
        let (out, s') ← connectLoop s rest
        pure (rows.map .upd ++ out, s')

def connect (s : RowHolder ι) (attempts : List Attempt) :
    Counted ι β (List (Sent β) × RowHolder ι) :=
  if s.running then connectLoop s attempts else pure ([], s)

/-- `TpPublisher::publish`: takes over the reference to the row. -/
def publish (s : RowHolder ι) (row : ι) (fhSeqNo : Int) (accepted : Bool)
    (attempts : List Attempt) : Counted ι β (List (Sent β) × RowHolder ι) := do
  r1 row
  let ring ← push s.ring { fhSeqNo := fhSeqNo, data := row }
  let s := { s with ring := ring }
  if s.connected then
    let v ← k row
    if accepted then pure ([.upd v], s) else connect { s with connected := false } attempts
  else
    r0 row
    connect s attempts

/-- `k` on a synchronous call. -/
def kSync (syncReleases : Bool) (row : ι) : Counted ι β β :=
  if syncReleases then k row else read row

/-- `GapEventQueue::flush` with `sendEvent`: a row leaves the queue with its answer. -/
def flushRows (syncReleases : Bool) (s : RowHolder ι) :
    List ι → List EventResult → Counted ι β (List (Sent β) × List ι × RowHolder ι)
  | [], _ => pure ([], [], s)
  | row :: rows, results =>
      if s.connected then do
        r1 row
        let v ← kSync syncReleases row
        let s := s.keep syncReleases row
        match results with
        | [] => pure ([], row :: rows, { s with connected := false })
        | .connectionLost :: _ => pure ([], row :: rows, { s with connected := false })
        | _ :: results => do
            r0 row
            let (out, left, s') ← flushRows syncReleases s rows results
            pure (.event v :: out, left, s')
      else pure ([], row :: rows, s)

def flush (syncReleases : Bool) (s : RowHolder ι) (results : List EventResult) :
    Counted ι β (List (Sent β) × RowHolder ι) := do
  let (out, left, s') ← flushRows syncReleases s s.pending results
  pure (out, { s' with pending := left })

/-- One call: a row it needs is built first. -/
def call (malloc : Heap ι β → ι) (syncReleases : Bool) (s : RowHolder ι) :
    RowCall β → Counted ι β (List (Sent β) × RowHolder ι)
  | .connect attempts => connect s attempts
  | .publish v fhSeqNo accepted attempts => do
      let row ← alloc malloc v
      publish s row fhSeqNo accepted attempts
  | .pushEvent v => do
      let row ← alloc malloc v
      pure ([], { s with pending := s.pending ++ [row] })
  | .flush results => flush syncReleases s results
  | .publishHealth v accepted =>
      if s.connected then do
        let row ← alloc malloc v
        let v ← k row
        pure (if accepted then [.health v] else [], s)
      else pure ([], s)
  | .close => pure ([], { s with connected := false })

def calls (malloc : Heap ι β → ι) (syncReleases : Bool) (s : RowHolder ι) :
    List (RowCall β) → Counted ι β (List (Sent β) × RowHolder ι)
  | [] => pure ([], s)
  | c :: cs => do
      let (out, s') ← call malloc syncReleases s c
      let (out', s'') ← calls malloc syncReleases s' cs
      pure (out ++ out', s'')

/-- The end of the process: the ring is cleared, then the queue is destroyed. -/
def exit (s : RowHolder ι) : Counted ι β Unit := do
  releaseAll s.ring.data
  releaseAll s.pending

/-- The ring without the row that a push releases. -/
def evicted (ring : ResendRing κ) : List (Row κ) :=
  if ring.capacity ≤ ring.rows.length then ring.rows.tail else ring.rows

/-- The addresses of rows whose values are known. -/
abbrev addrs (s : RowHolder (ι × β)) : RowHolder ι := s.map Prod.fst

/-- The rows themselves. -/
abbrev rows (s : RowHolder (ι × β)) : RowHolder β := s.map Prod.snd

/-- The computation sends what the calls over the rows send, goes where they go, and holds
what its state names. -/
def Follows (s : RowHolder (ι × β)) (plain : List (Sent β) × RowHolder β)
    (out : List (Sent β) × RowHolder ι) (left : Multiset (ι × β)) : Prop :=
  ∃ s' : RowHolder (ι × β), out = (plain.1, addrs s') ∧ plain.2 = rows s' ∧
    left = (s'.held : Multiset (ι × β)) ∧ s'.ring.capacity = s.ring.capacity

section Specs

theorem k_spec (x : ι) (v : β) : Triple {(x, v)} (k x) fun a left => a = v ∧ left = 0 := by
  apply Triple.bind (Triple.read x v)
  rintro a - ⟨rfl, rfl⟩
  apply Triple.bind (Triple.r0 x a)
  rintro - - rfl
  exact Triple.pure a

theorem evict_spec {ring : ResendRing (ι × β)} (hcap : 0 < ring.capacity) :
    Triple (ring.data : Multiset (ι × β)) (evict (ring.map Prod.fst)) fun _ left =>
      left = ((evicted ring).map (·.data) : List (ι × β)) := by
  unfold evict evicted
  rw [show (ring.map Prod.fst).rows.length = ring.rows.length from List.length_map _]
  change Triple _ (if ring.capacity ≤ ring.rows.length then _ else _) _
  split_ifs with hfull
  · cases hrows : ring.rows with
    | nil =>
        rw [hrows, List.length_nil] at hfull
        omega
    | cons oldest rest =>
        have hdata : ring.data = oldest.data :: rest.map (·.data) := by
          rw [ResendRing.data, hrows, List.map_cons]
        rw [show (ring.map Prod.fst).rows = oldest.map Prod.fst :: rest.map (Row.map Prod.fst) by
          rw [ResendRing.map, hrows, List.map_cons]]
        apply Triple.weaken
        · rw [hdata, ← Multiset.cons_coe, ← Multiset.singleton_add]
          exact (Triple.r0 oldest.data.1 oldest.data.2).frame _
        · rintro - - ⟨-, rfl, rfl⟩
          rw [zero_add, List.tail_cons]
  · exact (Triple.pure ()).weaken fun _ _ h => h.2

theorem push_spec {ring : ResendRing (ι × β)} (hcap : 0 < ring.capacity) (row : Row (ι × β)) :
    Triple ((ring.data : Multiset (ι × β)) + {row.data})
      (push (ring.map Prod.fst) (row.map Prod.fst)) fun r left =>
        r = (ring.push row).map Prod.fst ∧ left = ((ring.push row).data : Multiset (ι × β)) := by
  apply Triple.seq {row.data} rfl (evict_spec hcap)
  rintro - - rfl
  apply (Triple.pure _).weaken
  rintro r - ⟨rfl, rfl⟩
  refine ⟨(ResendRing.map_push Prod.fst ring row).symm, ?_⟩
  rw [ResendRing.data, ResendRing.push, List.map_append, ← Multiset.coe_add]
  rfl

theorem sendRows_spec (accepts : ℕ) (rows : List (ι × β)) :
    Triple (rows : Multiset (ι × β)) (sendRows accepts (rows.map Prod.fst)) fun out left =>
      out = ((rows.map Prod.snd).take accepts, decide (rows.length ≤ accepts)) ∧
        left = (rows : Multiset (ι × β)) := by
  induction rows generalizing accepts with
  | nil =>
      rw [List.map_nil, sendRows]
      apply (Triple.pure _).weaken
      rintro out - ⟨rfl, rfl⟩
      simp
  | cons p rows ih =>
      obtain ⟨x, v⟩ := p
      have hsplit : (((x, v) :: rows : List (ι × β)) : Multiset (ι × β)) =
          {(x, v)} + (rows : Multiset (ι × β)) := by
        rw [Multiset.singleton_add, Multiset.cons_coe]
      cases accepts with
      | zero =>
          apply Triple.seq (rows : Multiset (ι × β)) hsplit (Triple.r1 x v)
          rintro - - rfl
          apply Triple.seq ({(x, v)} + (rows : Multiset (ι × β))) (add_assoc _ _ _) (k_spec x v)
          rintro a - ⟨-, rfl⟩
          apply (Triple.pure _).weaken
          rintro out - ⟨rfl, rfl⟩
          rw [zero_add, hsplit]
          simp
      | succ accepts =>
          apply Triple.seq (rows : Multiset (ι × β)) hsplit (Triple.r1 x v)
          rintro - - rfl
          apply Triple.seq ({(x, v)} + (rows : Multiset (ι × β))) (add_assoc _ _ _) (k_spec x v)
          rintro a - ⟨rfl, rfl⟩
          apply Triple.seq {(x, a)} (by rw [zero_add, add_comm]) (ih accepts)
          rintro out - ⟨rfl, rfl⟩
          apply (Triple.pure _).weaken
          rintro out - ⟨rfl, rfl⟩
          exact ⟨by simp, by rw [hsplit, add_comm]⟩

theorem resend_spec (ring : ResendRing (ι × β)) (lastLogged : Int) (accepts : ℕ) :
    Triple (ring.data : Multiset (ι × β)) (resend (ring.map Prod.fst) lastLogged accepts)
      fun out left => out = RowHolder.resend (ring.map Prod.snd) lastLogged accepts ∧
        left = (ring.data : Multiset (ι × β)) := by
  unfold resend RowHolder.resend
  simp only [ResendRing.newestSeq_map, ResendRing.rows_map_eq_nil, ResendRing.after_map,
    List.map_map, Function.comp_def, Row.map]
  split_ifs
  · exact (Triple.pure _).weaken fun out left h => h
  · obtain ⟨rest, hrest⟩ : ∃ rest, (ring.data : Multiset (ι × β)) =
        ((ring.after lastLogged).map (·.data) : List (ι × β)) + rest := by
      apply Multiset.le_iff_exists_add.mp
      apply Multiset.coe_le.mpr
      exact (List.filter_sublist.map _).subperm
    have hsend := sendRows_spec accepts ((ring.after lastLogged).map (·.data))
    simp only [List.map_map, Function.comp_def, List.length_map] at hsend
    rw [hrest]
    apply (hsend.frame rest).weaken
    rintro out left ⟨left', ⟨rfl, rfl⟩, rfl⟩
    simp

theorem Follows.pure {s : RowHolder (ι × β)} (s' : RowHolder (ι × β)) (out : List (Sent β))
    (hheld : s'.held = s.held) (hcap : s'.ring.capacity = s.ring.capacity) :
    Triple (s.held : Multiset (ι × β)) (Pure.pure (out, addrs s')) (Follows s (out, rows s')) := by
  apply (Triple.pure _).weaken
  rintro a - ⟨rfl, rfl⟩
  exact ⟨s', rfl, rfl, by rw [hheld], hcap⟩

theorem connectLoop_spec (s : RowHolder (ι × β)) (attempts : List Attempt) :
    Triple (s.held : Multiset (ι × β)) (connectLoop (addrs s) attempts)
      (Follows s (RowHolder.connectLoop (rows s) attempts)) := by
  induction attempts with
  | nil => exact Follows.pure { s with running := false } [] rfl rfl
  | cons attempt rest ih =>
      cases attempt with
      | refused => exact ih
      | registrationLost => exact ih
      | rejected => exact Follows.pure { s with running := false } [] rfl rfl
      | registered lastLogged accepts =>
          have hsplit : (s.held : Multiset (ι × β)) =
              (s.ring.data : Multiset (ι × β)) + (s.pending ++ s.leaked : List (ι × β)) := by
            rw [RowHolder.held, List.append_assoc, Multiset.coe_add]
          unfold connectLoop RowHolder.connectLoop
          apply Triple.seq _ hsplit (resend_spec s.ring lastLogged accepts)
          rintro out - ⟨rfl, rfl⟩
          rw [← hsplit]
          cases hsent : RowHolder.resend (s.ring.map Prod.snd) lastLogged accepts with
          | mk sent ok =>
              simp only [rows, RowHolder.map, hsent]
              cases ok with
              | true => exact Follows.pure { s with connected := true } _ rfl rfl
              | false =>
                  apply Triple.bind ih
                  rintro - - ⟨s', rfl, hplain, rfl, hcap⟩
                  apply (Triple.pure _).weaken
                  rintro - - ⟨rfl, rfl⟩
                  exact ⟨s', rfl, hplain, rfl, hcap⟩

theorem connect_spec (s : RowHolder (ι × β)) (attempts : List Attempt) :
    Triple (s.held : Multiset (ι × β)) (connect (addrs s) attempts)
      (Follows s (RowHolder.connect (rows s) attempts)) := by
  unfold connect RowHolder.connect
  change Triple _ (if s.running then _ else _) (Follows s (if s.running then _ else _))
  split_ifs
  · exact connectLoop_spec s attempts
  · exact Follows.pure _ [] rfl rfl

/-- A connect of a state that holds the same rows. -/
theorem Follows.of_held {s s' : RowHolder (ι × β)} {plain : List (Sent β) × RowHolder β}
    {m : Counted ι β (List (Sent β) × RowHolder ι)}
    (h : Triple (s'.held : Multiset (ι × β)) m (Follows s' plain))
    (hcap : s'.ring.capacity = s.ring.capacity) :
    Triple (s'.held : Multiset (ι × β)) m (Follows s plain) := by
  apply h.weaken
  rintro out left ⟨s'', rfl, hplain, rfl, hcap'⟩
  exact ⟨s'', rfl, hplain, rfl, hcap'.trans hcap⟩

theorem publish_spec {s : RowHolder (ι × β)} (hcap : 0 < s.ring.capacity) (x : ι) (v : β)
    (fhSeqNo : Int) (accepted : Bool) (attempts : List Attempt) :
    Triple ({(x, v)} + (s.held : Multiset (ι × β)))
      (publish (addrs s) x fhSeqNo accepted attempts)
      (Follows s (RowHolder.publish (rows s) v fhSeqNo accepted attempts)) := by
  let row : Row (ι × β) := { fhSeqNo := fhSeqNo, data := (x, v) }
  let s' : RowHolder (ι × β) := { s with ring := s.ring.push row }
  let others : Multiset (ι × β) := (s.pending ++ s.leaked : List (ι × β))
  have hring : ∀ ring : ResendRing (ι × β),
      (({ s with ring := ring } : RowHolder (ι × β)).held : Multiset (ι × β)) =
        (ring.data : Multiset (ι × β)) + others := by
    intro ring
    simp only [RowHolder.held, others, Multiset.coe_add, List.append_assoc]
  have hrows : rows s' = { rows s with ring := (rows s).ring.push { fhSeqNo := fhSeqNo, data := v } } := by
    simp only [rows, RowHolder.map, s', ResendRing.map_push]
    rfl
  unfold publish RowHolder.publish
  apply Triple.seq _ rfl (Triple.r1 x v)
  rintro - - rfl
  apply Triple.seq ({(x, v)} + others) _ (push_spec hcap row)
  · rintro - - ⟨rfl, rfl⟩
    have hheld : ((s.ring.push row).data : Multiset (ι × β)) + ({(x, v)} + others) =
        {(x, v)} + (s'.held : Multiset (ι × β)) := by
      rw [hring (s.ring.push row), add_left_comm]
    rw [hheld, ← hrows]
    change Triple _ (if s.connected then _ else _) (Follows s (if s.connected then _ else _))
    split_ifs with hconn hacc
    · apply Triple.seq _ rfl (k_spec x v)
      rintro a - ⟨rfl, rfl⟩
      rw [zero_add]
      exact Follows.of_held (Follows.pure (s := s') s' _ rfl rfl) rfl
    · apply Triple.seq _ rfl (k_spec x v)
      rintro a - ⟨rfl, rfl⟩
      rw [zero_add]
      exact Follows.of_held (connect_spec { s' with connected := false } attempts) rfl
    · apply Triple.seq _ rfl (Triple.r0 x v)
      rintro - - rfl
      rw [zero_add]
      exact Follows.of_held (connect_spec s' attempts) rfl
  · rw [hring s.ring, add_add_add_comm, add_comm {(x, v)} (s.ring.data : Multiset (ι × β))]

theorem kSync_spec (syncReleases : Bool) (x : ι) (v : β) :
    Triple {(x, v)} (kSync syncReleases x) fun a left =>
      a = v ∧ left = if syncReleases then 0 else {(x, v)} := by
  cases syncReleases with
  | true => exact k_spec x v
  | false => exact Triple.read x v

/-- What a handler holds besides its queue. -/
def others (s : RowHolder (ι × β)) : Multiset (ι × β) :=
  (s.ring.data ++ s.leaked : List (ι × β))

omit [DecidableEq ι] in
theorem held_eq (s : RowHolder (ι × β)) :
    (s.held : Multiset (ι × β)) = (s.pending : Multiset (ι × β)) + others s := by
  rw [RowHolder.held, others, ← Multiset.coe_add, ← Multiset.coe_add, ← Multiset.coe_add,
    add_comm (s.ring.data : Multiset (ι × β)), add_assoc]

omit [DecidableEq ι] in
theorem others_keep (syncReleases : Bool) (p : ι × β) (s : RowHolder (ι × β)) :
    others (s.keep syncReleases p) = (if syncReleases then 0 else {p}) + others s := by
  cases syncReleases with
  | true => exact (zero_add _).symm
  | false =>
      change ((s.ring.data ++ p :: s.leaked : List (ι × β)) : Multiset (ι × β)) = _
      rw [others, ← Multiset.coe_add, ← Multiset.coe_add, ← Multiset.cons_coe,
        ← Multiset.singleton_add, add_left_comm]
      rfl

theorem map_keep (f : κ → μ) (syncReleases : Bool) (row : κ) (s : RowHolder κ) :
    (s.keep syncReleases row).map f = (s.map f).keep syncReleases (f row) := by
  cases syncReleases <;> rfl

/-- The loop over the queue, with what is left of the queue in its result. -/
def FollowsFlush (s : RowHolder (ι × β)) (plain : List (Sent β) × List β × RowHolder β)
    (out : List (Sent β) × List ι × RowHolder ι) (left : Multiset (ι × β)) : Prop :=
  ∃ (queue : List (ι × β)) (s' : RowHolder (ι × β)),
    out = (plain.1, queue.map Prod.fst, addrs s') ∧ plain.2 = (queue.map Prod.snd, rows s') ∧
      left = (queue : Multiset (ι × β)) + others s' ∧ s'.ring = s.ring

theorem FollowsFlush.pure {s : RowHolder (ι × β)} (s' : RowHolder (ι × β))
    (queue : List (ι × β)) (hring : s'.ring = s.ring) :
    Triple ((queue : Multiset (ι × β)) + others s')
      (Pure.pure (([] : List (Sent β)), queue.map Prod.fst, addrs s'))
      (FollowsFlush s ([], queue.map Prod.snd, rows s')) := by
  apply (Triple.pure _).weaken
  rintro a - ⟨rfl, rfl⟩
  exact ⟨queue, s', rfl, rfl, rfl, hring⟩

theorem flushRows_spec (syncReleases : Bool) (s : RowHolder (ι × β)) (queue : List (ι × β))
    (results : List EventResult) :
    Triple ((queue : Multiset (ι × β)) + others s)
      (flushRows syncReleases (addrs s) (queue.map Prod.fst) results)
      (FollowsFlush s
        (RowHolder.flushRows syncReleases (rows s) (queue.map Prod.snd) results)) := by
  induction queue generalizing s results with
  | nil => exact FollowsFlush.pure _ [] rfl
  | cons p queue ih =>
      obtain ⟨x, v⟩ := p
      simp only [List.map_cons, flushRows, RowHolder.flushRows]
      rw [show (rows s).connected = s.connected from rfl,
        show (addrs s).connected = s.connected from rfl]
      split_ifs with hconn
      · have hsplit : (((x, v) :: queue : List (ι × β)) : Multiset (ι × β)) + others s =
            {(x, v)} + ((queue : Multiset (ι × β)) + others s) := by
          rw [← Multiset.cons_coe, ← Multiset.singleton_add, add_assoc]
        apply Triple.seq _ hsplit (Triple.r1 x v)
        rintro - - rfl
        apply Triple.seq _ (add_assoc _ _ _) (kSync_spec syncReleases x v)
        rintro a left ⟨rfl, rfl⟩
        let s₁ := s.keep syncReleases (x, a)
        have hheld : (if syncReleases then 0 else {(x, a)}) +
            ({(x, a)} + ((queue : Multiset (ι × β)) + others s)) =
            {(x, a)} + ((queue : Multiset (ι × β)) + others s₁) := by
          rw [others_keep, add_left_comm, add_left_comm (if syncReleases then 0 else {(x, a)})]
        have hqueue : {(x, a)} + ((queue : Multiset (ι × β)) + others s₁) =
            (((x, a) :: queue : List (ι × β)) : Multiset (ι × β)) + others s₁ := by
          rw [← Multiset.cons_coe, ← Multiset.singleton_add, add_assoc]
        have hring : s₁.ring = s.ring := by
          simp only [s₁, RowHolder.keep]
          split_ifs <;> rfl
        have hlost : Triple ((((x, a) :: queue : List (ι × β)) : Multiset (ι × β)) + others s₁)
            (pure (([] : List (Sent β)), x :: queue.map Prod.fst,
              { addrs s₁ with connected := false }))
            (FollowsFlush s ([], a :: queue.map Prod.snd, { rows s₁ with connected := false })) :=
          FollowsFlush.pure { s₁ with connected := false } ((x, a) :: queue) hring
        have hnext : ∀ results, Triple ({(x, a)} + ((queue : Multiset (ι × β)) + others s₁))
            (do
              r0 x
              let (out, left, s') ← flushRows syncReleases (addrs s₁) (queue.map Prod.fst) results
              pure (.event a :: out, left, s'))
            (FollowsFlush s
              (let (out, left, s') :=
                RowHolder.flushRows syncReleases (rows s₁) (queue.map Prod.snd) results
              (.event a :: out, left, s'))) := by
          intro results
          apply Triple.seq _ rfl (Triple.r0 x a)
          rintro - - rfl
          rw [zero_add]
          apply Triple.bind (ih s₁ results)
          rintro - - ⟨left, s', rfl, hplain, rfl, hring'⟩
          apply (Triple.pure _).weaken
          rintro - - ⟨rfl, rfl⟩
          exact ⟨left, s', rfl, hplain, rfl, hring'.trans hring⟩
        have haddrs : (addrs s).keep syncReleases x = addrs s₁ :=
          (map_keep Prod.fst syncReleases (x, a) s).symm
        have hrows : (rows s).keep syncReleases a = rows s₁ :=
          (map_keep Prod.snd syncReleases (x, a) s).symm
        rw [hheld, haddrs, hrows]
        cases results with
        | nil => exact hqueue ▸ hlost
        | cons result results =>
            cases result with
            | acked => exact hnext results
            | connectionLost => exact hqueue ▸ hlost
            | rejected => exact hnext results
      · exact FollowsFlush.pure _ ((x, v) :: queue) rfl

theorem flush_spec (syncReleases : Bool) (s : RowHolder (ι × β)) (results : List EventResult) :
    Triple (s.held : Multiset (ι × β)) (flush syncReleases (addrs s) results)
      (Follows s (RowHolder.flush syncReleases (rows s) results)) := by
  unfold flush RowHolder.flush
  rw [held_eq]
  apply Triple.bind (flushRows_spec syncReleases s s.pending results)
  rintro - - ⟨queue, s', rfl, hplain, rfl, hring⟩
  apply (Triple.pure _).weaken
  rintro - - ⟨rfl, rfl⟩
  refine ⟨{ s' with pending := queue }, rfl, ?_, (held_eq { s' with pending := queue }).symm, ?_⟩
  · exact congrArg (fun p : List β × RowHolder β => { p.2 with pending := p.1 }) hplain
  · exact congrArg ResendRing.capacity hring

theorem call_spec {malloc : Heap ι β → ι} (hmalloc : Allocates malloc) (syncReleases : Bool)
    {s : RowHolder (ι × β)} (hcap : 0 < s.ring.capacity) (c : RowCall β) :
    Triple (s.held : Multiset (ι × β)) (call malloc syncReleases (addrs s) c)
      (Follows s (RowHolder.call syncReleases (rows s) c)) := by
  have hnew : (s.held : Multiset (ι × β)) = 0 + (s.held : Multiset (ι × β)) := (zero_add _).symm
  cases c with
  | connect attempts => exact connect_spec s attempts
  | publish v fhSeqNo accepted attempts =>
      apply Triple.seq _ hnew (Triple.alloc hmalloc v)
      rintro x - rfl
      exact publish_spec hcap x v fhSeqNo accepted attempts
  | pushEvent v =>
      apply Triple.seq _ hnew (Triple.alloc hmalloc v)
      rintro x - rfl
      apply (Triple.pure _).weaken
      rintro - - ⟨rfl, rfl⟩
      refine ⟨{ s with pending := s.pending ++ [(x, v)] }, ?_, ?_, ?_, rfl⟩
      · simp only [addrs, RowHolder.map, List.map_append, List.map_cons, List.map_nil]
        rfl
      · simp only [rows, RowHolder.call, RowHolder.map, List.map_append, List.map_cons,
          List.map_nil]
      · rw [held_eq, held_eq, ← Multiset.coe_add, add_assoc, add_left_comm]
        rfl
  | flush results => exact flush_spec syncReleases s results
  | publishHealth v accepted =>
      simp only [call, RowHolder.call]
      rw [show (addrs s).connected = s.connected from rfl,
        show (rows s).connected = s.connected from rfl]
      cases s.connected with
      | false => exact Follows.pure _ [] rfl rfl
      | true =>
          apply Triple.seq _ hnew (Triple.alloc hmalloc v)
          rintro x - rfl
          apply Triple.seq _ rfl (k_spec x v)
          rintro a - ⟨rfl, rfl⟩
          rw [zero_add]
          cases accepted <;> exact Follows.pure _ _ rfl rfl
  | close => exact Follows.pure { s with connected := false } [] rfl rfl

theorem calls_spec {malloc : Heap ι β → ι} (hmalloc : Allocates malloc) (syncReleases : Bool)
    {s : RowHolder (ι × β)} (hcap : 0 < s.ring.capacity) (cs : List (RowCall β)) :
    Triple (s.held : Multiset (ι × β)) (calls malloc syncReleases (addrs s) cs)
      (Follows s (RowHolder.calls syncReleases (rows s) cs)) := by
  induction cs generalizing s with
  | nil => exact Follows.pure _ [] rfl rfl
  | cons c cs ih =>
      apply Triple.bind (call_spec hmalloc syncReleases hcap c)
      rintro - - ⟨s', rfl, hplain, rfl, hcap'⟩
      apply Triple.bind (ih (hcap'.symm ▸ hcap))
      rintro - - ⟨s'', rfl, hplain', rfl, hcap''⟩
      apply (Triple.pure _).weaken
      rintro - - ⟨rfl, rfl⟩
      refine ⟨s'', ?_, ?_, rfl, hcap''.trans hcap'⟩
      · simp only [RowHolder.calls, hplain]
      · simp only [RowHolder.calls, hplain, hplain']

/-- At the end of the process only what synchronous calls kept is still there. -/
theorem exit_spec (s : RowHolder (ι × β)) :
    Triple (s.held : Multiset (ι × β)) (exit (addrs s)) fun _ left =>
      left = (s.leaked : Multiset (ι × β)) := by
  have hsplit : (s.held : Multiset (ι × β)) =
      (s.ring.data : Multiset (ι × β)) + (s.pending ++ s.leaked : List (ι × β)) := by
    rw [RowHolder.held, List.append_assoc, Multiset.coe_add]
  unfold exit
  rw [show (addrs s).ring.data = s.ring.data.map Prod.fst from ResendRing.data_map _ _]
  apply Triple.seq _ hsplit (Triple.releaseAll s.ring.data)
  rintro - - rfl
  rw [zero_add, ← Multiset.coe_add]
  apply ((Triple.releaseAll s.pending).frame _).weaken
  rintro - - ⟨-, rfl, rfl⟩
  exact zero_add _

end Specs

/-! ### Nothing is kept by synchronous calls that release their arguments -/

theorem connectLoop_leaked (s : RowHolder β) (attempts : List Attempt) :
    (s.connectLoop attempts).2.leaked = s.leaked := by
  induction attempts with
  | nil => rfl
  | cons attempt rest ih =>
      cases attempt with
      | refused => exact ih
      | registrationLost => exact ih
      | rejected => rfl
      | registered lastLogged accepts =>
          simp only [RowHolder.connectLoop]
          split_ifs
          · rfl
          · exact ih

theorem connect_leaked (s : RowHolder β) (attempts : List Attempt) :
    (s.connect attempts).2.leaked = s.leaked := by
  unfold RowHolder.connect
  split_ifs
  · exact connectLoop_leaked s attempts
  · rfl

theorem flushRows_leaked (s : RowHolder β) (queue : List β) (results : List EventResult) :
    (s.flushRows true queue results).2.2.leaked = s.leaked := by
  induction queue generalizing results with
  | nil => rfl
  | cons row queue ih =>
      simp only [RowHolder.flushRows]
      split_ifs
      · cases results with
        | nil => rfl
        | cons result results =>
            cases result with
            | acked => exact ih results
            | connectionLost => rfl
            | rejected => exact ih results
      · rfl

theorem call_leaked (s : RowHolder β) (c : RowCall β) :
    (s.call true c).2.leaked = s.leaked := by
  cases c with
  | connect attempts => exact connect_leaked s attempts
  | publish row fhSeqNo accepted attempts =>
      simp only [RowHolder.call, RowHolder.publish]
      split_ifs
      · rfl
      · exact connect_leaked _ attempts
      · exact connect_leaked _ attempts
  | pushEvent row => rfl
  | flush results => exact flushRows_leaked s s.pending results
  | publishHealth row accepted => rfl
  | close => rfl

theorem calls_leaked (s : RowHolder β) (cs : List (RowCall β)) :
    (s.calls true cs).2.leaked = s.leaked := by
  induction cs generalizing s with
  | nil => rfl
  | cons c cs ih => exact (ih _).trans (call_leaked s c)

/-! ### Runs -/

/-- Over any calls of a handler no row is used or released after it was freed, TP is sent what
it would be sent without reference counts, every address the handler holds has the row it was
stored for, and each row has as many references as the handler holds. At the end of the process
every row is freed, provided synchronous calls release their arguments too. -/
theorem rows_counted {malloc : Heap ι β → ι} (hmalloc : Allocates malloc) (syncReleases : Bool)
    (ringSize : ℕ) (cs : List (RowCall β)) :
    let plain := RowHolder.calls syncReleases (RowHolder.start ringSize) cs
    ∃ s h, (calls malloc syncReleases (RowHolder.start ringSize) cs).run (fun _ => none) =
        some ((plain.1, s), h) ∧
      (s.map fun x => (h x).map (·.value)) = plain.2.map some ∧
      (∀ x, h.count x = s.held.count x) ∧
      ∃ h', (exit s).run h = some ((), h') ∧ (∀ x, h'.count x = s.leaked.count x) ∧
        (syncReleases = true → ∀ x, h' x = none) := by
  intro plain
  let start : RowHolder (ι × β) := RowHolder.start ringSize
  have hcap : 0 < start.ring.capacity := by
    simp only [start, RowHolder.start, ResendRing.ofCapacity]
    split_ifs <;> omega
  obtain ⟨-, h, left, hrun, ⟨s, rfl, hplain, rfl, -⟩, hheld⟩ :=
    calls_spec hmalloc syncReleases hcap cs 0 (fun _ => none) Held.empty
  obtain ⟨u, h', left', hexit, rfl, hheld'⟩ := exit_spec s 0 h hheld
  rw [add_zero] at hheld hheld'
  refine ⟨addrs s, h, hrun, ?_, ?_, h', hexit, ?_, ?_⟩
  · change (s.map Prod.fst).map _ = plain.2.map some
    rw [show plain.2 = s.map Prod.snd from hplain, RowHolder.map_map, RowHolder.map_map]
    exact RowHolder.map_congr fun p hp => hheld.value_eq hp
  · intro x
    rw [hheld.count_eq, RowHolder.held_map]
  · exact hheld'.count_eq
  · rintro rfl
    have hleaked : s.leaked = [] := by
      have hrows : (rows s).leaked = [] := by
        rw [← hplain]
        exact calls_leaked _ cs
      exact List.map_eq_nil_iff.mp hrows
    rw [hleaked] at hheld'
    exact hheld'.eq_none

/-- A ring of one row, a connection that dies, and a gap event. -/
theorem rows_counted_ring_of_one :
    let cs : List (RowCall ℕ) :=
      [.connect [.registered (-1) 0], .publish 10 1 true [],
        .publish 20 2 false [.refused, .registered 0 1], .pushEvent 7, .flush [.acked]]
    ∃ s h, (calls lowestFree true (RowHolder.start 1) cs).run (fun _ => none) =
        some (([.upd 10, .upd 20, .event 7], s), h) ∧
      (∀ x, h.count x = s.held.count x) ∧
      ∃ h', (exit s).run h = some ((), h') ∧ ∀ x, h' x = none := by
  intro cs
  obtain ⟨s, h, hrun, -, hcount, h', hexit, -, hfreed⟩ :=
    rows_counted allocates_lowestFree true 1 cs
  exact ⟨s, h, hrun, hcount, h', hexit, hfreed rfl⟩

end KRows

end TickToSignal.Publisher
