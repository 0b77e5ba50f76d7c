import TickToSignal.Quote.Requests

/-!
# No stale snapshot, and no symbol that waits for ever

`Tracks` joins the handler's request times and expected ids to the record of
the requests and to every request whose result may still arrive. A handler
event either keeps all of it (`Kept`), or sends one request (`Asked`), or ends
the wait of some symbols; a result that comes in ends its own.
-/

namespace TickToSignal.Quote

open OrderBook Foundation

variable {n : Nat} {K : Type*}

/-- Nothing about requests has changed, and no symbol started to wait. -/
structure Kept (h h' : QuoteFeedHandler n K) : Prop where
  latest : h'.latestRequestId = h.latestRequestId
  requestedAt : h'.snapshotRequestedAtMs = h.snapshotRequestedAtMs
  next : h'.nextRequestId = h.nextRequestId
  requests : h'.requests = h.requests
  results : h'.results = h.results
  awaiting : ∀ i, (h'.books i).awaiting = true → (h.books i).awaiting = true

/-- One request was sent, for a symbol that now waits for it. -/
structure Asked (symIdx : Fin n) (nowMs : Int) (h h' : QuoteFeedHandler n K) : Prop where
  latest : h'.latestRequestId = Function.update h.latestRequestId symIdx (h.nextRequestId + 1)
  requestedAt : h'.snapshotRequestedAtMs = Function.update h.snapshotRequestedAtMs symIdx nowMs
  next : h'.nextRequestId = h.nextRequestId + 1
  requests : h'.requests = push h.requests ⟨symIdx, h.nextRequestId + 1⟩
  results : h'.results = h.results
  awaiting : ∀ i ≠ symIdx, (h'.books i).awaiting = true → (h.books i).awaiting = true

section Frame
variable {h h₁ h₂ : QuoteFeedHandler n K} {i : Fin n} {nowMs recv : Int}

theorem Kept.refl (h : QuoteFeedHandler n K) : Kept h h :=
  ⟨rfl, rfl, rfl, rfl, rfl, fun _ => id⟩

theorem Kept.trans (h01 : Kept h h₁) (h12 : Kept h₁ h₂) : Kept h h₂ where
  latest := h12.latest.trans h01.latest
  requestedAt := h12.requestedAt.trans h01.requestedAt
  next := h12.next.trans h01.next
  requests := h12.requests.trans h01.requests
  results := h12.results.trans h01.results
  awaiting := fun i hi => h01.awaiting i (h12.awaiting i hi)

theorem Asked.after (h01 : Kept h h₁) (h12 : Asked i nowMs h₁ h₂) : Asked i nowMs h h₂ where
  latest := by rw [h12.latest, h01.latest, h01.next]
  requestedAt := by rw [h12.requestedAt, h01.requestedAt]
  next := by rw [h12.next, h01.next]
  requests := by rw [h12.requests, h01.requests, h01.next]
  results := h12.results.trans h01.results
  awaiting := fun j hj hw => h01.awaiting j (h12.awaiting j hj hw)

/-- One book replaced by one that does not wait unless the old one did. -/
theorem Kept.replace {s : SymbolBook K} {h' : QuoteFeedHandler n K}
    (hb : h'.books = Function.update h.books i s)
    (hs : s.awaiting = true → (h.books i).awaiting = true)
    (hlatest : h'.latestRequestId = h.latestRequestId)
    (hat : h'.snapshotRequestedAtMs = h.snapshotRequestedAtMs)
    (hnext : h'.nextRequestId = h.nextRequestId) (hreq : h'.requests = h.requests)
    (hres : h'.results = h.results) : Kept h h' where
  latest := hlatest
  requestedAt := hat
  next := hnext
  requests := hreq
  results := hres
  awaiting := by
    intro j hj
    rw [hb] at hj
    by_cases hij : j = i
    · subst hij
      rw [Function.update_self] at hj
      exact hs hj
    · rwa [Function.update_of_ne hij] at hj

theorem Kept.publishQuote (h : QuoteFeedHandler n K) (q : BookQuote K) :
    Kept h (h.publishQuote i q nowMs) :=
  .replace rfl id rfl rfl rfl rfl rfl

/-- A fold of steps that each keep everything keeps everything. -/
theorem Kept.foldl {α : Type*} {f : QuoteFeedHandler n K → α → QuoteFeedHandler n K}
    (hf : ∀ h a, Kept h (f h a)) (h : QuoteFeedHandler n K) (l : List α) :
    Kept h (l.foldl f h) := by
  induction l generalizing h with
  | nil => exact .refl h
  | cons a l ih => exact (hf h a).trans (ih (f h a))

section
variable [LinearOrder K] [Zero K] (cfg : HandlerConfig n)

omit [LinearOrder K] [Zero K] in
theorem Kept.setBook (h : QuoteFeedHandler n K) {s : SymbolBook K}
    (hs : s.awaiting = true → (h.books i).awaiting = true) : Kept h (h.setBook i s) :=
  .replace rfl hs rfl rfl rfl rfl rfl

theorem Kept.maybePublish (h : QuoteFeedHandler n K) : Kept h (h.maybePublish cfg i recv nowMs) := by
  simp only [QuoteFeedHandler.maybePublish]
  split_ifs
  · exact .publishQuote h _
  · exact .refl h

omit [LinearOrder K] in
theorem Kept.checkPublishTimeouts (h : QuoteFeedHandler n K) :
    Kept h (h.checkPublishTimeouts cfg recv nowMs) := by
  apply Kept.foldl
  intro h j
  simp only [QuoteFeedHandler.heartbeat]
  split_ifs
  · exact .refl h
  · exact .publishQuote h _

omit [LinearOrder K] in
variable (nowMs) in
theorem Kept.markHoles (h : QuoteFeedHandler n K) (tpConnected : Bool) (nowNs : Int) :
    Kept h (if tpConnected then
      (List.finRange n).foldl (QuoteFeedHandler.markHole cfg nowNs nowMs) h else h) := by
  split_ifs
  · apply Kept.foldl
    intro h j
    simp only [QuoteFeedHandler.markHole]
    split_ifs
    · exact .publishQuote h _
    · exact .refl h
  · exact .refl h

omit [LinearOrder K] in
theorem Kept.resync (h : QuoteFeedHandler n K) (state : BookState) :
    Kept h (h.resync cfg i state recv nowMs) := by
  simp only [QuoteFeedHandler.resync]
  apply Kept.trans _ (Kept.setBook _ (s := SymbolBook.reset _) (by simp))
  apply Kept.trans _ (Kept.publishQuote _ _)
  split_ifs
  · exact ⟨rfl, rfl, rfl, rfl, rfl, fun _ => id⟩
  · exact ⟨rfl, rfl, rfl, rfl, rfl, fun _ => id⟩

omit [LinearOrder K] [Zero K] in
/-- The scheduler says no, or one request goes out. -/
theorem acquireAndRequest_cases (h : QuoteFeedHandler n K)
    (start : SymbolBook K → SymbolBook K) :
    Kept h (h.acquireAndRequest cfg i nowMs start) ∨
      Asked i nowMs h (h.acquireAndRequest cfg i nowMs start) := by
  simp only [QuoteFeedHandler.acquireAndRequest]
  split_ifs
  · right
    refine ⟨rfl, rfl, rfl, rfl, rfl, fun j hj hw => ?_⟩
    simpa [QuoteFeedHandler.requestSnapshot, QuoteFeedHandler.setBook,
      Function.update_of_ne hj] using hw
  · left
    exact ⟨rfl, rfl, rfl, rfl, rfl, fun _ => id⟩

variable (recv nowMs) in
/-- Publishing and asking for a refresh, the end of `serve`. -/
theorem publishAndRefresh_cases (h : QuoteFeedHandler n K) :
    let h₁ := h.maybePublish cfg i recv nowMs
    let h₂ :=
      if (h₁.books i).wantsRefresh cfg.book then
        h₁.acquireAndRequest cfg i nowMs SymbolBook.beginRefresh
      else h₁
    Kept h h₂ ∨ Asked i nowMs h h₂ := by
  have hpub : Kept h (h.maybePublish cfg i recv nowMs) := .maybePublish cfg h
  dsimp only
  split_ifs
  · obtain hk | ha := acquireAndRequest_cases cfg (i := i)
      (h.maybePublish cfg i recv nowMs) SymbolBook.beginRefresh
    · exact .inl (hpub.trans hk)
    · exact .inr (.after hpub ha)
  · exact .inl hpub

theorem serve_cases (h : QuoteFeedHandler n K) (state : BookState) :
    Kept h (h.serve cfg i state recv nowMs) ∨ Asked i nowMs h (h.serve cfg i state recv nowMs) := by
  have hsynced : Kept h { h with snapshotScheduler := h.snapshotScheduler.onSynced i } :=
    ⟨rfl, rfl, rfl, rfl, rfl, fun _ => id⟩
  by_cases hvalid : (h.books i).isValid
  · by_cases hs : state = .SYNCING
    · have hstep := publishAndRefresh_cases nowMs recv cfg (i := i)
        { h with snapshotScheduler := h.snapshotScheduler.onSynced i }
      simp only [QuoteFeedHandler.serve, hvalid, hs, if_true, Bool.not_true, Bool.false_eq_true,
        if_false]
      exact hstep.imp hsynced.trans (Asked.after hsynced)
    · simpa [QuoteFeedHandler.serve, hvalid, hs] using
        publishAndRefresh_cases nowMs recv cfg (i := i) h
  · left
    simpa [QuoteFeedHandler.serve, hvalid] using Kept.refl h

variable (nowMs recv) in
/-- A depth event sends at most one request, for its own symbol. -/
theorem handleDelta_cases (h : QuoteFeedHandler n K) (delta : BufferedDelta K) :
    Kept h (h.handleDelta cfg i delta recv nowMs) ∨
      Asked i nowMs h (h.handleDelta cfg i delta recv nowMs) := by
  have happlied : Kept h (h.setBook i ((h.books i).applyDelta cfg.book delta).2) :=
    .setBook h (by simp)
  simp only [QuoteFeedHandler.handleDelta]
  split
  · have hbuf : Kept h (h.setBook i ((h.books i).bufferDelta delta).2) :=
      .setBook h (by simp)
    split_ifs
    · obtain hk | ha := acquireAndRequest_cases cfg (i := i)
        (h.setBook i ((h.books i).bufferDelta delta).2) id
      · exact .inl (hbuf.trans hk)
      · exact .inr (.after hbuf ha)
    · exact .inl hbuf
  · exact .inl (.setBook h (s := (h.books i).reset) (by simp))
  · split_ifs
    · obtain hk | ha := serve_cases cfg (i := i)
        (h.setBook i ((h.books i).applyDelta cfg.book delta).2) (h.books i).state
      · exact .inl (happlied.trans hk)
      · exact .inr (.after happlied ha)
    · exact .inl (happlied.trans (.resync cfg _ _))

end

/-- What one timeout check did: every overdue request is given up, and its
symbol waits for nothing. -/
structure Expired (nowMs : Int) (l : List (Fin n)) (h h' : QuoteFeedHandler n K) : Prop where
  latest : ∀ i, h.latestRequestId i ≤ h'.latestRequestId i
  given : ∀ i ∈ l, h.Overdue nowMs i →
    h'.latestRequestId i = h.latestRequestId i + 1 ∧ h'.snapshotRequestedAtMs i = 0
  other : ∀ i, ¬(i ∈ l ∧ h.Overdue nowMs i) →
    h'.latestRequestId i = h.latestRequestId i ∧
      h'.snapshotRequestedAtMs i = h.snapshotRequestedAtMs i
  next : h'.nextRequestId = h.nextRequestId
  requests : h'.requests = h.requests
  results : h'.results = h.results
  awaiting : ∀ i, (h'.books i).awaiting = true →
    (h.books i).awaiting = true ∧ ¬(i ∈ l ∧ h.Overdue nowMs i)

theorem Expired.one (cfg : HandlerConfig n) (h : QuoteFeedHandler n K) (j : Fin n) :
    Expired nowMs [j] h (h.expireRequest cfg nowMs j) := by
  simp only [QuoteFeedHandler.expireRequest]
  split_ifs with hdue
  · constructor
    · intro i
      by_cases hij : i = j
      · subst hij
        simp
      · simp [Function.update_of_ne hij]
    · intro i hi _
      obtain rfl : i = j := by simpa using hi
      simp
    · intro i hi
      have hij : i ≠ j := fun hij => hi ⟨by simp [hij], hij ▸ hdue⟩
      simp [Function.update_of_ne hij]
    · rfl
    · rfl
    · rfl
    · intro i hi
      by_cases hij : i = j
      · subst hij
        simp at hi
      · exact ⟨by simpa [Function.update_of_ne hij] using hi, by simp [hij]⟩
  · refine ⟨fun _ => le_rfl, ?_, fun _ _ => ⟨rfl, rfl⟩, rfl, rfl, rfl, ?_⟩
    · intro i hi hi'
      obtain rfl : i = j := by simpa using hi
      exact absurd hi' hdue
    · intro i hi
      refine ⟨hi, fun ⟨hmem, hi'⟩ => ?_⟩
      obtain rfl : i = j := by simpa using hmem
      exact hdue hi'

/-- A symbol given up is not overdue any more, so it does not matter how often
the check comes to it. -/
theorem Expired.cons {j : Fin n} {l : List (Fin n)} (hone : Expired nowMs [j] h h₁)
    (hrest : Expired nowMs l h₁ h₂) : Expired nowMs (j :: l) h h₂ := by
  have hdue : ∀ i, h₁.Overdue nowMs i → h.Overdue nowMs i := by
    intro i hi
    by_cases hij : i ∈ [j] ∧ h.Overdue nowMs i
    · exact hij.2
    · simpa only [QuoteFeedHandler.Overdue, (hone.other i hij).2] using hi
  have hdue' : ∀ i, h.Overdue nowMs i → i ≠ j → h₁.Overdue nowMs i := by
    intro i hi hij
    simpa only [QuoteFeedHandler.Overdue, (hone.other i (by simp [hij])).2] using hi
  constructor
  · exact fun i => (hone.latest i).trans (hrest.latest i)
  · intro i hi hover
    by_cases hij : i = j
    · have hgiven := hone.given i (by simp [hij]) hover
      have hleft := hrest.other i fun hi' => hi'.2.1 hgiven.2
      exact ⟨hleft.1.trans hgiven.1, hleft.2.trans hgiven.2⟩
    · have hleft := hone.other i (by simp [hij])
      have hgiven := hrest.given i ((List.mem_cons.mp hi).resolve_left hij) (hdue' i hover hij)
      exact ⟨hgiven.1.trans (by rw [hleft.1]), hgiven.2⟩
  · intro i hi
    have hleft := hone.other i fun hi' => hi ⟨by simp [List.mem_singleton.mp hi'.1], hi'.2⟩
    have hleft' := hrest.other i fun hi' => hi ⟨List.mem_cons_of_mem j hi'.1, hdue i hi'.2⟩
    exact ⟨hleft'.1.trans hleft.1, hleft'.2.trans hleft.2⟩
  · exact hrest.next.trans hone.next
  · exact hrest.requests.trans hone.requests
  · exact hrest.results.trans hone.results
  · intro i hi
    obtain ⟨hi₁, hno₁⟩ := hrest.awaiting i hi
    obtain ⟨hi₀, hno₀⟩ := hone.awaiting i hi₁
    refine ⟨hi₀, fun ⟨hmem, hover⟩ => ?_⟩
    by_cases hij : i = j
    · exact hno₀ ⟨by simp [hij], hover⟩
    · exact hno₁ ⟨(List.mem_cons.mp hmem).resolve_left hij, hdue' i hover hij⟩

variable (nowMs) in
theorem Expired.fold (cfg : HandlerConfig n) (h : QuoteFeedHandler n K) (l : List (Fin n)) :
    Expired nowMs l h (l.foldl (QuoteFeedHandler.expireRequest cfg nowMs) h) := by
  induction l generalizing h with
  | nil =>
      exact ⟨fun _ => le_rfl, by simp, fun _ _ => ⟨rfl, rfl⟩, rfl, rfl, rfl, fun i hi => ⟨hi, by simp⟩⟩
  | cons j l ih => exact (Expired.one cfg h j).cons (ih (h.expireRequest cfg nowMs j))

end Frame

/-- The invariant of a run; `out` lists the requests whose result may still arrive. -/
structure Tracks (g : History n) (h : QuoteFeedHandler n K) (out : List (Fin n × Nat)) :
    Prop where
  once : (out.map (·.2)).Nodup
  le_newest : ∀ p ∈ out, p.2 ≤ g.newest p.1
  expected : ∀ i, g.newest i ≤ h.latestRequestId i
  pending : ∀ i, h.snapshotRequestedAtMs i ≠ 0 →
    h.latestRequestId i = g.newest i ∧ g.Live i (g.newest i)
  idle : ∀ i, h.snapshotRequestedAtMs i = 0 → ∀ id, (i, id) ∈ out → id < h.latestRequestId i
  flagged : ∀ i, (h.books i).awaiting = true → h.snapshotRequestedAtMs i ≠ 0
  newest_le : ∀ i, g.newest i ≤ h.nextRequestId
  timedOut_le : ∀ p ∈ g.timedOut, p.2 ≤ h.nextRequestId
  connect_le : g.sentBeforeConnect ≤ h.nextRequestId

section Tracks
variable {g : History n} {h h' : QuoteFeedHandler n K} {out out' : List (Fin n × Nat)}
  {i : Fin n} {nowMs : Int}

theorem Tracks.subperm (ht : Tracks g h out) (hout : out'.Subperm out) : Tracks g h out' where
  __ := ht
  once := by
    obtain ⟨l, hperm, hsub⟩ := hout
    have hl : (l.map (·.2)).Nodup := ht.once.sublist (hsub.map _)
    exact (hperm.map (·.2)).nodup_iff.mp hl
  le_newest := fun p hp => ht.le_newest p (hout.subset hp)
  idle := fun i hi id hid => ht.idle i hi id (hout.subset hid)

theorem Tracks.kept (ht : Tracks g h out) (hk : Kept h h') : Tracks g h' out where
  once := ht.once
  le_newest := ht.le_newest
  expected := by
    rw [hk.latest]
    exact ht.expected
  pending := by
    rw [hk.latest, hk.requestedAt]
    exact ht.pending
  idle := by
    rw [hk.latest, hk.requestedAt]
    exact ht.idle
  flagged := by
    rw [hk.requestedAt]
    exact fun i hi => ht.flagged i (hk.awaiting i hi)
  newest_le := by
    rw [hk.next]
    exact ht.newest_le
  timedOut_le := by
    rw [hk.next]
    exact ht.timedOut_le
  connect_le := by
    rw [hk.next]
    exact ht.connect_le

/-- A new request is the newest of its symbol, and live. -/
theorem Tracks.asked (ht : Tracks g h out) (ha : Asked i nowMs h h') (hclock : nowMs ≠ 0) :
    Tracks (g.send i (h.nextRequestId + 1)) h' ((i, h.nextRequestId + 1) :: out) where
  once := by
    rw [List.map_cons, List.nodup_cons]
    refine ⟨fun hmem => ?_, ht.once⟩
    obtain ⟨p, hp, hid⟩ := List.mem_map.mp hmem
    have h1 := ht.le_newest p hp
    have h2 := ht.newest_le p.1
    omega
  le_newest := by
    intro p hp
    obtain rfl | hp := List.mem_cons.mp hp
    · simp [History.send]
    · have h1 := ht.le_newest p hp
      by_cases hij : p.1 = i
      · have h2 := ht.newest_le p.1
        simp only [History.send, hij, Function.update_self]
        omega
      · simpa [History.send, Function.update_of_ne hij] using h1
  expected := by
    intro j
    rw [ha.latest]
    by_cases hij : j = i
    · subst hij
      simp [History.send]
    · simpa [History.send, Function.update_of_ne hij] using ht.expected j
  pending := by
    intro j hj
    rw [ha.latest]
    by_cases hij : j = i
    · subst hij
      refine ⟨by simp [History.send], by simp [History.send], fun hmem => ?_, ?_⟩
      · have h1 := ht.timedOut_le _ hmem
        simp [History.send] at h1
      · have h1 := ht.connect_le
        simp only [History.send, Function.update_self]
        omega
    · rw [ha.requestedAt, Function.update_of_ne hij] at hj
      obtain ⟨heq, hlive⟩ := ht.pending j hj
      simp only [History.send, Function.update_of_ne hij]
      exact ⟨heq, by simp [Function.update_of_ne hij], hlive.kept, hlive.current⟩
  idle := by
    intro j hj id hid
    rw [ha.requestedAt] at hj
    by_cases hij : j = i
    · subst hij
      exact absurd (by simpa using hj) hclock
    · rw [Function.update_of_ne hij] at hj
      rw [ha.latest, Function.update_of_ne hij]
      refine ht.idle j hj id ((List.mem_cons.mp hid).resolve_left fun heq => hij ?_)
      exact congrArg Prod.fst heq
  flagged := by
    intro j hj
    rw [ha.requestedAt]
    by_cases hij : j = i
    · subst hij
      simpa using hclock
    · rw [Function.update_of_ne hij]
      exact ht.flagged j (ha.awaiting j hij hj)
  newest_le := by
    intro j
    rw [ha.next]
    have h1 := ht.newest_le j
    by_cases hij : j = i
    · subst hij
      simp [History.send]
    · simp only [History.send, Function.update_of_ne hij]
      omega
  timedOut_le := by
    intro p hp
    have h1 := ht.timedOut_le p hp
    rw [ha.next]
    omega
  connect_le := by
    have h1 := ht.connect_le
    rw [ha.next]
    exact h1.trans (Nat.le_succ _)

theorem Tracks.expired (ht : Tracks g h out) (he : Expired nowMs (List.finRange n) h h') :
    Tracks (g.expire h nowMs) h' out where
  once := ht.once
  le_newest := ht.le_newest
  expected := fun i => (ht.expected i).trans (he.latest i)
  pending := by
    intro i hi
    by_cases hover : h.Overdue nowMs i
    · exact absurd (he.given i (List.mem_finRange i) hover).2 hi
    · obtain ⟨hlatest, hat⟩ := he.other i fun hi' => hover hi'.2
      rw [hat] at hi
      obtain ⟨heq, hlive⟩ := ht.pending i hi
      refine ⟨hlatest.trans heq, rfl, fun hmem => ?_, hlive.current⟩
      obtain hmem | hmem := List.mem_append.mp hmem
      · exact hlive.kept hmem
      · obtain ⟨j, hj, hji⟩ := List.mem_map.mp hmem
        obtain rfl : j = i := congrArg Prod.fst hji
        exact hover (by simpa using (List.mem_filter.mp hj).2)
  idle := by
    intro i hi id hid
    by_cases hover : h.Overdue nowMs i
    · have h1 := ht.le_newest (i, id) hid
      have h2 := ht.expected i
      have h3 := (he.given i (List.mem_finRange i) hover).1
      simp only at h1
      omega
    · obtain ⟨hlatest, hat⟩ := he.other i fun hi' => hover hi'.2
      rw [hlatest]
      exact ht.idle i (hat ▸ hi) id hid
  flagged := by
    intro i hi
    obtain ⟨hi, hno⟩ := he.awaiting i hi
    rw [(he.other i hno).2]
    exact ht.flagged i hi
  newest_le := by
    rw [he.next]
    exact ht.newest_le
  timedOut_le := by
    intro p hp
    rw [he.next]
    obtain hp | hp := List.mem_append.mp hp
    · exact ht.timedOut_le p hp
    · obtain ⟨j, -, rfl⟩ := List.mem_map.mp hp
      exact ht.newest_le j
  connect_le := by
    rw [he.next]
    exact ht.connect_le

/-- A (re)connect makes every request still out stale. -/
theorem Tracks.connect [Zero K] (ht : Tracks g h out) :
    Tracks { g with sentBeforeConnect := h.nextRequestId }
      { h with
        books := fun i => (h.books i).reset
        latestRequestId := fun i =>
          if h.snapshotRequestedAtMs i ≠ 0 then h.latestRequestId i + 1 else h.latestRequestId i
        snapshotRequestedAtMs := fun _ => 0 } out where
  once := ht.once
  le_newest := ht.le_newest
  expected := by
    intro i
    have h1 := ht.expected i
    dsimp only
    split_ifs <;> omega
  pending := fun i hi => absurd rfl hi
  idle := by
    intro i _ id hid
    have h1 := ht.le_newest (i, id) hid
    have h2 := ht.expected i
    dsimp only at h1 ⊢
    split_ifs with hat
    · omega
    · exact ht.idle i (not_not.mp hat) id hid
  flagged := fun i hi => by simp at hi
  newest_le := ht.newest_le
  timedOut_le := ht.timedOut_le
  connect_le := le_rfl

/-- A symbol's wait ends; the result that ended it carried its newest id. -/
theorem Tracks.ended (ht : Tracks g h ((i, g.newest i) :: out))
    (hlatest : h'.latestRequestId = h.latestRequestId)
    (hat : h'.snapshotRequestedAtMs = Function.update h.snapshotRequestedAtMs i 0)
    (hnext : h'.nextRequestId = h.nextRequestId)
    (hidle : (h'.books i).awaiting = false) (hother : ∀ j ≠ i, h'.books j = h.books j) :
    Tracks g h' out where
  once := (List.nodup_cons.mp ht.once).2
  le_newest := fun p hp => ht.le_newest p (List.mem_cons_of_mem _ hp)
  expected := by
    rw [hlatest]
    exact ht.expected
  pending := by
    intro j hj
    rw [hat] at hj
    rw [hlatest]
    by_cases hij : j = i
    · subst hij
      simp at hj
    · rw [Function.update_of_ne hij] at hj
      exact ht.pending j hj
  idle := by
    intro j hj id hid
    rw [hat] at hj
    rw [hlatest]
    by_cases hij : j = i
    · subst hij
      have hle := ht.le_newest (j, id) (List.mem_cons_of_mem _ hid)
      have hne : id ≠ g.newest j := by
        rintro rfl
        exact (List.nodup_cons.mp ht.once).1 (List.mem_map.mpr ⟨_, hid, rfl⟩)
      exact (lt_of_le_of_ne hle hne).trans_le (ht.expected j)
    · rw [Function.update_of_ne hij] at hj
      exact ht.idle j hj id (List.mem_cons_of_mem _ hid)
  flagged := by
    intro j hj
    rw [hat]
    by_cases hij : j = i
    · subst hij
      simp [hidle] at hj
    · rw [Function.update_of_ne hij]
      rw [hother j hij] at hj
      exact ht.flagged j hj
  newest_le := by
    rw [hnext]
    exact ht.newest_le
  timedOut_le := by
    rw [hnext]
    exact ht.timedOut_le
  connect_le := by
    rw [hnext]
    exact ht.connect_le

/-- A result that is not discarded is the one its symbol waits for. -/
theorem Tracks.not_stale {id : Nat} (ht : Tracks g h ((i, id) :: out))
    (hid : h.latestRequestId i ≤ id) : id = g.newest i ∧ g.Live i id := by
  have hat : h.snapshotRequestedAtMs i ≠ 0 := by
    intro hat
    exact absurd (ht.idle i hat id List.mem_cons_self) (not_lt.mpr hid)
  obtain ⟨heq, hlive⟩ := ht.pending i hat
  have hle : id ≤ g.newest i := ht.le_newest (i, id) List.mem_cons_self
  obtain rfl : id = g.newest i := le_antisymm hle (heq ▸ hid)
  exact ⟨rfl, hlive⟩

section
variable [LinearOrder K] [Zero K] (cfg : HandlerConfig n)

theorem Tracks.applyResult {r : SnapshotResult n K}
    (ht : Tracks g h ((r.symIdx, r.requestId) :: out)) :
    Tracks g (h.applyResult cfg nowMs r) out := by
  by_cases hstale : r.requestId < h.latestRequestId r.symIdx
  · have hskip : h.applyResult cfg nowMs r = h := by
      simp [QuoteFeedHandler.applyResult, hstale]
    rw [hskip]
    exact ht.subperm (List.sublist_cons_self _ _).subperm
  · have hkept : r.requestId = g.newest r.symIdx := (ht.not_stale (not_lt.mp hstale)).1
    rw [hkept] at ht
    have hbooks := h.applyResult_books cfg nowMs r
    rw [if_pos (not_lt.mp hstale)] at hbooks
    obtain ⟨hlatest, hnext, -, -, hat⟩ := h.applyResult_requests cfg nowMs r
    rw [if_neg hstale] at hat
    apply ht.ended hlatest hat hnext
    · rw [hbooks]
      split_ifs <;> simp
    · intro j hj
      rw [hbooks]
      split_ifs <;> rw [Function.update_of_ne hj]

variable (nowMs) in
/-- Draining keeps the invariant, and passes on live results only. -/
theorem Tracks.drain {rs : List (SnapshotResult n K)}
    (ht : Tracks g h (rs.map (fun r => (r.symIdx, r.requestId)) ++ out)) :
    Tracks g (rs.foldl (QuoteFeedHandler.applyResult cfg nowMs) h) out ∧
      ∀ r ∈ h.passed cfg nowMs rs, g.Live r.symIdx r.requestId := by
  induction rs generalizing h with
  | nil => exact ⟨ht, by simp [QuoteFeedHandler.passed]⟩
  | cons r rs ih =>
      obtain ⟨hlast, hlive⟩ := ih (Tracks.applyResult cfg ht)
      refine ⟨hlast, fun r' hr' => ?_⟩
      simp only [QuoteFeedHandler.passed] at hr'
      split_ifs at hr' with hacc
      · obtain rfl | hr' := List.mem_cons.mp hr'
        · have hid : h.latestRequestId r'.symIdx ≤ r'.requestId := by
            simp only [QuoteFeedHandler.accepts, Bool.and_eq_true, decide_eq_true_eq] at hacc
            exact hacc.1
          exact (ht.not_stale hid).2
        · exact hlive r' hr'
      · exact hlive r' hr'

end

end Tracks

section Steps
variable {w : Protocol n K} {nowMs : Int}

/-- The invariant of a run of the whole. -/
def Protocol.Tracked (w : Protocol n K) : Prop := Tracks w.history w.handler w.outstanding

theorem push_sublist {α : Type*} (q : List α) (a : α) : (push q a).Sublist (q ++ [a]) := by
  simp only [push]
  split_ifs
  · exact (List.tail_sublist q).append_right [a]
  · exact .refl _

/-- The two queues matter only through what is outstanding. -/
theorem Tracks.queues {g : History n} {h : QuoteFeedHandler n K} {out : List (Fin n × Nat)}
    (ht : Tracks g h out) (requests : List (SnapshotRequest n))
    (results : List (SnapshotResult n K)) :
    Tracks g { h with requests := requests, results := results } out where
  __ := ht

/-- A request the thread takes stays outstanding, and none is added. -/
theorem Protocol.take_outstanding (w : Protocol n K) :
    w.take.outstanding.Subperm w.outstanding ∧
      ∃ requests, w.take.handler = { w.handler with requests := requests } := by
  simp only [Protocol.take]
  split
  · rename_i req rest hf hreq
    refine ⟨List.Perm.subperm ?_, rest, rfl⟩
    simp only [Protocol.outstanding, hf, hreq, List.map_cons, Option.toList_some,
      Option.toList_none, List.map_nil, List.append_nil, List.cons_append]
    exact List.perm_append_singleton _ _ |>.append_right _
  · exact ⟨List.Subperm.refl _, w.handler.requests, rfl⟩

/-- So does one whose result is queued, unless the queue drops the oldest result. -/
theorem Protocol.finish_outstanding (w : Protocol n K) (data : SnapshotData K) :
    (w.finish data).outstanding.Subperm w.outstanding ∧
      ∃ results, (w.finish data).handler = { w.handler with results := results } := by
  simp only [Protocol.finish]
  split
  · rename_i req hf
    refine ⟨?_, push w.handler.results ⟨req.symIdx, req.requestId, data⟩, rfl⟩
    have hpushed := (push_sublist w.handler.results ⟨req.symIdx, req.requestId, data⟩).map
      fun r : SnapshotResult n K => (r.symIdx, r.requestId)
    simp only [Protocol.outstanding, hf, Option.toList_some, Option.toList_none, List.map_nil,
      List.map_cons, List.append_nil, List.append_assoc]
    apply (hpushed.append_left _).subperm.trans
    apply List.Perm.subperm
    simp only [List.map_append, List.map_cons, List.map_nil]
    exact List.Perm.append_left _ (List.perm_append_singleton _ _)
  · exact ⟨List.Subperm.refl _, w.handler.results, rfl⟩

/-- A request sent is outstanding, and no other is added. -/
theorem Protocol.asked_outstanding {i : Fin n} {h' : QuoteFeedHandler n K}
    (ha : Asked i nowMs w.handler h') (g : History n) :
    (Protocol.outstanding ⟨h', w.fetching, g⟩).Subperm
      ((i, w.handler.nextRequestId + 1) :: w.outstanding) := by
  have hpushed := (push_sublist w.handler.requests
    ⟨i, w.handler.nextRequestId + 1⟩).map fun r => (r.symIdx, r.requestId)
  simp only [Protocol.outstanding, ha.requests, ha.results, List.append_assoc]
  apply (hpushed.append_right _).subperm.trans
  apply List.Perm.subperm
  simp only [List.map_append, List.map_cons, List.map_nil]
  exact (List.perm_append_singleton _ _).append_right _

theorem Protocol.Tracked.take (ht : w.Tracked) : w.take.Tracked := by
  obtain ⟨hout, requests, hhandler⟩ := w.take_outstanding
  have hhistory : w.take.history = w.history := by
    simp only [Protocol.take]
    split <;> rfl
  rw [Protocol.Tracked, hhistory, hhandler]
  exact (Tracks.queues ht requests w.handler.results).subperm hout

theorem Protocol.Tracked.finish (ht : w.Tracked) (data : SnapshotData K) :
    (w.finish data).Tracked := by
  obtain ⟨hout, results, hhandler⟩ := w.finish_outstanding data
  have hhistory : (w.finish data).history = w.history := by
    simp only [Protocol.finish]
    split <;> rfl
  rw [Protocol.Tracked, hhistory, hhandler]
  exact (Tracks.queues ht w.handler.requests results).subperm hout

variable [LinearOrder K] [Zero K] (cfg : HandlerConfig n)

variable (nowMs) in
/-- Draining touches neither queue. -/
theorem foldl_applyResult_queues (h : QuoteFeedHandler n K) (rs : List (SnapshotResult n K)) :
    let h' := rs.foldl (QuoteFeedHandler.applyResult cfg nowMs) h
    h'.requests = h.requests ∧ h'.results = h.results := by
  induction rs generalizing h with
  | nil => exact ⟨rfl, rfl⟩
  | cons r rs ih =>
      obtain ⟨hreq, hres⟩ := ih (h.applyResult cfg nowMs r)
      obtain ⟨-, -, hreq', hres', -⟩ := h.applyResult_requests cfg nowMs r
      exact ⟨hreq.trans hreq', hres.trans hres'⟩

/-- One timeout check and drain. -/
theorem Protocol.Tracked.drain (ht : w.Tracked) :
    Tracks (w.history.expire w.handler nowMs) (w.handler.applySnapshotResults cfg nowMs)
        (Protocol.outstanding ⟨w.handler.applySnapshotResults cfg nowMs, w.fetching, w.history⟩) ∧
      ∀ r ∈ w.handler.passedToOnSnapshot cfg nowMs,
        (w.history.expire w.handler nowMs).Live r.symIdx r.requestId := by
  have hexp := Expired.fold nowMs cfg w.handler (List.finRange n)
  have hdue := Tracks.expired ht hexp
  simp only [QuoteFeedHandler.applySnapshotResults, QuoteFeedHandler.passedToOnSnapshot]
  generalize (List.finRange n).foldl (QuoteFeedHandler.expireRequest cfg nowMs) w.handler = h₁
    at hexp hdue
  have hout : Tracks (w.history.expire w.handler nowMs) { h₁ with results := [] }
      (h₁.results.map (fun r => (r.symIdx, r.requestId)) ++
        (w.handler.requests.map (fun r => (r.symIdx, r.requestId)) ++
          w.fetching.toList.map fun r => (r.symIdx, r.requestId))) := by
    apply (Tracks.queues hdue h₁.requests []).subperm
    rw [Protocol.outstanding, hexp.results]
    exact List.perm_append_comm.subperm
  obtain ⟨hdrained, hlive⟩ := Tracks.drain nowMs cfg hout
  obtain ⟨hreq, hres⟩ :=
    foldl_applyResult_queues nowMs cfg { h₁ with results := [] } h₁.results
  refine ⟨?_, hlive⟩
  generalize h₁.results.foldl (QuoteFeedHandler.applyResult cfg nowMs)
    { h₁ with results := [] } = h₂ at hdrained hreq hres
  simp only [Protocol.outstanding, hreq.trans hexp.requests, hres, List.map_nil, List.append_nil]
  exact hdrained

theorem Protocol.Tracked.loop {e : Event n K} (ht : w.Tracked)
    (hclock : (ProtocolEvent.loop e).ClockSet) (hworker : ∀ data, e ≠ .worker data) :
    Protocol.Tracked
      { w with
        handler := w.handler.step cfg e
        history := w.history.note w.handler (w.handler.step cfg e) e } := by
  cases e with
  | connect tpConnected nowNs nowMs =>
      simp only [QuoteFeedHandler.step, History.note, QuoteFeedHandler.onConnect]
      have hmarked := Kept.markHoles nowMs cfg w.handler tpConnected nowNs
      generalize (if tpConnected then _ else w.handler : QuoteFeedHandler n K) = h₁ at hmarked
      have hconnected := Tracks.connect (Tracks.kept ht hmarked)
      simpa only [Protocol.Tracked, Protocol.outstanding, hmarked.requests, hmarked.results,
        ← hmarked.next] using hconnected
  | applyResults nowMs => exact (Protocol.Tracked.drain cfg ht).1
  | message symIdx delta recv nowMs =>
      simp only [QuoteFeedHandler.step, History.note]
      obtain hk | ha := handleDelta_cases nowMs recv cfg (i := symIdx)
        w.handler delta
      · simpa only [hk.next, if_true, Protocol.Tracked, Protocol.outstanding, hk.requests,
          hk.results] using Tracks.kept ht hk
      · simp only [ha.next, Nat.succ_ne_self, if_false]
        exact (Tracks.asked ht ha hclock).subperm (Protocol.asked_outstanding ha _)
  | checkTimeouts recv nowMs =>
      have hk : Kept w.handler (w.handler.checkPublishTimeouts cfg recv nowMs) :=
        .checkPublishTimeouts cfg w.handler
      simpa only [Protocol.Tracked, Protocol.outstanding, QuoteFeedHandler.step, History.note,
        hk.requests, hk.results] using Tracks.kept ht hk
  | worker data => exact absurd rfl (hworker data)

/-- Every event keeps the invariant. -/
theorem Protocol.Tracked.step {e : ProtocolEvent n K} (ht : w.Tracked) (hclock : e.ClockSet) :
    (w.step cfg e).Tracked := by
  cases e with
  | take => exact ht.take
  | finish data => exact ht.finish data
  | loop e =>
      cases e with
      | worker data =>
          simp only [Protocol.step]
          split_ifs
          · exact ht.take.finish data
          · exact ht
      | connect | applyResults | message | checkTimeouts =>
          exact Protocol.Tracked.loop cfg ht hclock (by simp)

omit [LinearOrder K] in
theorem Protocol.Tracked.init (startMs : Int) : (Protocol.init (K := K) cfg startMs).Tracked where
  once := List.nodup_nil
  le_newest := by simp [Protocol.outstanding, Protocol.init, QuoteFeedHandler.init]
  expected := fun _ => le_rfl
  pending := fun i hi => absurd rfl hi
  idle := by simp [Protocol.outstanding, Protocol.init, QuoteFeedHandler.init]
  flagged := fun i hi => by
    simp [Protocol.init, QuoteFeedHandler.init, SymbolBook.init, SymbolBook.awaiting] at hi
  newest_le := fun _ => le_rfl
  timedOut_le := by simp [Protocol.init]
  connect_le := le_rfl

theorem Protocol.Tracked.exec {es : List (ProtocolEvent n K)} (ht : w.Tracked)
    (hclock : ∀ e ∈ es, e.ClockSet) : (Foundation.exec (Protocol.step cfg) w es).Tracked :=
  exec_invariant_of_mem (P := Protocol.Tracked) (fun _ e he ht => ht.step cfg (hclock e he)) ht

/-- Draining only ever clears a request time. -/
theorem foldl_applyResult_requestedAt (h : QuoteFeedHandler n K) (rs : List (SnapshotResult n K))
    (i : Fin n)
    (hat : (rs.foldl (QuoteFeedHandler.applyResult cfg nowMs) h).snapshotRequestedAtMs i ≠ 0) :
    (rs.foldl (QuoteFeedHandler.applyResult cfg nowMs) h).snapshotRequestedAtMs i =
      h.snapshotRequestedAtMs i := by
  induction rs generalizing h with
  | nil => rfl
  | cons r rs ih =>
      have hrest := ih (h.applyResult cfg nowMs r) hat
      obtain ⟨-, -, -, -, hone⟩ := h.applyResult_requests cfg nowMs r
      rw [List.foldl_cons] at hat ⊢
      rw [hrest] at hat ⊢
      rw [hone] at hat ⊢
      split_ifs at hat ⊢
      · rfl
      · by_cases hi : i = r.symIdx
        · subst hi
          simp at hat
        · rw [Function.update_of_ne hi]

/-- After a timeout check, a request still out is not past its time. -/
theorem applySnapshotResults_in_time (h : QuoteFeedHandler n K) (i : Fin n)
    (hat : (h.applySnapshotResults cfg nowMs).snapshotRequestedAtMs i ≠ 0) :
    nowMs - (h.applySnapshotResults cfg nowMs).snapshotRequestedAtMs i ≤ snapshotTimeoutMs := by
  have hexp := Expired.fold nowMs cfg h (List.finRange n)
  simp only [QuoteFeedHandler.applySnapshotResults] at hat ⊢
  generalize (List.finRange n).foldl (QuoteFeedHandler.expireRequest cfg nowMs) h = h₁
    at hexp hat ⊢
  have hkept := foldl_applyResult_requestedAt cfg { h₁ with results := [] } h₁.results i hat
  rw [hkept] at hat ⊢
  by_contra hlate
  have hdue : ¬h.Overdue nowMs i := fun hover =>
    hat (hexp.given i (List.mem_finRange i) hover).2
  have hsame := (hexp.other i fun hi => hdue hi.2).2
  dsimp only at hat hlate
  rw [hsame] at hat hlate
  exact hdue ⟨hat, not_le.mp hlate⟩

end Steps

/-- The snapshot request protocol: in every run, only live requests' results
reach `onSnapshot`; a symbol that waits for a snapshot has a request time, and
after a timeout check that time is at most thirty seconds back. -/
theorem only_live_requests_applied [LinearOrder K] [Zero K] (cfg : HandlerConfig n)
    (startMs : Int) (es : List (ProtocolEvent n K)) (hclock : ∀ e ∈ es, e.ClockSet) :
    let w := exec (Protocol.step cfg) (Protocol.init cfg startMs) es
    (∀ nowMs, ∀ r ∈ w.handler.passedToOnSnapshot cfg nowMs,
      (w.history.expire w.handler nowMs).Live r.symIdx r.requestId) ∧
    (∀ i, (w.handler.books i).snapshotRequested = true ∨ (w.handler.books i).refreshPending = true →
      w.handler.snapshotRequestedAtMs i ≠ 0) ∧
    ∀ nowMs i,
      let h := w.handler.applySnapshotResults cfg nowMs
      (h.books i).snapshotRequested = true ∨ (h.books i).refreshPending = true →
        h.snapshotRequestedAtMs i ≠ 0 ∧
          nowMs - h.snapshotRequestedAtMs i ≤ snapshotTimeoutMs := by
  intro w
  have ht : w.Tracked := (Protocol.Tracked.init cfg startMs).exec cfg hclock
  refine ⟨fun nowMs => (ht.drain cfg).2, fun i hi => ht.flagged i ?_, ?_⟩
  · simpa [SymbolBook.awaiting] using hi
  · intro nowMs i h hi
    have hat := (ht.drain cfg).1.flagged i (by simpa [SymbolBook.awaiting] using hi)
    exact ⟨hat, applySnapshotResults_in_time cfg w.handler i hat⟩

def watchedConfig : HandlerConfig 1 :=
  { book := .oneLevel
    schedCfg := { jitter := fun _ => 0 }
    symbolsUpper := fun _ => "BTCUSDT" }

/-- A request is in the worker's hands when the connection is lost; the next
connection sends its own, and both results come back. -/
def reconnectEvents : List (ProtocolEvent 1 Int) :=
  [.loop (.message (Fin.last 0) { firstUpdateId := 10, finalUpdateId := 10, bids := [], asks := [] } 0 1),
    .take,
    .loop (.connect true 0 2),
    .loop (.message (Fin.last 0) { firstUpdateId := 20, finalUpdateId := 20, bids := [], asks := [] } 0 3),
    .finish { lastUpdateId := 10, success := true },
    .take,
    .finish { lastUpdateId := 20, success := true }]

/-- Of the two results only the second connection's is applied. -/
theorem reconnectEvents_applied :
    let w := exec (Protocol.step watchedConfig) (Protocol.init watchedConfig 0) reconnectEvents
    w.handler.results.map (·.requestId) = [1, 2] ∧
      (w.handler.passedToOnSnapshot watchedConfig 4).map (·.requestId) = [2] ∧
      ∀ r ∈ w.handler.passedToOnSnapshot watchedConfig 4,
        (w.history.expire w.handler 4).Live r.symIdx r.requestId := by
  refine ⟨by decide +kernel, by decide +kernel, ?_⟩
  exact (only_live_requests_applied watchedConfig 0 reconnectEvents
    (by simp [reconnectEvents, ProtocolEvent.ClockSet])).1 4

end TickToSignal.Quote
