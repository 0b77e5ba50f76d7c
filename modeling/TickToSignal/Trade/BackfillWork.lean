import TickToSignal.Trade.BackfillDelivery

/-!
# What one pump does to the queue of gaps

Whatever pages arrive, a pump only does a few things to the gap at the head of
the queue: it hands out the next rows of it, reports it, or ends it.

## Implementation notes

`Worked` forgets the requests and the rate limits. It relates the gaps in the
queue before and after with the outputs in between, so what a pump preserves is
proved by induction on it.
-/

namespace TickToSignal.Trade

variable {φ δ : Type*}

/-- From the gaps `gs` to the gaps `gs'`, handing out `new`. -/
inductive Worked : List TradeGap → List (Out δ) → List TradeGap → Prop
  | nothing (gs : List TradeGap) : Worked gs [] gs
  | applied (gs : List TradeGap) (job : Nat) (r : Request) : Worked gs [.applied job r] gs
  | report (g : TradeGap) (gs : List TradeGap) (job : Nat) (status : GapStatus)
      (reason : String) : Worked (g :: gs) [.event job g status reason] (g :: gs)
  | finish (g : TradeGap) (gs : List TradeGap) (job : Nat) (status : GapStatus)
      (reason : String) : Worked (g :: gs) [.event job g status reason] gs
  /-- the ids the head needs next -/
  | rows (g : TradeGap) (gs : List TradeGap) (job : Nat) (recvTimeUtcNs : Int)
      (ts : List (BackfillTrade δ))
      (hids : ts.map (·.id) = (List.range ts.length).map fun i : Nat => g.nextNeededId + i)
      (hlast : g.nextNeededId + ts.length ≤ g.lastId + 1) :
      Worked (g :: gs) (ts.map fun t => .row job g.sym t recvTimeUtcNs) (g.advance ts.length :: gs)
  | trans {gs gs' gs'' : List TradeGap} {new new' : List (Out δ)} (h : Worked gs new gs')
      (h' : Worked gs' new' gs'') : Worked gs (new ++ new') gs''

/-- What is published of a page are the ids needed next, none above the gap. -/
theorem served_ids (lastId next : Int) (ts : List (BackfillTrade δ)) :
    (served lastId next ts).map (·.id) =
        (List.range (served lastId next ts).length).map (fun i : Nat => next + i) ∧
      (served lastId next ts ≠ [] → next + (served lastId next ts).length ≤ lastId + 1) := by
  let gap : TradeGap := { sym := "", firstId := next, lastId := lastId }
  have hnext : gap.nextNeededId + (0 : Nat) = next := by simp [gap, TradeGap.nextNeededId]
  have hdelivers : Delivers gap 0 ((served gap.lastId (gap.nextNeededId + (0 : Nat)) ts).map
      fun t => Out.row 0 gap.sym t 0) := served_delivers 0 0 ts
  rw [hnext] at hdelivers
  have hids := hdelivers.rowIds_eq
  have hle := hdelivers.le_last
  rw [rowIds_rows] at hids hle
  rw [hnext, List.length_map] at hids
  refine ⟨hids, fun hne => ?_⟩
  obtain ⟨n, hn⟩ := Nat.exists_eq_succ_of_ne_zero (List.length_pos_iff.mpr hne).ne'
  have hmem : next + (n : Nat) ∈ (served lastId next ts).map (·.id) := by
    rw [hids, hn]
    exact List.mem_map.mpr ⟨n, by simp, rfl⟩
  have hlast : next + (n : Nat) ≤ lastId := hle _ hmem
  rw [hn]
  push_cast
  omega

namespace TradeBackfill

variable {s s' s'' : TradeBackfill φ δ}

/-- The gaps in the queue, with their progress. -/
def gaps (s : TradeBackfill φ δ) : List TradeGap := s.queue.map (·.gap)

theorem gaps_addGap (s : TradeBackfill φ δ) (gap : TradeGap) :
    (s.addGap gap).gaps = s.gaps ++ [gap] := by
  simp only [gaps, addGap, List.map_append, List.map_cons, List.map_nil]

theorem gaps_addGaps (s : TradeBackfill φ δ) (gs : List TradeGap) :
    (gs.foldl (fun b gap => b.addGap gap) s).gaps = s.gaps ++ gs := by
  induction gs generalizing s with
  | nil => simp
  | cons g gs ih =>
      rw [List.foldl_cons, ih, gaps_addGap, List.append_assoc]
      rfl

theorem gaps_start (s : TradeBackfill φ δ) (cfg : TradeBackfillConfig) :
    (s.start cfg).gaps = s.gaps := by
  simp only [start]
  split_ifs <;> rfl

/-- A part of a pump: it hands out `new`. -/
def Works (s s' : TradeBackfill φ δ) : Prop :=
  ∃ new, s'.out = s.out ++ new ∧ Worked s.gaps new s'.gaps

namespace Works

theorem of_eq (hout : s'.out = s.out) (hgaps : s'.gaps = s.gaps) : Works s s' :=
  ⟨[], by simp [hout], hgaps ▸ .nothing _⟩

theorem refl (s : TradeBackfill φ δ) : Works s s := of_eq rfl rfl

theorem trans (h : Works s s') (h' : Works s' s'') : Works s s'' := by
  obtain ⟨new, hout, hworked⟩ := h
  obtain ⟨new', hout', hworked'⟩ := h'
  exact ⟨new ++ new', by rw [hout', hout, List.append_assoc], hworked.trans hworked'⟩

end Works

theorem finish_works (s : TradeBackfill φ δ) (status : GapStatus) (reason : String) :
    Works s (s.finish status reason) := by
  simp only [finish]
  split
  · exact .refl s
  next job rest hqueue =>
  refine ⟨_, rfl, ?_⟩
  simp only [gaps, hqueue, List.map_cons]
  exact .finish job.gap _ job.no status reason

theorem countFailure_works (s : TradeBackfill φ δ) (cfg : TradeBackfillConfig)
    (page : BackfillPage δ) (nowMs : Int) : Works s (s.countFailure cfg page nowMs) := by
  have hgaps : (s.countFailure cfg page nowMs).gaps = s.gaps := by
    simp only [gaps, countFailure]
    cases s.queue <;> rfl
  exact .of_eq rfl hgaps

theorem fail_works (s : TradeBackfill φ δ) (cfg : TradeBackfillConfig) (page : BackfillPage δ)
    (nowMs : Int) (reason : String) : Works s (s.fail cfg page nowMs reason) := by
  have hcount := s.countFailure_works cfg page nowMs
  simp only [fail]
  split
  · exact hcount
  · split_ifs
    · exact hcount.trans (finish_works ..)
    · exact hcount

theorem publishRows_works {job : Job} {rest : List Job} (hqueue : s.queue = job :: rest)
    (page : BackfillPage δ)
    (hne : served job.gap.lastId job.gap.nextNeededId page.trades ≠ []) :
    Works s
      (s.publishRows job rest page (served job.gap.lastId job.gap.nextNeededId page.trades)) := by
  obtain ⟨hids, hlast⟩ := served_ids job.gap.lastId job.gap.nextNeededId page.trades
  have hlast := hlast hne
  generalize served job.gap.lastId job.gap.nextNeededId page.trades = ts at *
  refine ⟨_, rfl, ?_⟩
  have hlen : ts.length ≠ 0 := fun hzero => hne (List.length_eq_zero_iff.mp hzero)
  have hrows := Worked.rows job.gap (rest.map (·.gap)) job.no page.recvTimeUtcNs ts hids hlast
  simpa only [gaps, publishRows, hqueue, List.map_cons, TradeGap.advance, if_neg hlen] using hrows

theorem report_works (s : TradeBackfill φ δ) : Works s s.report := by
  simp only [report]
  split
  · exact .refl s
  next job rest hqueue =>
  split_ifs
  · exact finish_works ..
  · refine ⟨_, rfl, ?_⟩
    simp only [gaps, emit, hqueue, List.map_cons]
    exact .report job.gap _ job.no .partly ""

theorem onPage_works (s : TradeBackfill φ δ) (cfg : TradeBackfillConfig) (page : BackfillPage δ)
    (nowMs : Int) : Works s (s.onPage cfg page nowMs) := by
  have hok : Works s { s with sched := s.sched.onFetchOk cfg.sched slot nowMs page.usedWeight1m } :=
    .of_eq rfl rfl
  simp only [onPage]
  split
  · exact .refl s
  next job rest hqueue =>
  split
  · split
    · exact hok.trans (finish_works ..)
    · exact fail_works ..
  split
  · exact hok.trans (fail_works ..)
  split_ifs with hlate hnone
  · exact hok.trans (finish_works ..)
  · exact hok.trans (fail_works ..)
  · rw [List.isEmpty_iff] at hnone
    exact (hok.trans (publishRows_works hqueue page hnone)).trans (report_works _)

theorem takePage_works (s : TradeBackfill φ δ) (cfg : TradeBackfillConfig) (nowMs : Int) :
    Works s (s.takePage cfg nowMs).2 := by
  obtain ⟨-, -, hqueue, -, hout⟩ := poll_spec cfg s
  have hpolled : Works s (s.poll cfg).2 := .of_eq hout (by simp only [gaps, hqueue])
  simp only [takePage]
  split_ifs
  · split
    · next polled hpoll => simpa only [hpoll] using hpolled
    · next reply polled hpoll =>
        rw [hpoll] at hpolled
        refine hpolled.trans ?_
        simp only [applyReply]
        split
        · exact .of_eq rfl rfl
        · next job rest hcons =>
            have happlied : Works polled
                (emit [.applied job.no reply.request] { polled with inFlight := false }) :=
              ⟨_, rfl, .applied _ job.no reply.request⟩
            exact happlied.trans (onPage_works ..)
  · exact .refl s

theorem settleHeads_works (cfg : TradeBackfillConfig) (k : Nat) (s : TradeBackfill φ δ) :
    Works s (s.settleHeads cfg k).2 := by
  induction k generalizing s with
  | zero => exact .refl s
  | succ k ih =>
      simp only [settleHeads]
      split
      · exact .refl s
      · split
        · exact .refl s
        · exact (finish_works ..).trans (ih _)

theorem request_works (s : TradeBackfill φ δ) (cfg : TradeBackfillConfig) (fetch : Fetcher φ δ)
    (nowMs : Int) : Works s (s.request cfg fetch nowMs).2 := by
  simp only [request]
  split
  · split_ifs <;> exact .of_eq rfl rfl
  · exact .refl s

theorem pumpOnce_works (s : TradeBackfill φ δ) (cfg : TradeBackfillConfig) (fetch : Fetcher φ δ)
    (nowMs : Int) : Works s (s.pumpOnce cfg fetch nowMs).2 := by
  have hsettle : ∀ t : TradeBackfill φ δ, Works t (t.settle cfg).2 := by
    intro t
    simp only [settle]
    split_ifs
    · exact .refl t
    · exact settleHeads_works ..
  exact ((s.takePage_works cfg nowMs).trans (hsettle _)).trans (request_works ..)

theorem pumpLoop_works (cfg : TradeBackfillConfig) (fetch : Fetcher φ δ) (nowMs : Int)
    (guard : Nat) (s : TradeBackfill φ δ) : Works s (s.pumpLoop cfg fetch nowMs guard) := by
  induction guard generalizing s with
  | zero => exact .refl s
  | succ guard ih =>
      have honce := s.pumpOnce_works cfg fetch nowMs
      simp only [pumpLoop]
      split_ifs
      · exact honce.trans (ih _)
      · exact honce

/-- A pump only works on the queue. -/
theorem pump_works (s : TradeBackfill φ δ) (cfg : TradeBackfillConfig) (fetch : Fetcher φ δ)
    (nowMs : Int) : Works s (s.pump cfg fetch nowMs) :=
  pumpLoop_works cfg fetch nowMs 100000 s

end TradeBackfill

end TickToSignal.Trade
