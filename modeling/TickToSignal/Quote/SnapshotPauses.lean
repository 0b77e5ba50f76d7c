import TickToSignal.Quote.SnapshotBudget

/-!
# Pauses and backoff over runs of the scheduler

A pause is a time that only moves up. The backoff of a symbol is a time that
every failure sets anew, to a later one as long as the clock does not go back:
the wait after more failures is no shorter. Only `onSynced` takes it away.

## Implementation notes

A negative `usedWeight1m` means that the header was absent.
-/

namespace TickToSignal.Quote

open Foundation

namespace SchedulerCall

variable {n : Nat}

/-- The call reports that no request may be made before a time. -/
inductive Pauses (cfg : SnapshotSchedulerConfig) : SchedulerCall n → Int → Prop
  | tooManyRequests {symIdx : Fin n} {t retryAfterSec usedWeight1m : Int} :
      Pauses cfg (.onFailure symIdx t 429 retryAfterSec usedWeight1m)
        (t + max cfg.minPause429Ms (1000 * retryAfterSec))
  | banned {symIdx : Fin n} {t retryAfterSec usedWeight1m : Int} :
      Pauses cfg (.onFailure symIdx t 418 retryAfterSec usedWeight1m)
        (t + max cfg.minPause418Ms (1000 * retryAfterSec))
  | failedHeavy {symIdx : Fin n} {t httpStatus retryAfterSec usedWeight1m : Int}
      (reported : 0 ≤ usedWeight1m)
      (heavy : cfg.weightLimitPerMin * cfg.usedWeightPauseFraction ≤ usedWeight1m) :
      Pauses cfg (.onFailure symIdx t httpStatus retryAfterSec usedWeight1m)
        (t + cfg.usedWeightPauseMs)
  | fetchedHeavy {symIdx : Fin n} {t usedWeight1m : Int} (reported : 0 ≤ usedWeight1m)
      (heavy : cfg.weightLimitPerMin * cfg.usedWeightPauseFraction ≤ usedWeight1m) :
      Pauses cfg (.onFetchOk symIdx t usedWeight1m) (t + cfg.usedWeightPauseMs)

/-- The calls are told times that do not decrease. -/
def InOrder (calls : List (SchedulerCall n)) : Prop :=
  (calls.filterMap nowMs).Pairwise (· ≤ ·)

instance (calls : List (SchedulerCall n)) : Decidable (InOrder calls) :=
  inferInstanceAs (Decidable ((calls.filterMap nowMs).Pairwise (· ≤ ·)))

/-- In order, what comes after a call is told no earlier time. -/
theorem InOrder.after {pre post : List (SchedulerCall n)} {c d : SchedulerCall n}
    (h : InOrder (pre ++ c :: post ++ [d])) {t : Int} (ht : c.nowMs = some t) :
    (∀ x ∈ post, ∀ t' ∈ x.nowMs, t ≤ t') ∧ ∀ t' ∈ d.nowMs, t ≤ t' := by
  rw [InOrder, List.append_assoc, List.filterMap_append, List.pairwise_append] at h
  have htail := h.2.1
  rw [List.cons_append, List.filterMap_cons_some ht, List.pairwise_cons] at htail
  constructor
  · intro x hx t' ht'
    exact htail.1 t' (List.mem_filterMap.mpr ⟨x, List.mem_append_left _ hx, ht'⟩)
  · intro t' ht'
    exact htail.1 t' (List.mem_filterMap.mpr ⟨d, List.mem_append_right _ (by simp), ht'⟩)

/-- The `onFailure` calls of a symbol since its last `onSynced`, after one more call. -/
def countFailure (symIdx : Fin n) (k : Nat) : SchedulerCall n → Nat
  | .onFailure sym _ _ _ _ => if sym = symIdx then k + 1 else k
  | .onSynced sym => if sym = symIdx then 0 else k
  | _ => k

/-- The consecutive failures of a symbol at the end of the calls. -/
def streak (symIdx : Fin n) (calls : List (SchedulerCall n)) : Nat :=
  calls.foldl (countFailure symIdx) 0

end SchedulerCall

open SchedulerCall

/-- The wait after `k` consecutive failures without the jitter. -/
def SnapshotSchedulerConfig.delay (cfg : SnapshotSchedulerConfig) (k : Nat) : Int :=
  min (cfg.initialBackoffMs * 2 ^ (k - 1)) cfg.maxBackoffMs

namespace SnapshotScheduler

variable {n : Nat} {cfg : SnapshotSchedulerConfig} {s : SnapshotScheduler n}

/-! ## Pauses -/

theorem refill_pauseUntilMs (cfg : SnapshotSchedulerConfig) (s : SnapshotScheduler n)
    (nowMs : Int) : (s.refill cfg nowMs).pauseUntilMs = s.pauseUntilMs := by
  simp only [refill]
  split_ifs <;> rfl

theorem refill_nextAllowedMs (cfg : SnapshotSchedulerConfig) (s : SnapshotScheduler n)
    (nowMs : Int) : (s.refill cfg nowMs).nextAllowedMs = s.nextAllowedMs := by
  simp only [refill]
  split_ifs <;> rfl

theorem refill_failures (cfg : SnapshotSchedulerConfig) (s : SnapshotScheduler n)
    (nowMs : Int) : (s.refill cfg nowMs).failures = s.failures := by
  simp only [refill]
  split_ifs <;> rfl

/-- A pause reaches at least as far as asked for, and as far as the one before. -/
theorem le_pauseAll (s : SnapshotScheduler n) (nowMs ms : Int) :
    s.pauseUntilMs ≤ (s.pauseAll nowMs ms).pauseUntilMs ∧
      nowMs + ms ≤ (s.pauseAll nowMs ms).pauseUntilMs := by
  simp only [pauseAll]
  split_ifs <;> omega

theorem le_checkUsedWeight (cfg : SnapshotSchedulerConfig) (s : SnapshotScheduler n)
    (nowMs usedWeight1m : Int) :
    s.pauseUntilMs ≤ (s.checkUsedWeight cfg nowMs usedWeight1m).pauseUntilMs := by
  simp only [checkUsedWeight]
  split_ifs
  · exact Int.le_refl _
  · exact (s.le_pauseAll nowMs cfg.usedWeightPauseMs).1
  · exact Int.le_refl _

/-- A reported weight at or above the threshold pauses all symbols. -/
theorem checkUsedWeight_heavy {nowMs usedWeight1m : Int} (reported : 0 ≤ usedWeight1m)
    (heavy : cfg.weightLimitPerMin * cfg.usedWeightPauseFraction ≤ usedWeight1m) :
    nowMs + cfg.usedWeightPauseMs ≤ (s.checkUsedWeight cfg nowMs usedWeight1m).pauseUntilMs := by
  simp only [checkUsedWeight, if_neg (not_lt.mpr reported), if_pos heavy]
  exact (s.le_pauseAll nowMs cfg.usedWeightPauseMs).2

/-- No call shortens a pause. -/
theorem pauseUntilMs_le_step (c : SchedulerCall n) :
    s.pauseUntilMs ≤ (s.step cfg c).pauseUntilMs := by
  cases c with
  | tryAcquire symIdx nowMs =>
      simp only [step, tryAcquire]
      split_ifs <;> rw [refill_pauseUntilMs]
  | onFailure symIdx nowMs httpStatus retryAfterSec usedWeight1m =>
      simp only [step, onFailure]
      refine le_trans ?_ (le_checkUsedWeight _ _ _ _)
      split_ifs
      · exact (le_pauseAll _ _ _).1
      · exact (le_pauseAll _ _ _).1
      · exact Int.le_refl _
  | onFetchOk symIdx nowMs usedWeight1m => exact le_checkUsedWeight _ _ _ _
  | onSynced symIdx => exact Int.le_refl _

/-- The call that asks for a pause gets it. -/
theorem pause_le_step {c : SchedulerCall n} {deadline : Int} (h : Pauses cfg c deadline) :
    deadline ≤ (s.step cfg c).pauseUntilMs := by
  cases h with
  | tooManyRequests =>
      simp only [step, onFailure]
      refine le_trans ?_ (le_checkUsedWeight _ _ _ _)
      simp only [Int.mul_comm 1000]
      exact (le_pauseAll _ _ _).2
  | banned =>
      simp only [step, onFailure]
      refine le_trans ?_ (le_checkUsedWeight _ _ _ _)
      simp only [Int.mul_comm 1000]
      exact (le_pauseAll _ _ _).2
  | failedHeavy reported heavy => exact checkUsedWeight_heavy reported heavy
  | fetchedHeavy reported heavy => exact checkUsedWeight_heavy reported heavy

theorem tryAcquire_refused_of_pause {symIdx : Fin n} {nowMs : Int} (h : nowMs < s.pauseUntilMs) :
    (s.tryAcquire cfg symIdx nowMs).1 = false := by
  simp [tryAcquire, refill_pauseUntilMs, h]

theorem tryAcquire_refused_of_backoff {symIdx : Fin n} {nowMs : Int}
    (h : nowMs < s.nextAllowedMs symIdx) : (s.tryAcquire cfg symIdx nowMs).1 = false := by
  simp [tryAcquire, refill_pauseUntilMs, refill_nextAllowedMs, h]

/-- After a call that pauses, nothing that is called in between lets a request through. -/
theorem refused_while_paused {pre post : List (SchedulerCall n)} {c : SchedulerCall n}
    {deadline nowMs : Int} (h : Pauses cfg c deadline) (hnow : nowMs < deadline) (symIdx : Fin n) :
    ((exec (step cfg) (init n cfg) (pre ++ c :: post)).tryAcquire cfg symIdx nowMs).1 = false := by
  rw [exec_append, exec_cons]
  have hkept : deadline ≤ (exec (step cfg) ((exec (step cfg) (init n cfg) pre).step cfg c)
      post).pauseUntilMs :=
    exec_invariant (P := fun s : SnapshotScheduler n => deadline ≤ s.pauseUntilMs)
      (fun _ c hs => hs.trans (pauseUntilMs_le_step c)) post (pause_le_step h)
  exact tryAcquire_refused_of_pause (hnow.trans_le hkept)

/-! ## Backoff -/

/-- The loop stops at the first delay that the cap cuts. -/
theorem min_doubled (maxBackoffMs : Int) (k : Nat) {delay : Int} (hdelay : 0 ≤ delay) :
    min (doubled maxBackoffMs k delay) maxBackoffMs = min (delay * 2 ^ k) maxBackoffMs := by
  induction k generalizing delay with
  | zero => simp [doubled]
  | succ k ih =>
      simp only [doubled]
      split_ifs with hless
      · rw [ih (by omega), pow_succ']
        congr 1
        ring
      · have hgrown : delay ≤ delay * 2 ^ (k + 1) :=
          le_mul_of_one_le_right hdelay (one_le_pow₀ (by decide))
        rw [min_eq_right (not_lt.mp hless), min_eq_right ((not_lt.mp hless).trans hgrown)]

theorem delay_le_delay {j k : Nat} (hjk : j ≤ k) (hinitial : 0 ≤ cfg.initialBackoffMs) :
    cfg.delay j ≤ cfg.delay k := by
  have hpow : (2 : Int) ^ (j - 1) ≤ 2 ^ (k - 1) := pow_le_pow_right₀ (by decide) (by omega)
  exact min_le_min_right _ (mul_le_mul_of_nonneg_left hpow hinitial)

/-- The jitter only stretches a wait. -/
theorem delay_le_backoff (hfraction : 0 ≤ cfg.jitterFraction) {jitter : ℚ} (hjitter : 0 ≤ jitter)
    {k : Nat} (hinitial : 0 ≤ cfg.initialBackoffMs) (hdelay : 0 ≤ cfg.delay k) :
    cfg.delay k ≤ backoff cfg k jitter := by
  simp only [backoff]
  rw [min_doubled _ _ hinitial]
  change cfg.delay k ≤ cfg.delay k + ⌊(cfg.delay k : ℚ) * cfg.jitterFraction * jitter⌋
  have hstretch : 0 ≤ ⌊(cfg.delay k : ℚ) * cfg.jitterFraction * jitter⌋ := by
    have hwait : (0 : ℚ) ≤ cfg.delay k := by exact_mod_cast hdelay
    exact Int.floor_nonneg.mpr (mul_nonneg (mul_nonneg hwait hfraction) hjitter)
  omega

theorem checkUsedWeight_backoff (cfg : SnapshotSchedulerConfig) (s : SnapshotScheduler n)
    (nowMs usedWeight1m : Int) :
    (s.checkUsedWeight cfg nowMs usedWeight1m).failures = s.failures ∧
      (s.checkUsedWeight cfg nowMs usedWeight1m).nextAllowedMs = s.nextAllowedMs := by
  simp only [checkUsedWeight]
  split_ifs <;> exact ⟨rfl, rfl⟩

theorem onFailure_backoff (cfg : SnapshotSchedulerConfig) (s : SnapshotScheduler n)
    (symIdx : Fin n) (nowMs httpStatus retryAfterSec usedWeight1m : Int) :
    let s' := s.onFailure cfg symIdx nowMs httpStatus retryAfterSec usedWeight1m
    s'.failures = Function.update s.failures symIdx (s.failures symIdx + 1) ∧
      s'.nextAllowedMs = Function.update s.nextAllowedMs symIdx
        (nowMs + backoff cfg (s.failures symIdx + 1) (cfg.jitter s.failuresTotal)) := by
  simp only [onFailure, checkUsedWeight, pauseAll]
  split_ifs <;> exact ⟨rfl, rfl⟩

/-- A symbol has failed `k` times or more and is not asked again before `deadline`. -/
structure Waits (symIdx : Fin n) (k : Nat) (deadline : Int) (s : SnapshotScheduler n) : Prop where
  failures : k ≤ s.failures symIdx
  nextAllowed : deadline ≤ s.nextAllowedMs symIdx

section
variable (hfraction : 0 ≤ cfg.jitterFraction) (hjitter : ∀ k, 0 ≤ cfg.jitter k)
include hfraction hjitter

/-- The failure that makes at least `k` in a row sets the wait for `k`. -/
theorem waits_onFailure {symIdx : Fin n} {k : Nat} {t nowMs : Int}
    (httpStatus retryAfterSec usedWeight1m : Int) (hk : k ≤ s.failures symIdx + 1)
    (hnow : t ≤ nowMs) (hinitial : 0 ≤ cfg.initialBackoffMs) (hdelay : 0 ≤ cfg.delay k) :
    Waits symIdx k (t + cfg.delay k)
      (s.step cfg (.onFailure symIdx nowMs httpStatus retryAfterSec usedWeight1m)) := by
  obtain ⟨hfailures, hnext⟩ := onFailure_backoff cfg s symIdx nowMs httpStatus
    retryAfterSec usedWeight1m
  have hlonger : cfg.delay k ≤ cfg.delay (s.failures symIdx + 1) := delay_le_delay hk hinitial
  have hwait := delay_le_backoff hfraction (hjitter s.failuresTotal) hinitial
    (hdelay.trans hlonger)
  constructor
  · simp only [step, hfailures, Function.update_self]
    exact hk
  · simp only [step, hnext, Function.update_self]
    omega

/-- A failure at a later time sets a later wait, and nothing else but `onSynced` touches it. -/
theorem Waits.step {symIdx : Fin n} {k : Nat} {t : Int}
    (h : Waits symIdx k (t + cfg.delay k) s) (hinitial : 0 ≤ cfg.initialBackoffMs)
    (hdelay : 0 ≤ cfg.delay k) {c : SchedulerCall n} (hnow : ∀ t' ∈ c.nowMs, t ≤ t')
    (hsynced : c ≠ .onSynced symIdx) : Waits symIdx k (t + cfg.delay k) (s.step cfg c) := by
  cases c with
  | tryAcquire sym nowMs =>
      have hsame : (s.step cfg (.tryAcquire sym nowMs)).failures = s.failures ∧
          (s.step cfg (.tryAcquire sym nowMs)).nextAllowedMs = s.nextAllowedMs := by
        simp only [SnapshotScheduler.step, tryAcquire]
        split_ifs <;> exact ⟨refill_failures cfg s nowMs, refill_nextAllowedMs cfg s nowMs⟩
      exact ⟨hsame.1 ▸ h.failures, hsame.2 ▸ h.nextAllowed⟩
  | onFailure sym nowMs httpStatus retryAfterSec usedWeight1m =>
      by_cases hsym : sym = symIdx
      · subst hsym
        exact waits_onFailure hfraction hjitter httpStatus retryAfterSec usedWeight1m
          (Nat.le_succ_of_le h.failures) (hnow nowMs rfl) hinitial hdelay
      · obtain ⟨hfailures, hnext⟩ := onFailure_backoff cfg s sym nowMs httpStatus
          retryAfterSec usedWeight1m
        constructor
        · simp only [SnapshotScheduler.step, hfailures, Function.update_of_ne (Ne.symm hsym)]
          exact h.failures
        · simp only [SnapshotScheduler.step, hnext, Function.update_of_ne (Ne.symm hsym)]
          exact h.nextAllowed
  | onFetchOk sym nowMs usedWeight1m =>
      obtain ⟨hfailures, hnext⟩ := checkUsedWeight_backoff cfg s nowMs usedWeight1m
      exact ⟨hfailures ▸ h.failures, hnext ▸ h.nextAllowed⟩
  | onSynced sym =>
      have hsym : symIdx ≠ sym := by
        rintro rfl
        exact hsynced rfl
      constructor
      · simp only [SnapshotScheduler.step, onSynced, Function.update_of_ne hsym]
        exact h.failures
      · simp only [SnapshotScheduler.step, onSynced, Function.update_of_ne hsym]
        exact h.nextAllowed

end

/-- The scheduler counts the consecutive failures of a symbol. -/
theorem failures_exec (symIdx : Fin n) (calls : List (SchedulerCall n)) :
    (exec (step cfg) (init n cfg) calls).failures symIdx = streak symIdx calls := by
  induction calls using List.reverseRecOn with
  | nil => rfl
  | append_singleton calls c ih =>
      rw [exec_append, streak, List.foldl_append, exec_cons, exec_nil]
      simp only [List.foldl_cons, List.foldl_nil]
      rw [← streak, ← ih]
      cases c with
      | tryAcquire sym nowMs =>
          simp only [step, tryAcquire, countFailure]
          split_ifs <;> simp only [refill_failures]
      | onFailure sym nowMs httpStatus retryAfterSec usedWeight1m =>
          simp only [step, (onFailure_backoff cfg _ sym nowMs httpStatus retryAfterSec
            usedWeight1m).1, countFailure, Function.update_apply, eq_comm (a := symIdx)]
          split_ifs with hsym
          · rw [hsym]
          · rfl
      | onFetchOk sym nowMs usedWeight1m =>
          simp only [step, onFetchOk, countFailure, (checkUsedWeight_backoff cfg _ _ _).1]
      | onSynced sym =>
          simp only [step, onSynced, countFailure, Function.update_apply, eq_comm (a := symIdx)]

/-- Pauses and backoff hold whatever else is called. Over calls at times that do not decrease,
no request goes through before the time a call has paused all symbols to, and none for a symbol
that has failed `k` times or more in a row, `k ≥ 1`, before the wait for `k` is over, unless
`onSynced` is called for the symbol. -/
theorem pauses_and_backoff_hold (cfg : SnapshotSchedulerConfig)
    (hfraction : 0 ≤ cfg.jitterFraction) (hjitter : ∀ k, 0 ≤ cfg.jitter k)
    (pre post : List (SchedulerCall n)) (c : SchedulerCall n) (symIdx : Fin n) (nowMs : Int)
    (hordered : InOrder (pre ++ c :: post ++ [.tryAcquire symIdx nowMs])) :
    let s := exec (step cfg) (init n cfg) (pre ++ c :: post)
    (∀ deadline, Pauses cfg c deadline → nowMs < deadline →
      (s.tryAcquire cfg symIdx nowMs).1 = false) ∧
    ∀ t httpStatus retryAfterSec usedWeight1m,
      c = .onFailure symIdx t httpStatus retryAfterSec usedWeight1m → .onSynced symIdx ∉ post →
      ∀ k, 1 ≤ k → k ≤ streak symIdx (pre ++ [c]) →
        nowMs < t + min (cfg.initialBackoffMs * 2 ^ (k - 1)) cfg.maxBackoffMs →
        (s.tryAcquire cfg symIdx nowMs).1 = false := by
  refine ⟨fun deadline hpause hnow => refused_while_paused hpause hnow symIdx, ?_⟩
  rintro t httpStatus retryAfterSec usedWeight1m rfl hsynced k - hstreak hnow
  change nowMs < t + cfg.delay k at hnow
  obtain ⟨hpost, hlast⟩ := InOrder.after hordered (t := t) rfl
  have hafter : t ≤ nowMs := hlast nowMs rfl
  have hdelay : 0 ≤ cfg.delay k := by
    by_contra hneg
    omega
  have hinitial : 0 ≤ cfg.initialBackoffMs :=
    nonneg_of_mul_nonneg_left (hdelay.trans (min_le_left _ _)) (by positivity)
  have hfailed : k ≤ (exec (step cfg) (init n cfg) pre).failures symIdx + 1 := by
    rw [failures_exec]
    simpa [streak, List.foldl_append, countFailure] using hstreak
  have hset := waits_onFailure hfraction hjitter httpStatus retryAfterSec usedWeight1m hfailed
    (le_refl t) hinitial hdelay
  rw [exec_append, exec_cons]
  have hheld := exec_invariant_of_mem (P := Waits symIdx k (t + cfg.delay k))
    (fun _ c hc hs => hs.step hfraction hjitter hinitial hdelay (hpost c hc)
      fun hsync => hsynced (hsync ▸ hc)) hset
  exact tryAcquire_refused_of_backoff (hnow.trans_le hheld.nextAllowed)

/-- Two failures in a row at 0 and 100 ms, the second one with HTTP 429. -/
theorem pauses_and_backoff_hold_429 :
    let cfg : SnapshotSchedulerConfig := { jitter := fun _ => 0 }
    let pre : List (SchedulerCall 2) := [.onFailure 0 0 500 0 (-1)]
    let c : SchedulerCall 2 := .onFailure 0 100 429 90 (-1)
    let s := exec (step cfg) (init 2 cfg) (pre ++ c :: [.onSynced 1])
    (∀ deadline, Pauses cfg c deadline → 2000 < deadline →
      (s.tryAcquire cfg 0 2000).1 = false) ∧
    ∀ t httpStatus retryAfterSec usedWeight1m,
      c = .onFailure 0 t httpStatus retryAfterSec usedWeight1m →
        .onSynced 0 ∉ ([.onSynced 1] : List (SchedulerCall 2)) →
      ∀ k, 1 ≤ k → k ≤ streak 0 (pre ++ [c]) →
        2000 < t + min (cfg.initialBackoffMs * 2 ^ (k - 1)) cfg.maxBackoffMs →
        (s.tryAcquire cfg 0 2000).1 = false :=
  pauses_and_backoff_hold { jitter := fun _ => 0 } (show (0 : ℚ) ≤ 1 / 4 by norm_num)
    (fun _ => Rat.le_refl)
    [.onFailure 0 0 500 0 (-1)] [.onSynced 1] (.onFailure 0 100 429 90 (-1)) 0 2000
    (by decide)

end SnapshotScheduler

end TickToSignal.Quote
