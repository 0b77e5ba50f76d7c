import Mathlib.Data.List.Basic

/-!
# Computations that remember the states they pass through

A trail maps a start state to the states the computation visits after it, in
order. Sequencing and loops are built from single updates, so a statement about
every visited state has one rule per construct. `Switches` is for computations
that leave one phase for another once, through a stretch of a known form.
-/

namespace TickToSignal.Foundation

variable {σ ι : Type*}

/-- From a start state, the states visited after it. -/
def Trail (σ : Type*) := σ → List σ

namespace Trail

/-- The state the computation ends in. -/
def final (p : Trail σ) (s : σ) : σ := (p s).getLastD s

/-- Do nothing. -/
def skip : Trail σ := fun _ => []

/-- One update of the state. -/
def update (f : σ → σ) : Trail σ := fun s => [f s]

def seq (p q : Trail σ) : Trail σ := fun s => p s ++ q (p.final s)

/-- Go on by what the state is. -/
def read (g : σ → Trail σ) : Trail σ := fun s => g s s

/-- One computation for each element, in order. -/
def each (f : ι → Trail σ) : List ι → Trail σ
  | [] => skip
  | i :: is => (f i).seq (each f is)

variable {p q : Trail σ} {f : ι → Trail σ} {s : σ}

@[simp] theorem final_skip : (skip : Trail σ).final s = s := rfl

@[simp] theorem final_update (g : σ → σ) : (update g).final s = g s := rfl

theorem getLastD_append (ts us : List σ) (d : σ) :
    (ts ++ us).getLastD d = us.getLastD (ts.getLastD d) := by
  induction ts generalizing d with
  | nil => rfl
  | cons t ts ih =>
      rw [List.cons_append, List.getLastD_cons, List.getLastD_cons]
      exact ih t

theorem getLastD_mem_or (ts : List σ) (d : σ) : ts.getLastD d ∈ ts ∨ ts.getLastD d = d := by
  induction ts generalizing d with
  | nil => exact .inr rfl
  | cons t ts ih =>
      left
      rw [List.getLastD_cons]
      obtain h | h := ih t
      · exact List.mem_cons_of_mem t h
      · rw [h]
        exact List.mem_cons_self

@[simp] theorem final_seq : (p.seq q).final s = q.final (p.final s) := by
  simp only [final, seq, getLastD_append]

@[simp] theorem final_read (g : σ → Trail σ) : (read g).final s = (g s).final s := rfl

@[simp] theorem final_each_nil : (each f []).final s = s := rfl

@[simp] theorem final_each_cons (i : ι) (is : List ι) :
    (each f (i :: is)).final s = (each f is).final ((f i).final s) :=
  final_seq

theorem final_each_append (is js : List ι) :
    (each f (is ++ js)).final s = (each f js).final ((each f is).final s) := by
  induction is generalizing s with
  | nil => rfl
  | cons i is ih =>
      rw [List.cons_append, final_each_cons, final_each_cons]
      exact ih

theorem each_append (f : ι → Trail σ) (is js : List ι) :
    each f (is ++ js) = (each f is).seq (each f js) := by
  induction is with
  | nil => rfl
  | cons i is ih =>
      funext s
      calc each f (i :: (is ++ js)) s
          = f i s ++ (each f is).seq (each f js) ((f i).final s) := by rw [← ih]; rfl
        _ = (f i s ++ each f is ((f i).final s)) ++ each f js ((each f is).final ((f i).final s)) :=
          (List.append_assoc _ _ _).symm
        _ = (each f (i :: is)).seq (each f js) s := by
          rw [← final_each_cons]
          rfl

theorem each_map {κ : Type*} (f : ι → Trail σ) (g : κ → ι) (ks : List κ) :
    each f (ks.map g) = each (fun k => f (g k)) ks := by
  induction ks with
  | nil => rfl
  | cons k ks ih => exact congrArg (f (g k)).seq ih

/-- A loop in a loop is one loop. -/
theorem each_flatMap {κ : Type*} (f : ι → Trail σ) (g : κ → List ι) (ks : List κ) :
    each f (ks.flatMap g) = each (fun k => each f (g k)) ks := by
  induction ks with
  | nil => rfl
  | cons k ks ih =>
      rw [List.flatMap_cons, each_append, ih]
      rfl

/-! ## A part of the state that is not looked at -/

/-- The computation neither reads nor writes what `g` writes. -/
def Ignores (g : σ → σ) (p : Trail σ) : Prop := ∀ s, p.final (g s) = g (p.final s)

section Ignores
variable {g : σ → σ}

theorem ignores_skip : (skip : Trail σ).Ignores g := fun _ => rfl

theorem ignores_update {h : σ → σ} (hcomm : ∀ s, h (g s) = g (h s)) : (update h).Ignores g := hcomm

theorem Ignores.seq (hp : p.Ignores g) (hq : q.Ignores g) : (p.seq q).Ignores g := by
  intro s
  rw [final_seq, final_seq, hp, hq]

theorem ignores_read {r : σ → Trail σ} (hread : ∀ s, r (g s) = r s) (h : ∀ s, (r s).Ignores g) :
    (read r).Ignores g := by
  intro s
  rw [final_read, final_read, hread]
  exact h s s

theorem ignores_each (h : ∀ i, (f i).Ignores g) (is : List ι) : (each f is).Ignores g := by
  induction is with
  | nil => exact ignores_skip
  | cons i is ih => exact (h i).seq ih

end Ignores

/-! ## A property of every visited state -/

/-- Started in `P`, the computation never leaves it. -/
def Keeps (P : σ → Prop) (p : Trail σ) : Prop := ∀ s, P s → ∀ t ∈ p s, P t

variable {P : σ → Prop}

/-- What holds of the start and of every visited state holds of the final one. -/
theorem final_of_all (hs : P s) (h : ∀ t ∈ p s, P t) : P (p.final s) := by
  obtain hmem | heq := getLastD_mem_or (p s) s
  · exact h _ hmem
  · rw [final, heq]
    exact hs

theorem Keeps.final (h : p.Keeps P) (hs : P s) : P (p.final s) := final_of_all hs (h s hs)

theorem keeps_skip : (skip : Trail σ).Keeps P := fun _ _ _ ht => by simp [skip] at ht

theorem keeps_update {g : σ → σ} (h : ∀ s, P s → P (g s)) : (update g).Keeps P := by
  intro s hs t ht
  obtain rfl := List.mem_singleton.mp ht
  exact h s hs

theorem Keeps.seq (hp : p.Keeps P) (hq : q.Keeps P) : (p.seq q).Keeps P := by
  intro s hs t ht
  rcases List.mem_append.mp ht with ht | ht
  · exact hp s hs t ht
  · exact hq _ (hp.final hs) t ht

theorem keeps_read {g : σ → Trail σ} (h : ∀ s, (g s).Keeps P) : (read g).Keeps P :=
  fun s hs => h s s hs

theorem keeps_each (h : ∀ i, (f i).Keeps P) (is : List ι) : (each f is).Keeps P := by
  induction is with
  | nil => exact keeps_skip
  | cons i is ih => exact (h i).seq ih

/-- The same when only some of the elements are known to be kept. -/
theorem keeps_each_of_mem {is : List ι} (h : ∀ i ∈ is, (f i).Keeps P) : (each f is).Keeps P := by
  induction is with
  | nil => exact keeps_skip
  | cons i is ih =>
      exact (h i List.mem_cons_self).seq (ih fun j hj => h j (List.mem_cons_of_mem i hj))

/-! ## One switch from a phase to another -/

/-- All states of one phase, or the phase up to a stretch of the form `Turn` and
the other phase after it. -/
def Switches (Before : σ → Prop) (Turn : List σ → Prop) (After : σ → Prop) (ts : List σ) : Prop :=
  (∀ t ∈ ts, Before t) ∨
    ∃ us turn vs, ts = us ++ turn ++ vs ∧ (∀ t ∈ us, Before t) ∧ Turn turn ∧ ∀ t ∈ vs, After t

theorem Switches.imp_before {Before Before' After : σ → Prop} {Turn : List σ → Prop} {ts : List σ}
    (h : Switches Before Turn After ts) (himp : ∀ t, Before t → Before' t) :
    Switches Before' Turn After ts := by
  obtain hall | ⟨us, turn, vs, heq, hus, hrest⟩ := h
  · exact .inl fun t ht => himp t (hall t ht)
  · exact .inr ⟨us, turn, vs, heq, fun t ht => himp t (hus t ht), hrest⟩

/-- From this state: a single switch at most out of the first phase, none out of the second. -/
structure PhasedAt (Before : σ → Prop) (Turn : List σ → Prop) (After : σ → Prop) (s : σ)
    (p : Trail σ) : Prop where
  before : Before s → Switches Before Turn After (p s)
  after : After s → ∀ t ∈ p s, After t

/-- The same from every state. -/
def Phased (Before : σ → Prop) (Turn : List σ → Prop) (After : σ → Prop) (p : Trail σ) : Prop :=
  ∀ s, p.PhasedAt Before Turn After s

section Phases
variable {Before After : σ → Prop} {Turn : List σ → Prop}

theorem phased_of_keeps (hbefore : p.Keeps Before) (hafter : p.Keeps After) :
    p.Phased Before Turn After :=
  fun s => ⟨fun hs => .inl (hbefore s hs), fun hs => hafter s hs⟩

theorem phased_read {g : σ → Trail σ} (h : ∀ s, (g s).PhasedAt Before Turn After s) :
    (read g).Phased Before Turn After :=
  fun s => ⟨(h s).before, (h s).after⟩

/-- Where a stretch of the turning form always ends in the second phase, phased
computations can be sequenced. -/
theorem Phased.seq (hturn : ∀ ts, Turn ts → ∀ d, After (ts.getLastD d))
    (hp : p.Phased Before Turn After) (hq : q.Phased Before Turn After) :
    (p.seq q).Phased Before Turn After := by
  intro s
  constructor
  · intro hs
    rcases (hp s).before hs with hall | ⟨us, turn, vs, heq, hus, ht, hvs⟩
    · rcases (hq _).before (final_of_all hs hall) with hall' | ⟨us, turn, vs, heq, hus, ht, hvs⟩
      · exact .inl fun t ht => (List.mem_append.mp ht).elim (hall t) (hall' t)
      · refine .inr ⟨p s ++ us, turn, vs, by simp [Trail.seq, heq], fun t ht => ?_, ht, hvs⟩
        exact (List.mem_append.mp ht).elim (hall t) (hus t)
    · have hfinal : After (p.final s) := by
        rw [Trail.final, heq, getLastD_append, getLastD_append]
        obtain hmem | hnone := getLastD_mem_or vs (turn.getLastD (us.getLastD s))
        · exact hvs _ hmem
        · rw [hnone]
          exact hturn turn ht _
      refine .inr ⟨us, turn, vs ++ q (p.final s), by simp [Trail.seq, heq], hus, ht, fun t ht => ?_⟩
      exact (List.mem_append.mp ht).elim (hvs t) ((hq _).after hfinal t)
  · intro hs t ht
    have hfinal : After (p.final s) := final_of_all hs ((hp s).after hs)
    rcases List.mem_append.mp ht with ht | ht
    · exact (hp s).after hs t ht
    · exact (hq _).after hfinal t ht

theorem phased_each (hturn : ∀ ts, Turn ts → ∀ d, After (ts.getLastD d))
    (h : ∀ i, (f i).Phased Before Turn After) (is : List ι) :
    (each f is).Phased Before Turn After := by
  induction is with
  | nil => exact phased_of_keeps keeps_skip keeps_skip
  | cons i is ih => exact (h i).seq hturn ih

end Phases

end Trail

end TickToSignal.Foundation
