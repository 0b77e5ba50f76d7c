import Mathlib.Algebra.Order.Group.Multiset
import Mathlib.Data.Finset.Dedup
import Mathlib.Data.Multiset.Filter
import Mathlib.Data.Multiset.Replicate
import Mathlib.Data.Nat.Lattice
import Mathlib.Logic.Function.Basic

/-!
# Objects with reference counts

A heap maps addresses to counted objects; releasing the last reference frees
the object, and its address may be handed out again. A computation on the heap
faults when it touches an address that holds no object. A triple says which
references a computation needs and which it leaves: it does not fault, and the
references of everybody else (the frame) are as they were.

## Implementation notes

References are a multiset of addresses with the value their owner expects
there, so what an owner reads is what was stored, also when addresses are
reused. `r` counts the references beyond the first: an object without
references cannot be written down.
-/

namespace TickToSignal.Foundation

/-- An object with its references beyond the first. -/
structure Cell (β : Type) where
  r : ℕ
  value : β
  deriving DecidableEq, Repr

/-- What is at each address. -/
abbrev Heap (ι β : Type) := ι → Option (Cell β)

/-- A computation on a heap; `none` is a fault. -/
abbrev Counted (ι β : Type) := StateT (Heap ι β) Option

variable {ι β γ δ : Type}

namespace Heap

/-- The references to what is at an address. -/
def refs (h : Heap ι β) (x : ι) : Multiset (ι × β) :=
  (h x).elim 0 fun c => Multiset.replicate (c.r + 1) (x, c.value)

theorem refs_none {h : Heap ι β} {x : ι} (hx : h x = none) : h.refs x = 0 := by
  simp [refs, hx]

theorem refs_some {h : Heap ι β} {x : ι} {c : Cell β} (hx : h x = some c) :
    h.refs x = Multiset.replicate (c.r + 1) (x, c.value) := by
  simp [refs, hx]

/-- How many references there are to what is at an address. -/
def count (h : Heap ι β) (x : ι) : ℕ := (h x).elim 0 fun c => c.r + 1

theorem card_refs (h : Heap ι β) (x : ι) : Multiset.card (h.refs x) = h.count x := by
  unfold refs count
  cases h x with
  | none => rfl
  | some c => exact Multiset.card_replicate _ _

end Heap

section
variable [DecidableEq ι]

theorem filter_cons_self (held : Multiset (ι × β)) (x : ι) (v : β) :
    ((x, v) ::ₘ held).filter (fun p => p.1 = x) = (x, v) ::ₘ held.filter (fun p => p.1 = x) := by
  apply Multiset.filter_cons_of_pos
  rfl

theorem filter_cons_other (held : Multiset (ι × β)) {x y : ι} (v : β) (h : y ≠ x) :
    ((x, v) ::ₘ held).filter (fun p => p.1 = y) = held.filter (fun p => p.1 = y) := by
  apply Multiset.filter_cons_of_neg
  exact h.symm

/-- The references of `held` are all references there are, each to the value it names. -/
def Held (held : Multiset (ι × β)) (h : Heap ι β) : Prop :=
  ∀ x, held.filter (fun p => p.1 = x) = h.refs x

namespace Held

variable {held : Multiset (ι × β)} {h : Heap ι β} {x : ι} {v : β}

theorem empty : Held 0 (fun _ => none : Heap ι β) := by
  intro x
  rw [Multiset.filter_zero, Heap.refs_none rfl]

/-- An address is counted as often as it is held. -/
theorem count_eq {rows : List (ι × β)} (hh : Held (rows : Multiset (ι × β)) h) (x : ι) :
    h.count x = (rows.map Prod.fst).count x := by
  rw [← Heap.card_refs, ← hh x, ← Multiset.coe_count, ← Multiset.map_coe, Multiset.count_map]
  exact congrArg Multiset.card (Multiset.filter_congr fun p _ => eq_comm)

/-- A heap nobody holds anything of is empty. -/
theorem eq_none (hh : Held 0 h) (x : ι) : h x = none := by
  have hx := hh x
  rw [Multiset.filter_zero] at hx
  cases hc : h x with
  | none => rfl
  | some c =>
      rw [Heap.refs_some hc, Multiset.replicate_succ] at hx
      exact absurd hx.symm (Multiset.cons_ne_zero)

/-- An owner finds the object, with the value it expects and a reference for itself. -/
theorem find (hh : Held ((x, v) ::ₘ held) h) :
    ∃ r, h x = some ⟨r, v⟩ ∧ held.filter (fun p => p.1 = x) = Multiset.replicate r (x, v) := by
  have hx := hh x
  rw [filter_cons_self] at hx
  cases hc : h x with
  | none =>
      rw [Heap.refs_none hc] at hx
      exact absurd hx (Multiset.cons_ne_zero)
  | some c =>
      rw [Heap.refs_some hc] at hx
      have hmem : (x, v) ∈ Multiset.replicate (c.r + 1) (x, c.value) := by
        rw [← hx]
        exact Multiset.mem_cons_self _ _
      obtain rfl : v = c.value := (Prod.mk.inj (Multiset.eq_of_mem_replicate hmem)).2
      rw [Multiset.replicate_succ, Multiset.cons_inj_right] at hx
      exact ⟨c.r, rfl, hx⟩

/-- Where something is held, its value is found. -/
theorem value_eq (hh : Held held h) (hmem : (x, v) ∈ held) : (h x).map (·.value) = some v := by
  obtain ⟨others, rfl⟩ := Multiset.exists_cons_of_mem hmem
  obtain ⟨r, hx, -⟩ := hh.find
  rw [hx, Option.map_some]

/-- The references to other addresses do not depend on what is at one. -/
theorem update_of_ne (hh : Held held h) {held' : Multiset (ι × β)} {cell : Option (Cell β)}
    (hother : ∀ y, y ≠ x → held'.filter (fun p => p.1 = y) = held.filter (fun p => p.1 = y))
    (hself : held'.filter (fun p => p.1 = x) =
      cell.elim 0 fun c => Multiset.replicate (c.r + 1) (x, c.value)) :
    Held held' (Function.update h x cell) := by
  intro y
  by_cases hy : y = x
  · subst hy
    rw [hself, Heap.refs, Function.update_self]
  · rw [hother y hy, hh y, Heap.refs, Heap.refs, Function.update_of_ne hy]

end Held

namespace Counted

/-- A new object at a free address, with one reference. -/
def alloc (malloc : Heap ι β → ι) (v : β) : Counted ι β ι := fun h =>
  match h (malloc h) with
  | none => some (malloc h, Function.update h (malloc h) (some ⟨0, v⟩))
  | some _ => none

/-- One more reference. -/
def r1 (x : ι) : Counted ι β Unit := fun h =>
  match h x with
  | none => none
  | some c => some ((), Function.update h x (some { c with r := c.r + 1 }))

/-- One reference less; the last one frees the object. -/
def r0 (x : ι) : Counted ι β Unit := fun h =>
  match h x with
  | none => none
  | some ⟨0, _⟩ => some ((), Function.update h x none)
  | some ⟨r + 1, v⟩ => some ((), Function.update h x (some ⟨r, v⟩))

/-- What is stored at an address. -/
def read (x : ι) : Counted ι β β := fun h =>
  match h x with
  | none => none
  | some c => some (c.value, h)

/-- One reference less to each of the addresses. -/
def releaseAll : List ι → Counted ι β Unit
  | [] => pure ()
  | x :: xs => do
      r0 x
      releaseAll xs

end Counted

/-- An address that the allocator hands out is in nobody's use. -/
def Allocates (malloc : Heap ι β → ι) : Prop :=
  ∀ held h, Held held h → h (malloc h) = none

/-- The lowest address that is free. -/
noncomputable def lowestFree (h : Heap ℕ β) : ℕ := sInf {x | h x = none}

theorem allocates_lowestFree : Allocates (lowestFree : Heap ℕ β → ℕ) := by
  intro held h hh
  obtain ⟨x, hx⟩ := Infinite.exists_notMem_finset (held.map Prod.fst).toFinset
  have hfree : h x = none := by
    rw [Multiset.mem_toFinset] at hx
    cases hc : h x with
    | none => rfl
    | some c =>
        have hmem : (x, c.value) ∈ held.filter (fun p => p.1 = x) := by
          rw [hh x, Heap.refs_some hc]
          exact Multiset.mem_replicate.mpr ⟨Nat.succ_ne_zero _, rfl⟩
        exact absurd (Multiset.mem_map_of_mem Prod.fst (Multiset.mem_of_mem_filter hmem)) hx
  exact Nat.sInf_mem (s := {x | h x = none}) ⟨x, hfree⟩

/-- With the references of `pre`, the computation does not fault, and it leaves references
that `post` allows of its result. -/
def Triple (pre : Multiset (ι × β)) (m : Counted ι β γ)
    (post : γ → Multiset (ι × β) → Prop) : Prop :=
  ∀ frame h, Held (pre + frame) h →
    ∃ a h' left, m h = some (a, h') ∧ post a left ∧ Held (left + frame) h'

namespace Triple

variable {pre : Multiset (ι × β)} {m : Counted ι β γ} {post : γ → Multiset (ι × β) → Prop}

theorem pure (a : γ) : Triple pre (Pure.pure a) fun b left => b = a ∧ left = pre :=
  fun _ h hh => ⟨a, h, pre, rfl, ⟨rfl, rfl⟩, hh⟩

theorem bind {f : γ → Counted ι β δ} {post' : δ → Multiset (ι × β) → Prop}
    (hm : Triple pre m post) (hf : ∀ a left, post a left → Triple left (f a) post') :
    Triple pre (m >>= f) post' := by
  intro frame h hh
  obtain ⟨a, h₁, left, hrun, hpost, hh₁⟩ := hm frame h hh
  obtain ⟨b, h₂, left', hrun', hpost', hh₂⟩ := hf a left hpost frame h₁ hh₁
  refine ⟨b, h₂, left', ?_, hpost', hh₂⟩
  change (m h).bind (fun p => f p.1 p.2) = _
  rw [hrun]
  exact hrun'

theorem weaken {post' : γ → Multiset (ι × β) → Prop} (hm : Triple pre m post)
    (himp : ∀ a left, post a left → post' a left) : Triple pre m post' := by
  intro frame h hh
  obtain ⟨a, h', left, hrun, hpost, hh'⟩ := hm frame h hh
  exact ⟨a, h', left, hrun, himp a left hpost, hh'⟩

/-- References that a computation does not need stay where they are. -/
theorem frame (hm : Triple pre m post) (kept : Multiset (ι × β)) :
    Triple (pre + kept) m fun a left => ∃ left', post a left' ∧ left = left' + kept := by
  intro frame h hh
  rw [add_assoc] at hh
  obtain ⟨a, h', left, hrun, hpost, hh'⟩ := hm (kept + frame) h hh
  refine ⟨a, h', left + kept, hrun, ⟨left, hpost, rfl⟩, ?_⟩
  rw [add_assoc]
  exact hh'

/-- A computation that uses some of the references, before one that starts with the rest. -/
theorem seq {used : Multiset (ι × β)} {f : γ → Counted ι β δ}
    {post' : δ → Multiset (ι × β) → Prop} (kept : Multiset (ι × β)) (hpre : pre = used + kept)
    (hm : Triple used m post) (hf : ∀ a left, post a left → Triple (left + kept) (f a) post') :
    Triple pre (m >>= f) post' := by
  subst hpre
  apply bind (hm.frame kept)
  intro a l hl
  obtain ⟨left, hpost, rfl⟩ := hl
  exact hf a left hpost

theorem alloc {malloc : Heap ι β → ι} (hmalloc : Allocates malloc) (v : β) :
    Triple 0 (Counted.alloc malloc v) fun x left => left = {(x, v)} := by
  intro frame h hh
  rw [zero_add] at hh
  have hfree := hmalloc frame h hh
  refine ⟨malloc h, Function.update h (malloc h) (some ⟨0, v⟩), {(malloc h, v)}, ?_, rfl, ?_⟩
  · simp only [Counted.alloc, hfree]
  · rw [Multiset.singleton_add]
    apply hh.update_of_ne
    · intro y hy
      exact filter_cons_other _ _ hy
    · rw [filter_cons_self, hh (malloc h), Heap.refs_none hfree]
      rfl

theorem r1 (x : ι) (v : β) :
    Triple {(x, v)} (Counted.r1 x) fun _ left => left = {(x, v)} + {(x, v)} := by
  intro frame h hh
  rw [Multiset.singleton_add] at hh
  obtain ⟨r, hx, hrefs⟩ := hh.find
  refine ⟨(), Function.update h x (some ⟨r + 1, v⟩), _, ?_, rfl, ?_⟩
  · simp only [Counted.r1, hx]
  · rw [add_assoc, Multiset.singleton_add, Multiset.singleton_add]
    apply hh.update_of_ne
    · intro y hy
      exact filter_cons_other _ _ hy
    · rw [filter_cons_self, filter_cons_self, hrefs]
      rfl

theorem r0 (x : ι) (v : β) : Triple {(x, v)} (Counted.r0 x) fun _ left => left = 0 := by
  intro frame h hh
  rw [Multiset.singleton_add] at hh
  obtain ⟨r, hx, hrefs⟩ := hh.find
  have hother : ∀ y, y ≠ x → frame.filter (fun p => p.1 = y) =
      ((x, v) ::ₘ frame).filter (fun p => p.1 = y) :=
    fun y hy => (filter_cons_other frame v hy).symm
  cases r with
  | zero =>
      refine ⟨(), Function.update h x none, 0, ?_, rfl, ?_⟩
      · simp only [Counted.r0, hx]
      · rw [zero_add]
        exact hh.update_of_ne hother hrefs
  | succ r =>
      refine ⟨(), Function.update h x (some ⟨r, v⟩), 0, ?_, rfl, ?_⟩
      · simp only [Counted.r0, hx]
      · rw [zero_add]
        exact hh.update_of_ne hother hrefs

theorem read (x : ι) (v : β) :
    Triple {(x, v)} (Counted.read x) fun a left => a = v ∧ left = {(x, v)} := by
  intro frame h hh
  have hh' := hh
  rw [Multiset.singleton_add] at hh'
  obtain ⟨r, hx, -⟩ := hh'.find
  refine ⟨v, h, {(x, v)}, ?_, ⟨rfl, rfl⟩, hh⟩
  simp only [Counted.read, hx]

theorem releaseAll (rows : List (ι × β)) :
    Triple (rows : Multiset (ι × β)) (Counted.releaseAll (rows.map Prod.fst)) fun _ left =>
      left = 0 := by
  induction rows with
  | nil => exact (pure ()).weaken fun _ _ h => h.2
  | cons p rows ih =>
      obtain ⟨x, v⟩ := p
      apply seq (rows : Multiset (ι × β)) _ (r0 x v)
      · rintro - - rfl
        rw [zero_add]
        exact ih
      · rw [Multiset.singleton_add, Multiset.cons_coe]

end Triple

end

end TickToSignal.Foundation
