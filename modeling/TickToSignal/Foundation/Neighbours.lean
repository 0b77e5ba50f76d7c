import Mathlib.Data.List.Chain

/-!
# The previous element of the same key

`prevBy` pairs every element of a list with the last one before it that has the
same key. In a list that a strict order sorts, these are the neighbours within a
key: no element of the key lies between them.
-/

namespace TickToSignal.Foundation

variable {α κ : Type*} [DecidableEq κ] {key : α → κ}

/-- `prevBy` with the elements that came before. -/
def prevByFrom (key : α → κ) (before : List α) : List α → List (α × Option α)
  | [] => []
  | a :: l => (a, (before.filter fun b => key b = key a).getLast?) ::
      prevByFrom key (before ++ [a]) l

/-- Each element with the last one before it of the same key. -/
def prevBy (key : α → κ) (l : List α) : List (α × Option α) := prevByFrom key [] l

theorem mem_prevByFrom {before l : List α} {b : α} {p : Option α} :
    (b, p) ∈ prevByFrom key before l ↔
      ∃ pre post, l = pre ++ b :: post ∧
        p = ((before ++ pre).filter fun a => key a = key b).getLast? := by
  induction l generalizing before with
  | nil => simp [prevByFrom]
  | cons c l ih =>
      rw [prevByFrom, List.mem_cons, ih]
      constructor
      · rintro (heq | ⟨pre, post, rfl, rfl⟩)
        · obtain ⟨rfl, rfl⟩ := Prod.mk.inj heq
          exact ⟨[], l, rfl, by rw [List.append_nil]⟩
        · exact ⟨c :: pre, post, rfl, by rw [List.append_assoc, List.singleton_append]⟩
      · rintro ⟨pre, post, heq, rfl⟩
        cases pre with
        | nil =>
            obtain ⟨rfl, rfl⟩ := List.cons.inj heq
            exact Or.inl (by rw [List.append_nil])
        | cons a pre =>
            obtain ⟨rfl, rfl⟩ := List.cons.inj heq
            exact Or.inr ⟨pre, post, rfl, by rw [List.append_assoc, List.singleton_append]⟩

/-- In a sorted list an element is the last one or stands in the relation to it. -/
theorem eq_or_rel_getLast {r : α → α → Prop} {l : List α} {a b : α} (hl : l.Pairwise r)
    (hlast : l.getLast? = some b) (ha : a ∈ l) : a = b ∨ r a b := by
  obtain ⟨front, rfl⟩ := List.getLast?_eq_some_iff.mp hlast
  obtain hin | hself := List.mem_append.mp ha
  · exact .inr ((List.pairwise_append.mp hl).2.2 a hin b (List.mem_singleton_self b))
  · exact .inl (List.mem_singleton.mp hself)

/-- Two elements of one key with none of the key between them. -/
structure Neighbours (key : α → κ) (r : α → α → Prop) (l : List α) (a b : α) : Prop where
  left : a ∈ l
  right : b ∈ l
  same : key a = key b
  before : r a b
  between : ∀ c ∈ l, key c = key b → r a c → ¬ r c b

section
variable {r : α → α → Prop} (hasymm : ∀ a b, r a b → ¬ r b a) {pre post : List α} {a b : α}
include hasymm

/-- What comes before an element in a sorted list stands before it. -/
theorem mem_left_of_rel (hl : (pre ++ b :: post).Pairwise r) (ha : a ∈ pre ++ b :: post)
    (hab : r a b) : a ∈ pre := by
  obtain hpre | hrest := List.mem_append.mp ha
  · exact hpre
  · obtain ⟨-, hcons, -⟩ := List.pairwise_append.mp hl
    obtain rfl | hpost := List.mem_cons.mp hrest
    · exact absurd hab (hasymm a a hab)
    · exact absurd hab (hasymm b a ((List.pairwise_cons.mp hcons).1 a hpost))

/-- The last element of a key before another one is its neighbour. -/
theorem neighbours_of_getLast (hl : (pre ++ b :: post).Pairwise r)
    (hlast : (pre.filter fun c => key c = key b).getLast? = some a) :
    Neighbours key r (pre ++ b :: post) a b := by
  have hmem := List.mem_of_getLast? hlast
  simp only [List.mem_filter, decide_eq_true_eq] at hmem
  obtain ⟨hsorted, -, hcross⟩ := List.pairwise_append.mp hl
  refine ⟨List.mem_append_left _ hmem.1, by simp, hmem.2, hcross a hmem.1 b (by simp), ?_⟩
  intro c hc hkey hac hcb
  have hcpre := mem_left_of_rel hasymm hl hc hcb
  have hcfilter : c ∈ pre.filter fun c => key c = key b :=
    List.mem_filter.mpr ⟨hcpre, by simpa using hkey⟩
  obtain rfl | hca := eq_or_rel_getLast (hsorted.filter _) hlast hcfilter
  · exact hasymm c c hac hac
  · exact hasymm c a hca hac

theorem mem_prevBy_iff {l : List α} (hl : l.Pairwise r) :
    (b, some a) ∈ prevBy key l ↔ Neighbours key r l a b := by
  rw [prevBy, mem_prevByFrom]
  constructor
  · rintro ⟨pre, post, rfl, hlast⟩
    rw [List.nil_append] at hlast
    exact neighbours_of_getLast hasymm hl hlast.symm
  · intro h
    obtain ⟨pre, post, rfl⟩ := List.append_of_mem h.right
    refine ⟨pre, post, rfl, ?_⟩
    rw [List.nil_append]
    have hin : a ∈ pre.filter fun c => key c = key b := by
      simpa using ⟨mem_left_of_rel hasymm hl h.left h.before, h.same⟩
    -- the last one of the key is `a`: any other would lie between the two
    obtain ⟨c, hc⟩ := List.getLast?_isSome.mpr (List.ne_nil_of_mem hin) |> Option.isSome_iff_exists.mp
    have hnear : Neighbours key r (pre ++ b :: post) c b := neighbours_of_getLast hasymm hl hc
    obtain ⟨hsorted, -, -⟩ := List.pairwise_append.mp hl
    obtain rfl | hac := eq_or_rel_getLast (hsorted.filter _) hc hin
    · exact hc.symm
    · exact absurd hnear.before (h.between c hnear.left hnear.same hac)

end

/-- Neighbours in a chain that a strict order sorts are related. -/
theorem rel_of_adjacent {r R : α → α → Prop} (hasymm : ∀ a b, r a b → ¬ r b a) {l : List α}
    (hl : l.Pairwise r) (hchain : l.IsChain R) {a b : α} (ha : a ∈ l) (hb : b ∈ l) (hab : r a b)
    (hnone : ∀ c ∈ l, r a c → ¬ r c b) : R a b := by
  obtain ⟨front, post, rfl⟩ := List.append_of_mem hb
  obtain ⟨pre, mid, rfl⟩ := List.append_of_mem (mem_left_of_rel hasymm hl ha hab)
  have hinfix : a :: (mid ++ [b]) <:+: (pre ++ a :: mid) ++ b :: post := ⟨pre, post, by simp⟩
  have hpart := hchain.infix hinfix
  cases mid with
  | nil => exact (List.isChain_cons_cons.mp hpart).1
  | cons c mid =>
      have hseg := hl.sublist hinfix.sublist
      have hac : r a c := (List.pairwise_cons.mp hseg).1 c (by simp)
      have hcb : r c b := (List.pairwise_cons.mp (List.pairwise_cons.mp hseg).2).1 b (by simp)
      exact absurd hcb (hnone c (by simp) hac)

/-- A relation that holds of neighbours in the list and is transitive holds from one element to
a later one, if all from the one to the other are of the kind it is about. -/
theorem related_of_chain {R T : α → α → Prop} {V : α → Prop}
    (hstep : ∀ a b, V a → V b → R a b → T a b) (htrans : ∀ a b c, T a b → T b c → T a c)
    {a b : α} {mid : List α} (hchain : (a :: (mid ++ [b])).IsChain R) (ha : V a)
    (hmid : ∀ c ∈ mid, V c) (hb : V b) : T a b := by
  induction mid generalizing a with
  | nil =>
      rw [List.nil_append, List.isChain_cons_cons] at hchain
      exact hstep a b ha hb hchain.1
  | cons c mid ih =>
      rw [List.cons_append, List.isChain_cons_cons] at hchain
      have hc : V c := hmid c List.mem_cons_self
      apply htrans a c b (hstep a c ha hc hchain.1)
      exact ih hchain.2 hc fun d hd => hmid d (List.mem_cons_of_mem c hd)

/-- The same in a list that a strict order sorts. -/
theorem related_of_sorted {r R T : α → α → Prop} {V : α → Prop}
    (hasymm : ∀ a b, r a b → ¬ r b a) (hstep : ∀ a b, V a → V b → R a b → T a b)
    (htrans : ∀ a b c, T a b → T b c → T a c) {l : List α} (hl : l.Pairwise r)
    (hchain : l.IsChain R) {a b : α} (ha : a ∈ l) (hb : b ∈ l) (hab : r a b) (hva : V a)
    (hvb : V b) (hbetween : ∀ c ∈ l, r a c → r c b → V c) : T a b := by
  obtain ⟨front, post, rfl⟩ := List.append_of_mem hb
  obtain ⟨pre, mid, rfl⟩ := List.append_of_mem (mem_left_of_rel hasymm hl ha hab)
  have hinfix : a :: (mid ++ [b]) <:+: (pre ++ a :: mid) ++ b :: post :=
    ⟨pre, post, by simp⟩
  have hpart := hchain.infix hinfix
  apply related_of_chain hstep htrans hpart hva _ hvb
  intro c hc
  have hseg := hl.sublist hinfix.sublist
  rw [List.pairwise_cons, List.pairwise_append] at hseg
  refine hbetween c (by simp [hc]) (hseg.1 c (List.mem_append_left _ hc)) ?_
  exact hseg.2.2.2 c hc b List.mem_cons_self

end TickToSignal.Foundation
