import Mathlib.Data.List.Basic
import Mathlib.Algebra.BigOperators.Group.List.Basic
import Mathlib.Algebra.GroupWithZero.Nat

/-!
# Files of chunks without a length prefix

A file is a header followed by pieces, each a whole chunk or the torn beginning
of one. Byte ranges of it are read blindly: a range is good only if it starts
and ends on boundaries and holds no torn piece. `Spans` says so in terms of the
pieces, `readRange` finds it out in terms of bytes, and `walk` reads a range in
segments.

## Implementation notes

Positions are absolute: `base` is the length of the header, and the first piece
begins there.
-/

namespace TickToSignal.Foundation

/-- Something that was serialized into a positive number of bytes. -/
structure Chunk (α : Type*) where
  payload : α
  size : Nat
  size_pos : 0 < size
  deriving DecidableEq, Repr

/-- What one write left in a file: all of a chunk, or some of its bytes. -/
inductive Piece (α : Type*)
  | whole (c : Chunk α)
  | torn (bytes : Nat) (bytes_pos : 0 < bytes)
  deriving DecidableEq, Repr

variable {α : Type*}

namespace Piece

def size : Piece α → Nat
  | whole c => c.size
  | torn bytes _ => bytes

theorem size_pos : ∀ p : Piece α, 0 < p.size
  | whole c => c.size_pos
  | torn _ h => h

def isWhole : Piece α → Bool
  | whole _ => true
  | torn _ _ => false

def chunk? : Piece α → Option (Chunk α)
  | whole c => some c
  | torn _ _ => none

end Piece

/-- Length of the pieces. -/
def bytes (ps : List (Piece α)) : Nat := (ps.map Piece.size).sum

@[simp] theorem bytes_nil : bytes ([] : List (Piece α)) = 0 := rfl

@[simp] theorem bytes_cons (p : Piece α) (ps : List (Piece α)) :
    bytes (p :: ps) = p.size + bytes ps := by
  simp [bytes]

@[simp] theorem bytes_append (ps qs : List (Piece α)) : bytes (ps ++ qs) = bytes ps + bytes qs := by
  simp [bytes]

theorem bytes_eq_zero {ps : List (Piece α)} (h : bytes ps = 0) : ps = [] := by
  cases ps with
  | nil => rfl
  | cons p ps =>
      have hp := p.size_pos
      simp only [bytes_cons] at h
      omega

/-- The chunks that were written whole. -/
def chunks (ps : List (Piece α)) : List (Chunk α) := ps.filterMap Piece.chunk?

@[simp] theorem chunks_append (ps qs : List (Piece α)) : chunks (ps ++ qs) = chunks ps ++ chunks qs := by
  simp [chunks]

@[simp] theorem chunks_whole (cs : List (Chunk α)) : chunks (cs.map Piece.whole) = cs := by
  induction cs with
  | nil => rfl
  | cons c cs ih => simpa [chunks, Piece.chunk?] using ih

/-- Pieces without a torn one are their chunks. -/
theorem eq_map_whole {ps : List (Piece α)} (h : ∀ p ∈ ps, p.isWhole = true) :
    ps = (chunks ps).map Piece.whole := by
  induction ps with
  | nil => rfl
  | cons p ps ih =>
      have hrest := ih fun q hq => h q (List.mem_cons_of_mem p hq)
      cases p with
      | whole c => simpa [chunks, Piece.chunk?] using hrest
      | torn k hk => exact absurd (h _ List.mem_cons_self) Bool.false_ne_true

/-- A position between two pieces. -/
def Boundary (base : Nat) (ps : List (Piece α)) (b : Nat) : Prop :=
  ∃ pre post, ps = pre ++ post ∧ b = base + bytes pre

/-- The bytes from `s` to `e` are the whole chunks `cs`. -/
def Spans (base : Nat) (ps : List (Piece α)) (s e : Nat) (cs : List (Chunk α)) : Prop :=
  ∃ pre post, ps = pre ++ (cs.map Piece.whole ++ post) ∧ s = base + bytes pre ∧
    e = s + bytes (cs.map Piece.whole)

section Splits
variable {base s m e b : Nat} {ps : List (Piece α)} {cs ds : List (Chunk α)}

/-- Of two beginnings of a file the shorter is a beginning of the longer. -/
theorem split_le {pre post pre' post' : List (Piece α)} (h : pre ++ post = pre' ++ post')
    (hle : bytes pre ≤ bytes pre') : ∃ mid, pre' = pre ++ mid ∧ post = mid ++ post' := by
  obtain ⟨mid, hpre, hpost⟩ | ⟨mid, hpre, hpost⟩ := List.append_eq_append_iff.mp h
  · exact ⟨mid, hpre, hpost⟩
  · obtain rfl : mid = [] := by
      apply bytes_eq_zero
      rw [hpre, bytes_append] at hle
      omega
    exact ⟨[], by simpa using hpre.symm, by simpa using hpost.symm⟩

/-- A boundary determines its two sides. -/
theorem split_unique {pre post pre' post' : List (Piece α)} (h : pre ++ post = pre' ++ post')
    (heq : bytes pre = bytes pre') : pre = pre' ∧ post = post' := by
  obtain ⟨mid, hpre, hpost⟩ := split_le h (Nat.le_of_eq heq)
  obtain rfl : mid = [] := by
    apply bytes_eq_zero
    rw [hpre, bytes_append] at heq
    omega
  exact ⟨by simpa using hpre.symm, by simpa using hpost⟩

theorem Spans.le (h : Spans base ps s e cs) : s ≤ e := by
  obtain ⟨_, _, -, -, rfl⟩ := h
  exact Nat.le_add_right _ _

theorem Spans.stop (h : Spans base ps s e cs) : Boundary base ps e := by
  obtain ⟨pre, post, hps, hs, he⟩ := h
  refine ⟨pre ++ cs.map Piece.whole, post, by rw [hps, List.append_assoc], ?_⟩
  rw [bytes_append]
  omega

theorem Spans.eq_nil (h : Spans base ps s s cs) : cs = [] := by
  obtain ⟨_, _, -, -, hlen⟩ := h
  have hnone : bytes (cs.map Piece.whole) = 0 := by omega
  exact List.map_eq_nil_iff.mp (bytes_eq_zero hnone)

theorem Spans.trans (h : Spans base ps s m cs) (h' : Spans base ps m e ds) :
    Spans base ps s e (cs ++ ds) := by
  obtain ⟨pre, post, hps, hs, hm⟩ := h
  obtain ⟨pre', post', hps', hm', he⟩ := h'
  rw [hps, ← List.append_assoc] at hps'
  obtain ⟨hpre, hpost⟩ := split_unique hps' (by rw [bytes_append]; omega)
  refine ⟨pre, post', ?_, hs, ?_⟩
  · rw [hps, hpost, List.map_append, List.append_assoc]
  · rw [List.map_append, bytes_append]
    omega

/-- A span can be cut at every boundary inside. -/
theorem Spans.split (h : Spans base ps s e cs) (hb : Boundary base ps b) (hs : s ≤ b)
    (he : b ≤ e) : ∃ cs₁ cs₂, cs = cs₁ ++ cs₂ ∧ Spans base ps s b cs₁ ∧ Spans base ps b e cs₂ := by
  obtain ⟨pre, post, hps, hs', he'⟩ := h
  obtain ⟨pre', post', hps', hb'⟩ := hb
  obtain ⟨mid, hmid, hrest⟩ := split_le (hps.symm.trans hps') (by omega)
  have hwhole : bytes mid ≤ bytes (cs.map Piece.whole) := by
    have := congrArg bytes hmid
    rw [bytes_append] at this
    omega
  obtain ⟨mid', hcs, hpost⟩ := split_le hrest.symm hwhole
  have hmem : ∀ p ∈ mid ++ mid', p.isWhole = true := by
    intro p hp
    rw [← hcs] at hp
    obtain ⟨c, -, rfl⟩ := List.mem_map.mp hp
    rfl
  have hmid₁ := eq_map_whole fun p hp => hmem p (List.mem_append_left _ hp)
  have hmid₂ := eq_map_whole fun p hp => hmem p (List.mem_append_right _ hp)
  refine ⟨chunks mid, chunks mid', ?_, ⟨pre, post', ?_, hs', ?_⟩, ⟨pre', post, ?_, hb', ?_⟩⟩
  · rw [← chunks_append, ← hcs, chunks_whole]
  · rw [hps', hmid, ← hmid₁, List.append_assoc]
  · rw [← hmid₁, hb', hmid, bytes_append, hs', Nat.add_assoc]
  · rw [hps', hpost, ← hmid₂]
  · have hlen := congrArg bytes hcs
    rw [bytes_append] at hlen
    have hpre := congrArg bytes hmid
    rw [bytes_append] at hpre
    rw [← hmid₂]
    omega

end Splits

/-! ## Reading -/

/-- Skip exactly `n` bytes, if they end on a boundary. -/
def dropBytes : List (Piece α) → Nat → Option (List (Piece α))
  | ps, 0 => some ps
  | [], _ + 1 => none
  | p :: ps, n + 1 => if p.size ≤ n + 1 then dropBytes ps (n + 1 - p.size) else none

/-- The chunks of the next `n` bytes, if these are whole chunks. -/
def takeChunks : List (Piece α) → Nat → Option (List (Chunk α))
  | _, 0 => some []
  | .whole c :: ps, n + 1 =>
      if c.size ≤ n + 1 then (takeChunks ps (n + 1 - c.size)).map (c :: ·) else none
  | _, _ + 1 => none

/-- The chunks of the bytes from `s` to `e`, if these are whole chunks. -/
def readRange (base : Nat) (ps : List (Piece α)) (s e : Nat) : Option (List (Chunk α)) :=
  if s < base ∨ e < s then none else (dropBytes ps (s - base)).bind fun qs => takeChunks qs (e - s)

/-- Read from `s` in segments, each from where the one before ended to the next bound. -/
def walk (read : Nat → Nat → Option (List (Chunk α))) : Nat → List Nat → Option (List (Chunk α))
  | _, [] => some []
  | s, b :: bs => (read s b).bind fun cs => (walk read b bs).map (cs ++ ·)

theorem dropBytes_eq_some_iff {ps qs : List (Piece α)} {n : Nat} :
    dropBytes ps n = some qs ↔ ∃ pre, ps = pre ++ qs ∧ bytes pre = n := by
  induction ps generalizing n with
  | nil =>
      cases n with
      | zero => simp [dropBytes, eq_comm]
      | succ n =>
          simp only [dropBytes, reduceCtorEq, false_iff, not_exists, not_and]
          rintro pre hpre
          obtain ⟨rfl, -⟩ := List.append_eq_nil_iff.mp hpre.symm
          simp
  | cons p ps ih =>
      cases n with
      | zero =>
          simp only [dropBytes, Option.some.injEq]
          constructor
          · rintro rfl
            exact ⟨[], rfl, rfl⟩
          · rintro ⟨pre, hpre, hlen⟩
            rw [bytes_eq_zero hlen] at hpre
            simpa using hpre
      | succ n =>
          have hp := p.size_pos
          simp only [dropBytes]
          constructor
          · intro h
            split_ifs at h with hfit
            obtain ⟨pre, rfl, hlen⟩ := ih.mp h
            exact ⟨p :: pre, rfl, by rw [bytes_cons]; omega⟩
          · rintro ⟨pre, hpre, hlen⟩
            cases pre with
            | nil => simp at hlen
            | cons q pre =>
                obtain ⟨rfl, rfl⟩ := List.cons.inj hpre
                rw [bytes_cons] at hlen
                rw [if_pos (by omega)]
                exact ih.mpr ⟨pre, rfl, by omega⟩

theorem takeChunks_eq_some_iff {ps : List (Piece α)} {n : Nat} {cs : List (Chunk α)} :
    takeChunks ps n = some cs ↔
      ∃ post, ps = cs.map Piece.whole ++ post ∧ bytes (cs.map Piece.whole) = n := by
  induction ps generalizing n cs with
  | nil =>
      cases n with
      | zero =>
          simp only [takeChunks, Option.some.injEq]
          constructor
          · rintro rfl
            exact ⟨[], rfl, rfl⟩
          · rintro ⟨post, hpost, -⟩
            exact (List.map_eq_nil_iff.mp (List.append_eq_nil_iff.mp hpost.symm).1).symm
      | succ n =>
          simp only [takeChunks, reduceCtorEq, false_iff, not_exists, not_and]
          intro post hpost
          rw [(List.append_eq_nil_iff.mp hpost.symm).1]
          simp
  | cons p ps ih =>
      cases n with
      | zero =>
          simp only [takeChunks, Option.some.injEq]
          constructor
          · rintro rfl
            exact ⟨p :: ps, rfl, rfl⟩
          · rintro ⟨post, -, hlen⟩
            exact (List.map_eq_nil_iff.mp (bytes_eq_zero hlen)).symm
      | succ n =>
          cases p with
          | torn k hk =>
              simp only [takeChunks, reduceCtorEq, false_iff, not_exists, not_and]
              intro post hpost
              cases cs with
              | nil => simp
              | cons c cs => simp at hpost
          | whole c =>
              have hc := c.size_pos
              simp only [takeChunks]
              constructor
              · intro h
                split_ifs at h with hfit
                obtain ⟨ds, hds, rfl⟩ := Option.map_eq_some_iff.mp h
                obtain ⟨post, rfl, hlen⟩ := ih.mp hds
                refine ⟨post, rfl, ?_⟩
                simp only [List.map_cons, bytes_cons, Piece.size]
                omega
              · rintro ⟨post, hpost, hlen⟩
                cases cs with
                | nil => simp at hlen
                | cons d ds =>
                    obtain ⟨hcd, rfl⟩ := List.cons.inj hpost
                    obtain rfl := Piece.whole.inj hcd
                    simp only [List.map_cons, bytes_cons, Piece.size] at hlen
                    rw [if_pos (by omega)]
                    exact Option.map_eq_some_iff.mpr ⟨ds, ih.mpr ⟨post, rfl, by omega⟩, rfl⟩

/-- Reading a range succeeds exactly if it is a span. -/
theorem readRange_eq_some_iff {base s e : Nat} {ps : List (Piece α)} {cs : List (Chunk α)} :
    readRange base ps s e = some cs ↔ Spans base ps s e cs := by
  simp only [readRange]
  constructor
  · intro h
    split_ifs at h with hbad
    obtain ⟨qs, hqs, hcs⟩ := Option.bind_eq_some_iff.mp h
    obtain ⟨pre, rfl, hpre⟩ := dropBytes_eq_some_iff.mp hqs
    obtain ⟨post, rfl, hlen⟩ := takeChunks_eq_some_iff.mp hcs
    exact ⟨pre, post, rfl, by omega, by omega⟩
  · rintro ⟨pre, post, rfl, rfl, rfl⟩
    rw [if_neg (by omega)]
    refine Option.bind_eq_some_iff.mpr ⟨_, dropBytes_eq_some_iff.mpr ⟨pre, rfl, by omega⟩, ?_⟩
    exact takeChunks_eq_some_iff.mpr ⟨post, rfl, by omega⟩

section Walk
variable {base s e : Nat} {ps : List (Piece α)} {cs : List (Chunk α)} {bs : List Nat}
  {read : Nat → Nat → Option (List (Chunk α))}

/-- Whatever a walk returns is the span from its start to its last bound. -/
theorem walk_spans (hread : ∀ s e cs, s < e → read s e = some cs → Spans base ps s e cs)
    (hasc : bs.Pairwise (· < ·)) (hbs : ∀ b ∈ bs, s < b ∧ b ≤ e) (he : e ∈ bs)
    (h : walk read s bs = some cs) : Spans base ps s e cs := by
  induction bs generalizing s cs with
  | nil => simp at he
  | cons b bs ih =>
      obtain ⟨ds, hds, hrest⟩ := Option.bind_eq_some_iff.mp h
      obtain ⟨rest, hwalk, rfl⟩ := Option.map_eq_some_iff.mp hrest
      obtain ⟨hlt, hasc'⟩ := List.pairwise_cons.mp hasc
      have hfirst := hread s b ds (hbs b List.mem_cons_self).1 hds
      obtain rfl | he := List.mem_cons.mp he
      · obtain rfl : bs = [] := List.eq_nil_iff_forall_not_mem.mpr fun c hc => by
          have h1 := hlt c hc
          have h2 := (hbs c (List.mem_cons_of_mem _ hc)).2
          omega
        obtain rfl : rest = [] := by simpa [walk] using hwalk.symm
        simpa using hfirst
      · exact hfirst.trans (ih hasc'
          (fun c hc => ⟨hlt c hc, (hbs c (List.mem_cons_of_mem _ hc)).2⟩) he hwalk)

/-- Cutting a span at boundaries does not change what is read. -/
theorem Spans.walk_eq (hread : ∀ s e cs, s < e → Spans base ps s e cs → read s e = some cs)
    (hasc : bs.Pairwise (· < ·)) (hbs : ∀ b ∈ bs, s < b ∧ b ≤ e ∧ Boundary base ps b) (he : e ∈ bs)
    (h : Spans base ps s e cs) : walk read s bs = some cs := by
  induction bs generalizing s cs with
  | nil => simp at he
  | cons b bs ih =>
      obtain ⟨hlt, hasc'⟩ := List.pairwise_cons.mp hasc
      obtain ⟨hsb, hbe, hb⟩ := hbs b List.mem_cons_self
      obtain ⟨cs₁, cs₂, rfl, h₁, h₂⟩ := h.split hb (Nat.le_of_lt hsb) hbe
      have hrest : walk read b bs = some cs₂ := by
        obtain rfl | he := List.mem_cons.mp he
        · obtain rfl : bs = [] := List.eq_nil_iff_forall_not_mem.mpr fun c hc => by
            have h1 := hlt c hc
            have h2 := (hbs c (List.mem_cons_of_mem _ hc)).2.1
            omega
          obtain rfl : cs₂ = [] := h₂.eq_nil
          rfl
        · exact ih hasc' (fun c hc => ⟨hlt c hc, (hbs c (List.mem_cons_of_mem _ hc)).2⟩) he h₂
      simp [walk, hread s b cs₁ hsb h₁, hrest]

end Walk

end TickToSignal.Foundation
