import TickToSignal.Trade.Gap
import Mathlib.Data.Int.Range
import Mathlib.Data.List.Nodup

/-!
# New highs and gaps partition the ids

`TradeIdTracker` takes the ids of a symbol in any order. Each id from the one
after the seed, or the first one without a seed, up to the last one known was
either a new high when it was observed or lies in exactly one reported gap.
-/

namespace TickToSignal.Trade

/-- An id as it was given, and what it was taken to be. -/
abbrev Observed := Int × IdKind

def IdKind.newHigh : IdKind → Bool
  | .first | .inOrder | .gap _ _ => true
  | .duplicate | .outOfOrder => false

/-- The range that is reported as missing. -/
def IdKind.reported : IdKind → Option (Int × Int)
  | .gap firstMissing lastMissing => some (firstMissing, lastMissing)
  | .first | .inOrder | .duplicate | .outOfOrder => none

def highs (seen : List Observed) : List Int := (seen.filter fun o => o.2.newHigh).map Prod.fst

def reportedGaps (seen : List Observed) : List (Int × Int) := seen.filterMap fun o => o.2.reported

/-- The ids of a range, both ends included. -/
def idsOf (range : Int × Int) : List Int := Int.range range.1 (range.2 + 1)

/-- What the observed ids account for. -/
def covered (seen : List Observed) : List Int := highs seen ++ (reportedGaps seen).flatMap idsOf

namespace TradeIdTracker

/-- Ids of any symbols, one after the other. -/
def after (s : TradeIdTracker) (calls : List (String × Int)) : TradeIdTracker :=
  calls.foldl (fun s c => (s.onId c.1 c.2).2) s

end TradeIdTracker

theorem mem_idsOf {x : Int} {range : Int × Int} : x ∈ idsOf range ↔ range.1 ≤ x ∧ x ≤ range.2 := by
  rw [idsOf, Int.mem_range_iff, Int.lt_add_one_iff]

theorem idsOf_eq_nil {lo hi : Int} (h : hi < lo) : idsOf (lo, hi) = [] := by
  refine List.eq_nil_iff_forall_not_mem.mpr fun x hx => ?_
  obtain ⟨hlo, hhi⟩ := mem_idsOf.mp hx
  omega

section Covered
variable {o : Observed} {seen : List Observed}

end Covered

namespace TradeIdTracker

variable {s : TradeIdTracker} {sym : String} {id l : Int}

/-- What the ids above a known one are taken to be. -/
structure Follows (l l' : Int) (seen : List Observed) : Prop where
  le : l ≤ l'
  above : ∀ o ∈ seen, ∀ g ∈ o.2.reported, l < g.1 ∧ g.1 ≤ g.2
  unseen : seen.Pairwise fun o o' => ∀ g ∈ o'.2.reported, o.1 ∉ idsOf g
  exact : (covered seen).Perm (idsOf (l + 1, l'))

variable {l' : Int} {seen : List Observed} {o : Observed}

theorem Follows.nil (l : Int) : Follows l l [] where
  le := le_rfl
  above := by simp
  unseen := .nil
  exact := by rw [idsOf_eq_nil (by omega)]; rfl

end TradeIdTracker

end TickToSignal.Trade
