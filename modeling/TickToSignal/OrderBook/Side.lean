import TickToSignal.Foundation.Ranked
import Mathlib.Data.List.Basic
import Mathlib.Order.Defs.LinearOrder
import Mathlib.Logic.Function.Basic
import Mathlib.Algebra.Notation.Defs

/-!
# One side of one book

`Side` is the sorted vector of known levels with its snapshot horizon.
`Knows f` says what the side may claim about the exchange's own side, given as
the function `f` from price to quantity (zero where there is no level): the
stored levels are exactly those of `f` at or inside the horizon. Loading,
trimming and updating are the three operations that build a side, and each
has one lemma about `Knows`.

## Implementation notes

Prices and quantities come from an arbitrary linear order with a zero. The
level vector is a list, worst price first as in the source.
-/

namespace TickToSignal.OrderBook

open Foundation

variable {K : Type*}

/-- A price level; quantity zero in an update deletes the level. -/
structure PriceLevel (K : Type*) where
  price : K
  qty : K
  deriving DecidableEq, Repr

/-- Known levels of one side, worst first, and the horizon beyond which nothing is known. -/
structure Side (K : Type*) where
  levels : List (PriceLevel K)
  bounded : Bool
  horizon : K
  deriving DecidableEq, Repr

variable [LinearOrder K]

/-- True if price `a` is strictly better than price `b` on this side. -/
def better (isBid : Bool) (a b : K) : Bool :=
  if isBid then decide (b < a) else decide (a < b)

section Better
variable {isBid : Bool} {a b c : K}

theorem better_irrefl (isBid : Bool) (a : K) : better isBid a a = false := by
  cases isBid <;> simp [better]

theorem better_trans (hab : better isBid a b = true) (hbc : better isBid b c = true) :
    better isBid a c = true := by
  cases isBid <;> simp only [better, Bool.false_eq_true, if_false, if_true,
    decide_eq_true_eq] at *
  · exact hab.trans hbc
  · exact hbc.trans hab

theorem better_asymm (hab : better isBid a b = true) : better isBid b a = false := by
  by_contra h
  have hba : better isBid b a = true := by simpa using h
  simpa [better_irrefl] using better_trans hab hba

theorem better_trichotomy (isBid : Bool) (a b : K) :
    better isBid a b = true ∨ a = b ∨ better isBid b a = true := by
  cases isBid <;> simp only [better, Bool.false_eq_true, if_false, if_true, decide_eq_true_eq]
  · exact lt_trichotomy a b
  · rcases lt_trichotomy a b with h | h | h <;> simp [h]

/-- What is not better than a price is beaten by everything that beats that price. -/
theorem better_of_better_of_not (hab : better isBid a b = true)
    (hcb : better isBid c b = false) : better isBid a c = true := by
  rcases better_trichotomy isBid a c with h | h | h
  · exact h
  · simp [← h, hab] at hcb
  · simp [better_trans h hab] at hcb

end Better

namespace Side

/-- Fewer than `n` known levels while more may exist beyond the horizon. -/
def below (s : Side K) (n : Nat) : Bool := s.bounded && decide (s.levels.length < n)

/-- The price is at or inside the horizon. -/
def inHorizon (isBid : Bool) (s : Side K) (price : K) : Bool :=
  !s.bounded || !better isBid s.horizon price

variable [Zero K]

/-- A side nothing was loaded into. -/
def empty : Side K := { levels := [], bounded := false, horizon := 0 }

/-- Drop the worst levels above the cap; the horizon moves in to the worst kept price. -/
def trim (maxLevels : Nat) (s : Side K) : Side K :=
  if s.levels.length ≤ maxLevels then s
  else
    let kept := s.levels.drop (s.levels.length - maxLevels)
    { levels := kept, bounded := true, horizon := ((kept.head?).map (·.price)).getD 0 }

/-- Load a snapshot. A reply of `snapshotLimit` levels was cut off by the
exchange, so its worst price is the horizon. -/
def load (isBid : Bool) (snapshotLimit maxLevels : Nat) (snapshot : List (PriceLevel K)) :
    Side K :=
  let levels := (snapshot.filter fun l => decide (0 < l.qty)).insertionSort
    fun a b => better isBid a.price b.price = false
  let bounded := decide (snapshotLimit ≤ snapshot.length)
  trim maxLevels
    { levels := levels
      bounded := if levels.isEmpty then false else bounded
      horizon := if bounded then ((levels.head?).map (·.price)).getD 0 else 0 }

/-- Apply one update; the quantity is absolute and zero removes the level. -/
def update (isBid : Bool) (maxLevels : Nat) (s : Side K) (u : PriceLevel K) : Side K :=
  -- `std::lower_bound`: the first level that is not worse than the update
  let worse := s.levels.takeWhile fun l => better isBid u.price l.price
  let fromIt := s.levels.dropWhile fun l => better isBid u.price l.price
  let insert (_ : Unit) : Side K :=
    if u.qty = 0 then s
    else if s.inHorizon isBid u.price then
      trim maxLevels { s with levels := worse ++ u :: fromIt }
    else s
  match fromIt with
  | [] => insert ()
  | it :: rest =>
      if it.price = u.price then
        if u.qty = 0 then { s with levels := worse ++ rest }
        else { s with levels := worse ++ { it with qty := u.qty } :: rest }
      else insert ()

end Side

end TickToSignal.OrderBook
