import TickToSignal.Foundation.Causal
import TickToSignal.Foundation.Recent

/-!
# Features of bars

A feature is a column computed from the table of bars. Those built here are
averages, returns and ratios of the bar itself and of bars before it; the value
for a bar is the same whether or not the bars after it are known.

## Implementation notes

Floats and what they do with nulls and infinities are a parameter. A build is
asked for at least one feature; columns that are not as long as the table are an
error.
-/

namespace TickToSignal.Ml

open Foundation

variable {S F : Type*}

/-- Floating-point numbers with a null. -/
structure FloatOps (F : Type*) where
  null : F
  isNull : F → Bool
  num : Int → F
  half : F
  add : F → F → F
  sub : F → F → F
  mul : F → F → F
  div : F → F → F
  xexp : F → F → F
  neg : F → F
  abs : F → F
  log : F → F
  lt : F → F → Bool
  eq : F → F → Bool
  /-- `long$` of a span of nanoseconds divided by a second -/
  seconds : Int → Int

/-- The columns of the bars that are read. -/
structure DibBar (S F : Type*) where
  bn : Nat
  sym : S
  barstart : Int
  barend : Int
  close : F
  high : F
  low : F
  theta : F
  dqty : F
  bqty : F
  sqty : F
  ticks : Nat

/-! ## Vector primitives -/

section Primitives
variable (ops : FloatOps F)

/-- `avg`, which skips nulls. -/
def avg (l : List F) : F :=
  let known := l.filter fun x => ! ops.isNull x
  if known = [] then ops.null
  else ops.div (known.foldl ops.add (ops.num 0)) (ops.num known.length)

/-- `mavg[n;x]`, the average of the last `n` items. -/
def mavg (n : Nat) (x : List F) : List F :=
  (List.range x.length).map fun i => avg ops (newest n (x.take (i + 1)))

/-- `fills`, the last value that is not null. -/
def fills (x : List F) : List F :=
  scan (fun last v => if ops.isNull v then last else v) ops.null x

/-- `n xprev x`. -/
def xprev (n : Nat) (x : List F) : List F := (List.replicate n ops.null ++ x).take x.length

/-- `prev x`. -/
def prev (x : List F) : List F := xprev ops 1 x

/-- `ratios x`, whose first item is that of `x`. -/
def ratios : List F → List F
  | [] => []
  | x :: xs => x :: List.zipWith ops.div xs (x :: xs)

/-- `n#x`, which starts over at the end of `x`. -/
def take (n : Nat) (x : List F) : List F :=
  (List.range n).map fun i => x.getD (i % x.length) ops.null

end Primitives

/-! ## The features -/

section Features
variable (ops : FloatOps F) (n : Nat) (dib : List (DibBar S F))

namespace Price

def logReturn : List F :=
  fills ops (ops.null :: ((ratios ops (dib.map (·.close))).map ops.log).drop 1)

def momentum : List F :=
  fills ops (List.zipWith ops.div (dib.map (·.close)) (xprev ops n (dib.map (·.close))))

def meanReversion : List F :=
  let ma := mavg ops n (dib.map (·.close))
  List.zipWith ops.div (List.zipWith ops.sub (dib.map (·.close)) ma) ma

end Price

namespace Vol

def realizedVol : List F :=
  let rets := Price.logReturn ops dib
  (mavg ops n (List.zipWith ops.mul rets rets)).map fun v => ops.xexp v ops.half

def hlRange : List F := dib.map fun b => ops.div (ops.sub b.high b.low) b.low

def parkinson : List F :=
  let hl2 := dib.map fun b => ops.xexp (ops.log (ops.div b.high b.low)) (ops.num 2)
  (mavg ops n hl2).map fun v =>
    ops.xexp (ops.div v (ops.mul (ops.num 4) (ops.log (ops.num 2)))) ops.half

end Vol

namespace Tech

/-- `.feat.tech.EMA`. -/
def ema (prices : List F) (n : Nat) : List F :=
  let alpha := ops.div (ops.num 2) (ops.add (ops.num 1) (ops.num n))
  scan (fun prev curr => ops.add (ops.mul alpha curr) (ops.mul (ops.sub (ops.num 1) alpha) prev))
    (prices.head?.getD ops.null) prices

def relativeStrength (n : Nat) (y : List F) : List F :=
  let start := avg ops (take ops (n + 1) y)
  List.replicate n ops.null ++ start ::
    scan (fun x y => ops.div (ops.add y (ops.mul x (ops.sub (ops.num n) (ops.num 1)))) (ops.num n))
      start (y.drop (n + 1))

def gains (diff : List F) : List F :=
  diff.map fun d => if ops.lt (ops.num 0) d then d else ops.num 0

def losses (diff : List F) : List F :=
  diff.map fun d => if ops.lt d (ops.num 0) then ops.neg d else ops.num 0

def rsi : List F :=
  let diff := List.zipWith ops.sub (dib.map (·.close)) (prev ops (dib.map (·.close)))
  let rs := List.zipWith ops.div (relativeStrength ops 14 (gains ops diff))
    (relativeStrength ops 14 (losses ops diff))
  rs.map fun r => ops.mul (ops.num 100) (ops.div r (ops.add (ops.num 1) r))

def macd : List F :=
  let c := dib.map (·.close)
  List.zipWith ops.sub (ema ops c 12) (ema ops c 26)

def macdSignal : List F := ema ops (macd ops dib) 9

def macdHist : List F := List.zipWith ops.sub (macd ops dib) (macdSignal ops dib)

end Tech

namespace BarFeature

/-- In seconds. -/
def duration (b : DibBar S F) : Int := ops.seconds (b.barend - b.barstart)

def closePosition : List F :=
  dib.map fun b =>
    let range := ops.sub b.high b.low
    if ops.eq range (ops.num 0) then ops.half else ops.div (ops.sub b.close b.low) range

def thetaNorm : List F := dib.map fun b => ops.div b.theta b.dqty

def buyPct : List F := dib.map fun b => ops.div b.bqty (ops.add b.bqty b.sqty)

end BarFeature

namespace Flow

def tradeImbalance : List F :=
  dib.map fun b => ops.div (ops.sub b.bqty b.sqty) (ops.add b.bqty b.sqty)

def vpin : List F :=
  let imb := dib.map fun b => ops.abs (ops.sub b.bqty b.sqty)
  let tot := dib.map fun b => ops.add b.bqty b.sqty
  List.zipWith ops.div (mavg ops n imb) (mavg ops n tot)

def tradeIntensity : List F :=
  dib.map fun b => ops.div (ops.num b.ticks) (ops.num (max 1 (BarFeature.duration ops b)))

end Flow

end Features

/-! ## Registry and builder -/

/-- The names of `.feat.reg`. -/
inductive Feature
  | logReturn
  | momentum
  | meanReversion
  | realizedVol
  | hlRange
  | parkinson
  | rsi
  | macd
  | macdSignal
  | macdHist
  | tradeImbalance
  | vpin
  | tradeIntensity
  | duration
  | closePosition
  | thetaNorm
  | buyPct
  deriving DecidableEq, Repr

section Build
variable (ops : FloatOps F)

/-- `.feat.reg`. -/
def reg (n : Nat) (dib : List (DibBar S F)) : Feature → List F
  | .logReturn => Price.logReturn ops dib
  | .momentum => Price.momentum ops n dib
  | .meanReversion => Price.meanReversion ops n dib
  | .realizedVol => Vol.realizedVol ops n dib
  | .hlRange => Vol.hlRange ops dib
  | .parkinson => Vol.parkinson ops n dib
  | .rsi => Tech.rsi ops dib
  | .macd => Tech.macd ops dib
  | .macdSignal => Tech.macdSignal ops dib
  | .macdHist => Tech.macdHist ops dib
  | .tradeImbalance => Flow.tradeImbalance ops dib
  | .vpin => Flow.vpin ops n dib
  | .tradeIntensity => Flow.tradeIntensity ops dib
  | .duration => dib.map fun b => ops.num (BarFeature.duration ops b)
  | .closePosition => BarFeature.closePosition ops dib
  | .thetaNorm => BarFeature.thetaNorm ops dib
  | .buyPct => BarFeature.buyPct ops dib

/-- A row of a build: the bar's key columns and one value for each feature. -/
structure FeatureRow (S F : Type*) where
  bn : Nat
  sym : S
  barstart : Int
  close : F
  values : List F
  deriving DecidableEq, Repr

/-- `.feat.build`; `none` is the error of joining columns of different lengths. -/
def build (dib : List (DibBar S F)) (features : List Feature) (n : Nat) :
    Option (List (FeatureRow S F)) :=
  let cols := features.map (reg ops n dib)
  if ∀ col ∈ cols, col.length = dib.length then
    some (dib.zipIdx.map fun b =>
      { bn := b.1.bn
        sym := b.1.sym
        barstart := b.1.barstart
        close := b.1.close
        values := cols.map fun col => col.getD b.2 ops.null })
  else none

/-- `.feat.dropNull`, of some of the features' columns. -/
def dropNull (t : List (FeatureRow S F)) (cols : List Nat) : List (FeatureRow S F) :=
  t.filter fun r => cols.all fun i => ! ops.isNull (r.values.getD i ops.null)

end Build

/-- Hardware floats; a null is not a number and is less than every number. -/
def floats : FloatOps Float where
  null := 0 / 0
  isNull := Float.isNaN
  num := Float.ofInt
  half := 0.5
  add := (· + ·)
  sub := (· - ·)
  mul := (· * ·)
  div := (· / ·)
  xexp := Float.pow
  neg := (- ·)
  abs := Float.abs
  log := Float.log
  lt a b := ! b.isNaN && (a.isNaN || decide (a < b))
  eq := (· == ·)
  seconds ns := (ns + 500000000) / 1000000000

/-! ## No feature looks ahead -/

section Causal
variable (ops : FloatOps F) {m : ℕ}

theorem causal_mavg (n : Nat) : Causal m (mavg ops n) :=
  .upTo fun l => avg ops (newest n l)

theorem causal_fills : Causal m (fills ops) := .scan _ _

theorem causal_xprev (n : Nat) : Causal m (xprev ops n) := .shift n ops.null

theorem causal_ema (n : Nat) : Causal m fun prices => Tech.ema ops prices n :=
  .scan_first _ fun first => first.getD ops.null

/-- Where there are enough items, taking does not start over. -/
theorem take_eq_take {n : Nat} {x : List F} (h : n ≤ x.length) : take ops n x = x.take n := by
  refine List.ext_getElem (by simp [take, h]) fun i hi _ => ?_
  have hin : i < x.length := by
    rw [take, List.length_map, List.length_range] at hi
    omega
  simp [take, Nat.mod_eq_of_lt hin, hin]

/-- The first average is over the first fifteen items, so it is there from them on. -/
theorem causal_relativeStrength (n : Nat) : Causal (n + 1) (Tech.relativeStrength ops n) := by
  have hwarm := Causal.warmup (List.replicate n ops.null) (avg ops)
    (fun x y => ops.div (ops.add y (ops.mul x (ops.sub (ops.num n) (ops.num 1)))) (ops.num n))
    (congrArg (· + 1) List.length_replicate)
  have heq : ∀ y : List F, n + 1 ≤ y.length → Tech.relativeStrength ops n y =
      List.replicate n ops.null ++ avg ops (y.take (n + 1)) ::
        scan (fun x y => ops.div (ops.add y (ops.mul x (ops.sub (ops.num n) (ops.num 1))))
          (ops.num n)) (avg ops (y.take (n + 1))) (y.drop (n + 1)) := by
    intro y hy
    simp only [Tech.relativeStrength, take_eq_take ops hy]
  constructor
  · intro y hy
    rw [heq y hy]
    exact hwarm.length_eq y hy
  · intro y k hn hk
    rw [heq y (hn.trans hk), heq (y.take k) (by rw [List.length_take]; omega)]
    exact hwarm.take_eq y k hn hk

theorem causal_logReturn : Causal 1 (Price.logReturn (S := S) ops) := by
  have hpairs : Causal 1 fun dib : List (DibBar S F) =>
      ops.null :: List.zipWith (fun b b' => ops.log (ops.div b.close b'.close)) dib.tail dib :=
    .pairs _ _
  have heq : Price.logReturn (S := S) ops = fun dib => fills ops
      (ops.null :: List.zipWith (fun b b' => ops.log (ops.div b.close b'.close)) dib.tail dib) := by
    funext dib
    cases dib with
    | nil => rfl
    | cons b dib =>
        have hcloses : b.close :: dib.map (·.close) = (b :: dib).map (·.close) := rfl
        simp only [Price.logReturn, List.map_cons, ratios, List.drop_succ_cons, List.drop_zero,
          List.tail_cons]
        rw [hcloses, List.zipWith_map, List.map_zipWith]
  rw [heq]
  exact (causal_fills ops).comp hpairs

/-- How many bars a feature needs. -/
def Feature.bars : Feature → Nat
  | .rsi => 15
  | _ => 1

/-- Every feature has a value for each bar that the bars after it do not change. -/
theorem causal_reg (n : Nat) (f : Feature) :
    Causal f.bars fun dib : List (DibBar S F) => reg ops n dib f := by
  have hclose : ∀ m, Causal m fun dib : List (DibBar S F) => dib.map (·.close) := fun m => .map _
  have hmacd : Causal 1 (Tech.macd (S := S) ops) :=
    .zipWith _ ((causal_ema ops 12).comp (hclose 1)) ((causal_ema ops 26).comp (hclose 1))
  have hsignal : Causal 1 (Tech.macdSignal (S := S) ops) := (causal_ema ops 9).comp hmacd
  have hdiff : Causal 15 fun dib : List (DibBar S F) =>
      List.zipWith ops.sub (dib.map (·.close)) (prev ops (dib.map (·.close))) :=
    .zipWith _ (hclose 15) ((causal_xprev ops 1).comp (hclose 15))
  cases f with
  | logReturn => exact causal_logReturn ops
  | momentum =>
      exact (causal_fills ops).comp
        (.zipWith _ (hclose 1) ((causal_xprev ops n).comp (hclose 1)))
  | meanReversion =>
      have hma := (causal_mavg ops n).comp (hclose 1)
      exact .zipWith _ (.zipWith _ (hclose 1) hma) hma
  | realizedVol =>
      have hret := causal_logReturn (S := S) ops
      exact (Causal.map _).comp ((causal_mavg ops n).comp (.zipWith _ hret hret))
  | hlRange => exact .map _
  | parkinson => exact (Causal.map _).comp ((causal_mavg ops n).comp (.map _))
  | rsi =>
      have hgains : Causal 15 (Tech.gains ops) := .map _
      have hlosses : Causal 15 (Tech.losses ops) := .map _
      exact (Causal.map _).comp (.zipWith _
        ((causal_relativeStrength ops 14).comp (hgains.comp hdiff))
        ((causal_relativeStrength ops 14).comp (hlosses.comp hdiff)))
  | macd => exact hmacd
  | macdSignal => exact hsignal
  | macdHist => exact .zipWith _ hmacd hsignal
  | tradeImbalance => exact .map _
  | vpin =>
      exact .zipWith _ ((causal_mavg ops n).comp (.map _)) ((causal_mavg ops n).comp (.map _))
  | tradeIntensity => exact .map _
  | duration => exact .map _
  | closePosition => exact .map _
  | thetaNorm => exact .map _
  | buyPct => exact .map _

variable {features : List Feature} {n : ℕ} {dib : List (DibBar S F)}

/-- With as many bars as every feature needs, a build has a row for each of them. -/
theorem build_eq_some (hbars : ∀ f ∈ features, f.bars ≤ dib.length) :
    build ops dib features n = some (dib.zipIdx.map fun b =>
      { bn := b.1.bn
        sym := b.1.sym
        barstart := b.1.barstart
        close := b.1.close
        values := (features.map (reg ops n dib)).map fun col => col.getD b.2 ops.null }) := by
  refine if_pos fun col hcol => ?_
  obtain ⟨f, hf, rfl⟩ := List.mem_map.mp hcol
  exact (causal_reg ops n f).length_eq dib (hbars f hf)

/-- A table of features does not look ahead: built from the first `k` bars it is the first `k` rows
of the one built from all bars. -/
theorem build_take (features : List Feature) (n : ℕ) (dib : List (DibBar S F)) {k : ℕ}
    (hbars : ∀ f ∈ features, f.bars ≤ k) (hk : k ≤ dib.length) :
    ∃ rows, build ops dib features n = some rows ∧ rows.length = dib.length ∧
      build ops (dib.take k) features n = some (rows.take k) := by
  refine ⟨_, build_eq_some ops fun f hf => (hbars f hf).trans hk, by simp, ?_⟩
  have hlen : (dib.take k).length = k := by rw [List.length_take, min_eq_left hk]
  rw [build_eq_some ops fun f hf => (hbars f hf).trans hlen.ge]
  refine congrArg some (List.ext_getElem (by simp [hk]) fun i hi _ => ?_)
  have hik : i < k := by simpa [hk] using hi
  have hvalues : ∀ f ∈ features, (reg ops n (dib.take k) f).getD i ops.null =
      (reg ops n dib f).getD i ops.null := by
    intro f hf
    rw [(causal_reg ops n f).take_eq dib k (hbars f hf) hk]
    simp [List.getD_eq_getElem?_getD, hik]
  simp only [List.getElem_map, List.getElem_zipIdx, List.getElem_take, List.map_map,
    FeatureRow.mk.injEq, true_and, Nat.zero_add]
  exact List.map_congr_left hvalues

/-- Twenty bars, one a minute. -/
def twentyBars : List (DibBar String Float) :=
  (List.range 20).map fun i =>
    { bn := i + 1, sym := "BTCUSDT", barstart := 60000000000 * i, barend := 60000000000 * i
      close := 100 + Float.ofNat i, high := 101 + Float.ofNat i, low := 99 + Float.ofNat i
      theta := 1, dqty := 500, bqty := 3, sqty := 2, ticks := 40 }

theorem build_take_twenty_bars :
    ∃ rows, build floats twentyBars [.rsi, .macdHist, .vpin] 10 = some rows ∧
      rows.length = twentyBars.length ∧
      build floats (twentyBars.take 16) [.rsi, .macdHist, .vpin] 10 = some (rows.take 16) :=
  build_take floats [.rsi, .macdHist, .vpin] 10 twentyBars (by decide) (by simp [twentyBars])

theorem length_relativeStrength (n : ℕ) (y : List F) :
    (Tech.relativeStrength ops n y).length = max (n + 1) y.length := by
  rw [Tech.relativeStrength, List.length_append, List.length_replicate, List.length_cons,
    length_scan, List.length_drop]
  omega

theorem length_rsi (dib : List (DibBar S F)) :
    (Tech.rsi ops dib).length = max 15 dib.length := by
  simp [Tech.rsi, length_relativeStrength, Tech.gains, Tech.losses, prev, xprev]

/-- A build from some bars fails only for the index of relative strength, whose column is never
shorter than fifteen rows. -/
theorem build_isSome_iff (features : List Feature) (n : ℕ) {dib : List (DibBar S F)}
    (hdib : dib ≠ []) :
    (build ops dib features n).isSome ↔ (.rsi ∈ features → 15 ≤ dib.length) := by
  constructor
  · intro hsome hrsi
    by_contra hfew
    have hfit : ¬ ∀ col ∈ features.map (reg ops n dib), col.length = dib.length := by
      intro hall
      have hlen := hall _ (List.mem_map.mpr ⟨.rsi, hrsi, rfl⟩)
      rw [reg, length_rsi] at hlen
      omega
    rw [build, if_neg hfit] at hsome
    cases hsome
  · intro henough
    rw [build_eq_some]
    · rfl
    · intro f hf
      have hone : 1 ≤ dib.length := List.length_pos_iff.mpr hdib
      cases f with
      | rsi => exact henough hf
      | _ => exact hone

theorem build_isSome_iff_twenty_bars :
    (build floats twentyBars [.rsi] 10).isSome ↔
      (Feature.rsi ∈ [Feature.rsi] → 15 ≤ twentyBars.length) :=
  build_isSome_iff floats [.rsi] 10 (by simp [twentyBars, List.range_succ])

end Causal

end TickToSignal.Ml
