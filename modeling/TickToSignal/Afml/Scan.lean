import TickToSignal.Foundation.Cuts
import Mathlib.Algebra.Order.Group.Unbundled.Abs
import Mathlib.Algebra.Ring.Defs

/-!
# Scans of the imbalance bars

Three modes accumulate signed dollar volume tick by tick and close a bar when
the absolute value reaches a threshold: `dib` sums, `drb` starts over when the
direction changes, `rwdib` sums with a random-walk threshold. The warm-up scans
keep one threshold; the adaptive ones update it at every close.

## Implementation notes

Amounts are elements of an ordered ring. Division and square root are a
parameter, so that nothing is assumed of what they give for zero or a negative.
-/

namespace TickToSignal.Afml

open Foundation

variable {S K : Type*}

/-- Division and square root of the amounts. -/
structure Ops (K : Type*) where
  div : K → K → K
  sqrt : K → K

inductive Mode
  | dib
  | drb
  | rwdib
  deriving DecidableEq, Repr

/-- One tick of a day. -/
structure Tick (S K : Type*) where
  sym : S
  exchTradeTs : Int
  price : K
  qty : K
  buyerIsMaker : Bool
  deriving DecidableEq, Repr

/-- What a scan reads of a tick. -/
structure Tr (K : Type*) where
  sd : K
  isbuy : Bool
  dvol : K

section Columns
variable [Ring K]

/-- Trade direction, 1 for a buy. -/
def bt (bim : Bool) : Int := 1 - 2 * bim.toNat

def Tick.dvol (t : Tick S K) : K := t.price * t.qty

def Tick.sd (t : Tick S K) : K := bt t.buyerIsMaker * t.dvol

def Tick.tr (t : Tick S K) : Tr K :=
  { sd := t.sd, isbuy := bt t.buyerIsMaker = 1, dvol := t.dvol }

def avg (ops : Ops K) (xs : List K) : K := ops.div xs.sum (xs.length : K)

/-- Standard deviation of the population. -/
def dev (ops : Ops K) (xs : List K) : K :=
  ops.sqrt (avg ops (xs.map fun x => (x - avg ops xs) * (x - avg ops xs)))

end Columns

variable [Ring K] [LinearOrder K]

/-! ## Thresholds -/

def threshdib (et pb ed : K) : K := et * (ed * |-1 + 2 * pb|)

def threshdrb (et pb ed : K) : K := et * (ed * max pb (1 - pb))

def threshrw (ops : Ops K) (sigma et : K) : K := sigma * ops.sqrt et

/-! ## Warm-up scans -/

/-- Signs cancel. -/
def accdib (theta sd : K) : K := theta + sd

/-- Start over when the direction changes. -/
def accdrb (ptheta sd : K) : K := if (ptheta > 0) ↔ (sd > 0) then ptheta + sd else sd

/-- State of the scans with one threshold. -/
structure ScnState (K : Type*) where
  theta : K
  bn : Nat
  tib : Nat
  bib : Nat
  dib : K

/-- One tick under the threshold `th`, whatever the accumulation. -/
def scn (acc : K → K → K) (th : K) (st : ScnState K) (tr : Tr K) : ScnState K :=
  let theta := acc st.theta tr.sd
  let tib := st.tib + 1
  let bib := st.bib + tr.isbuy.toNat
  let dib := st.dib + tr.dvol
  if th ≤ |theta| then { theta := 0, bn := st.bn + 1, tib := 0, bib := 0, dib := 0 }
  else { theta := theta, bn := st.bn, tib := tib, bib := bib, dib := dib }

def scndib : K → ScnState K → Tr K → ScnState K := scn accdib

def scndrb : K → ScnState K → Tr K → ScnState K := scn accdrb

/-- State of the random-walk warm-up scan. -/
structure ScnRwState (K : Type*) where
  theta : K
  bn : Nat
  tib : Nat
  dib : K

/-- The warm-up scan of `rwdib`. -/
def scnrw (th : K) (st : ScnRwState K) (tr : Tr K) : ScnRwState K :=
  let theta := st.theta + tr.sd
  let tib := st.tib + 1
  let dib := st.dib + tr.dvol
  if th ≤ |theta| then { theta := 0, bn := st.bn + 1, tib := 0, dib := 0 }
  else { theta := theta, bn := st.bn, tib := tib, dib := dib }

/-! ## Adaptive scans -/

/-- The moving expectations and the threshold they give. -/
structure Expect (K : Type*) where
  et : K
  pb : K
  ed : K
  th : K

/-- The update at the close of a bar of `tib` ticks, `bib` buys and dollar volume `dib`. -/
def Expect.update (ops : Ops K) (thfn : K → K → K → K) (a : K) (e : Expect K) (tib bib : Nat)
    (dib : K) : Expect K :=
  let net := a * tib + (1 - a) * e.et
  let npb := a * ops.div bib tib + (1 - a) * e.pb
  let ned := a * ops.div dib tib + (1 - a) * e.ed
  { et := net, pb := npb, ed := ned, th := thfn net npb ned }

/-- State of the adaptive scans; the last three fields are the columns put out. -/
structure ScnaState (K : Type*) where
  theta : K
  bn : Nat
  exp : Expect K
  tib : Nat
  bib : Nat
  dib : K
  bnout : Nat
  thout : K
  thetaout : K

/-- One tick under the threshold in force, whatever the accumulation and the threshold rule. -/
def scna (ops : Ops K) (acc : K → K → K) (thfn : K → K → K → K) (a : K) (st : ScnaState K)
    (tr : Tr K) : ScnaState K :=
  let theta := acc st.theta tr.sd
  let tib := st.tib + 1
  let bib := st.bib + tr.isbuy.toNat
  let dib := st.dib + tr.dvol
  let cth := st.exp.th
  if cth ≤ |theta| then
    { theta := 0, bn := st.bn + 1, exp := st.exp.update ops thfn a tib bib dib
      tib := 0, bib := 0, dib := 0
      bnout := st.bn, thout := cth, thetaout := theta }
  else
    { theta := theta, bn := st.bn, exp := st.exp
      tib := tib, bib := bib, dib := dib
      bnout := st.bn, thout := st.exp.th, thetaout := theta }

def scndiba (ops : Ops K) : K → ScnaState K → Tr K → ScnaState K := scna ops accdib threshdib

def scndrba (ops : Ops K) : K → ScnaState K → Tr K → ScnaState K := scna ops accdrb threshdrb

/-- State of the adaptive random-walk scan. -/
structure ScnrwaState (K : Type*) where
  theta : K
  bn : Nat
  et : K
  sigma : K
  th : K
  anchor : K
  tib : Nat
  dib : K
  bnout : Nat
  thout : K
  thetaout : K

/-- The random-walk expectation at the close of a bar of `tib` ticks. -/
def rwEt (a et : K) (tib : Nat) : K := a * tib + (1 - a) * et

/-- The threshold after it: scaled by the root of the expectations' ratio, pulled to the anchor. -/
def rwTh (ops : Ops K) (k cth net oet anchor : K) : K :=
  let rawth := cth * ops.sqrt (ops.div net oet)
  rawth + k * (anchor - rawth)

def scnrwdiba (ops : Ops K) (a k : K) (st : ScnrwaState K) (tr : Tr K) : ScnrwaState K :=
  let theta := st.theta + tr.sd
  let tib := st.tib + 1
  let dib := st.dib + tr.dvol
  let cth := st.th
  if cth ≤ |theta| then
    let net := rwEt a st.et tib
    let nth := rwTh ops k cth net st.et st.anchor
    { theta := 0, bn := st.bn + 1, et := net, sigma := st.sigma, th := nth, anchor := st.anchor
      tib := 0, dib := 0
      bnout := st.bn, thout := cth, thetaout := theta }
  else
    { theta := theta, bn := st.bn, et := st.et, sigma := st.sigma, th := st.th, anchor := st.anchor
      tib := tib, dib := dib
      bnout := st.bn, thout := st.th, thetaout := theta }

/-! ## A step by whether the threshold is reached -/

section Steps
variable {ops : Ops K} {acc : K → K → K} {thfn : K → K → K → K} {th a k : K} {tr : Tr K}

theorem scn_of_reaches {st : ScnState K} (h : th ≤ |acc st.theta tr.sd|) : scn acc th st tr =
    { theta := 0, bn := st.bn + 1, tib := 0, bib := 0, dib := 0 } :=
  if_pos h

theorem scn_of_below {st : ScnState K} (h : ¬ th ≤ |acc st.theta tr.sd|) : scn acc th st tr =
    { theta := acc st.theta tr.sd, bn := st.bn, tib := st.tib + 1
      bib := st.bib + tr.isbuy.toNat, dib := st.dib + tr.dvol } :=
  if_neg h

theorem scnrw_of_reaches {st : ScnRwState K} (h : th ≤ |accdib st.theta tr.sd|) :
    scnrw th st tr = { theta := 0, bn := st.bn + 1, tib := 0, dib := 0 } :=
  if_pos h

theorem scnrw_of_below {st : ScnRwState K} (h : ¬ th ≤ |accdib st.theta tr.sd|) :
    scnrw th st tr =
      { theta := accdib st.theta tr.sd, bn := st.bn, tib := st.tib + 1, dib := st.dib + tr.dvol } :=
  if_neg h

theorem scna_of_reaches {st : ScnaState K} (h : st.exp.th ≤ |acc st.theta tr.sd|) :
    scna ops acc thfn a st tr =
      { theta := 0, bn := st.bn + 1
        exp := st.exp.update ops thfn a (st.tib + 1) (st.bib + tr.isbuy.toNat) (st.dib + tr.dvol)
        tib := 0, bib := 0, dib := 0
        bnout := st.bn, thout := st.exp.th, thetaout := acc st.theta tr.sd } :=
  if_pos h

theorem scna_of_below {st : ScnaState K} (h : ¬ st.exp.th ≤ |acc st.theta tr.sd|) :
    scna ops acc thfn a st tr =
      { theta := acc st.theta tr.sd, bn := st.bn, exp := st.exp
        tib := st.tib + 1, bib := st.bib + tr.isbuy.toNat, dib := st.dib + tr.dvol
        bnout := st.bn, thout := st.exp.th, thetaout := acc st.theta tr.sd } :=
  if_neg h

theorem scnrwdiba_of_reaches {st : ScnrwaState K} (h : st.th ≤ |accdib st.theta tr.sd|) :
    scnrwdiba ops a k st tr =
      { theta := 0, bn := st.bn + 1, et := rwEt a st.et (st.tib + 1), sigma := st.sigma
        th := rwTh ops k st.th (rwEt a st.et (st.tib + 1)) st.et st.anchor, anchor := st.anchor
        tib := 0, dib := 0
        bnout := st.bn, thout := st.th, thetaout := accdib st.theta tr.sd } :=
  if_pos h

theorem scnrwdiba_of_below {st : ScnrwaState K} (h : ¬ st.th ≤ |accdib st.theta tr.sd|) :
    scnrwdiba ops a k st tr =
      { theta := accdib st.theta tr.sd, bn := st.bn, et := st.et, sigma := st.sigma, th := st.th
        anchor := st.anchor, tib := st.tib + 1, dib := st.dib + tr.dvol
        bnout := st.bn, thout := st.th, thetaout := accdib st.theta tr.sd } :=
  if_neg h

end Steps

end TickToSignal.Afml
