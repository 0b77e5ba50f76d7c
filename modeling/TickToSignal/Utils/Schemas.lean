import TickToSignal.Utils.LogManager
import Mathlib.Data.String.Basic
import Mathlib.Data.List.Nodup

/-!
# Stored layouts

`schemas.q` generates the quote tables from the depth; what WDB stores of a
table has three columns more than what the handlers send. The columns of a
stored table are distinct at every depth.
-/

namespace TickToSignal.Utils

open Wdb

/-- A column name. -/
abbrev Col := String

inductive ColType
  | timestamp
  | symbol
  | long
  | float
  | boolean
  deriving DecidableEq, Repr

/-- A table without rows. -/
abbrev Schema := List (Col × ColType)

namespace Schema

/-- `.schema.trade`. -/
def trade : Schema :=
  [("time", .timestamp), ("sym", .symbol), ("tradeId", .long), ("price", .float), ("qty", .float),
    ("buyerIsMaker", .boolean), ("exchEventTimeMs", .long), ("exchTradeTimeMs", .long),
    ("fhRecvTimeUtcNs", .long), ("fhParseUs", .long), ("fhSendUs", .long), ("fhSeqNo", .long)]

/-- `.schema.aggTrade`. -/
def aggTrade : Schema :=
  [("time", .timestamp), ("sym", .symbol), ("aggTradeId", .long), ("firstTradeId", .long),
    ("lastTradeId", .long), ("price", .float), ("qty", .float), ("qtyExRpi", .float),
    ("buyerIsMaker", .boolean), ("exchEventTimeMs", .long), ("exchTradeTimeMs", .long),
    ("fhRecvTimeUtcNs", .long), ("fhParseUs", .long), ("fhSendUs", .long), ("fhSeqNo", .long)]

/-- The four kinds of level columns. -/
def levelKinds : List String := ["bidPrice", "bidQty", "askPrice", "askQty"]

/-- `.schema.levelCols`. -/
def levelCols (n : Nat) : List Col :=
  levelKinds.flatMap fun p => (List.range n).map fun i => p ++ toString (i + 1)

/-- `.schema.mkQuote`. -/
def mkQuote (n : Nat) (extra : List Col) : Schema :=
  [("time", .timestamp), ("sym", .symbol)] ++ (levelCols n).map (fun c => (c, .float)) ++
    [("isValid", .boolean), ("exchEventTimeMs", .long)] ++ extra.map (fun c => (c, .long)) ++
    [("fhRecvTimeUtcNs", .long), ("fhParseUs", .long), ("fhSendUs", .long), ("fhSeqNo", .long)]

/-- `.schema.quote`. -/
def quote (depth : Nat) : Schema := mkQuote depth ["exchFirstUpdateId", "exchUpdateId"]

/-- `.schema.quoteFut`. -/
def quoteFut (depth : Nat) : Schema :=
  mkQuote depth ["exchTransactTimeMs", "exchFirstUpdateId", "exchUpdateId", "exchPrevUpdateId"]

/-- `.schema.tradeGap`. -/
def tradeGap : Schema :=
  [("time", .timestamp), ("sym", .symbol), ("srcTable", .symbol), ("firstMissingId", .long),
    ("lastMissingId", .long), ("missing", .long), ("status", .symbol), ("recovered", .long),
    ("recoveredThroughId", .long), ("reason", .symbol)]

/-- `.schema.extend`. -/
def extend (base : Schema) (extraCols : List Col) : Schema :=
  base ++ extraCols.map fun c => (c, .long)

/-- `.schema.live`, whose keys are the tables of WDB. -/
def live (depth : Nat) : WdbTable → Schema
  | .tradeBinance => trade
  | .tradeBinanceFut => aggTrade
  | .quoteBinance => quote depth
  | .quoteBinanceFut => quoteFut depth
  | .tradeGap => tradeGap

/-- `.schema.quoteTables`. -/
def quoteTables : List WdbTable := [.quoteBinance, .quoteBinanceFut]

/-- `.schema.stamps`. -/
def stamps : List Col := ["tpRecvTimeUtcNs", "tpSeqNo", "wdbRecvTimeUtcNs"]

/-- `.schema.stored`. -/
def stored (depth : Nat) (t : WdbTable) : Schema := extend (live depth t) stamps

/-- `.schema.storedCols`. -/
def storedCols (depth : Nat) (t : WdbTable) : List Col := (stored depth t).map (·.1)

/-! ## Distinct columns -/

theorem repr_inj {m n : Nat} (h : toString m = toString n) : m = n := by
  have hdigits : Nat.toDigits 10 m = Nat.toDigits 10 n := by
    rw [← Nat.toList_repr, ← Nat.toList_repr]
    exact congrArg String.toList h
  rw [← Nat.ofDigitChars_ten_toDigits (n := m), hdigits, Nat.ofDigitChars_ten_toDigits]

theorem length_levelCols (n : Nat) : (levelCols n).length = 4 * n := by
  simp [levelCols, levelKinds]
  omega

/-- A level column begins with its kind. -/
theorem exists_kind_of_mem {n : Nat} {c : Col} (hc : c ∈ levelCols n) :
    ∃ p ∈ levelKinds, ∃ s, c = p ++ s := by
  simp only [levelCols, List.mem_flatMap, List.mem_map] at hc
  obtain ⟨p, hp, i, -, rfl⟩ := hc
  exact ⟨p, hp, _, rfl⟩

/-- No kind begins with another. -/
theorem kind_eq {p q : String} (hp : p ∈ levelKinds) (hq : q ∈ levelKinds) {s s' : String}
    (h : p ++ s = q ++ s') : p = q := by
  have hapart : ∀ p ∈ levelKinds, ∀ q ∈ levelKinds, p.toList <+: q.toList → p = q := by decide
  have hlists : p.toList ++ s.toList = q.toList ++ s'.toList := by
    rw [← String.toList_append, ← String.toList_append, h]
  have hprefix : p.toList <+: q.toList ++ s'.toList := ⟨s.toList, hlists⟩
  obtain hpq | hqp := List.prefix_or_prefix_of_prefix hprefix (List.prefix_append _ _)
  · exact hapart p hp q hq hpq
  · exact (hapart q hq p hp hqp).symm

theorem nodup_levelCols (n : Nat) : (levelCols n).Nodup := by
  rw [levelCols, List.nodup_flatMap]
  refine ⟨fun p _ => ?_, ?_⟩
  · refine List.Nodup.map (fun i j hij => ?_) List.nodup_range
    have hnum := repr_inj ((String.append_right_inj p).mp hij)
    omega
  · have hkinds : levelKinds.Nodup := by decide
    refine hkinds.imp_of_mem fun {p q} hp hq hne => ?_
    apply List.disjoint_left.mpr
    intro c hc hc'
    obtain ⟨i, -, rfl⟩ := List.mem_map.mp hc
    obtain ⟨j, -, hj⟩ := List.mem_map.mp hc'
    exact hne (kind_eq hq hp hj).symm

/-- Level columns between columns of other names. -/
theorem nodup_around (n : Nat) {before after : List Col} (hnamed : (before ++ after).Nodup)
    (hother : ∀ c ∈ before ++ after, ∀ p ∈ levelKinds, ¬ p.toList <+: c.toList) :
    (before ++ levelCols n ++ after).Nodup := by
  have hperm : (before ++ levelCols n ++ after).Perm (levelCols n ++ (before ++ after)) := by
    rw [← List.append_assoc]
    exact List.perm_append_comm.append_right after
  refine hperm.nodup_iff.mpr (List.nodup_append'.mpr ⟨nodup_levelCols n, hnamed, ?_⟩)
  rw [List.disjoint_left]
  intro c hc hc'
  obtain ⟨p, hp, s, rfl⟩ := exists_kind_of_mem hc
  refine hother _ hc' p hp ⟨s.toList, ?_⟩
  rw [String.toList_append]

theorem storedCols_mkQuote (n : Nat) (extra : List Col) :
    (extend (mkQuote n extra) stamps).map (·.1) =
      ["time", "sym"] ++ levelCols n ++
        (["isValid", "exchEventTimeMs"] ++ extra ++
          ["fhRecvTimeUtcNs", "fhParseUs", "fhSendUs", "fhSeqNo"] ++ stamps) := by
  simp [extend, mkQuote, stamps, Function.comp_def]

theorem nodup_storedCols (depth : Nat) (t : WdbTable) : (storedCols depth t).Nodup := by
  cases t with
  | tradeBinance =>
      change ((stored 0 .tradeBinance).map (·.1)).Nodup
      decide
  | tradeBinanceFut =>
      change ((stored 0 .tradeBinanceFut).map (·.1)).Nodup
      decide
  | tradeGap =>
      change ((stored 0 .tradeGap).map (·.1)).Nodup
      decide
  | quoteBinance =>
      rw [storedCols, stored, live, quote, storedCols_mkQuote]
      exact nodup_around depth (by decide) (by decide)
  | quoteBinanceFut =>
      rw [storedCols, stored, live, quoteFut, storedCols_mkQuote]
      exact nodup_around depth (by decide) (by decide)

/-- What the log manager takes a logged row to be wide. -/
theorem width_eq (cfg : LogConfig) (t : WdbTable) :
    cfg.width t = (live cfg.depth t).length + 2 := by
  cases t with
  | tradeBinance | tradeBinanceFut | tradeGap => rfl
  | quoteBinance | quoteBinanceFut =>
      simp [LogConfig.width, live, quote, quoteFut, mkQuote, length_levelCols]
      omega

end Schema

end TickToSignal.Utils
