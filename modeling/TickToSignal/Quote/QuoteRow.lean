import TickToSignal.OrderBook.Manager
import TickToSignal.Utils.Schemas
import Mathlib.Data.List.Forall2

/-!
# The quote row and the schema it is stored under

The C++ side builds the row by loops over the levels, `schemas.q` generates the
columns from the depth. At every depth and in both layouts each slot of the row
carries the value that the column at its index names.

## Implementation notes

A row is allocated with every slot unset and is filled from the front; a write
behind the last slot has no result.
-/

namespace TickToSignal

variable {K : Type*}

namespace OrderBook.BookQuote

def bidPrices (q : BookQuote K) : List K := q.bids.map PriceLevel.price
def bidQtys (q : BookQuote K) : List K := q.bids.map PriceLevel.qty
def askPrices (q : BookQuote K) : List K := q.asks.map PriceLevel.price
def askQtys (q : BookQuote K) : List K := q.asks.map PriceLevel.qty

/-- `depth()`. -/
def depth (q : BookQuote K) : Nat := q.bidPrices.length

end OrderBook.BookQuote

namespace Quote

open OrderBook Utils

/-- An atom of kdb+. -/
inductive KValue (K : Type*)
  | timestamp (ns : Int)
  | symbol (s : String)
  | float (v : K)
  | boolean (b : Bool)
  | long (v : Int)
  deriving DecidableEq, Repr

/-- The type of the columns that hold such an atom. -/
def KValue.type : KValue K → ColType
  | .timestamp _ => .timestamp
  | .symbol _ => .symbol
  | .float _ => .float
  | .boolean _ => .boolean
  | .long _ => .long

/-- Nanoseconds between the Unix epoch and the kdb+ epoch. -/
def quoteKdbEpochOffsetNs : Int := 946684800000000000

/-- The null long of kdb+. -/
def quoteNullLong : Int := -9223372036854775808

/-- Number of columns the feed handler sends. -/
def quoteRowWidth (depth : Nat) (futuresLayout : Bool) : Nat :=
  4 * depth + 10 + if futuresLayout then 2 else 0

/-- Position of `fhSendUs` in the row. -/
def quoteSendUsIndex (depth : Nat) (futuresLayout : Bool) : Nat :=
  quoteRowWidth depth futuresLayout - 2

/-- A row under construction; a slot is `none` until it is written. -/
abbrev Row (K : Type*) := List (Option (KValue K))

/-- Write values one after the other from slot `i` on. -/
def writeFrom (row : Row K) (i : Nat) : List (KValue K) → Option (Row K)
  | [] => some row
  | v :: vs => if i < row.length then writeFrom (row.set i (some v)) (i + 1) vs else none

/-- The schema of a layout. -/
def layout (futuresLayout : Bool) (depth : Nat) : Schema :=
  if futuresLayout then Schema.quoteFut depth else Schema.quote depth

section Row
variable (q : BookQuote K) (timeUtcNs fhParseUs fhSendUs : Int)

/-- The update ids are null on an invalid row. -/
def rowId (v : Int) : Int := if q.isValid then v else quoteNullLong

/-- The values of the levels, side by side. -/
def levelValues : List (KValue K) :=
  q.bidPrices.map KValue.float ++ q.bidQtys.map KValue.float ++ q.askPrices.map KValue.float ++
    q.askQtys.map KValue.float

/-- The values that `buildQuoteRow` writes, in the order in which it writes them. -/
def rowValues (futuresLayout : Bool) : List (KValue K) :=
  [KValue.timestamp (timeUtcNs - quoteKdbEpochOffsetNs), KValue.symbol q.sym] ++ levelValues q ++
    [KValue.boolean q.isValid, KValue.long q.exchEventTimeMs] ++
    (if futuresLayout then [KValue.long q.exchTransactTimeMs] else []) ++
    [KValue.long (rowId q q.exchFirstUpdateId), KValue.long (rowId q q.exchUpdateId)] ++
    (if futuresLayout then [KValue.long (rowId q q.exchPrevUpdateId)] else []) ++
    [KValue.long q.fhRecvTimeUtcNs, KValue.long fhParseUs, KValue.long fhSendUs,
      KValue.long q.fhSeqNo]

/-- Build the row. -/
def buildQuoteRow (futuresLayout : Bool) : Option (Row K) :=
  writeFrom (List.replicate (quoteRowWidth q.depth futuresLayout) none) 0
    (rowValues q timeUtcNs fhParseUs fhSendUs futuresLayout)

/-! ## What a column names -/

/-- The values of each kind of level column, best level first. -/
def levelFields : List (String × List K) :=
  [("bidPrice", q.bidPrices), ("bidQty", q.bidQtys), ("askPrice", q.askPrices),
    ("askQty", q.askQtys)]

/-- The values of the columns that are there once. -/
def plainFields : List (Col × KValue K) :=
  [("time", .timestamp (timeUtcNs - quoteKdbEpochOffsetNs)), ("sym", .symbol q.sym),
    ("isValid", .boolean q.isValid), ("exchEventTimeMs", .long q.exchEventTimeMs),
    ("exchTransactTimeMs", .long q.exchTransactTimeMs),
    ("exchFirstUpdateId", .long (rowId q q.exchFirstUpdateId)),
    ("exchUpdateId", .long (rowId q q.exchUpdateId)),
    ("exchPrevUpdateId", .long (rowId q q.exchPrevUpdateId)),
    ("fhRecvTimeUtcNs", .long q.fhRecvTimeUtcNs), ("fhParseUs", .long fhParseUs),
    ("fhSendUs", .long fhSendUs), ("fhSeqNo", .long q.fhSeqNo)]

/-- The column of this name stands for this value: level `k` of a kind is named by the kind and
the number `k`. -/
inductive Names : Col → KValue K → Prop
  | level {c p : String} {vs : List K} {k : Nat} {v : K} (hfield : (p, vs) ∈ levelFields q)
      (hlevel : vs[k]? = some v) (hname : c = p ++ toString (k + 1)) : Names c (.float v)
  | plain {c : Col} {v : KValue K}
      (hfield : (c, v) ∈ plainFields q timeUtcNs fhParseUs fhSendUs) : Names c v

/-- The slot holds what the column names, and nothing else, with the type of the column. -/
def Carries (col : Col × ColType) (slot : Option (KValue K)) : Prop :=
  (∀ v, Names q timeUtcNs fhParseUs fhSendUs col.1 v ↔ slot = some v) ∧
    slot.map KValue.type = some col.2

end Row

/-! ## Every slot is written -/

/-- Writing from the first unset slot on fills exactly as many slots as there are values. -/
theorem writeFrom_replicate (done : Row K) (vs : List (KValue K)) :
    writeFrom (done ++ List.replicate vs.length none) done.length vs =
      some (done ++ vs.map some) := by
  induction vs generalizing done with
  | nil => simp [writeFrom]
  | cons v vs ih =>
      have hset : (done ++ List.replicate (v :: vs).length none).set done.length (some v) =
          (done ++ [some v]) ++ List.replicate vs.length none := by
        simp [List.replicate_succ]
      have hlt : done.length < (done ++ List.replicate (v :: vs).length none).length := by
        simp
      have hrest := ih (done ++ [some v])
      rw [List.length_append, List.length_singleton] at hrest
      rw [writeFrom, if_pos hlt, hset, hrest, List.map_cons, List.append_assoc,
        List.singleton_append]

section Fields
variable (q : BookQuote K) (timeUtcNs fhParseUs fhSendUs : Int)

theorem length_levelValues (hlevels : q.asks.length = q.bids.length) :
    (levelValues q).length = 4 * q.depth := by
  have hdepth : q.depth = q.bids.length := List.length_map _
  simp [levelValues, BookQuote.bidPrices, BookQuote.bidQtys, BookQuote.askPrices,
    BookQuote.askQtys, hdepth, hlevels]
  omega

theorem length_rowValues (futuresLayout : Bool) (hlevels : q.asks.length = q.bids.length) :
    (rowValues q timeUtcNs fhParseUs fhSendUs futuresLayout).length =
      quoteRowWidth q.depth futuresLayout := by
  cases futuresLayout with
  | false =>
      simp [rowValues, quoteRowWidth, length_levelValues q hlevels]
  | true =>
      simp [rowValues, quoteRowWidth, length_levelValues q hlevels]

theorem buildQuoteRow_eq (futuresLayout : Bool) (hlevels : q.asks.length = q.bids.length) :
    buildQuoteRow q timeUtcNs fhParseUs fhSendUs futuresLayout =
      some ((rowValues q timeUtcNs fhParseUs fhSendUs futuresLayout).map some) := by
  rw [buildQuoteRow, ← length_rowValues q timeUtcNs fhParseUs fhSendUs futuresLayout hlevels]
  have hwritten := writeFrom_replicate []
    (rowValues q timeUtcNs fhParseUs fhSendUs futuresLayout)
  rwa [List.nil_append, List.nil_append, List.length_nil] at hwritten

/-! ## Every column names one value -/

/-- The columns that are there once have names of their own, and none begins like a level. -/
theorem plainFields_names :
    ((plainFields q timeUtcNs fhParseUs fhSendUs).map (·.1)).Nodup ∧
      ∀ c ∈ (plainFields q timeUtcNs fhParseUs fhSendUs).map (·.1), ∀ p ∈ Schema.levelKinds,
        ¬ p.toList <+: c.toList := by
  simp only [plainFields, List.map_cons, List.map_nil]
  decide

theorem levelFields_names : (levelFields q).map (·.1) = Schema.levelKinds := rfl

variable {q timeUtcNs fhParseUs fhSendUs}

theorem levelKind_of_mem {p : String} {vs : List K} (h : (p, vs) ∈ levelFields q) :
    p ∈ Schema.levelKinds := by
  rw [← levelFields_names q]
  exact List.mem_map_of_mem h

/-- A level's column is not one of the columns that are there once. -/
theorem level_ne_plain {c p s : String} {vs : List K} {v : KValue K}
    (hlevel : (p, vs) ∈ levelFields q) (hname : c = p ++ s) :
    (c, v) ∉ plainFields q timeUtcNs fhParseUs fhSendUs := by
  intro hplain
  have hapart := (plainFields_names q timeUtcNs fhParseUs fhSendUs).2 c
    (List.mem_map_of_mem (f := (·.1)) hplain) p (levelKind_of_mem hlevel)
  refine hapart ⟨s.toList, ?_⟩
  rw [hname, String.toList_append]

theorem Names.unique {c : Col} {v v' : KValue K}
    (h : Names q timeUtcNs fhParseUs fhSendUs c v)
    (h' : Names q timeUtcNs fhParseUs fhSendUs c v') : v = v' := by
  cases h with
  | @level p vs k x hfield hlevel hname =>
      cases h' with
      | @level p' vs' k' x' hfield' hlevel' hname' =>
          have hnames : p ++ toString (k + 1) = p' ++ toString (k' + 1) := hname.symm.trans hname'
          obtain rfl : p = p' :=
            Schema.kind_eq (levelKind_of_mem hfield) (levelKind_of_mem hfield') hnames
          obtain rfl : k = k' := by
            have hnumber := Schema.repr_inj ((String.append_right_inj p).mp hnames)
            omega
          have hkinds : ((levelFields q).map (·.1)).Nodup := by
            rw [levelFields_names]
            decide
          have hsame := List.inj_on_of_nodup_map hkinds hfield hfield' rfl
          rw [(Prod.mk.inj hsame).2, hlevel'] at hlevel
          rw [Option.some.inj hlevel]
      | plain hfield' => exact absurd hfield' (level_ne_plain hfield hname)
  | plain hfield =>
      cases h' with
      | level hfield' _ hname' => exact absurd hfield (level_ne_plain hfield' hname')
      | plain hfield' =>
          have hnodup := (plainFields_names q timeUtcNs fhParseUs fhSendUs).1
          exact (Prod.mk.inj (List.inj_on_of_nodup_map hnodup hfield hfield' rfl)).2

theorem Names.carries {c : Col} {v : KValue K}
    (h : Names q timeUtcNs fhParseUs fhSendUs c v) :
    Carries q timeUtcNs fhParseUs fhSendUs (c, v.type) (some v) := by
  refine ⟨fun v' => ⟨fun h' => congrArg some (h.unique h'), fun heq => ?_⟩, rfl⟩
  rw [← Option.some.inj heq]
  exact h

/-! ## The row and the schema side by side -/

/-- The columns of one kind of level, and its values. -/
theorem carries_levels {p : String} {vs : List K} (hfield : (p, vs) ∈ levelFields q) :
    List.Forall₂ (Carries q timeUtcNs fhParseUs fhSendUs)
      ((List.range vs.length).map fun i => (p ++ toString (i + 1), ColType.float))
      (vs.map fun v => some (.float v)) := by
  refine List.forall₂_of_length_eq_of_get (by simp) fun i hi hi' => ?_
  have hlt : i < vs.length := by simpa using hi
  have hnames : Names q timeUtcNs fhParseUs fhSendUs (p ++ toString (i + 1)) (.float vs[i]) :=
    .level hfield (List.getElem?_eq_getElem hlt) rfl
  simpa [KValue.type] using hnames.carries

theorem carries_plain {c : Col} {v : KValue K} {type : ColType} (htype : v.type = type)
    (hfield : (c, v) ∈ plainFields q timeUtcNs fhParseUs fhSendUs) :
    Carries q timeUtcNs fhParseUs fhSendUs (c, type) (some v) := by
  rw [← htype]
  exact (Names.plain hfield).carries

theorem levelCols_eq (n : Nat) : Schema.levelCols n =
    ((List.range n).map fun i => "bidPrice" ++ toString (i + 1)) ++
      ((List.range n).map fun i => "bidQty" ++ toString (i + 1)) ++
      ((List.range n).map fun i => "askPrice" ++ toString (i + 1)) ++
      ((List.range n).map fun i => "askQty" ++ toString (i + 1)) := by
  simp [Schema.levelCols, Schema.levelKinds]

/-- The level columns of a depth, and the values of a quote with as many levels. -/
theorem carries_levelCols {n : Nat} (hbids : q.bids.length = n) (hasks : q.asks.length = n) :
    List.Forall₂ (Carries q timeUtcNs fhParseUs fhSendUs)
      ((Schema.levelCols n).map fun c => (c, ColType.float))
      ((levelValues q).map some) := by
  have hkind : ∀ (p : String) (vs : List K), (p, vs) ∈ levelFields q → vs.length = n →
      List.Forall₂ (Carries q timeUtcNs fhParseUs fhSendUs)
        (((List.range n).map fun i => p ++ toString (i + 1)).map fun c => (c, ColType.float))
        ((vs.map KValue.float).map some) := by
    intro p vs hfield hlength
    rw [List.map_map, List.map_map, ← hlength]
    exact carries_levels hfield
  rw [levelCols_eq, levelValues]
  simp only [List.map_append]
  refine List.rel_append (List.rel_append (List.rel_append ?_ ?_) ?_) ?_
  · exact hkind _ _ (by simp [levelFields]) (by rw [BookQuote.bidPrices, List.length_map, hbids])
  · exact hkind _ _ (by simp [levelFields]) (by rw [BookQuote.bidQtys, List.length_map, hbids])
  · exact hkind _ _ (by simp [levelFields]) (by rw [BookQuote.askPrices, List.length_map, hasks])
  · exact hkind _ _ (by simp [levelFields]) (by rw [BookQuote.askQtys, List.length_map, hasks])

/-- Slot for slot, the row carries what the columns of its layout name. -/
theorem carries_row (futuresLayout : Bool) {n : Nat} (hbids : q.bids.length = n)
    (hasks : q.asks.length = n) :
    List.Forall₂ (Carries q timeUtcNs fhParseUs fhSendUs) (layout futuresLayout n)
      ((rowValues q timeUtcNs fhParseUs fhSendUs futuresLayout).map some) := by
  have htime : List.Forall₂ (Carries q timeUtcNs fhParseUs fhSendUs)
      [("time", .timestamp), ("sym", .symbol)]
      [some (.timestamp (timeUtcNs - quoteKdbEpochOffsetNs)), some (.symbol q.sym)] :=
    .cons (carries_plain rfl (by simp [plainFields]))
      (.cons (carries_plain rfl (by simp [plainFields])) .nil)
  have hflags : List.Forall₂ (Carries q timeUtcNs fhParseUs fhSendUs)
      [("isValid", .boolean), ("exchEventTimeMs", .long)]
      [some (.boolean q.isValid), some (.long q.exchEventTimeMs)] :=
    .cons (carries_plain rfl (by simp [plainFields]))
      (.cons (carries_plain rfl (by simp [plainFields])) .nil)
  have hids : List.Forall₂ (Carries q timeUtcNs fhParseUs fhSendUs)
      [("exchFirstUpdateId", .long), ("exchUpdateId", .long)]
      [some (.long (rowId q q.exchFirstUpdateId)), some (.long (rowId q q.exchUpdateId))] :=
    .cons (carries_plain rfl (by simp [plainFields]))
      (.cons (carries_plain rfl (by simp [plainFields])) .nil)
  have hsent : List.Forall₂ (Carries q timeUtcNs fhParseUs fhSendUs)
      [("fhRecvTimeUtcNs", .long), ("fhParseUs", .long), ("fhSendUs", .long), ("fhSeqNo", .long)]
      [some (.long q.fhRecvTimeUtcNs), some (.long fhParseUs), some (.long fhSendUs),
        some (.long q.fhSeqNo)] :=
    .cons (carries_plain rfl (by simp [plainFields]))
      (.cons (carries_plain rfl (by simp [plainFields]))
        (.cons (carries_plain rfl (by simp [plainFields]))
          (.cons (carries_plain rfl (by simp [plainFields])) .nil)))
  have htransact : Carries q timeUtcNs fhParseUs fhSendUs ("exchTransactTimeMs", .long)
      (some (.long q.exchTransactTimeMs)) := carries_plain rfl (by simp [plainFields])
  have hprev : Carries q timeUtcNs fhParseUs fhSendUs ("exchPrevUpdateId", .long)
      (some (.long (rowId q q.exchPrevUpdateId))) := carries_plain rfl (by simp [plainFields])
  have hfront := List.rel_append (List.rel_append htime (carries_levelCols hbids hasks)) hflags
  cases futuresLayout with
  | false =>
      have hall := List.rel_append (List.rel_append hfront hids) hsent
      simpa [layout, Schema.quote, Schema.mkQuote, rowValues] using hall
  | true =>
      have hextra :=
        List.rel_append (List.rel_append (.cons htransact .nil) hids) (.cons hprev .nil)
      have hall := List.rel_append (List.rel_append hfront hextra) hsent
      simpa [layout, Schema.quoteFut, Schema.mkQuote, rowValues] using hall

/-! ## The widths and `fhSendUs` -/

theorem length_layout (futuresLayout : Bool) (n : Nat) :
    (layout futuresLayout n).length = quoteRowWidth n futuresLayout := by
  cases futuresLayout with
  | false =>
      simp [layout, Schema.quote, Schema.mkQuote, quoteRowWidth, Schema.length_levelCols]
  | true =>
      simp [layout, Schema.quoteFut, Schema.mkQuote, quoteRowWidth, Schema.length_levelCols]

/-- The columns of a layout: the level columns among columns of other names. -/
theorem layout_names (futuresLayout : Bool) (n : Nat) : ∃ extra,
    (layout futuresLayout n).map (·.1) = ["time", "sym"] ++ Schema.levelCols n ++
      (["isValid", "exchEventTimeMs"] ++ extra ++
        ["fhRecvTimeUtcNs", "fhParseUs", "fhSendUs", "fhSeqNo"]) ∧
    (extra = ["exchFirstUpdateId", "exchUpdateId"] ∨
      extra = ["exchTransactTimeMs", "exchFirstUpdateId", "exchUpdateId", "exchPrevUpdateId"]) := by
  cases futuresLayout with
  | false => exact ⟨_, by simp [layout, Schema.quote, Schema.mkQuote, Function.comp_def], .inl rfl⟩
  | true =>
      exact ⟨_, by simp [layout, Schema.quoteFut, Schema.mkQuote, Function.comp_def], .inr rfl⟩

theorem nodup_layout (futuresLayout : Bool) (n : Nat) :
    ((layout futuresLayout n).map (·.1)).Nodup := by
  obtain ⟨extra, heq, rfl | rfl⟩ := layout_names futuresLayout n
  · rw [heq]
    exact Schema.nodup_around n (by decide) (by decide)
  · rw [heq]
    exact Schema.nodup_around n (by decide) (by decide)

theorem idxOf_fhSendUs (futuresLayout : Bool) (n : Nat) :
    ((layout futuresLayout n).map (·.1)).idxOf "fhSendUs" = quoteSendUsIndex n futuresLayout := by
  obtain ⟨extra, heq, -⟩ := layout_names futuresLayout n
  obtain ⟨front, hsplit⟩ : ∃ front,
      (layout futuresLayout n).map (·.1) = front ++ ["fhSendUs", "fhSeqNo"] :=
    ⟨["time", "sym"] ++ Schema.levelCols n ++ (["isValid", "exchEventTimeMs"] ++ extra ++
      ["fhRecvTimeUtcNs", "fhParseUs"]), by rw [heq]; simp⟩
  have hnodup := nodup_layout futuresLayout n
  rw [hsplit, List.nodup_append'] at hnodup
  have hnew : "fhSendUs" ∉ front := fun hmem => hnodup.2.2 hmem List.mem_cons_self
  have hwidth : front.length + 2 = quoteRowWidth n futuresLayout := by
    have hlength := congrArg List.length hsplit
    rw [List.length_map, length_layout, List.length_append] at hlength
    exact hlength.symm
  rw [hsplit, List.idxOf_append_of_notMem hnew, List.idxOf_cons_self, quoteSendUsIndex]
  omega

end Fields

/-- The row of a quote, whose depth is the number of its levels. -/
theorem exists_row (futuresLayout : Bool) {n : Nat} (q : BookQuote K)
    (hbids : q.bids.length = n) (hasks : q.asks.length = n)
    (timeUtcNs fhParseUs fhSendUs : Int) :
    ∃ row, buildQuoteRow q timeUtcNs fhParseUs fhSendUs futuresLayout = some row ∧
      row.length = quoteRowWidth n futuresLayout ∧
      List.Forall₂ (Carries q timeUtcNs fhParseUs fhSendUs) (layout futuresLayout n) row := by
  have hcarries : List.Forall₂ (Carries q timeUtcNs fhParseUs fhSendUs) (layout futuresLayout n)
      ((rowValues q timeUtcNs fhParseUs fhSendUs futuresLayout).map some) :=
    carries_row futuresLayout hbids hasks
  refine ⟨_, buildQuoteRow_eq q timeUtcNs fhParseUs fhSendUs futuresLayout (hasks.trans hbids.symm),
    ?_, hcarries⟩
  rw [← hcarries.length_eq, length_layout]

/-- At every depth, in both layouts and for every quote with that many levels on each side: the
row has as many slots as the schema has columns, every slot is written, with what the column of
its index names and in the column's type, and `quoteSendUsIndex` is the index of `fhSendUs`. -/
theorem row_matches_schema (futuresLayout : Bool) {n : Nat} (q : BookQuote K)
    (hbids : q.bids.length = n) (hasks : q.asks.length = n)
    (timeUtcNs fhParseUs fhSendUs : Int) :
    ∃ row, buildQuoteRow q timeUtcNs fhParseUs fhSendUs futuresLayout = some row ∧
      row.length = quoteRowWidth n futuresLayout ∧
      (layout futuresLayout n).length = quoteRowWidth n futuresLayout ∧
      List.Forall₂ (Carries q timeUtcNs fhParseUs fhSendUs) (layout futuresLayout n) row ∧
      ((layout futuresLayout n).map (·.1)).idxOf "fhSendUs" =
        quoteSendUsIndex n futuresLayout := by
  obtain ⟨row, heq, hlength, hcarries⟩ :=
    exists_row futuresLayout q hbids hasks timeUtcNs fhParseUs fhSendUs
  exact ⟨row, heq, hlength, length_layout futuresLayout n, hcarries,
    idxOf_fhSendUs futuresLayout n⟩

/-- A bid at 100 and an ask at 101, one level each. -/
def oneLevelQuote : BookQuote Int :=
  { sym := "BTCUSDT", bids := [⟨100, 1⟩], asks := [⟨101, 2⟩], isValid := true }

theorem one_level_row_matches :
    ∃ row, buildQuoteRow oneLevelQuote 0 5 6 true = some row ∧
      row.length = quoteRowWidth 1 true ∧ (layout true 1).length = quoteRowWidth 1 true ∧
      List.Forall₂ (Carries oneLevelQuote 0 5 6) (layout true 1) row ∧
      ((layout true 1).map (·.1)).idxOf "fhSendUs" = quoteSendUsIndex 1 true :=
  row_matches_schema true oneLevelQuote rfl rfl 0 5 6

/-! ## The quotes of the order book -/

section Published
variable [Zero K]

theorem length_slotsOf (levels : List (PriceLevel K)) (n : Nat) :
    (SymbolBook.slotsOf levels n).length = n := by
  simp [SymbolBook.slotsOf]
  omega

/-- A quote has as many levels on each side as the book is configured to publish. -/
theorem getQuote_levels (cfg : BookConfig) (s : SymbolBook K) (fhRecvTimeUtcNs fhSeqNo : Int) :
    (s.getQuote cfg fhRecvTimeUtcNs fhSeqNo).bids.length = cfg.depth ∧
      (s.getQuote cfg fhRecvTimeUtcNs fhSeqNo).asks.length = cfg.depth := by
  have hblank : (List.replicate cfg.depth (⟨0, 0⟩ : PriceLevel K)).length = cfg.depth :=
    List.length_replicate
  unfold SymbolBook.getQuote
  by_cases hclosed : s.state ≠ .VALID ∧ s.state ≠ .SYNCING
  · rw [if_pos hclosed]
    exact ⟨hblank, hblank⟩
  · rw [if_neg hclosed]
    by_cases hexhausted : s.state = .VALID ∧
        (decide (s.state = .VALID) && !s.depthExhausted cfg) = false
    · rw [if_pos hexhausted]
      exact ⟨hblank, hblank⟩
    · rw [if_neg hexhausted]
      exact ⟨length_slotsOf _ _, length_slotsOf _ _⟩

/-- The row of every quote that a book gives fits the schema of the configured depth. -/
theorem getQuote_row (cfg : BookConfig) (s : SymbolBook K) (fhRecvTimeUtcNs fhSeqNo : Int)
    (futuresLayout : Bool) (timeUtcNs fhParseUs fhSendUs : Int) :
    ∃ row, buildQuoteRow (s.getQuote cfg fhRecvTimeUtcNs fhSeqNo) timeUtcNs fhParseUs fhSendUs
        futuresLayout = some row ∧
      List.Forall₂ (Carries (s.getQuote cfg fhRecvTimeUtcNs fhSeqNo) timeUtcNs fhParseUs fhSendUs)
        (layout futuresLayout cfg.depth) row := by
  obtain ⟨hbids, hasks⟩ := getQuote_levels cfg s fhRecvTimeUtcNs fhSeqNo
  obtain ⟨row, heq, -, hcarries⟩ :=
    exists_row futuresLayout _ hbids hasks timeUtcNs fhParseUs fhSendUs
  exact ⟨row, heq, hcarries⟩

end Published

end Quote

end TickToSignal
