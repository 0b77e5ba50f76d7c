import TickToSignal.Quote.Handler

/-!
# From the REST reply to the loaded side

`fetchSnapshot` turns a depth reply into the levels that `Side::load` gets. An
entry that is not a pair of numeric strings is skipped, and `Side::load` drops
the entries without quantity. Whether the exchange cut the side off is decided
on what is left after the first, so a reply of `snapshotLimit` entries can load
as a side that claims to be whole. `Recognised` says when it does not.

## Implementation notes

rapidjson and `strtod` are parameters: `parse` gives the document or its error
text, `strtod` a number, `none` where it converts nothing or is out of range. A
quantity that is not a number loads like one below zero; such a price is left
out.
-/

namespace TickToSignal.Quote

open OrderBook

/-- A JSON value; `number` is one that is no 64-bit integer. -/
inductive JsonValue
  | null
  | bool (b : Bool)
  | int (n : Int)
  | number
  | string (s : String)
  | array (elements : List JsonValue)
  | object (members : List (String × JsonValue))

/-- The first member of a name. -/
def member (members : List (String × JsonValue)) (key : String) : Option JsonValue :=
  (members.find? fun m => decide (m.1 = key)).map (·.2)

/-- `JsonReader::int64`. -/
def int64 (members : List (String × JsonValue)) (key : String) : Except String Int :=
  match member members key with
  | none => .error ("missing int64: " ++ key)
  | some (.int n) => .ok n
  | some _ => .error ("not an int64: " ++ key)

/-- `JsonReader::array`. -/
def array (members : List (String × JsonValue)) (key : String) : Except String (List JsonValue) :=
  match member members key with
  | none => .error ("missing array: " ++ key)
  | some (.array elements) => .ok elements
  | some _ => .error ("not an array: " ++ key)

/-- One HTTPS GET. -/
structure HttpResult where
  status : Int := 0
  body : String := ""
  retryAfterSec : Int := 0
  usedWeight1m : Int := -1
  error : String := ""
  deriving DecidableEq, Repr

section
variable {K : Type*} (strtod : String → Option K)

/-- `["50000.12", "0.5"]` as a level. -/
def parseLevelPair : JsonValue → Option (PriceLevel K)
  | .array (.string p :: .string q :: _) =>
      match strtod p, strtod q with
      | some price, some qty => some ⟨price, qty⟩
      | _, _ => none
  | _ => none

/-- The levels of an array; malformed entries are skipped. -/
def parseLevels (entries : List JsonValue) : List (PriceLevel K) :=
  entries.filterMap (parseLevelPair strtod)

/-- The text of an API error. -/
def apiError (code : JsonValue) (msg : Option JsonValue) : String :=
  let code :=
    match code with
    | .int n => if -2 ^ 31 ≤ n ∧ n < 2 ^ 31 then n else 0
    | _ => 0
  let apiMsg :=
    match msg with
    | some (.string s) => s
    | _ => ""
  "API error " ++ toString code ++ ": " ++ apiMsg

/-- What a document of the right shape holds, or the first thing that is wrong with it. -/
def readSnapshot : JsonValue → Except String (Int × List JsonValue × List JsonValue)
  | .object members =>
      match member members "code" with
      | some code => .error (apiError code (member members "msg"))
      | none =>
          match int64 members "lastUpdateId", array members "bids", array members "asks" with
          | .error e, _, _ => .error ("Snapshot schema error: " ++ e)
          | _, .error e, _ => .error ("Snapshot schema error: " ++ e)
          | _, _, .error e => .error ("Snapshot schema error: " ++ e)
          | .ok id, .ok bids, .ok asks => .ok (id, bids, asks)
  | _ => .error "Response not a JSON object"

variable (parse : String → Except String JsonValue)

/-- The `lastUpdateId` and the levels of a body, or its error. -/
def parseSnapshotResponse (body : String) :
    Except String (Int × List (PriceLevel K) × List (PriceLevel K)) :=
  match parse body with
  | .error e => .error ("JSON parse error: " ++ e)
  | .ok doc =>
      match readSnapshot doc with
      | .error e => .error e
      | .ok (id, bids, asks) => .ok (id, parseLevels strtod bids, parseLevels strtod asks)

/-- `RestClient::fetchSnapshot`; the second component is the member `error`. -/
def fetchSnapshot (r : HttpResult) : SnapshotData K × String :=
  let result : SnapshotData K :=
    { httpStatus := r.status, retryAfterSec := r.retryAfterSec, usedWeight1m := r.usedWeight1m }
  if r.error ≠ "" then (result, r.error)
  else if r.status ≠ 200 then (result, "HTTP " ++ toString r.status)
  else
    match parseSnapshotResponse strtod parse r.body with
    | .error e => (result, e)
    | .ok (id, bids, asks) =>
        ({ result with lastUpdateId := id, bids := bids, asks := asks, success := true }, "")

end

/-! ## Which replies are accepted -/

/-- A reply of the documented shape, with its two arrays. -/
structure Accepted (parse : String → Except String JsonValue) (r : HttpResult)
    (bids asks : List JsonValue) : Prop where
  arrived : r.error = "" ∧ r.status = 200
  shape : ∃ members id, parse r.body = .ok (.object members) ∧ member members "code" = none ∧
    member members "lastUpdateId" = some (.int id) ∧
    member members "bids" = some (.array bids) ∧ member members "asks" = some (.array asks)

theorem int64_eq_ok {members : List (String × JsonValue)} {key : String} {n : Int} :
    int64 members key = .ok n ↔ member members key = some (.int n) := by
  simp only [int64]
  split <;> simp_all

theorem array_eq_ok {members : List (String × JsonValue)} {key : String}
    {elements : List JsonValue} :
    array members key = .ok elements ↔ member members key = some (.array elements) := by
  simp only [array]
  split <;> simp_all

theorem readSnapshot_eq_ok {doc : JsonValue} {id : Int} {bids asks : List JsonValue} :
    readSnapshot doc = .ok (id, bids, asks) ↔
      ∃ members, doc = .object members ∧ member members "code" = none ∧
        member members "lastUpdateId" = some (.int id) ∧
        member members "bids" = some (.array bids) ∧
        member members "asks" = some (.array asks) := by
  cases doc with
  | object members =>
      simp only [readSnapshot, JsonValue.object.injEq, exists_eq_left', ← int64_eq_ok,
        ← array_eq_ok]
      cases member members "code" with
      | some code => simp
      | none =>
          cases int64 members "lastUpdateId" <;> cases array members "bids" <;>
            cases array members "asks" <;> simp
  | null | bool | int | number | string | array => simp [readSnapshot]

section
variable {K : Type*} {strtod : String → Option K} {parse : String → Except String JsonValue}
  {r : HttpResult}

/-- An accepted reply succeeds, with the entries that parse. -/
theorem fetchSnapshot_of_accepted (strtod : String → Option K) {bids asks : List JsonValue}
    (h : Accepted parse r bids asks) :
    let d := (fetchSnapshot strtod parse r).1
    d.success = true ∧ d.bids = parseLevels strtod bids ∧ d.asks = parseLevels strtod asks := by
  obtain ⟨members, id, hdoc, hshape⟩ := h.shape
  have hread : readSnapshot (.object members) = .ok (id, bids, asks) :=
    readSnapshot_eq_ok.mpr ⟨members, rfl, hshape⟩
  simp [fetchSnapshot, h.arrived.1, h.arrived.2, parseSnapshotResponse, hdoc, hread]

/-- What is not accepted is rejected as a whole. -/
theorem accepted_of_success (h : (fetchSnapshot strtod parse r).1.success = true) :
    ∃ bids asks, Accepted parse r bids asks := by
  simp only [fetchSnapshot] at h
  split_ifs at h with herror hstatus
  simp only [parseSnapshotResponse] at h
  cases hdoc : parse r.body with
  | error e => simp [hdoc] at h
  | ok doc =>
      cases hread : readSnapshot doc with
      | error e => simp [hdoc, hread] at h
      | ok snapshot =>
          obtain ⟨id, bids, asks⟩ := snapshot
          obtain ⟨members, rfl, hshape⟩ := readSnapshot_eq_ok.mp hread
          exact ⟨bids, asks, ⟨not_not.mp herror, not_not.mp hstatus⟩, members, id, hdoc, hshape⟩

end

/-! ## When a side is bounded -/

section
variable {K : Type*} [LinearOrder K] [Zero K]

/-- The levels that carry a quantity. -/
def carrying (levels : List (PriceLevel K)) : List (PriceLevel K) :=
  levels.filter fun l => decide (0 < l.qty)

/-- What parsed is still as much as was asked for and not all of it empty, or more than the
book keeps. -/
def Recognised (cfg : BookConfig) (levels : List (PriceLevel K)) : Prop :=
  (cfg.snapshotLimit ≤ levels.length ∧ carrying levels ≠ []) ∨
    cfg.maxLevels < (carrying levels).length

instance (cfg : BookConfig) (levels : List (PriceLevel K)) : Decidable (Recognised cfg levels) :=
  inferInstanceAs (Decidable (_ ∨ _))

omit [LinearOrder K] in
/-- Cutting a side to the cap bounds it. -/
theorem trim_bounded_iff (maxLevels : Nat) (s : Side K) :
    (Side.trim maxLevels s).bounded = true ↔ s.bounded = true ∨ maxLevels < s.levels.length := by
  simp only [Side.trim]
  split_ifs with hfits
  · simp [not_lt.mpr hfits]
  · simp [not_le.mp hfits]

/-- A loaded side has a horizon exactly if its truncation was recognised. -/
theorem load_bounded_iff (cfg : BookConfig) (isBid : Bool) (levels : List (PriceLevel K)) :
    (Side.load isBid cfg.snapshotLimit cfg.maxLevels levels).bounded = true ↔
      Recognised cfg levels := by
  set sorted := (carrying levels).insertionSort
    fun a b => better isBid a.price b.price = false with hsorted
  have hlength : sorted.length = (carrying levels).length := List.length_insertionSort _ _
  have hempty : sorted.isEmpty = true ↔ carrying levels = [] := by
    rw [List.isEmpty_iff, ← List.length_eq_zero_iff, hlength, List.length_eq_zero_iff]
  change (Side.trim cfg.maxLevels
    { levels := sorted, bounded := if sorted.isEmpty then false else _, horizon := _ }).bounded
      = true ↔ _
  rw [trim_bounded_iff, Recognised, hlength]
  apply or_congr_left
  by_cases hnone : carrying levels = []
  · simp [hempty.mpr hnone, hnone]
  · have hsome : sorted.isEmpty = false := by
      rw [Bool.eq_false_iff, ne_eq, hempty]
      exact hnone
    simp [hsome, hnone]

end

section
variable {K : Type*} [LinearOrder K] [Zero K]

/-- The levels of one side of a snapshot. -/
def SnapshotData.side (isBid : Bool) (d : SnapshotData K) : List (PriceLevel K) :=
  if isBid then d.bids else d.asks

/-- The array of one side in a reply, if there is one. -/
def sideEntries (parse : String → Except String JsonValue) (isBid : Bool) (r : HttpResult) :
    Option (List JsonValue) :=
  match parse r.body with
  | .ok (.object members) =>
      match member members (if isBid then "bids" else "asks") with
      | some (.array elements) => some elements
      | _ => none
  | _ => none

omit [LinearOrder K] [Zero K] in
theorem Accepted.side_eq {strtod : String → Option K} {parse : String → Except String JsonValue}
    {r : HttpResult} {bids asks entries : List JsonValue} (h : Accepted parse r bids asks)
    {isBid : Bool} (hside : sideEntries parse isBid r = some entries) :
    (fetchSnapshot strtod parse r).1.side isBid = parseLevels strtod entries := by
  obtain ⟨-, hbids, hasks⟩ := fetchSnapshot_of_accepted strtod h
  obtain ⟨members, id, hdoc, -, -, hb, ha⟩ := h.shape
  cases isBid with
  | true =>
      have hentries : bids = entries := by simpa [sideEntries, hdoc, hb] using hside
      rw [← hentries]
      exact hbids
  | false =>
      have hentries : asks = entries := by simpa [sideEntries, hdoc, ha] using hside
      rw [← hentries]
      exact hasks

/-- A side is loaded as bounded, or its reply rejected, exactly if the reply does not have the
documented shape or enough of the entries parse, however many entries the side had. -/
theorem truncation_recognised_iff (cfg : BookConfig) (strtod : String → Option K)
    (parse : String → Except String JsonValue) (r : HttpResult) (isBid : Bool)
    {entries : List JsonValue} (hside : sideEntries parse isBid r = some entries) :
    let d := (fetchSnapshot strtod parse r).1
    (d.success = false ∨
        (Side.load isBid cfg.snapshotLimit cfg.maxLevels (d.side isBid)).bounded = true) ↔
      ((∃ bids asks, Accepted parse r bids asks) → Recognised cfg (parseLevels strtod entries)) := by
  intro d
  constructor
  · rintro hor ⟨bids, asks, haccepted⟩
    obtain hrejected | hbounded := hor
    · have hsuccess := (fetchSnapshot_of_accepted strtod haccepted).1
      exact absurd hsuccess (by simp [d] at hrejected; simp [hrejected])
    · rw [load_bounded_iff, haccepted.side_eq hside] at hbounded
      exact hbounded
  · intro himp
    by_cases hsuccess : d.success = true
    · obtain ⟨bids, asks, haccepted⟩ := accepted_of_success hsuccess
      right
      rw [load_bounded_iff, haccepted.side_eq hside]
      exact himp ⟨bids, asks, haccepted⟩
    · exact Or.inl (Bool.eq_false_iff.mpr hsuccess)

end

/-- A reply of two levels a side, the second bid without its quantity. -/
def demoReply : JsonValue :=
  .object [("lastUpdateId", .int 7),
    ("bids", .array [.array [.string "100", .string "1"], .array [.string "99"]]),
    ("asks", .array [.array [.string "101", .string "1"], .array [.string "102", .string "1"]])]

/-- The numbers of `demoReply`. -/
def demoStrtod (s : String) : Option Int :=
  [("1", 1), ("99", 99), ("100", 100), ("101", 101), ("102", 102)].lookup s

theorem truncation_recognised_iff_asks :
    let d := (fetchSnapshot demoStrtod (fun _ => .ok demoReply) { status := 200 }).1
    (d.success = false ∨ (Side.load false 2 4000 (d.side false)).bounded = true) ↔
      ((∃ bids asks, Accepted (fun _ => .ok demoReply) { status := 200 } bids asks) →
        Recognised { snapshotLimit := 2 } (parseLevels demoStrtod
          [.array [.string "101", .string "1"], .array [.string "102", .string "1"]])) :=
  truncation_recognised_iff { snapshotLimit := 2 } demoStrtod (fun _ => .ok demoReply)
    { status := 200 } false rfl

/-- Two bids were asked for and two came, so there may be more; one of them is malformed, the
other one loads as a side that is known in full, for whatever depth. -/
theorem malformed_entry_hides_truncation :
    let d := (fetchSnapshot demoStrtod (fun _ => .ok demoReply) { status := 200 }).1
    (∃ entries, sideEntries (fun _ => .ok demoReply) true { status := 200 } = some entries ∧
        entries.length = 2) ∧
      d.success = true ∧ (Side.load true 2 4000 (d.side true)).bounded = false ∧
      ∀ n, (Side.load true 2 4000 (d.side true)).below n = false := by
  refine ⟨⟨_, rfl, rfl⟩, by decide, by decide, fun n => ?_⟩
  have hunbounded : (Side.load true 2 4000 (SnapshotData.side true
      (fetchSnapshot demoStrtod (fun _ => .ok demoReply) { status := 200 }).1)).bounded = false := by
    decide
  simp only [Side.below, hunbounded, Bool.false_and]

end TickToSignal.Quote
