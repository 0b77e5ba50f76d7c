import Mathlib.Data.List.GetD
import Mathlib.Data.List.TakeWhile

/-!
# The number readers of live and backfilled trades

Prices and quantities come as JSON strings. A live message is read through
`JsonReader::priceString`, a REST reply by the `num` of `parseBackfillBody`.
Both stand on `strtod` and test what it reports in their own way.

## Implementation notes

A string is the bytes of the JSON value, and `strtod` sees them up to the first
zero byte. `strtod` is a parameter, with its value, the number of bytes it
converted and its range error. Error texts are bytes, as they quote the string.
-/

namespace TickToSignal.Handler

abbrev Bytes := List UInt8

/-- The bytes of a literal. -/
def text (s : String) : Bytes := s.toUTF8.toList

/-- A JSON value as far as it is read here. -/
inductive Value
  | string (bytes : Bytes)
  | object (members : List (String × Value))
  | other

/-- The first member of a name. -/
def Value.member (members : List (String × Value)) (key : String) : Option Value :=
  (members.find? fun m => decide (m.1 = key)).map (·.2)

/-- What a C function sees of a string. -/
def cString (bytes : Bytes) : Bytes := bytes.takeWhile fun b => decide (b ≠ 0)

/-- The byte at an index, the closing zero at the end. -/
def byteAt (s : Bytes) (i : Nat) : UInt8 := s.getD i 0

/-- What `strtod` reports: `consumed` is `end - s`. -/
structure Strtod (K : Type*) where
  value : K
  consumed : Nat
  erange : Bool

/-- The reader of an object, or of nothing. -/
structure JsonReader where
  members : Option (List (String × Value)) := none
  err : Bytes := []

namespace JsonReader

/-- The first error wins. -/
def setError (msg : Bytes) (r : JsonReader) : JsonReader :=
  if r.err = [] then { r with err := msg } else r

def ofValue : Value → JsonReader
  | .object members => { members := some members }
  | _ => { err := text "expected JSON object" }

variable {K : Type*}

def priceString (strtod : Bytes → Strtod K) (key : String) (r : JsonReader) :
    Option K × JsonReader :=
  match r.members with
  | none => (none, r)
  | some members =>
      match Value.member members key with
      | none => (none, r.setError (text ("missing string: " ++ key)))
      | some (.string bytes) =>
          let s := cString bytes
          let d := strtod s
          if d.consumed = 0 ∨ d.erange then
            (none, r.setError (text ("strtod failed for " ++ key ++ ": '") ++ s ++ text "'"))
          else (some d.value, r)
      | some _ => (none, r.setError (text ("not a string: " ++ key)))

end JsonReader

variable {K : Type*} {strtod : Bytes → Strtod K}

/-- The number reader of `parseBackfillBody`. -/
def num (strtod : Bytes → Strtod K) (members : List (String × Value)) (key : String) :
    Option K :=
  match Value.member members key with
  | some (.string bytes) =>
      let s := cString bytes
      let d := strtod s
      if d.consumed ≠ 0 ∧ byteAt s d.consumed = 0 then some d.value else none
  | _ => none

/-- Only its end is a zero byte of a C string. -/
theorem byteAt_cString_eq_zero_iff (bytes : Bytes) (i : Nat) :
    byteAt (cString bytes) i = 0 ↔ (cString bytes).length ≤ i := by
  by_cases hi : i < (cString bytes).length
  · have hmem : (cString bytes)[i] ∈ cString bytes := List.getElem_mem hi
    have hne : (cString bytes)[i] ≠ 0 := by
      simpa using List.mem_takeWhile_imp (p := fun b : UInt8 => decide (b ≠ 0)) hmem
    rw [byteAt, List.getD_eq_getElem _ _ hi]
    exact iff_of_false hne (Nat.not_le.2 hi)
  · exact iff_of_true (List.getD_eq_default _ _ (Nat.not_lt.1 hi)) (Nat.not_lt.1 hi)

/-- `priceString` on a string accepts what converts without a range error. -/
theorem priceString_string {r : JsonReader} {members : List (String × Value)} {key : String}
    {bytes : Bytes} (hr : r.members = some members)
    (hm : Value.member members key = some (.string bytes)) :
    (r.priceString strtod key).1 =
      if (strtod (cString bytes)).consumed = 0 ∨ (strtod (cString bytes)).erange then none
      else some (strtod (cString bytes)).value := by
  simp only [JsonReader.priceString, hr, hm]
  split
  · rfl
  · rfl

/-- `num` on a string accepts what converts to its end. -/
theorem num_string {members : List (String × Value)} {key : String} {bytes : Bytes}
    (hm : Value.member members key = some (.string bytes)) :
    num strtod members key =
      if (strtod (cString bytes)).consumed ≠ 0 ∧
          (cString bytes).length ≤ (strtod (cString bytes)).consumed then
        some (strtod (cString bytes)).value
      else none := by
  simp only [num, hm, byteAt_cString_eq_zero_iff]

/-- The two readers agree on a string exactly when nothing of it converts, or a range error
and trailing bytes come together. -/
theorem priceString_eq_num_iff {r : JsonReader} {live page : List (String × Value)}
    {key key' : String} {bytes : Bytes} (hr : r.members = some live)
    (hlive : Value.member live key = some (.string bytes))
    (hpage : Value.member page key' = some (.string bytes)) :
    (r.priceString strtod key).1 = num strtod page key' ↔
      (strtod (cString bytes)).consumed = 0 ∨
        ((strtod (cString bytes)).erange = true ↔
          (strtod (cString bytes)).consumed < (cString bytes).length) := by
  rw [priceString_string hr hlive, num_string hpage]
  by_cases hc : (strtod (cString bytes)).consumed = 0
  · simp [hc]
  · by_cases hl : (cString bytes).length ≤ (strtod (cString bytes)).consumed
    · simp [hc, hl, Nat.not_lt.2 hl]
    · simp [hc, hl, Nat.not_le.1 hl]

/-- `strtod` on a text of digits and what follows them. -/
def leadingDigits (s : Bytes) : Strtod Nat :=
  let digits := s.takeWhile fun b => decide (48 ≤ b ∧ b ≤ 57)
  { value := digits.foldl (fun n b => 10 * n + (b.toNat - 48)) 0
    consumed := digits.length
    erange := false }

theorem priceString_eq_num_whole :
    Value.member [("p", .string [53, 48])] "p" = some (.string [53, 48]) ∧
      ((JsonReader.ofValue (.object [("p", .string [53, 48])])).priceString leadingDigits "p").1 =
        num leadingDigits [("price", .string [53, 48])] "price" :=
  ⟨rfl, (priceString_eq_num_iff rfl
    (rfl : Value.member [("p", .string [53, 48])] "p" = some (.string [53, 48])) rfl).2
    (by decide)⟩

/-- A live price of `50x` is read as 50, a backfilled one is rejected. -/
theorem priceString_trailing :
    ((JsonReader.ofValue (.object [("p", .string (text "50x"))])).priceString leadingDigits "p").1 =
        some 50 ∧
      num leadingDigits [("price", .string (text "50x"))] "price" = none := by
  decide +kernel

end TickToSignal.Handler
