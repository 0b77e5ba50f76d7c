import TickToSignal.Foundation.Machine
import TickToSignal.Foundation.StableSort

/-!
# Sorting a splayed table on disk

Before a roll moves `tmp.<date>`, each of its tables is sorted by `sym` where
it lies: the ranks of the symbols are computed once, and every column file is
rewritten with its values moved to these ranks. A column with one value only is
not rewritten, nor is anything when the ranks are in order. A roll that is
aborted leaves sorted tables behind; later flushes append to them, and the next
roll sorts again.

## Implementation notes

A table on disk is its columns in the order of `.d`. `ρ` are the rows and
`get` reads a column of a row. `LinearOrder` on the values is the order in
which `iasc` puts the symbols. A column file is written whole or not at all.
-/

namespace TickToSignal.Wdb

open Foundation

/-- The attribute of the column `sym`. -/
inductive Attr
  | none
  | sorted
  | parted
  deriving DecidableEq, Repr

/-- A splayed table on disk. -/
structure Splay (V : Type*) where
  cols : List (String × List V)
  attr : Attr
  deriving DecidableEq, Repr

/-- `n#v`: the first `n` values, starting over when they run out. -/
def takeCyclic {V : Type*} (n : ℕ) (v : List V) : List V :=
  (List.range n).filterMap fun i => v[i % v.length]?

section Model

variable {V : Type*} [LinearOrder V]

/-- Whether a column has one value only; the first 256 are looked at first. -/
def constant (v : List V) : Bool :=
  match v with
  | [] => true
  | fv :: _ => if (takeCyclic 256 v).all (fun a => decide (a = fv)) then
      v.all fun a => decide (a = fv) else false

/-- Whether ranks are in order; their ends are looked at first. -/
def inOrder (ii : List ℕ) : Bool :=
  if ii.head? = some 0 ∧ ii.getLast? = some (ii.length - 1) then
    decide (ii.Pairwise (· ≤ ·)) else false

/-- Whether equal values stand together, which `p#` demands. -/
def parted : List V → Bool
  | [] => true
  | [_] => true
  | a :: b :: v => (decide (a = b) || !(b :: v).contains a) && parted (b :: v)

/-- The column files rewritten one by one; a file that cannot be written ends it. -/
def moveCols (writes : String → Bool) (ii : List ℕ) :
    List (String × List V) → Bool × List (String × List V)
  | [] => (true, [])
  | (name, v) :: cols =>
      if constant v then
        let (ok, cols') := moveCols writes ii cols
        (ok, (name, v) :: cols')
      else if writes name then
        let (ok, cols') := moveCols writes ii cols
        (ok, (name, scatter ii v) :: cols')
      else (false, (name, v) :: cols)

/-- The columns put in the order of their symbols. -/
def reorder (writes : String → Bool) (key : List V) (cols : List (String × List V)) :
    Bool × List (String × List V) :=
  if key.length = 0 then (true, cols)
  else
    let ii := iasc (iasc key)
    if inOrder ii then (true, cols) else moveCols writes ii cols

/-- `p#` on the column `sym`. -/
def setParted (setsAttr : Bool) (t : Splay V) : Bool × Splay V :=
  match t.cols.lookup "sym" with
  | .none => (false, t)
  | some key => if parted key ∧ setsAttr then (true, { t with attr := .parted }) else (false, t)

/-- `disksort` by `sym` with the attribute `p#`, under the error trap of `.wdb.sortTmpTable`. -/
def sortTmpTable (writes : String → Bool) (setsAttr : Bool) (t : Splay V) : Bool × Splay V :=
  match t.cols.lookup "sym" with
  | .none => (false, t)
  | some key =>
      if t.attr = .sorted then (true, t)
      else
        match reorder writes key t.cols with
        | (false, cols) => (false, { t with cols := cols })
        | (true, cols) => setParted setsAttr { t with cols := cols }

/-- What happens to a table of `tmp.<date>`. -/
inductive TableOp (ρ : Type*)
  | append (rows : List ρ)
  | sort (writes : String → Bool) (setsAttr : Bool)

/-- A flush appends to every column; an attribute does not survive it. -/
def Splay.append {ρ : Type*} (get : String → ρ → V) (rows : List ρ) (t : Splay V) : Splay V :=
  { cols := t.cols.map fun c => (c.1, c.2 ++ rows.map (get c.1)), attr := .none }

def Splay.step {ρ : Type*} (get : String → ρ → V) (t : Splay V) : TableOp ρ → Splay V
  | .append rows => t.append get rows
  | .sort writes setsAttr => (sortTmpTable writes setsAttr t).2

/-- The table with these rows. -/
def Splay.of {ρ : Type*} (get : String → ρ → V) (names : List String) (rows : List ρ)
    (attr : Attr) : Splay V :=
  { cols := names.map fun name => (name, rows.map (get name)), attr := attr }

/-- A sort that writes every file it wants to write, or cannot write any. -/
def TableOp.Whole {ρ : Type*} : TableOp ρ → Prop
  | .append _ => True
  | .sort writes _ => (∀ name, writes name = true) ∨ ∀ name, writes name = false

/-- The rows that were appended, in order. -/
def appended {ρ : Type*} (ops : List (TableOp ρ)) : List ρ :=
  ops.flatMap fun op =>
    match op with
    | .append rows => rows
    | .sort _ _ => []

end Model

section Columns

variable {V : Type*} [LinearOrder V]

omit [LinearOrder V] in
theorem mem_of_mem_takeCyclic {n : ℕ} {v : List V} {a : V} (h : a ∈ takeCyclic n v) : a ∈ v := by
  obtain ⟨i, -, hi⟩ := List.mem_filterMap.mp h
  exact List.mem_of_getElem? hi

/-- The first look at a column changes nothing in the answer. -/
theorem constant_iff {v : List V} : constant v = true ↔ ∀ a ∈ v, ∀ b ∈ v, a = b := by
  cases v with
  | nil => simp [constant]
  | cons fv v =>
      simp only [constant]
      split_ifs with hfirst
      · simp only [List.all_eq_true, decide_eq_true_eq]
        constructor
        · intro h a ha b hb
          exact (h a ha).trans (h b hb).symm
        · intro h a ha
          exact h a ha fv List.mem_cons_self
      · simp only [false_iff]
        intro h
        apply hfirst
        simp only [List.all_eq_true, decide_eq_true_eq]
        intro a ha
        exact h a (mem_of_mem_takeCyclic ha) fv List.mem_cons_self

/-- A column with one value only reads the same in any order. -/
theorem pick_constant {v : List V} (h : constant v = true) {p : List ℕ}
    (hp : p.Perm (List.range v.length)) : pick v p = v := by
  cases v with
  | nil => exact List.eq_nil_of_length_eq_zero (length_pick hp)
  | cons fv v =>
      have hall := constant_iff.mp h
      calc pick (fv :: v) p = List.replicate (fv :: v).length fv :=
            List.eq_replicate_iff.mpr
              ⟨length_pick hp, fun a ha => hall a (mem_of_mem_pick ha) fv List.mem_cons_self⟩
        _ = fv :: v :=
            (List.eq_replicate_iff.mpr ⟨rfl, fun a ha => hall a ha fv List.mem_cons_self⟩).symm

omit [LinearOrder V] in
/-- Ranks that are in order leave every column as it is. -/
theorem pick_of_inOrder {v : List V} {p : List ℕ} (hp : p.Perm (List.range v.length))
    (h : inOrder (iasc p) = true) : pick v p = v := by
  have hlen : p.length = v.length := by rw [hp.length_eq, List.length_range]
  have hranks : iasc p = List.range v.length := by
    unfold inOrder at h
    split_ifs at h
    · have hperm := iasc_perm p
      rw [hlen] at hperm
      exact hperm.eq_of_pairwise' (of_decide_eq_true h) List.pairwise_le_range
  have hbound : ∀ i ∈ p, i < v.length := fun i hi => List.mem_range.mp (hp.mem_iff.mp hi)
  apply List.ext_getElem?
  intro j
  rw [getElem?_pick hbound]
  by_cases hj : j < v.length
  · have hjp : j < p.length := hlen.symm ▸ hj
    have hk := hbound p[j] (List.getElem_mem hjp)
    have hrank := getElem?_iasc_perm hp (List.getElem?_eq_getElem hjp)
    rw [hranks, List.getElem?_range hk, Option.some_inj] at hrank
    rw [List.getElem?_eq_getElem hjp, Option.bind_some, hrank]
  · rw [List.getElem?_eq_none (by omega), Option.bind_none, List.getElem?_eq_none (by omega)]

theorem parted_of_pairwise {v : List V} (h : v.Pairwise (· ≤ ·)) : parted v = true := by
  induction v with
  | nil => rfl
  | cons a v ih =>
      cases v with
      | nil => rfl
      | cons b v =>
          simp only [parted, Bool.and_eq_true, Bool.or_eq_true, decide_eq_true_eq, Bool.not_eq_true',
            List.contains_eq_mem, decide_eq_false_iff_not]
          refine ⟨?_, ih h.of_cons⟩
          by_cases hab : a = b
          · exact Or.inl hab
          · right
            intro hmem
            have hlt : a < b := lt_of_le_of_ne (List.rel_of_pairwise_cons h List.mem_cons_self) hab
            rcases List.mem_cons.mp hmem with rfl | hmem
            · exact absurd rfl hab
            · exact absurd (List.rel_of_pairwise_cons h.of_cons hmem) (not_le.mpr hlt)

theorem moveCols_all {writes : String → Bool} (hwrites : ∀ name, writes name = true)
    {p : List ℕ} {cols : List (String × List V)}
    (hp : ∀ c ∈ cols, p.Perm (List.range c.2.length)) :
    moveCols writes (iasc p) cols = (true, cols.map fun c => (c.1, pick c.2 p)) := by
  induction cols with
  | nil => rfl
  | cons c cols ih =>
      obtain ⟨name, v⟩ := c
      have hv := hp (name, v) List.mem_cons_self
      have hrest := ih fun c hc => hp c (List.mem_cons_of_mem _ hc)
      simp only [moveCols, hrest, List.map_cons]
      split_ifs with hconst hwrite
      · rw [pick_constant hconst hv]
      · rw [scatter_iasc hv]
      · exact absurd (hwrites name) hwrite

theorem moveCols_none {writes : String → Bool} (hwrites : ∀ name, writes name = false)
    (ii : List ℕ) (cols : List (String × List V)) : (moveCols writes ii cols).2 = cols := by
  induction cols with
  | nil => rfl
  | cons c cols ih =>
      obtain ⟨name, v⟩ := c
      simp only [moveCols, hwrites, Bool.false_eq_true, if_false]
      split_ifs
      · simp only [ih]
      · rfl

end Columns

/-! ### Tables -/

section Tables

variable {V ρ : Type*} [LinearOrder V] {get : String → ρ → V} {names : List String}
  {rows : List ρ} {attr : Attr}

omit [LinearOrder V] in
theorem lookup_of (hsym : "sym" ∈ names) (rows : List ρ) :
    (names.map fun name => (name, rows.map (get name))).lookup "sym" =
      some (rows.map (get "sym")) := by
  induction names with
  | nil => exact absurd hsym List.not_mem_nil
  | cons name names ih =>
      rw [List.map_cons]
      by_cases hname : name = "sym"
      · rw [hname, List.lookup_cons_self]
      · rw [List.lookup_cons, beq_false_of_ne (Ne.symm hname)]
        exact ih ((List.mem_cons.mp hsym).resolve_left (Ne.symm hname))

omit [LinearOrder V] in
theorem pick_map (f : ρ → V) (rows : List ρ) (indices : List ℕ) :
    pick (rows.map f) indices = (pick rows indices).map f := by
  simp only [pick, List.map_filterMap, List.getElem?_map]

omit [LinearOrder V] in
theorem append_of (new : List ρ) :
    (Splay.of get names rows attr).append get new = Splay.of get names (rows ++ new) .none := by
  simp only [Splay.append, Splay.of, List.map_map, List.map_append, Function.comp_def]

/-- Every column read in the order of the symbols is the table sorted by symbol. -/
theorem cols_sorted (names : List String) (rows : List ρ) :
    (names.map fun name => (name, rows.map (get name))).map
        (fun c => (c.1, pick c.2 (iasc (rows.map (get "sym"))))) =
      names.map fun name => (name, (sortBy (get "sym") rows).map (get name)) := by
  rw [List.map_map]
  apply List.map_congr_left
  intro name _
  simp only [Function.comp_apply]
  rw [pick_map, pick_iasc]

variable (get) in
theorem reorder_all {writes : String → Bool} (hwrites : ∀ name, writes name = true)
    (names : List String) (rows : List ρ) :
    reorder writes (rows.map (get "sym")) (names.map fun name => (name, rows.map (get name))) =
      (true, names.map fun name => (name, (sortBy (get "sym") rows).map (get name))) := by
  have hperm : ∀ c ∈ names.map fun name => (name, rows.map (get name)),
      (iasc (rows.map (get "sym"))).Perm (List.range c.2.length) := by
    intro c hc
    obtain ⟨name, -, rfl⟩ := List.mem_map.mp hc
    have h := iasc_perm (rows.map (get "sym"))
    rwa [List.length_map] at h ⊢
  rw [← cols_sorted]
  simp only [reorder]
  split_ifs with hempty horder
  · obtain rfl : rows = [] := List.map_eq_nil_iff.mp (List.length_eq_zero_iff.mp hempty)
    rw [cols_sorted, sortBy_of_pairwise List.Pairwise.nil]
  · congr 1
    symm
    calc (names.map fun name => (name, rows.map (get name))).map
          (fun c => (c.1, pick c.2 (iasc (rows.map (get "sym")))))
        = (names.map fun name => (name, rows.map (get name))).map id := by
          apply List.map_congr_left
          intro c hc
          rw [pick_of_inOrder (hperm c hc) horder]
          rfl
      _ = names.map fun name => (name, rows.map (get name)) := List.map_id _
  · exact moveCols_all hwrites hperm

theorem reorder_none {writes : String → Bool} (hwrites : ∀ name, writes name = false)
    (key : List V) (cols : List (String × List V)) : (reorder writes key cols).2 = cols := by
  simp only [reorder]
  split_ifs
  · rfl
  · rfl
  · exact moveCols_none hwrites _ cols

variable (get rows attr) in
theorem setParted_of (hsym : "sym" ∈ names) (setsAttr : Bool) :
    setParted setsAttr (Splay.of get names (sortBy (get "sym") rows) attr) =
      (setsAttr, Splay.of get names (sortBy (get "sym") rows)
        (if setsAttr then .parted else attr)) := by
  have hparted : parted ((sortBy (get "sym") rows).map (get "sym")) = true := by
    apply parted_of_pairwise
    exact List.pairwise_map.mpr (sortBy_pairwise (get "sym") rows)
  unfold setParted
  rw [show (Splay.of get names (sortBy (get "sym") rows) attr).cols =
    names.map fun name => (name, (sortBy (get "sym") rows).map (get name)) from rfl,
    lookup_of hsym]
  simp only [hparted, true_and]
  cases setsAttr
  · rfl
  · rfl

/-- Setting an attribute moves no row. -/
theorem setParted_cols (setsAttr : Bool) (t : Splay V) (hattr : t.attr ≠ .sorted) :
    (setParted setsAttr t).2.cols = t.cols ∧ (setParted setsAttr t).2.attr ≠ .sorted := by
  unfold setParted
  split
  · exact ⟨rfl, hattr⟩
  · split_ifs
    · exact ⟨rfl, Attr.noConfusion⟩
    · exact ⟨rfl, hattr⟩

/-- A sort that can write every file: the rows are sorted by symbol. -/
theorem sortTmpTable_all (hsym : "sym" ∈ names) (hattr : attr ≠ .sorted)
    {writes : String → Bool} (hwrites : ∀ name, writes name = true) (setsAttr : Bool) :
    sortTmpTable writes setsAttr (Splay.of get names rows attr) =
      (setsAttr, Splay.of get names (sortBy (get "sym") rows)
        (if setsAttr then .parted else attr)) := by
  have hreorder := reorder_all get hwrites names rows
  have hset := setParted_of get rows attr hsym setsAttr
  unfold sortTmpTable
  rw [show (Splay.of get names rows attr).cols =
    names.map fun name => (name, rows.map (get name)) from rfl, lookup_of hsym]
  simp only [hreorder]
  rw [if_neg (show ¬(Splay.of get names rows attr).attr = .sorted from hattr)]
  exact hset

/-- A sort that cannot write any file moves no row. -/
theorem sortTmpTable_none {t : Splay V} (hattr : t.attr ≠ .sorted) {writes : String → Bool}
    (hwrites : ∀ name, writes name = false) (setsAttr : Bool) :
    (sortTmpTable writes setsAttr t).2.cols = t.cols ∧
      (sortTmpTable writes setsAttr t).2.attr ≠ .sorted := by
  unfold sortTmpTable
  split
  · exact ⟨rfl, hattr⟩
  · rename_i key _
    rw [if_neg hattr]
    have hcols := reorder_none hwrites key t.cols
    cases hreorder : reorder writes key t.cols with
    | mk ok cols =>
        rw [hreorder] at hcols
        obtain rfl : cols = t.cols := hcols
        cases ok with
        | false => exact ⟨rfl, hattr⟩
        | true => exact setParted_cols setsAttr t hattr

/-! ### Runs -/

/-- The table has the rows that were appended, some of them sorted already. -/
def Holds (get : String → ρ → V) (names : List String) (all : List ρ) (t : Splay V) : Prop :=
  ∃ rows attr, t = Splay.of get names rows attr ∧ attr ≠ .sorted ∧
    sortBy (get "sym") rows = sortBy (get "sym") all

theorem Holds.step (hsym : "sym" ∈ names) {all : List ρ} {t : Splay V}
    (h : Holds get names all t) {op : TableOp ρ} (hop : op.Whole) :
    Holds get names (all ++ appended [op]) (t.step get op) := by
  obtain ⟨rows, attr, rfl, hattr, hrows⟩ := h
  cases op with
  | append new =>
      refine ⟨rows ++ new, .none, append_of new, by decide, ?_⟩
      rw [← sortBy_append_sorted, hrows, sortBy_append_sorted]
      simp [appended]
  | sort writes setsAttr =>
      simp only [appended, List.flatMap_cons, List.flatMap_nil, List.append_nil]
      rcases hop with hall | hnone
      · refine ⟨sortBy (get "sym") rows, if setsAttr then .parted else attr, ?_, ?_, ?_⟩
        · rw [Splay.step, sortTmpTable_all hsym hattr hall]
        · split_ifs
          · decide
          · exact hattr
        · rw [sortBy_of_pairwise (sortBy_pairwise _ _), hrows]
      · obtain ⟨hcols, hattr'⟩ :=
          sortTmpTable_none (t := Splay.of get names rows attr) hattr hnone setsAttr
        refine ⟨rows, _, ?_, hattr', hrows⟩
        exact congrArg (fun cols => ({ cols := cols, attr := _ } : Splay V)) hcols

theorem Holds.exec (hsym : "sym" ∈ names) {all : List ρ} {t : Splay V}
    (h : Holds get names all t) {ops : List (TableOp ρ)} (hops : ∀ op ∈ ops, op.Whole) :
    Holds get names (all ++ appended ops) (Foundation.exec (Splay.step get) t ops) := by
  induction ops generalizing all t with
  | nil => simpa [appended] using h
  | cons op ops ih =>
      have hnext := ih (h.step hsym (hops op List.mem_cons_self))
        fun op' hop' => hops op' (List.mem_cons_of_mem _ hop')
      rw [List.append_assoc] at hnext
      simpa [appended] using hnext

theorem sort_after_run (hsym : "sym" ∈ names) {ops : List (TableOp ρ)}
    (hops : ∀ op ∈ ops, op.Whole) :
    sortTmpTable (fun _ => true) true
        (Foundation.exec (Splay.step get) (Splay.of get names [] .none) ops) =
      (true, Splay.of get names (sortBy (get "sym") (appended ops)) .parted) := by
  have hstart : Holds get names [] (Splay.of get names ([] : List ρ) .none) :=
    ⟨[], .none, rfl, by decide, rfl⟩
  obtain ⟨rows, attr, ht, hattr, hrows⟩ := hstart.exec hsym hops
  rw [ht, sortTmpTable_all hsym hattr (fun _ => rfl), hrows]
  rfl

/-- Whatever was appended between whatever sorts, of which each wrote all of its files or none,
a sort that goes through leaves every row, with all its columns, in the order of the symbols and
within a symbol in the order in which it was appended; sorting again changes nothing. -/
theorem table_sorted (hsym : "sym" ∈ names) {ops : List (TableOp ρ)} (hops : ∀ op ∈ ops, op.Whole) :
    ∃ rows, (∀ again, sortTmpTable (fun _ => true) true
        (Foundation.exec (Splay.step get) (Splay.of get names [] .none)
          (ops ++ List.replicate again (.sort (fun _ => true) true))) =
        (true, Splay.of get names rows .parted)) ∧
      rows.Pairwise (fun a b => get "sym" a ≤ get "sym" b) ∧
      ∀ k, rows.filter (fun r => decide (get "sym" r = k)) =
        (appended ops).filter fun r => decide (get "sym" r = k) := by
  refine ⟨sortBy (get "sym") (appended ops), ?_, sortBy_pairwise _ _, filter_sortBy _ _⟩
  intro again
  have hall : ∀ op ∈ ops ++ List.replicate again (.sort (fun _ => true) true), op.Whole := by
    intro op hop
    rcases List.mem_append.mp hop with hop | hop
    · exact hops op hop
    · rw [List.eq_of_mem_replicate hop]
      exact Or.inl fun _ => rfl
  have happended : appended (ops ++ List.replicate again (.sort (fun _ => true) true)) =
      appended ops := by
    simp [appended, List.flatMap_replicate]
  rw [sort_after_run hsym hall, happended]

end Tables

section

/-- A row of a table with the columns `time` and `sym`. -/
private def timeSym (name : String) (row : ℕ × ℕ) : ℕ := if name = "sym" then row.2 else row.1

/-- Rows appended after a sort that failed and one that went through without its attribute. -/
theorem table_sorted_three_flushes :
    let ops : List (TableOp (ℕ × ℕ)) :=
      [.append [(1, 2), (2, 1)], .sort (fun _ => false) true, .append [(3, 1)],
        .sort (fun _ => true) false, .append [(4, 2), (5, 0)]]
    ∃ rows, (∀ again, sortTmpTable (fun _ => true) true
        (exec (Splay.step timeSym) (Splay.of timeSym ["time", "sym"] [] .none)
          (ops ++ List.replicate again (.sort (fun _ => true) true))) =
        (true, Splay.of timeSym ["time", "sym"] rows .parted)) ∧
      rows.Pairwise (fun a b => timeSym "sym" a ≤ timeSym "sym" b) ∧
      ∀ k, rows.filter (fun r => decide (timeSym "sym" r = k)) =
        (appended ops).filter fun r => decide (timeSym "sym" r = k) :=
  table_sorted (by decide) (by simp [TableOp.Whole])

-- A sort that stops between two files leaves rows that a repeated sort does not bring back.
example : (exec (Splay.step timeSym) (Splay.of timeSym ["time", "sym"] [(1, 2), (2, 1)] .none)
    [.sort (fun name => name = "time") true, .sort (fun _ => true) true]).cols =
      [("time", [1, 2]), ("sym", [1, 2])] := by decide

end

end TickToSignal.Wdb
