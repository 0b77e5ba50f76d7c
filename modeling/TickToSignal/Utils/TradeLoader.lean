import Mathlib.Data.Prod.Lex
import Mathlib.Data.String.Basic
import Mathlib.Logic.Function.Basic
import Mathlib.Logic.Relation
import TickToSignal.Foundation.StableSort
import TickToSignal.Foundation.Trail

/-!
# The historical trade loaders

Three loaders, of spot trades, futures trades and aggregated futures trades,
download the archive of a day, extract it and save its rows as a partition of a
table of their own. They share the directory of the files on their way, and the
files of the first two have the same names. Whatever fails, and wherever a
loader is stopped, a partition holds the rows of its own archive.

## Implementation notes

A call is a trail, so that it can be stopped in every state it passes through:
an archive is extracted line by line, and a partition that is being saved is
`unfinished`. `left` says that the call was left, by an error or by a return
from the middle of a loop. A file is named by what its path is built from, and
the lines of a file are split into fields; times are nanoseconds since 1970.
-/

namespace TickToSignal.Utils.TradeLoader

open Foundation

variable {F : Type*}

/-- A day, counted from 1970. -/
abbrev Date := ℤ

/-! ## Rows -/

/-- The loaders, by the table they write. -/
inductive Loader
  | trade
  | tradeFut
  | aggTradeFut
  deriving DecidableEq, Repr

/-- What stands between symbol and date in the name of a file. -/
inductive Stem
  | trades
  | aggTrades
  deriving DecidableEq, Repr

def Loader.stem : Loader → Stem
  | .trade | .tradeFut => .trades
  | .aggTradeFut => .aggTrades

structure FileName where
  sym : String
  stem : Stem
  date : Date
  deriving DecidableEq, Repr

/-- The name of an archive and of its extracted file, apart from their endings. -/
def Loader.file (ldr : Loader) (sym : String) (dt : Date) : FileName := ⟨sym, ldr.stem, dt⟩

/-- The lines of a file, by fields. -/
abbrev Csv := List (List String)

/-- A row of the tables; only futures trades have a quote quantity. -/
structure TradeRow (F : Type*) where
  exchTradeTs : ℤ
  exchTradeTimeMs : ℤ
  sym : String
  /-- `tradeId`, or `aggTradeId`, `firstTradeId` and `lastTradeId`. -/
  ids : List ℤ
  price : F
  qty : F
  quoteQty : Option F
  buyerIsMaker : Bool
  deriving DecidableEq, Repr

/-- The casts of `0:`. -/
structure Casts (F : Type*) where
  long : String → ℤ
  float : String → F

/-- One line, by the columns of the loader's archive. -/
def Loader.row (casts : Casts F) (sym : String) (line : List String) : Loader → TradeRow F
  | .trade =>
      { exchTradeTs := 1000 * casts.long (line.getD 4 "")
        exchTradeTimeMs := casts.long (line.getD 4 "")
        sym := sym
        ids := [casts.long (line.getD 0 "")]
        price := casts.float (line.getD 1 "")
        qty := casts.float (line.getD 2 "")
        quoteQty := none
        buyerIsMaker := line.getD 5 "" = "True" }
  | .tradeFut =>
      { exchTradeTs := 1000000 * casts.long (line.getD 4 "")
        exchTradeTimeMs := casts.long (line.getD 4 "")
        sym := sym
        ids := [casts.long (line.getD 0 "")]
        price := casts.float (line.getD 1 "")
        qty := casts.float (line.getD 2 "")
        quoteQty := some (casts.float (line.getD 3 ""))
        buyerIsMaker := line.getD 5 "" = "true" }
  | .aggTradeFut =>
      { exchTradeTs := 1000000 * casts.long (line.getD 5 "")
        exchTradeTimeMs := casts.long (line.getD 5 "")
        sym := sym
        ids := [casts.long (line.getD 0 ""), casts.long (line.getD 3 ""),
          casts.long (line.getD 4 "")]
        price := casts.float (line.getD 1 "")
        qty := casts.float (line.getD 2 "")
        quoteQty := none
        buyerIsMaker := line.getD 6 "" = "true" }

/-- The symbol in the name of a file: what stands before the first dash. -/
def symOf (name : FileName) : String := String.ofList (name.sym.toList.takeWhile (· ≠ '-'))

/-- `loadTrades`, `loadTradesFut`, `loadAggTrades` -/
def Loader.loadRows (ldr : Loader) (casts : Casts F) (name : FileName) (csv : Csv) :
    List (TradeRow F) :=
  csv.map fun line => ldr.row casts (symOf name) line

/-- The lines of an archive that are extracted; those of futures have a header. -/
def Loader.extracted (ldr : Loader) (archive : Csv) : Csv :=
  match ldr with
  | .trade => archive
  | .tradeFut | .aggTradeFut => archive.drop 1

/-- The columns a partition is sorted by. -/
def TradeRow.key (r : TradeRow F) : String ×ₗ ℤ := toLex (r.sym, r.exchTradeTs)

/-- The archives that are published, and how their fields are read. -/
structure Source (F : Type*) where
  archive : Loader → String → Date → Option Csv
  casts : Casts F

/-- The rows of a symbol's archive, as they are read from its extracted file. -/
def Source.rows (src : Source F) (ldr : Loader) (sym : String) (dt : Date) : List (TradeRow F) :=
  (src.archive ldr sym dt).elim [] fun archive =>
    ldr.loadRows src.casts (ldr.file sym dt) (ldr.extracted archive)

/-- The partition of some symbols. -/
def Source.partition (src : Source F) (ldr : Loader) (syms : List String) (dt : Date) :
    List (TradeRow F) :=
  sortBy TradeRow.key (syms.flatMap fun sym => src.rows ldr sym dt)

/-! ## Files -/

/-- What is found in the directory of a partition's table. -/
inductive Partition (F : Type*)
  | unfinished
  | saved (rows : List (TradeRow F))
  deriving DecidableEq, Repr

/-- The download directory and the partitions. -/
structure Files (F : Type*) where
  zip : FileName → Option Csv
  csv : FileName → Option Csv
  hdb : Loader × Date → Option (Partition F)

def Files.empty : Files F := ⟨fun _ => none, fun _ => none, fun _ => none⟩

/-- The files, and what a call has counted so far. -/
structure LoadState (F : Type*) extends Files F where
  loaded : List Date := []
  skipped : List Date := []
  failed : List Date := []
  totalRows : ℕ := 0
  left : Bool := false

inductive Request
  | range (startDt endDt : Date) (skipExisting : Bool)
  | downloadAndLoad (dt : Date)
  | downloadOnly (dt : Date)
  | loadAndSave (dt : Date)
  deriving DecidableEq, Repr

/-- A call of a loader, and what happens to it: which downloads arrive, and where the extraction of
an archive breaks off. -/
structure Session where
  ldr : Loader
  syms : List String
  request : Request
  arrives : String → Date → Bool
  breaksAt : String → Date → Option ℕ

section Calls

variable (src : Source F) (c : Session)

def partitionExists (s : LoadState F) (dt : Date) : Bool := (s.hdb (c.ldr, dt)).isSome

def anyFileExists (s : LoadState F) (dt : Date) : Bool :=
  c.syms.any fun sym => (s.csv (c.ldr.file sym dt)).isSome

/-- What a download leaves: curl fails if nothing arrives or nothing is published, and then the
archive is removed. -/
def download (sym : String) (dt : Date) : Option Csv :=
  if c.arrives sym dt then src.archive c.ldr sym dt else none

def downloadZip (sym : String) (dt : Date) : Trail (LoadState F) :=
  Trail.update fun s => { s with zip := Function.update s.zip (c.ldr.file sym dt) (download src c sym dt) }

/-- The rest of a call, unless it was left. -/
def unlessLeft (p : Trail (LoadState F)) : Trail (LoadState F) :=
  Trail.read fun s => if s.left then Trail.skip else p

def leave : Trail (LoadState F) := Trail.update fun s => { s with left := true }

def appendLine (name : FileName) (line : List String) (s : LoadState F) : LoadState F :=
  { s with csv := Function.update s.csv name (some ((s.csv name).getD [] ++ [line])) }

/-- Write a file line by line. -/
def writeCsv (name : FileName) (lines : Csv) : Trail (LoadState F) :=
  (Trail.update fun s => { s with csv := Function.update s.csv name (some []) }).seq
    (Trail.each (fun line => Trail.update (appendLine name line)) lines)

def deleteZip (name : FileName) : Trail (LoadState F) :=
  Trail.update fun s => { s with zip := Function.update s.zip name none }

/-- `unzip` alone reports an error; in a pipe it does not. -/
def extractAndClean (sym : String) (dt : Date) : Trail (LoadState F) :=
  let name := c.ldr.file sym dt
  Trail.read fun s =>
    match s.zip name, c.ldr, c.breaksAt sym dt with
    | none, .trade, _ => leave
    -- the pipe leaves an empty file, and there is no archive to delete
    | none, .tradeFut, _ | none, .aggTradeFut, _ => (writeCsv name []).seq leave
    | some archive, _, none => (writeCsv name (c.ldr.extracted archive)).seq (deleteZip name)
    | some archive, .trade, some n => (writeCsv name (archive.take n)).seq leave
    | some archive, .tradeFut, some n | some archive, .aggTradeFut, some n =>
        (writeCsv name ((c.ldr.extracted archive).take n)).seq (deleteZip name)

/-- All downloads of a day succeed. -/
def downloads (dt : Date) : Bool := c.syms.all fun sym => (download src c sym dt).isSome

/-- It returns `downloads`. -/
def fetchOneDate (dt : Date) : Trail (LoadState F) :=
  (Trail.each (fun sym => downloadZip src c sym dt) c.syms).seq
    (if downloads src c dt then
      Trail.each (fun sym => unlessLeft (extractAndClean c sym dt)) c.syms
    else Trail.skip)

def missing (s : LoadState F) (dt : Date) : Bool :=
  c.syms.any fun sym => (s.csv (c.ldr.file sym dt)).isNone

/-- The rows of the extracted files, sorted twice: `.Q.dpft` sorts by symbol. -/
def rowsFound (s : LoadState F) (dt : Date) : List (TradeRow F) :=
  sortBy TradeRow.sym (sortBy TradeRow.key (c.syms.flatMap fun sym =>
    c.ldr.loadRows src.casts (c.ldr.file sym dt) ((s.csv (c.ldr.file sym dt)).getD [])))

def setPartition (dt : Date) (p : Partition F) : Trail (LoadState F) :=
  Trail.update fun s => { s with hdb := Function.update s.hdb (c.ldr, dt) (some p) }

/-- It returns null if `missing`, and otherwise the number of `rowsFound`. -/
def loadOneDate (dt : Date) : Trail (LoadState F) :=
  Trail.read fun s =>
    if missing c s dt then Trail.skip
    -- no rows at all cannot be sorted by columns
    else if c.syms = [] then leave
    else (setPartition c dt .unfinished).seq (setPartition c dt (.saved (rowsFound src c s dt)))

def deleteCsv (sym : String) (dt : Date) : Trail (LoadState F) :=
  Trail.update fun s => { s with csv := Function.update s.csv (c.ldr.file sym dt) none }

/-- The end of a round of `.dl.range`: load what was fetched, and count the day. -/
def loadFetched (dt : Date) : Trail (LoadState F) :=
  if downloads src c dt then
    Trail.read fun s =>
      if missing c s dt then Trail.update fun s => { s with failed := s.failed ++ [dt] }
      else (loadOneDate src c dt).seq <| unlessLeft <| Trail.update fun s' =>
        { s' with
          loaded := s'.loaded ++ [dt]
          totalRows := s'.totalRows + (rowsFound src c s dt).length }
  else Trail.update fun s => { s with failed := s.failed ++ [dt] }

/-- One round of the loop of `.dl.range`. -/
def rangeDate (skipExisting : Bool) (dt : Date) : Trail (LoadState F) :=
  unlessLeft <| Trail.read fun s =>
    if partitionExists c s dt then
      if skipExisting then Trail.update fun s => { s with skipped := s.skipped ++ [dt] } else leave
    else
      (Trail.each (fun sym => deleteCsv c sym dt) c.syms).seq <|
        (fetchOneDate src c dt).seq <| unlessLeft <| loadFetched src c dt

def dates (startDt endDt : ℤ) : List ℤ :=
  (List.range (endDt - startDt + 1).toNat).map fun (i : ℕ) => startDt + i

def range (startDt endDt : Date) (skipExisting : Bool) : Trail (LoadState F) :=
  if startDt > endDt then leave else Trail.each (rangeDate src c skipExisting) (dates startDt endDt)

def downloadAndLoad (dt : Date) : Trail (LoadState F) :=
  Trail.read fun s =>
    if partitionExists c s dt then leave
    else if anyFileExists c s dt then leave
    else (fetchOneDate src c dt).seq <| unlessLeft <|
      if downloads src c dt then loadOneDate src c dt else leave

def downloadOnly (dt : Date) : Trail (LoadState F) :=
  Trail.read fun s => if anyFileExists c s dt then leave else fetchOneDate src c dt

def loadAndSave (dt : Date) : Trail (LoadState F) :=
  Trail.read fun s => if partitionExists c s dt then leave else loadOneDate src c dt

def perform : Trail (LoadState F) :=
  match c.request with
  | .range startDt endDt skipExisting => range src c startDt endDt skipExisting
  | .downloadAndLoad dt => downloadAndLoad src c dt
  | .downloadOnly dt => downloadOnly src c dt
  | .loadAndSave dt => loadAndSave src c dt

end Calls

/-! ## What a fetch leaves alone -/

/-- The partitions and the counts are the same. -/
structure SameResult (s t : LoadState F) : Prop where
  hdb : t.hdb = s.hdb
  loaded : t.loaded = s.loaded
  skipped : t.skipped = s.skipped
  failed : t.failed = s.failed
  totalRows : t.totalRows = s.totalRows

theorem SameResult.refl (s : LoadState F) : SameResult s s := ⟨rfl, rfl, rfl, rfl, rfl⟩

theorem SameResult.trans {s t u : LoadState F} (h : SameResult s t) (h' : SameResult t u) :
    SameResult s u where
  hdb := h'.hdb.trans h.hdb
  loaded := h'.loaded.trans h.loaded
  skipped := h'.skipped.trans h.skipped
  failed := h'.failed.trans h.failed
  totalRows := h'.totalRows.trans h.totalRows

/-- Only files of the download directory change. -/
def Quiet (p : Trail (LoadState F)) : Prop := ∀ s, p.Keeps (SameResult s)

section Quiet
variable {p q : Trail (LoadState F)}

theorem quiet_update {g : LoadState F → LoadState F} (h : ∀ s, SameResult s (g s)) :
    Quiet (Trail.update g) :=
  fun _ => Trail.keeps_update fun t ht => ht.trans (h t)

theorem Quiet.seq (hp : Quiet p) (hq : Quiet q) : Quiet (p.seq q) := fun s => (hp s).seq (hq s)

theorem Quiet.final (hp : Quiet p) (s : LoadState F) : SameResult s (p.final s) :=
  Trail.Keeps.final (hp s) (SameResult.refl s)

theorem keeps_unlessLeft {P : LoadState F → Prop} (hp : p.Keeps P) : (unlessLeft p).Keeps P := by
  rw [unlessLeft]
  apply Trail.keeps_read
  intro s
  split_ifs
  · exact Trail.keeps_skip
  · exact hp

theorem Quiet.unlessLeft (hp : Quiet p) : Quiet (unlessLeft p) := fun s => keeps_unlessLeft (hp s)

variable (src : Source F) (c : Session) (name : FileName) (sym : String) (dt : Date)

theorem quiet_leave : Quiet (leave (F := F)) := quiet_update fun _ => ⟨rfl, rfl, rfl, rfl, rfl⟩

theorem quiet_writeCsv (lines : Csv) : Quiet (writeCsv (F := F) name lines) := by
  apply Quiet.seq
  · exact quiet_update fun _ => ⟨rfl, rfl, rfl, rfl, rfl⟩
  · intro s
    apply Trail.keeps_each
    intro line
    exact quiet_update (g := appendLine name line) (fun _ => ⟨rfl, rfl, rfl, rfl, rfl⟩) s

theorem quiet_deleteZip : Quiet (deleteZip (F := F) name) :=
  quiet_update fun _ => ⟨rfl, rfl, rfl, rfl, rfl⟩

theorem quiet_deleteCsv : Quiet (deleteCsv (F := F) c sym dt) :=
  quiet_update fun _ => ⟨rfl, rfl, rfl, rfl, rfl⟩

theorem quiet_deleteCsvs : Quiet (Trail.each (fun sym => deleteCsv (F := F) c sym dt) c.syms) :=
  fun s => Trail.keeps_each (fun sym => quiet_deleteCsv c sym dt s) c.syms

theorem quiet_extractAndClean : Quiet (extractAndClean (F := F) c sym dt) := by
  intro s
  rw [extractAndClean]
  apply Trail.keeps_read
  intro t
  split
  · exact quiet_leave s
  · exact (quiet_writeCsv _ _).seq quiet_leave s
  · exact (quiet_writeCsv _ _).seq quiet_leave s
  · exact (quiet_writeCsv _ _).seq (quiet_deleteZip _) s
  · exact (quiet_writeCsv _ _).seq quiet_leave s
  · exact (quiet_writeCsv _ _).seq (quiet_deleteZip _) s
  · exact (quiet_writeCsv _ _).seq (quiet_deleteZip _) s

theorem quiet_downloadZip : Quiet (downloadZip src c sym dt) :=
  quiet_update fun _ => ⟨rfl, rfl, rfl, rfl, rfl⟩

theorem quiet_fetchOneDate : Quiet (fetchOneDate src c dt) := by
  apply Quiet.seq
  · exact fun s => Trail.keeps_each (fun sym => quiet_downloadZip src c sym dt s) c.syms
  · intro s
    split_ifs
    · exact Trail.keeps_each (fun sym => (quiet_extractAndClean c sym dt).unlessLeft s) c.syms
    · exact Trail.keeps_skip

end Quiet

/-! ## What a fetch brings -/

section Fetch
variable {src : Source F} {c : Session} {dt : Date} {s : LoadState F}

theorem file_inj {ldr : Loader} {sym sym' : String} :
    ldr.file sym dt = ldr.file sym' dt ↔ sym = sym' := by
  simp [Loader.file]

theorem final_appendLines (name : FileName) (lines written : Csv) (s : LoadState F) :
    (Trail.each (fun line => Trail.update (appendLine name line)) lines).final
        { s with csv := Function.update s.csv name (some written) } =
      { s with csv := Function.update s.csv name (some (written ++ lines)) } := by
  induction lines generalizing written with
  | nil => rw [List.append_nil, Trail.final_each_nil]
  | cons line lines ih =>
      rw [Trail.final_each_cons, Trail.final_update]
      have hline : appendLine name line { s with csv := Function.update s.csv name (some written) } =
          { s with csv := Function.update s.csv name (some (written ++ [line])) } := by
        simp [appendLine]
      rw [hline, ih, List.append_assoc, List.singleton_append]

theorem final_writeCsv (name : FileName) (lines : Csv) (s : LoadState F) :
    (writeCsv name lines).final s = { s with csv := Function.update s.csv name (some lines) } := by
  rw [writeCsv, Trail.final_seq, Trail.final_update, final_appendLines, List.nil_append]

theorem final_write_delete (name : FileName) (lines : Csv) :
    ((writeCsv name lines).seq (deleteZip name)).final s =
      { s with
        zip := Function.update s.zip name none
        csv := Function.update s.csv name (some lines) } := by
  rw [Trail.final_seq, final_writeCsv]
  rfl

/-- No futures archive is extracted in part. -/
def Session.Extracts (c : Session) : Prop := c.ldr ≠ .trade → ∀ sym dt, c.breaksAt sym dt = none

/-- The extracted file in place of the archive. -/
def extractedState (c : Session) (sym : String) (dt : Date) (archive : Csv) (s : LoadState F) :
    LoadState F :=
  { s with
    zip := Function.update s.zip (c.ldr.file sym dt) none
    csv := Function.update s.csv (c.ldr.file sym dt) (some (c.ldr.extracted archive)) }

@[simp] theorem extractedState_zip_self (sym : String) (archive : Csv) :
    (extractedState c sym dt archive s).zip (c.ldr.file sym dt) = none :=
  Function.update_self _ _ _

theorem extractedState_zip_of_ne {sym sym' : String} (hne : sym' ≠ sym) (archive : Csv) :
    (extractedState c sym dt archive s).zip (c.ldr.file sym' dt) = s.zip (c.ldr.file sym' dt) :=
  Function.update_of_ne (fun h => hne (file_inj.mp h)) _ _

@[simp] theorem extractedState_csv_self (sym : String) (archive : Csv) :
    (extractedState c sym dt archive s).csv (c.ldr.file sym dt) =
      some (c.ldr.extracted archive) :=
  Function.update_self _ _ _

theorem extractedState_csv_of_ne {sym sym' : String} (hne : sym' ≠ sym) (archive : Csv) :
    (extractedState c sym dt archive s).csv (c.ldr.file sym' dt) = s.csv (c.ldr.file sym' dt) :=
  Function.update_of_ne (fun h => hne (file_inj.mp h)) _ _

theorem final_extractAndClean {sym : String} {archive : Csv}
    (hzip : s.zip (c.ldr.file sym dt) = some archive) (hwhole : c.breaksAt sym dt = none) :
    (extractAndClean c sym dt).final s = extractedState c sym dt archive s := by
  obtain ⟨ldr, syms, request, arrives, breaksAt⟩ := c
  simp only [extractAndClean, Trail.final_read, hzip, show breaksAt sym dt = none from hwhole]
  cases ldr <;> exact final_write_delete _ _

theorem not_goes_seq_leave (p : Trail (LoadState F)) :
    ((p.seq leave).final s).left ≠ false := by
  rw [Trail.final_seq]
  exact Bool.true_eq_false.mp

/-- An extraction after which the call goes on was one of a whole archive. -/
theorem extractAndClean_spec (hextracts : c.Extracts) {sym : String}
    (hgoes : ((extractAndClean c sym dt).final s).left = false) :
    ∃ archive, s.zip (c.ldr.file sym dt) = some archive ∧ c.breaksAt sym dt = none := by
  obtain ⟨ldr, syms, request, arrives, breaksAt⟩ := c
  simp only [extractAndClean, Trail.final_read] at hgoes ⊢
  cases hzip : s.zip (ldr.file sym dt) with
  | none =>
      rw [hzip] at hgoes
      cases ldr with
      | trade => cases hgoes
      | tradeFut => exact absurd hgoes (not_goes_seq_leave _)
      | aggTradeFut => exact absurd hgoes (not_goes_seq_leave _)
  | some archive =>
      refine ⟨archive, rfl, ?_⟩
      cases ldr with
      | trade =>
          cases hbreaks : breaksAt sym dt with
          | none => rfl
          | some n =>
              rw [hzip, hbreaks] at hgoes
              exact absurd hgoes (not_goes_seq_leave _)
      | tradeFut => exact hextracts Loader.noConfusion sym dt
      | aggTradeFut => exact hextracts Loader.noConfusion sym dt

theorem final_unlessLeft (p : Trail (LoadState F)) :
    (unlessLeft p).final s = if s.left then s else p.final s := by
  rw [unlessLeft, Trail.final_read]
  split_ifs <;> rfl

theorem final_each_of_left {ι : Type*} (p : ι → Trail (LoadState F)) (is : List ι)
    (hs : s.left = true) : (Trail.each (fun i => unlessLeft (p i)) is).final s = s := by
  induction is with
  | nil => rfl
  | cons i is ih =>
      rw [Trail.final_each_cons, final_unlessLeft, if_pos hs]
      exact ih

/-- A loop that goes on to its end goes on after its first round. -/
theorem goes_of_each_cons {ι : Type*} {p : ι → Trail (LoadState F)} {i : ι} {is : List ι}
    (hgoes : ((Trail.each (fun i => unlessLeft (p i)) (i :: is)).final s).left = false) :
    s.left = false ∧ ((p i).final s).left = false ∧
      (Trail.each (fun i => unlessLeft (p i)) (i :: is)).final s =
        (Trail.each (fun i => unlessLeft (p i)) is).final ((p i).final s) := by
  cases hs : s.left with
  | true =>
      rw [final_each_of_left _ _ hs, hs] at hgoes
      cases hgoes
  | false =>
      rw [Trail.final_each_cons, final_unlessLeft, hs, if_neg Bool.false_ne_true] at hgoes ⊢
      refine ⟨rfl, ?_, rfl⟩
      by_contra hleft
      rw [final_each_of_left _ _ (Bool.not_eq_false _ ▸ hleft)] at hgoes
      exact hleft hgoes

/-- All extractions of a day. -/
def extractAll (c : Session) (dt : Date) : List String → Trail (LoadState F) :=
  Trail.each fun sym => unlessLeft (extractAndClean c sym dt)

/-- If the call goes on, each archive was there and whole, and none was asked for twice. -/
theorem extractAll_spec (hextracts : c.Extracts) {syms : List String}
    (hgoes : ((extractAll c dt syms).final s).left = false) :
    s.left = false ∧ syms.Nodup ∧
      ∀ sym ∈ syms, (s.zip (c.ldr.file sym dt)).isSome ∧ c.breaksAt sym dt = none := by
  induction syms generalizing s with
  | nil => exact ⟨hgoes, List.nodup_nil, fun sym hsym => absurd hsym List.not_mem_nil⟩
  | cons sym syms ih =>
      obtain ⟨hs, hfirst, hrest⟩ := goes_of_each_cons hgoes
      obtain ⟨archive, hzip, hwhole⟩ := extractAndClean_spec hextracts hfirst
      have hfinal := final_extractAndClean hzip hwhole
      rw [extractAll, hrest, hfinal] at hgoes
      obtain ⟨-, hnodup, hall⟩ := ih hgoes
      have hnew : sym ∉ syms := by
        intro hsym
        obtain ⟨hagain, -⟩ := hall sym hsym
        rw [extractedState_zip_self] at hagain
        cases hagain
      refine ⟨hs, List.nodup_cons.mpr ⟨hnew, hnodup⟩, ?_⟩
      intro sym' hsym'
      rcases List.mem_cons.mp hsym' with rfl | hsym'
      · exact ⟨Option.isSome_of_eq_some hzip, hwhole⟩
      · obtain ⟨hsome, hwhole'⟩ := hall sym' hsym'
        rw [extractedState_zip_of_ne (ne_of_mem_of_not_mem hsym' hnew)] at hsome
        exact ⟨hsome, hwhole'⟩

/-- Whole archives of different symbols are all extracted. -/
theorem final_extractAll {syms : List String} (hnodup : syms.Nodup) (hs : s.left = false)
    (hall : ∀ sym ∈ syms, (s.zip (c.ldr.file sym dt)).isSome ∧ c.breaksAt sym dt = none) :
    ((extractAll c dt syms).final s).left = false ∧
      ∀ sym, ((extractAll c dt syms).final s).csv (c.ldr.file sym dt) =
        if sym ∈ syms then (s.zip (c.ldr.file sym dt)).map c.ldr.extracted
        else s.csv (c.ldr.file sym dt) := by
  induction syms generalizing s with
  | nil => exact ⟨hs, fun sym => (if_neg List.not_mem_nil).symm⟩
  | cons sym syms ih =>
      obtain ⟨hnew, hnodup⟩ := List.nodup_cons.mp hnodup
      obtain ⟨hsome, hwhole⟩ := hall sym List.mem_cons_self
      obtain ⟨archive, hzip⟩ := Option.isSome_iff_exists.mp hsome
      obtain ⟨hgoes, hcsv⟩ := ih (s := extractedState c sym dt archive s) hnodup hs (by
        intro sym' hsym'
        rw [extractedState_zip_of_ne (ne_of_mem_of_not_mem hsym' hnew)]
        exact hall sym' (List.mem_cons_of_mem _ hsym'))
      rw [extractAll, Trail.final_each_cons, final_unlessLeft, hs, if_neg Bool.false_ne_true,
        final_extractAndClean hzip hwhole]
      refine ⟨hgoes, fun sym' => ?_⟩
      rw [extractAll] at hcsv
      rw [hcsv sym']
      by_cases heq : sym' = sym
      · subst heq
        simp [hnew, hzip]
      · simp [heq, extractedState_zip_of_ne heq, extractedState_csv_of_ne heq]

/-- After the downloads the archive of each symbol is the one that arrived. -/
theorem final_downloads (src : Source F) (c : Session) (dt : Date) (syms : List String) :
    ((Trail.each (fun sym => downloadZip src c sym dt) syms).final s).left = s.left ∧
      ∀ sym, ((Trail.each (fun sym => downloadZip src c sym dt) syms).final s).zip
          (c.ldr.file sym dt) =
        if sym ∈ syms then download src c sym dt else s.zip (c.ldr.file sym dt) := by
  induction syms generalizing s with
  | nil => exact ⟨rfl, fun sym => (if_neg List.not_mem_nil).symm⟩
  | cons sym syms ih =>
      rw [Trail.final_each_cons, downloadZip, Trail.final_update]
      obtain ⟨hleft, hzip⟩ := ih (s := { s with
        zip := Function.update s.zip (c.ldr.file sym dt) (download src c sym dt) })
      refine ⟨hleft, fun sym' => ?_⟩
      rw [hzip sym']
      by_cases heq : sym' = sym
      · subst heq
        simp
      · have hne : c.ldr.file sym' dt ≠ c.ldr.file sym dt := fun h => heq (file_inj.mp h)
        simp [heq, Function.update_of_ne hne]

theorem download_isSome {sym : String} (h : (download src c sym dt).isSome) :
    download src c sym dt = src.archive c.ldr sym dt := by
  unfold download at h ⊢
  split_ifs at h ⊢
  · rfl
  · cases h

theorem final_fetchOneDate (hall : downloads src c dt = true) :
    (fetchOneDate src c dt).final s = (extractAll c dt c.syms).final
      ((Trail.each (fun sym => downloadZip src c sym dt) c.syms).final s) := by
  rw [fetchOneDate, Trail.final_seq, if_pos hall]
  rfl

/-- A fetch after which the call goes on has left the extracted archives of the day. -/
theorem fetchOneDate_spec (hextracts : c.Extracts) (hall : downloads src c dt = true)
    (hgoes : ((fetchOneDate src c dt).final s).left = false) :
    c.syms.Nodup ∧ ∀ sym ∈ c.syms, (src.archive c.ldr sym dt).isSome ∧
      ((fetchOneDate src c dt).final s).csv (c.ldr.file sym dt) =
        (src.archive c.ldr sym dt).map c.ldr.extracted := by
  rw [final_fetchOneDate hall] at hgoes ⊢
  obtain ⟨hs, hnodup, hzips⟩ := extractAll_spec hextracts hgoes
  obtain ⟨-, hcsv⟩ := final_extractAll hnodup hs hzips
  obtain ⟨-, hdownloaded⟩ := final_downloads (s := s) src c dt c.syms
  refine ⟨hnodup, fun sym hsym => ?_⟩
  have harrived := List.all_eq_true.mp hall sym hsym
  rw [hcsv sym, if_pos hsym, hdownloaded sym, if_pos hsym, download_isSome harrived]
  exact ⟨download_isSome harrived ▸ harrived, rfl⟩

/-- A fetch of different symbols whose archives are all whole goes on. -/
theorem fetchOneDate_goes (hnodup : c.syms.Nodup) (hwhole : ∀ sym, c.breaksAt sym dt = none)
    (hs : s.left = false) : ((fetchOneDate src c dt).final s).left = false := by
  obtain ⟨hleft, hzip⟩ := final_downloads (s := s) src c dt c.syms
  by_cases hall : downloads src c dt = true
  · rw [final_fetchOneDate hall]
    refine (final_extractAll hnodup (hleft.trans hs) fun sym hsym => ⟨?_, hwhole sym⟩).1
    rw [hzip sym, if_pos hsym]
    exact List.all_eq_true.mp hall sym hsym
  · rw [fetchOneDate, Trail.final_seq, if_neg hall]
    exact hleft.trans hs

end Fetch

end TickToSignal.Utils.TradeLoader
