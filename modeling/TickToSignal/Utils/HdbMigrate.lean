import TickToSignal.Utils.Schemas
import TickToSignal.Foundation.Batches

/-!
# Migrating stored tables to the schema

`hdb_migrate` plans one item for each table directory that differs from the
schema, and writes column files and `.d` files. A second run plans anew from
what it finds: a directory with some of the new column files and the old `.d`
is one it refuses.

## Implementation notes

A splayed table is its `.d` and its column files; a file is there or not, and
one write makes it. The sym file, which `.Q.en` may extend by the null symbol,
is left out: no plan reads it. In which order `set` of a whole table writes its
files is a field of the configuration. Printed lines are left out.
-/

namespace TickToSignal.Utils

open Wdb Foundation Schema

inductive RootKind
  | hdb
  | tmp
  deriving DecidableEq, Repr

/-- A table directory. -/
structure Dir where
  kind : RootKind
  root : String
  table : WdbTable
  deriving DecidableEq, Repr

structure SplayDir (V : Type*) where
  d : Option (List Col) := none
  file : Col → Option (List V) := fun _ => none

/-- What the two directories list, and the table directories under them. -/
structure Hdb (V : Type*) where
  hdbNames : List String
  tmpNames : List String
  splay : Dir → Option (SplayDir V)
  hdbNodup : hdbNames.Nodup
  tmpNodup : tmpNames.Nodup

structure MigrateConfig (V : Type*) where
  depth : Nat
  hdbDir : String
  tmpDir : String
  /-- `"D"$` of the name is not null -/
  isDate : String → Bool
  nullOf : ColType → V
  /-- `none` is the `.d` file -/
  setOrder : List Col → List (Option Col)
  setOrder_perm : ∀ cols, (setOrder cols).Perm (none :: cols.map some)

variable {V : Type*} (cfg : MigrateConfig V)

/-- `.schema.splayCols`. -/
def SplayDir.splayCols (sp : SplayDir V) : List Col := sp.d.getD []

/-- `.schema.splayDepth`. -/
def SplayDir.splayDepth (sp : SplayDir V) : Nat :=
  (sp.splayCols.filter fun c => "bidPrice".toList.isPrefixOf c.toList).length

/-- ``like "tmp.[0-9]*"``. -/
def isTmp (name : String) : Bool :=
  match name.toList with
  | 't' :: 'm' :: 'p' :: '.' :: c :: _ => c.isDigit
  | _ => false

/-- `.schema.dataRoots`. -/
def Hdb.dataRoots (s : Hdb V) : List (RootKind × String) :=
  (s.hdbNames.filter cfg.isDate).map (RootKind.hdb, ·) ++
    (s.tmpNames.filter isTmp).map (RootKind.tmp, ·)

/-- The directories a plan goes through. -/
def Hdb.dirs (s : Hdb V) : List Dir :=
  (s.dataRoots cfg).flatMap fun r => tables.map fun t => { kind := r.1, root := r.2, table := t }

/-- `` key ` sv dir, c `` is not `()`. -/
def Hdb.file (s : Hdb V) (dir : Dir) (c : Col) : Option (List V) :=
  (s.splay dir).bind fun sp => sp.file c

/-! ## Plan -/

inductive Action
  | createEmpty
  | cannot
  | addNullCols
  | reorderD
  deriving DecidableEq, Repr

structure Item where
  dir : Dir
  rows : Nat
  action : Action
  ncols : List Col
  note : String
  deriving DecidableEq, Repr

/-- `.mg.rowCount`; `get` of a file that is not there signals. -/
def rowCount (sp : SplayDir V) (have_ : List Col) : Option Nat :=
  match have_ with
  | [] => some 0
  | c :: _ => (sp.file c).map List.length

/-- `.mg.planOne`. -/
def planOne (dir : Dir) (found : Option (SplayDir V)) : Option (List Item) :=
  let want := storedCols cfg.depth dir.table
  match found with
  | none =>
      if dir.kind = .hdb then
        some [{ dir := dir, rows := 0, action := .createEmpty, ncols := want, note := "" }]
      else some []
  | some sp =>
      let have_ := sp.splayCols
      if have_ = want then some []
      else
        (rowCount sp have_).map fun n =>
          if dir.table ∈ quoteTables ∧ cfg.depth ≠ sp.splayDepth then
            [{ dir := dir, rows := n, action := .cannot, ncols := []
               note := "quote depth " ++ toString sp.splayDepth ++ ", schema has " ++
                toString cfg.depth }]
          else
            let extra := have_.filter (· ∉ want)
            let miss := want.filter (· ∉ have_)
            if extra ≠ [] then
              [{ dir := dir, rows := n, action := .cannot, ncols := extra
                 note := "columns the schema does not know" }]
            else
              let present := miss.filter fun c => (sp.file c).isSome
              if present ≠ [] then
                [{ dir := dir, rows := n, action := .cannot, ncols := present
                   note := "column file exists but is not listed in .d" }]
              else
                [{ dir := dir, rows := n
                   action := if miss = [] then .reorderD else .addNullCols
                   ncols := miss, note := "" }]

def planDirs (s : Hdb V) : List Dir → Option (List Item)
  | [] => some []
  | dir :: dirs =>
      match planOne cfg dir (s.splay dir), planDirs s dirs with
      | some items, some rest => some (items ++ rest)
      | _, _ => none

/-- `.mg.plan`. -/
def Hdb.plan (s : Hdb V) : Option (List Item) := planDirs cfg s (s.dirs cfg)

/-! ## Apply -/

inductive Write (V : Type*)
  | column (dir : Dir) (c : Col) (values : List V)
  | d (dir : Dir) (cols : List Col)

def Write.dir : Write V → Dir
  | .column dir _ _ => dir
  | .d dir _ => dir

def Write.onSplayDir (sp : SplayDir V) : Write V → SplayDir V
  | .column _ c values => { sp with file := Function.update sp.file c (some values) }
  | .d _ cols => { sp with d := some cols }

/-- `set`, which makes the directory if it is not there. -/
def Hdb.write (s : Hdb V) (w : Write V) : Hdb V :=
  { s with splay := Function.update s.splay w.dir (some (w.onSplayDir ((s.splay w.dir).getD {}))) }

def Hdb.writeAll (s : Hdb V) (ws : List (Write V)) : Hdb V := exec Hdb.write s ws

/-- The type of a column of the schema. -/
def colType (depth : Nat) (t : WdbTable) (c : Col) : ColType :=
  ((stored depth t).lookup c).getD .long

/-- `.mg.nulls`. -/
def nulls (t : WdbTable) (c : Col) (n : Nat) : List V :=
  List.replicate n (cfg.nullOf (colType cfg.depth t c))

/-- `.mg.path`. -/
def path (dir : Dir) : String :=
  (match dir.kind with
    | .hdb => cfg.hdbDir
    | .tmp => cfg.tmpDir) ++ "/" ++ dir.root ++ "/" ++ tableName dir.table

/-- `.mg.doAdd`: the writes, up to a refusal. -/
def doAdd (p : Item) : List Col → Hdb V → List (Write V) × Option String
  | [], _ => ([.d p.dir (storedCols cfg.depth p.dir.table)], none)
  | c :: cs, s =>
      if (s.file p.dir c).isSome then
        ([], some ("refusing to overwrite existing file " ++ path cfg p.dir ++ "/" ++ c))
      else
        let w : Write V := .column p.dir c (nulls cfg p.dir.table c p.rows)
        let rest := doAdd p cs (s.write w)
        (w :: rest.1, rest.2)

/-- One file of an empty table. -/
def emptyFile (dir : Dir) : Option Col → Write V
  | none => .d dir (storedCols cfg.depth dir.table)
  | some c => .column dir c []

/-- `.mg.doCreate`. -/
def doCreate (p : Item) (s : Hdb V) : List (Write V) × Option String :=
  if (s.splay p.dir).isSome then
    ([], some ("refusing to overwrite existing table dir " ++ path cfg p.dir))
  else ((cfg.setOrder (storedCols cfg.depth p.dir.table)).map (emptyFile cfg p.dir), none)

/-- `.mg.doReorder`. -/
def doReorder (p : Item) : List (Write V) × Option String :=
  ([.d p.dir (storedCols cfg.depth p.dir.table)], none)

/-- `.mg.run`. -/
def run (p : Item) (s : Hdb V) : List (Write V) × Option String :=
  match p.action with
  | .addNullCols => doAdd cfg p p.ncols s
  | .createEmpty => doCreate cfg p s
  | .reorderD => doReorder cfg p
  | .cannot => ([], some "unexpected action")

/-- Every item is run, whatever the others return. -/
def runAll : List Item → Hdb V → List (Write V) × List String
  | [], _ => ([], [])
  | p :: ps, s =>
      let one := run cfg p s
      let rest := runAll ps (s.writeAll one.1)
      (one.1 ++ rest.1, one.2.toList ++ rest.2)

/-- The entry point: the exit code, if it gets there, and what it leaves. -/
def Hdb.migrate (apply : Bool) (s : Hdb V) : Option Nat × Hdb V :=
  match s.plan cfg with
  | none => (none, s)
  | some pl =>
      if pl = [] then (some 0, s)
      else if ∃ p ∈ pl, p.action = .cannot then (some 1, s)
      else if apply = false then (some 0, s)
      else
        let res := runAll cfg pl s
        let s' := s.writeAll res.1
        if res.2 ≠ [] then (some 1, s')
        else ((s'.plan cfg).map fun left => if left = [] then 0 else 1, s')

/-! ## Resuming -/

/-- The writes of an item that nothing stops. -/
def Item.writes (p : Item) : List (Write V) :=
  match p.action with
  | .addNullCols | .reorderD =>
      p.ncols.map (fun c => .column p.dir c (nulls cfg p.dir.table c p.rows)) ++
        [.d p.dir (storedCols cfg.depth p.dir.table)]
  | .createEmpty => (cfg.setOrder (storedCols cfg.depth p.dir.table)).map (emptyFile cfg p.dir)
  | .cannot => []

/-- Nothing is left to do, no file of before has changed, and the columns of the plan are
there, one null for each row. -/
structure Migrated (s : Hdb V) (pl : List Item) (s' : Hdb V) : Prop where
  plan : s'.plan cfg = some []
  kept : ∀ dir c values, s.file dir c = some values → s'.file dir c = some values
  added : ∀ p ∈ pl, ∀ c ∈ p.ncols, s'.file p.dir c = some (nulls cfg p.dir.table c p.rows)

end TickToSignal.Utils
