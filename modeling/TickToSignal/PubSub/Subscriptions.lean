import TickToSignal.Foundation.KeyedTable

/-!
# Subscriptions

A client subscribes to whole tables, or to what a query selects of them. The
handles of whole tables are kept in a dictionary, the queries in a table with a
row per handle; a batch of rows goes to the former as it is and to the latter as
far as their query selects rows of it.

## Implementation notes

Parsing and evaluating a query belong to kdb+: `QueryLang` stands for them, and
`none` for an error they throw. What a call changed before it threw stays
changed. The dictionary starts without the null key the source gives it, which
is no table.
-/

namespace TickToSignal.PubSub

open Foundation

variable {T H ρ F C : Type*}

/-- The parts of a query, from the text of a request or from symbols, and its evaluation. -/
structure QueryLang (T ρ F C : Type*) where
  /-- the filters in `select from t where ..` -/
  parseFilts : String → Option F
  /-- the columns in `select .. from t` -/
  parseColumns : String → Option C
  /-- the empty list in place of filters -/
  noFilts : F
  noColumns : C
  /-- `in` on the column `sym` -/
  symFilts : List String → F
  /-- `eval (?;rows;filts;0b;columns)` on rows of a table -/
  eval : T → F → C → List ρ → Option (List ρ)

/-- A row of `reqfilteredtbl`. -/
structure FilteredRow (T H F C : Type*) where
  table : T
  handle : H
  filts : F
  columns : C
  deriving DecidableEq, Repr

/-- What a request wants to see of its tables. -/
inductive Filters (T : Type*)
  | syms (syms : List String)
  /-- a keyed table: for each table the texts of its filters and columns -/
  | custom (conds : List (T × String × String))
  deriving DecidableEq, Repr

/-- How a subscription request ends. -/
inductive Reply (T : Type*)
  | granted (tables : List T)
  /-- some of the tables are not available -/
  | partly (missing tables : List T)
  | refused (missing : List T)
  | threw (error : String)
  deriving DecidableEq, Repr

/-- A message to a subscriber. -/
inductive Msg (T ρ : Type*)
  | upd (table : T) (rows : List ρ)
  | endofday
  | endofperiod
  deriving DecidableEq, Repr

/-- The variables of the module, and all it has sent. -/
structure State (T H ρ F C : Type*) where
  /-- the tables that can be subscribed to -/
  t : List T
  reqalldict : KeyedTable T (List H) := KeyedTable.empty
  reqfilteredtbl : List (FilteredRow T H F C) := []
  sent : List (H × Msg T ρ) := []

namespace State

variable [DecidableEq T] [DecidableEq H]

/-- `reqalldict t`. -/
def handles (s : State T H ρ F C) (t : T) : List H := (s.reqalldict.lookup t).getD []

/-- Every handle that is recorded on a table. -/
def getallhandles (s : State T H ρ F C) : List H :=
  ((s.reqalldict.rows.flatMap Prod.snd) ++ s.reqfilteredtbl.map (·.handle)).dedup

def add (t : T) (h : H) (s : State T H ρ F C) : State T H ρ F C :=
  if h ∈ s.handles t then s
  else { s with reqalldict := s.reqalldict.upsert t (s.handles t ++ [h]) }

def delhandle (t : T) (h : H) (s : State T H ρ F C) : State T H ρ F C :=
  let s :=
    match s.reqalldict.lookup t with
    | some hs => { s with reqalldict := s.reqalldict.upsert t (hs.filter fun i => i ≠ h) }
    | none => s
  if s.handles t = [] then { s with reqalldict := s.reqalldict.erase t } else s

def delhandlef (t : T) (h : H) (s : State T H ρ F C) : State T H ρ F C :=
  { s with
    reqfilteredtbl := s.reqfilteredtbl.filter fun r => ¬ (r.table = t ∧ r.handle = h) }

/-- Record a query, once it is known that it can be evaluated. -/
def upsertFiltered (t : T) (h : H) (filts : F) (columns : C) (s : State T H ρ F C) :
    State T H ρ F C :=
  { s with
    reqfilteredtbl := s.reqfilteredtbl ++
      [{ table := t, handle := h, filts := filts, columns := columns }] }

/-- `all null` of a text. -/
def blank (text : String) : Bool := text.toList.all (· = ' ')

/-- The query of a request with conditions. A text that does not parse is an error, and so is a
query that fails on the empty table. -/
def checkConds (lang : QueryLang T ρ F C) (conds : List (T × String × String)) (t : T) :
    Except String (F × C) :=
  let (f, c) := (conds.lookup t).getD ("", "")
  match if blank f then some lang.noFilts else lang.parseFilts f with
  | none => .error "incorrect filters for parsing"
  | some filters =>
      match if blank c then some lang.noColumns else lang.parseColumns c with
      | none => .error "incorrect columns for parsing"
      | some columns =>
          match lang.eval t filters columns [] with
          | none => .error "incorrect query with filters"
          | some _ => .ok (filters, columns)

/-- The query of a request with symbols. -/
def checkSyms (lang : QueryLang T ρ F C) (syms : List String) (t : T) : Except String (F × C) :=
  match lang.eval t (lang.symFilts syms) lang.noColumns [] with
  | none => .error "incompatible with table schema"
  | some _ => .ok (lang.symFilts syms, lang.noColumns)

def addfiltered (lang : QueryLang T ρ F C) (h : H) (conds : List (T × String × String)) (t : T)
    (s : State T H ρ F C) : Except String (State T H ρ F C) :=
  (checkConds lang conds t).map fun q => s.upsertFiltered t h q.1 q.2

def addsymsub (lang : QueryLang T ρ F C) (h : H) (syms : List String) (t : T)
    (s : State T H ρ F C) : Except String (State T H ρ F C) :=
  (checkSyms lang syms t).map fun q => s.upsertFiltered t h q.1 q.2

/-- The loop over the available tables of a request; an error ends it. -/
def addEach (h : H) (addOne : T → State T H ρ F C → Except String (State T H ρ F C)) :
    List T → State T H ρ F C → Option String × State T H ρ F C
  | [], s => (none, s)
  | t :: ts, s =>
      let s := (s.delhandlef t h).delhandle t h
      match addOne t s with
      | .error e => (some e, s)
      | .ok s => addEach h addOne ts s

/-- What both kinds of requests do around the loop. They clear the two stores in different orders,
which makes no difference to them. -/
def request (h : H) (addOne : T → State T H ρ F C → Except String (State T H ρ F C))
    (table : List T) (s : State T H ρ F C) : Reply T × State T H ρ F C :=
  let missing := table.filter fun t => t ∉ s.t
  let available := table.filter fun t => t ∈ s.t
  if available = [] then
    -- a request of no table is answered with the empty list, as if none were missing
    (.refused missing, s)
  else
    match addEach h addOne available s with
    | (some e, s) => (.threw e, s)
    | (none, s) => (if missing = [] then .granted available else .partly missing available, s)

/-- Subscribe to whole tables. -/
def suball (h : H) (table : List T) (s : State T H ρ F C) : Reply T × State T H ρ F C :=
  s.request h (fun t s => .ok (s.add t h)) table

/-- Subscribe with symbols or conditions; the tables of conditions are their keys. -/
def subfiltered (lang : QueryLang T ρ F C) (h : H) (table : List T) (filters : Filters T)
    (s : State T H ρ F C) : Reply T × State T H ρ F C :=
  match filters with
  | .syms syms => s.request h (addsymsub lang h syms) table
  | .custom conds => s.request h (addfiltered lang h conds) (conds.map Prod.fst)

/-- The entry point: no table means all of them, no filters everything. -/
def subscribe (lang : QueryLang T ρ F C) (h : H) (table : Option (List T))
    (filters : Option (Filters T)) (s : State T H ρ F C) : Reply T × State T H ρ F C :=
  match filters with
  | none => s.suball h (table.getD s.t)
  | some filters => s.subfiltered lang h (table.getD s.t) filters

/-- The connection of a handle is closed. -/
def closesub (h : H) (s : State T H ρ F C) : State T H ρ F C :=
  let s := s.reqalldict.keys.foldl (fun s t => s.delhandle t h) s
  { s with reqfilteredtbl := s.reqfilteredtbl.filter fun r => r.handle ≠ h }

/-- Send what each query selects; a query that fails ends the call. -/
def sendSelected (lang : QueryLang T ρ F C) (t : T) (x : List ρ) :
    List (FilteredRow T H F C) → List (H × Msg T ρ)
  | [] => []
  | z :: zs =>
      match lang.eval t z.filts z.columns x with
      | none => []
      | some filtered =>
          (if filtered = [] then [] else [(z.handle, .upd t filtered)]) ++
            sendSelected lang t x zs

def publish (lang : QueryLang T ρ F C) (t : T) (x : List ρ) (s : State T H ρ F C) :
    State T H ρ F C :=
  if x = [] then s
  else
    { s with
      sent := s.sent ++ ((s.handles t).map fun h => (h, .upd t x)) ++
        sendSelected lang t x (s.reqfilteredtbl.filter fun r => r.table = t) }

/-- Send a message to every subscriber: `callendofday`, `callendofperiod`. -/
def callAll (msg : Msg T ρ) (s : State T H ρ F C) : State T H ρ F C :=
  { s with sent := s.sent ++ s.getallhandles.map fun h => (h, msg) }

end State

/-- A call of the module; subscriptions come from the handle that asks. -/
inductive Call (T H ρ : Type*)
  | subscribe (h : H) (table : Option (List T)) (filters : Option (Filters T))
  | closesub (h : H)
  | publish (t : T) (x : List ρ)
  | callendofday
  | callendofperiod

variable [DecidableEq T] [DecidableEq H]

def State.step (lang : QueryLang T ρ F C) (s : State T H ρ F C) : Call T H ρ → State T H ρ F C
  | .subscribe h table filters => (s.subscribe lang h table filters).2
  | .closesub h => s.closesub h
  | .publish t x => s.publish lang t x
  | .callendofday => s.callAll .endofday
  | .callendofperiod => s.callAll .endofperiod

end TickToSignal.PubSub
