import TickToSignal.Foundation.Registry
import TickToSignal.PubSub.Subscriptions

/-!
# What a subscriber is sent

Dictionary and table together are one registry: a handle has at most one
subscription of a table, the last one it was granted, and loses it when it asks
for another that cannot be had or when its connection is closed. Over any run a
handle is sent, in the order of the calls and once each, what its subscription
at the time selects of every batch.
-/

namespace TickToSignal.PubSub

open Foundation

variable {T H ρ F C : Type*}

/-- A subscription of one table. -/
inductive Selection (F C : Type*)
  | all
  | query (filts : F) (columns : C)
  deriving DecidableEq, Repr

/-- The rows of a batch that a subscription is about; a query that fails selects none. -/
def Selection.rows (lang : QueryLang T ρ F C) (t : T) (x : List ρ) : Selection F C → List ρ
  | .all => x
  | .query filts columns => (lang.eval t filts columns x).getD []

/-- The subscription a request asks for, if its query can be had. -/
def wanted [DecidableEq T] (lang : QueryLang T ρ F C) :
    Option (Filters T) → T → Option (Selection F C)
  | none, _ => some .all
  | some (.syms syms), t =>
      (State.checkSyms lang syms t).toOption.map fun q => .query q.1 q.2
  | some (.custom conds), t =>
      (State.checkConds lang conds t).toOption.map fun q => .query q.1 q.2

/-- The tables a request is about. -/
def asked (tables : List T) (table : Option (List T)) : Option (Filters T) → List T
  | some (.custom conds) => conds.map Prod.fst
  | _ => table.getD tables

section Spec
variable [DecidableEq T] [DecidableEq H]

/-- What a call does to the registry. -/
def register (lang : QueryLang T ρ F C) (tables : List T) (r : Registry T H (Selection F C)) :
    Call T H ρ → Registry T H (Selection F C)
  | .subscribe h table filters =>
      Registry.grant (wanted lang filters) h
        ((asked tables table filters).filter fun t => t ∈ tables) r
  | .closesub h => r.leave h
  | _ => r

open Classical in
/-- What a call sends to a handle. -/
noncomputable def delivered (lang : QueryLang T ρ F C) (r : Registry T H (Selection F C)) (h : H) :
    Call T H ρ → List (Msg T ρ)
  | .publish t x =>
      match r t h with
      | none => []
      | some sel => if x = [] ∨ sel.rows lang t x = [] then [] else [.upd t (sel.rows lang t x)]
  | .callendofday => if ∃ t, (r t h).isSome then [.endofday] else []
  | .callendofperiod => if ∃ t, (r t h).isSome then [.endofperiod] else []
  | _ => []

/-- What the calls of a run send to a handle, each by the subscriptions at its time. -/
noncomputable def expected (lang : QueryLang T ρ F C) (tables : List T) (h : H) :
    Registry T H (Selection F C) → List (Call T H ρ) → List (Msg T ρ)
  | _, [] => []
  | r, c :: cs => delivered lang r h c ++ expected lang tables h (register lang tables r c) cs

end Spec

/-- The messages to one handle. -/
def received [DecidableEq H] (h : H) (sent : List (H × Msg T ρ)) : List (Msg T ρ) :=
  (sent.filter fun m => m.1 = h).map Prod.snd

variable [DecidableEq T] [DecidableEq H]

/-- The dictionary and the table hold what the registry says, each subscription once. -/
structure State.Represents (s : State T H ρ F C) (r : Registry T H (Selection F C)) : Prop where
  whole : ∀ t h, h ∈ s.handles t ↔ r t h = some .all
  filtered : ∀ t h filts columns,
    { table := t, handle := h, filts := filts, columns := columns } ∈ s.reqfilteredtbl ↔
      r t h = some (.query filts columns)
  nodup_handles : ∀ t, (s.handles t).Nodup
  nodup_filtered : s.reqfilteredtbl.Nodup

namespace State

variable {s : State T H ρ F C} {r : Registry T H (Selection F C)} {t t' : T} {h h' : H}
  {lang : QueryLang T ρ F C}

/-! ## The operations on the dictionary and on the table -/

omit [DecidableEq H] in
theorem handles_upsert {hs : List H} :
    { s with reqalldict := s.reqalldict.upsert t hs }.handles t' =
      if t' = t then hs else s.handles t' := by
  split_ifs with heq
  · subst heq
    simp [handles]
  · simp [handles, KeyedTable.lookup_upsert_of_ne _ _ heq]

theorem handles_delhandle :
    (s.delhandle t h).handles t' =
      if t' = t then (s.handles t).filter fun i => i ≠ h else s.handles t' := by
  have herase : ∀ u : State T H ρ F C, u.handles t = [] →
      { u with reqalldict := u.reqalldict.erase t }.handles t' = u.handles t' := by
    intro u hnone
    by_cases heq : t' = t
    · subst heq
      simpa [handles] using hnone.symm
    · simp [handles, KeyedTable.lookup_erase_of_ne _ heq]
  simp only [delhandle]
  cases hrow : s.reqalldict.lookup t with
  | none =>
      have hempty : s.handles t = [] := by simp [handles, hrow]
      rw [if_pos hempty, herase s hempty]
      split_ifs with heq
      · rw [heq, hempty]
        rfl
      · rfl
  | some hs =>
      have hhandles : s.handles t = hs := by simp [handles, hrow]
      rw [hhandles]
      split_ifs with hnone heq heq
      · rw [herase _ hnone, handles_upsert, if_pos heq]
      · rw [herase _ hnone, handles_upsert, if_neg heq]
      · rw [handles_upsert, if_pos heq]
      · rw [handles_upsert, if_neg heq]

@[simp] theorem delhandle_reqfilteredtbl :
    (s.delhandle t h).reqfilteredtbl = s.reqfilteredtbl := by
  simp only [delhandle]
  cases s.reqalldict.lookup t <;> dsimp only <;> split_ifs <;> rfl

@[simp] theorem delhandle_t : (s.delhandle t h).t = s.t := by
  simp only [delhandle]
  cases s.reqalldict.lookup t <;> dsimp only <;> split_ifs <;> rfl

@[simp] theorem delhandle_sent : (s.delhandle t h).sent = s.sent := by
  simp only [delhandle]
  cases s.reqalldict.lookup t <;> dsimp only <;> split_ifs <;> rfl

theorem mem_delhandlef {z : FilteredRow T H F C} :
    z ∈ (s.delhandlef t h).reqfilteredtbl ↔ ¬ (z.table = t ∧ z.handle = h) ∧
      z ∈ s.reqfilteredtbl := by
  rw [delhandlef, List.mem_filter, decide_eq_true_eq]
  exact and_comm

/-- Nothing of a subscription is left once both stores are told to forget it. -/
theorem Represents.forget (hs : s.Represents r) :
    ((s.delhandlef t h).delhandle t h).Represents (r.set t h none) where
  whole u i := by
    have hhandles : (s.delhandlef t h).handles = s.handles := rfl
    rw [handles_delhandle, hhandles]
    by_cases heq : u = t ∧ i = h
    · obtain ⟨rfl, rfl⟩ := heq
      simp
    · rw [Registry.set_of_ne heq, ← hs.whole u i]
      split_ifs with hu
      · subst hu
        have hi : i ≠ h := fun hi => heq ⟨rfl, hi⟩
        simp [hi]
      · rfl
  filtered u i filts columns := by
    rw [delhandle_reqfilteredtbl, mem_delhandlef]
    by_cases heq : u = t ∧ i = h
    · obtain ⟨rfl, rfl⟩ := heq
      simp
    · rw [Registry.set_of_ne heq, ← hs.filtered]
      exact and_iff_right heq
  nodup_handles u := by
    have hhandles : (s.delhandlef t h).handles = s.handles := rfl
    rw [handles_delhandle, hhandles]
    split_ifs
    · exact (hs.nodup_handles t).filter _
    · exact hs.nodup_handles u
  nodup_filtered := by
    rw [delhandle_reqfilteredtbl]
    exact hs.nodup_filtered.filter _

theorem Represents.add (hs : s.Represents r) (hnone : r t h = none) :
    (s.add t h).Represents (r.set t h (some .all)) := by
  have hnew : h ∉ s.handles t := by
    rw [hs.whole, hnone]
    exact nofun
  have hhandles : ∀ u, (s.add t h).handles u =
      if u = t then s.handles t ++ [h] else s.handles u := by
    intro u
    simp only [State.add, if_neg hnew, handles_upsert]
  have hfiltered : (s.add t h).reqfilteredtbl = s.reqfilteredtbl := by
    simp only [State.add, if_neg hnew]
  refine ⟨fun u i => ?_, fun u i filts columns => ?_, fun u => ?_, ?_⟩
  · rw [hhandles]
    by_cases heq : u = t ∧ i = h
    · obtain ⟨rfl, rfl⟩ := heq
      simp
    · rw [Registry.set_of_ne heq, ← hs.whole u i]
      split_ifs with hu
      · subst hu
        have hi : i ≠ h := fun hi => heq ⟨rfl, hi⟩
        simp [hi]
      · rfl
  · rw [hfiltered]
    by_cases heq : u = t ∧ i = h
    · obtain ⟨rfl, rfl⟩ := heq
      rw [hs.filtered, hnone, Registry.set_self]
      simp
    · rw [Registry.set_of_ne heq, hs.filtered]
  · rw [hhandles]
    split_ifs
    · exact List.nodup_append.mpr ⟨hs.nodup_handles t, List.nodup_singleton h, by
        rintro i hi j hj rfl
        exact hnew (List.mem_singleton.mp hj ▸ hi)⟩
    · exact hs.nodup_handles u
  · rw [hfiltered]
    exact hs.nodup_filtered

theorem Represents.upsertFiltered (hs : s.Represents r) (hnone : r t h = none) (filts : F)
    (columns : C) :
    (s.upsertFiltered t h filts columns).Represents (r.set t h (some (.query filts columns))) where
  whole u i := by
    have hhandles : (s.upsertFiltered t h filts columns).handles = s.handles := rfl
    rw [hhandles]
    by_cases heq : u = t ∧ i = h
    · obtain ⟨rfl, rfl⟩ := heq
      rw [hs.whole, hnone, Registry.set_self]
      simp
    · rw [Registry.set_of_ne heq, hs.whole]
  filtered u i f c := by
    simp only [State.upsertFiltered, List.mem_append, List.mem_singleton, FilteredRow.mk.injEq]
    by_cases heq : u = t ∧ i = h
    · obtain ⟨rfl, rfl⟩ := heq
      rw [hs.filtered, hnone, Registry.set_self]
      simp [eq_comm]
    · rw [Registry.set_of_ne heq, ← hs.filtered]
      exact or_iff_left fun hnew => heq ⟨hnew.1, hnew.2.1⟩
  nodup_handles := hs.nodup_handles
  nodup_filtered := by
    refine List.nodup_append.mpr ⟨hs.nodup_filtered, List.nodup_singleton _, ?_⟩
    rintro z hz z' hz' rfl
    obtain rfl := List.mem_singleton.mp hz'
    have hold := (hs.filtered t h filts columns).mp hz
    simp [hnone] at hold

omit [DecidableEq H] in
/-- The stores only matter as far as they hold subscriptions. -/
theorem Represents.congr {s' : State T H ρ F C} (hs : s.Represents r)
    (hdict : s'.reqalldict = s.reqalldict) (htbl : s'.reqfilteredtbl = s.reqfilteredtbl) :
    s'.Represents r := by
  have hhandles : s'.handles = s.handles := by
    funext u
    simp only [handles, hdict]
  exact ⟨by rw [hhandles]; exact hs.whole, by rw [htbl]; exact hs.filtered,
    by rw [hhandles]; exact hs.nodup_handles, by rw [htbl]; exact hs.nodup_filtered⟩

/-! ## Requests -/

/-- One table's turn in a request: what is added stands for what is wanted. -/
structure Adds (addOne : T → State T H ρ F C → Except String (State T H ρ F C)) (h : H)
    (want : T → Option (Selection F C)) : Prop where
  refused : ∀ t s, want t = none → ∃ e, addOne t s = .error e
  granted : ∀ t s r sel, want t = some sel → s.Represents r → r t h = none →
    ∃ s', addOne t s = .ok s' ∧ s'.Represents (r.set t h (some sel)) ∧ s'.t = s.t ∧
      s'.sent = s.sent

theorem adds_all : Adds (ρ := ρ) (F := F) (C := C) (fun (t : T) s => .ok (s.add t h)) h
    fun _ => some .all where
  refused _ _ hwant := by cases hwant
  granted t s r sel hwant hs hnone := by
    obtain rfl := Option.some.inj hwant
    refine ⟨_, rfl, hs.add hnone, ?_, ?_⟩
    · simp only [State.add]
      split_ifs <;> rfl
    · simp only [State.add]
      split_ifs <;> rfl

theorem adds_query (check : T → Except String (F × C)) :
    Adds (ρ := ρ) (fun t s => (check t).map fun q => s.upsertFiltered t h q.1 q.2) h
      fun t => (check t).toOption.map fun q => .query q.1 q.2 where
  refused t s hwant := by
    cases hcheck : check t with
    | error e => exact ⟨e, rfl⟩
    | ok q =>
        rw [hcheck] at hwant
        cases hwant
  granted t s r sel hwant hs hnone := by
    cases hcheck : check t with
    | error e =>
        rw [hcheck] at hwant
        cases hwant
    | ok q =>
        rw [hcheck] at hwant
        obtain rfl := Option.some.inj hwant
        exact ⟨_, rfl, hs.upsertFiltered hnone q.1 q.2, rfl, rfl⟩

theorem Represents.addEach {addOne : T → State T H ρ F C → Except String (State T H ρ F C)}
    {want : T → Option (Selection F C)} (hadds : Adds addOne h want) (ts : List T)
    (hs : s.Represents r) :
    (s.addEach h addOne ts).2.Represents (Registry.grant want h ts r) ∧
      (s.addEach h addOne ts).2.t = s.t ∧ (s.addEach h addOne ts).2.sent = s.sent := by
  induction ts generalizing s r with
  | nil => exact ⟨hs, rfl, rfl⟩
  | cons t ts ih =>
      have hforget : ((s.delhandlef t h).delhandle t h).Represents (r.set t h none) := hs.forget
      simp only [State.addEach, Registry.grant]
      cases hwant : want t with
      | none =>
          obtain ⟨e, he⟩ := hadds.refused t ((s.delhandlef t h).delhandle t h) hwant
          rw [he]
          exact ⟨hforget, by simp [delhandlef], by simp [delhandlef]⟩
      | some sel =>
          obtain ⟨s', hs', hrep, ht, hsent⟩ :=
            hadds.granted t _ _ sel hwant hforget Registry.set_self
          rw [hs']
          have hset : (r.set t h none).set t h (some sel) = r.set t h (some sel) := by
            funext u i
            simp only [Registry.set]
            split_ifs <;> rfl
          rw [hset] at hrep
          obtain ⟨hrest, ht', hsent'⟩ := ih hrep
          exact ⟨hrest, ht'.trans (by rw [ht]; simp [delhandlef]),
            hsent'.trans (by rw [hsent]; simp [delhandlef])⟩

theorem Represents.request {addOne : T → State T H ρ F C → Except String (State T H ρ F C)}
    {want : T → Option (Selection F C)} (hadds : Adds addOne h want) (table : List T)
    (hs : s.Represents r) :
    (s.request h addOne table).2.Represents
        (Registry.grant want h (table.filter fun t => t ∈ s.t) r) ∧
      (s.request h addOne table).2.t = s.t ∧ (s.request h addOne table).2.sent = s.sent := by
  have heach := hs.addEach hadds (table.filter fun t => t ∈ s.t)
  simp only [State.request]
  by_cases hnone : (table.filter fun t => t ∈ s.t) = []
  · rw [if_pos hnone, hnone]
    exact ⟨hs, rfl, rfl⟩
  · rw [if_neg hnone]
    cases hadded : s.addEach h addOne (table.filter fun t => t ∈ s.t) with
    | mk error s' =>
        rw [hadded] at heach
        cases error with
        | none => exact heach
        | some e => exact heach

/-- A request turns the registry into what it grants, and sends nothing. -/
theorem Represents.subscribe (lang : QueryLang T ρ F C) (table : Option (List T))
    (filters : Option (Filters T)) (hs : s.Represents r) :
    (s.subscribe lang h table filters).2.Represents
        (Registry.grant (wanted lang filters) h
          ((asked s.t table filters).filter fun t => t ∈ s.t) r) ∧
      (s.subscribe lang h table filters).2.t = s.t ∧
      (s.subscribe lang h table filters).2.sent = s.sent := by
  cases filters with
  | none => exact hs.request adds_all _
  | some filters =>
      cases filters with
      | syms syms => exact hs.request (adds_query (checkSyms lang syms)) _
      | custom conds => exact hs.request (adds_query (checkConds lang conds)) _

/-! ## A connection is closed -/

theorem handles_foldl_delhandle (ts : List T) :
    (ts.foldl (fun s t => s.delhandle t h) s).handles t' =
      if t' ∈ ts then (s.handles t').filter fun i => i ≠ h else s.handles t' := by
  induction ts generalizing s with
  | nil => rfl
  | cons t ts ih =>
      rw [List.foldl_cons, ih, handles_delhandle]
      by_cases heq : t' = t
      · subst heq
        simp
      · simp [heq]

/-- What `delhandle` leaves alone, it leaves alone for any number of tables. -/
theorem foldl_delhandle_frame (ts : List T) :
    (ts.foldl (fun s t => s.delhandle t h) s).reqfilteredtbl = s.reqfilteredtbl ∧
      (ts.foldl (fun s t => s.delhandle t h) s).t = s.t ∧
      (ts.foldl (fun s t => s.delhandle t h) s).sent = s.sent := by
  induction ts generalizing s with
  | nil => exact ⟨rfl, rfl, rfl⟩
  | cons t ts ih =>
      obtain ⟨htbl, ht, hsent⟩ := ih (s := s.delhandle t h)
      exact ⟨htbl.trans delhandle_reqfilteredtbl, ht.trans delhandle_t,
        hsent.trans delhandle_sent⟩

omit [DecidableEq H] in
theorem handles_of_notMem_keys (hkey : t ∉ s.reqalldict.keys) : s.handles t = [] := by
  cases hrow : s.reqalldict.lookup t with
  | none => simp [handles, hrow]
  | some hs => exact absurd (KeyedTable.mem_keys_of_lookup hrow) hkey

theorem handles_closesub : (s.closesub h).handles t = (s.handles t).filter fun i => i ≠ h := by
  refine (handles_foldl_delhandle s.reqalldict.keys).trans ?_
  split_ifs with hkey
  · rfl
  · rw [handles_of_notMem_keys hkey]
    rfl

theorem reqfilteredtbl_closesub :
    (s.closesub h).reqfilteredtbl = s.reqfilteredtbl.filter fun z => z.handle ≠ h := by
  simp only [State.closesub, (foldl_delhandle_frame s.reqalldict.keys).1]

theorem Represents.closesub (hs : s.Represents r) : (s.closesub h).Represents (r.leave h) where
  whole t i := by
    rw [handles_closesub, List.mem_filter, decide_eq_true_eq, hs.whole]
    by_cases hi : i = h
    · subst hi
      simp
    · rw [Registry.leave_of_ne hi]
      exact and_iff_left hi
  filtered t i filts columns := by
    rw [reqfilteredtbl_closesub, List.mem_filter, decide_eq_true_eq, hs.filtered]
    by_cases hi : i = h
    · subst hi
      simp
    · rw [Registry.leave_of_ne hi]
      exact and_iff_left hi
  nodup_handles t := by
    rw [handles_closesub]
    exact (hs.nodup_handles t).filter _
  nodup_filtered := by
    rw [reqfilteredtbl_closesub]
    exact hs.nodup_filtered.filter _

end State

/-! ## Runs -/

variable {lang : QueryLang T ρ F C} {tables : List T}

/-- A call turns the registry into what it registers; the tables stay. -/
theorem State.Represents.step {s : State T H ρ F C} {r : Registry T H (Selection F C)}
    (lang : QueryLang T ρ F C) (hs : s.Represents r) (ht : s.t = tables) (c : Call T H ρ) :
    (s.step lang c).Represents (register lang tables r c) ∧ (s.step lang c).t = tables := by
  subst ht
  cases c with
  | subscribe h table filters =>
      obtain ⟨hrep, htables, -⟩ := hs.subscribe (h := h) lang table filters
      exact ⟨hrep, htables⟩
  | closesub h => exact ⟨hs.closesub, (State.foldl_delhandle_frame _).2.1⟩
  | publish t x =>
      simp only [State.step, State.publish]
      split_ifs
      · exact ⟨hs, rfl⟩
      · exact ⟨hs.congr rfl rfl, rfl⟩
  | callendofday => exact ⟨hs.congr rfl rfl, rfl⟩
  | callendofperiod => exact ⟨hs.congr rfl rfl, rfl⟩

/-- The module once it is initialised with its tables. -/
def State.init (tables : List T) : State T H ρ F C := { t := tables }

omit [DecidableEq H] in
theorem State.represents_init (tables : List T) :
    (State.init tables : State T H ρ F C).Represents .empty where
  whole t h := by simp [State.init, State.handles]
  filtered t h filts columns := by simp [State.init]
  nodup_handles t := by simp [State.init, State.handles]
  nodup_filtered := List.nodup_nil

theorem represents_exec (lang : QueryLang T ρ F C) {s : State T H ρ F C} {r : Registry T H (Selection F C)}
    (hs : s.Represents r) (ht : s.t = tables) (cs : List (Call T H ρ)) :
    (exec (State.step lang) s cs).Represents (exec (register lang tables) r cs) := by
  induction cs generalizing s r with
  | nil => exact hs
  | cons c cs ih =>
      obtain ⟨hstep, htables⟩ := hs.step lang ht c
      exact ih hstep htables

/-- After any run the two stores hold one registry, the one that the calls of the run make: for
every table and handle one subscription or none, recorded once and in one of the stores. -/
theorem stores_hold_registry (lang : QueryLang T ρ F C) (tables : List T)
    (cs : List (Call T H ρ)) :
    (exec (State.step lang) (State.init tables) cs).Represents
      (exec (register lang tables) .empty cs) :=
  represents_exec lang (State.represents_init tables) rfl cs

/-! ## What is sent -/

/-- No query of another handle keeps a batch from a handle: the handle has the whole table, or
the queries of the others can be evaluated. -/
def State.Undisturbed (lang : QueryLang T ρ F C) (h : H) (s : State T H ρ F C) :
    Call T H ρ → Prop
  | .publish t x =>
      h ∈ s.handles t ∨ ∀ z ∈ s.reqfilteredtbl, z.table = t → z.handle ≠ h →
        ∃ rows, lang.eval t z.filts z.columns x = some rows
  | _ => True

section Received
variable {h : H} {msg : Msg T ρ} {t : T} {x : List ρ}

omit [DecidableEq T] in
@[simp] theorem received_append (sent sent' : List (H × Msg T ρ)) :
    received h (sent ++ sent') = received h sent ++ received h sent' := by
  simp [received]

omit [DecidableEq T] in
theorem received_eq_nil {sent : List (H × Msg T ρ)} (hnone : ∀ m ∈ sent, m.1 ≠ h) :
    received h sent = [] := by
  simpa [received, List.filter_eq_nil_iff] using fun i m hm heq => hnone (i, m) hm heq

omit [DecidableEq T] in
/-- A message to a list of handles reaches each of them once. -/
theorem received_broadcast {hs : List H} (hnodup : hs.Nodup) :
    received h (hs.map fun i => (i, msg)) = if h ∈ hs then [msg] else [] := by
  induction hs with
  | nil => rfl
  | cons i hs ih =>
      obtain ⟨hi, hrest⟩ := List.nodup_cons.mp hnodup
      by_cases heq : i = h
      · subst heq
        have hothers : received i (hs.map fun j => (j, msg)) = [] := by
          rw [ih hrest, if_neg hi]
        simpa [received] using hothers
      · have hothers : (h ∈ i :: hs) = (h ∈ hs) := by
          simp [Ne.symm heq]
        rw [List.map_cons, ← List.singleton_append, received_append,
          received_eq_nil (by simpa using heq), List.nil_append, ih hrest]
        simp only [hothers]

omit [DecidableEq T] [DecidableEq H] in
/-- Queries send to the handles that made them. -/
theorem exists_of_mem_sendSelected {zs : List (FilteredRow T H F C)} {m : H × Msg T ρ}
    (hm : m ∈ State.sendSelected lang t x zs) : ∃ z ∈ zs, z.handle = m.1 := by
  induction zs with
  | nil => cases hm
  | cons z zs ih =>
      simp only [State.sendSelected] at hm
      split at hm
      · cases hm
      · rcases List.mem_append.mp hm with hhead | hrest
        · split_ifs at hhead
          · cases hhead
          · obtain rfl := List.mem_singleton.mp hhead
            exact ⟨z, List.mem_cons_self, rfl⟩
        · obtain ⟨w, hw, hwm⟩ := ih hrest
          exact ⟨w, List.mem_cons_of_mem z hw, hwm⟩

omit [DecidableEq T] in
/-- A handle's only query selects for it, if the queries of the others can be evaluated. -/
theorem received_sendSelected_of_mem (lang : QueryLang T ρ F C)
    {zs : List (FilteredRow T H F C)} {z : FilteredRow T H F C}
    (hz : z ∈ zs) (hnodup : zs.Nodup) (honly : ∀ w ∈ zs, w.handle = z.handle → w = z)
    (heval : ∀ w ∈ zs, w.handle ≠ z.handle → ∃ rows, lang.eval t w.filts w.columns x = some rows) :
    received z.handle (State.sendSelected lang t x zs) =
      if (lang.eval t z.filts z.columns x).getD [] = [] then []
      else [.upd t ((lang.eval t z.filts z.columns x).getD [])] := by
  induction zs with
  | nil => cases hz
  | cons w zs ih =>
      obtain ⟨hw, hrest⟩ := List.nodup_cons.mp hnodup
      rcases List.mem_cons.mp hz with rfl | hz
      · have hothers : received z.handle (State.sendSelected lang t x zs) = [] := by
          refine received_eq_nil fun m hm heq => ?_
          obtain ⟨w, hwin, hwm⟩ := exists_of_mem_sendSelected hm
          obtain rfl := honly w (List.mem_cons_of_mem z hwin) (hwm.trans heq)
          exact hw hwin
        simp only [State.sendSelected]
        cases lang.eval t z.filts z.columns x with
        | none => rfl
        | some filtered =>
            dsimp only [Option.getD_some]
            rw [received_append, hothers, List.append_nil]
            split_ifs
            · rfl
            · simp [received]
      · have hne : w.handle ≠ z.handle := by
          intro heq
          obtain rfl := honly w List.mem_cons_self heq
          exact hw hz
        obtain ⟨filtered, hfiltered⟩ := heval w List.mem_cons_self hne
        have htail := ih hz hrest (fun v hv => honly v (List.mem_cons_of_mem w hv))
          fun v hv => heval v (List.mem_cons_of_mem w hv)
        simp only [State.sendSelected, hfiltered, received_append, htail]
        have hhead : received z.handle
            (if filtered = [] then [] else [(w.handle, Msg.upd t filtered)]) = [] := by
          refine received_eq_nil fun m hm => ?_
          split_ifs at hm
          · cases hm
          · obtain rfl := List.mem_singleton.mp hm
            exact hne
        rw [hhead, List.nil_append]

end Received

section Sent
variable {s : State T H ρ F C} {r : Registry T H (Selection F C)} {h : H}

/-- A broadcast goes to the handles of some subscription. -/
theorem State.Represents.mem_getallhandles (hs : s.Represents r) :
    h ∈ s.getallhandles ↔ ∃ t, (r t h).isSome := by
  rw [State.getallhandles, List.mem_dedup, List.mem_append, List.mem_flatMap, List.mem_map]
  constructor
  · rintro (⟨⟨t, hs'⟩, hrow, hh⟩ | ⟨z, hz, rfl⟩)
    · have hhandles : s.handles t = hs' := by
        simp [State.handles, KeyedTable.lookup_of_mem_rows hrow]
      refine ⟨t, ?_⟩
      rw [(hs.whole t h).mp (hhandles ▸ hh)]
      rfl
    · refine ⟨z.table, ?_⟩
      rw [(hs.filtered z.table z.handle z.filts z.columns).mp hz]
      rfl
  · rintro ⟨t, hsome⟩
    obtain ⟨sel, hsel⟩ := Option.isSome_iff_exists.mp hsome
    cases sel with
    | all =>
        have hh : h ∈ s.handles t := (hs.whole t h).mpr hsel
        simp only [State.handles] at hh
        cases hrow : s.reqalldict.lookup t with
        | none => simp [hrow] at hh
        | some hs' =>
            rw [hrow] at hh
            exact .inl ⟨(t, hs'), KeyedTable.mem_rows_of_lookup hrow, hh⟩
    | query filts columns =>
        exact .inr ⟨_, (hs.filtered t h filts columns).mpr hsel, rfl⟩

open Classical in
theorem State.Represents.received_callAll (hs : s.Represents r) (msg : Msg T ρ) :
    received h (s.callAll msg).sent =
      received h s.sent ++ if ∃ t, (r t h).isSome then [msg] else [] := by
  have hnodup : s.getallhandles.Nodup := List.nodup_dedup _
  rw [State.callAll, received_append, received_broadcast hnodup]
  exact congrArg _ (if_congr hs.mem_getallhandles rfl rfl)

/-- A handle without a query of a table gets nothing from the queries of the others. -/
theorem State.Represents.received_sendSelected (lang : QueryLang T ρ F C) (hs : s.Represents r)
    {t : T} {x : List ρ}
    (hno : ∀ filts columns, r t h ≠ some (.query filts columns)) :
    received h (State.sendSelected lang t x (s.reqfilteredtbl.filter fun z => z.table = t)) =
      [] := by
  refine received_eq_nil fun m hm heq => ?_
  obtain ⟨z, hz, hzm⟩ := exists_of_mem_sendSelected hm
  obtain ⟨hzin, hzt⟩ := List.mem_filter.mp hz
  obtain rfl : z.table = t := of_decide_eq_true hzt
  obtain rfl := hzm.trans heq
  exact hno _ _ ((hs.filtered z.table z.handle z.filts z.columns).mp hzin)

/-- What a batch brings to a handle, by the subscription the handle has. -/
theorem State.Represents.received_publish (hs : s.Represents r) {t : T} {x : List ρ}
    (hopen : s.Undisturbed lang h (.publish t x)) :
    received h (s.publish lang t x).sent = received h s.sent ++ delivered lang r h (.publish t x) := by
  by_cases hx : x = []
  · simp only [State.publish, if_pos hx, delivered]
    cases r t h with
    | none => simp
    | some sel => simp [hx]
  · have hqueries : ∀ z ∈ s.reqfilteredtbl.filter (fun z => z.table = t),
        z ∈ s.reqfilteredtbl ∧ z.table = t := by
      intro z hz
      exact ⟨List.mem_of_mem_filter hz, by simpa using List.of_mem_filter hz⟩
    simp only [State.publish, if_neg hx, received_append, List.append_assoc, delivered,
      received_broadcast (hs.nodup_handles t)]
    congr 1
    cases hsel : r t h with
    | none =>
        have hout : h ∉ s.handles t := by simp [hs.whole, hsel]
        rw [if_neg hout, hs.received_sendSelected lang (by simp [hsel])]
        rfl
    | some sel =>
        cases sel with
        | all =>
            have hin : h ∈ s.handles t := (hs.whole t h).mpr hsel
            rw [if_pos hin, hs.received_sendSelected lang (by simp [hsel])]
            simp [Selection.rows, hx]
        | query filts columns =>
            have hout : h ∉ s.handles t := by simp [hs.whole, hsel]
            have hrow := (hs.filtered t h filts columns).mpr hsel
            have honly := received_sendSelected_of_mem lang (x := x) (t := t)
              (List.mem_filter.mpr ⟨hrow, decide_eq_true rfl⟩)
              (hs.nodup_filtered.filter fun z => z.table = t)
              (by
                intro w hw heq
                obtain ⟨hwin, hwt⟩ := hqueries w hw
                obtain ⟨table, handle, f, c⟩ := w
                dsimp only at hwt heq
                subst hwt heq
                have hboth := (hs.filtered table handle f c).mp hwin
                rw [hsel] at hboth
                cases hboth
                rfl)
              (by
                intro w hw hne
                obtain ⟨hwin, hwt⟩ := hqueries w hw
                exact (hopen.resolve_left hout) w hwin hwt hne)
            rw [if_neg hout, List.nil_append, honly]
            simp [Selection.rows, hx]

/-- One call sends a handle what its subscription selects of it. -/
theorem State.Represents.received_step (hs : s.Represents r) (c : Call T H ρ)
    (hopen : s.Undisturbed lang h c) :
    received h (s.step lang c).sent = received h s.sent ++ delivered lang r h c := by
  cases c with
  | subscribe i table filters =>
      obtain ⟨-, -, hsent⟩ := hs.subscribe (h := i) lang table filters
      simp only [State.step, hsent, delivered, List.append_nil]
  | closesub i =>
      have hsent : (s.closesub i).sent = s.sent := (State.foldl_delhandle_frame _).2.2
      simp only [State.step, hsent, delivered, List.append_nil]
  | publish t x => exact hs.received_publish hopen
  | callendofday => exact hs.received_callAll .endofday
  | callendofperiod => exact hs.received_callAll .endofperiod

theorem received_exec (hs : s.Represents r) (ht : s.t = tables) {cs : List (Call T H ρ)}
    (hopen : Admits (State.step lang) (State.Undisturbed lang h) s cs) :
    received h (exec (State.step lang) s cs).sent =
      received h s.sent ++ expected lang tables h r cs := by
  induction cs generalizing s r with
  | nil => simp [expected]
  | cons c cs ih =>
      obtain ⟨hrep, htables⟩ := hs.step lang ht c
      calc received h (exec (State.step lang) s (c :: cs)).sent
          = received h (s.step lang c).sent ++
              expected lang tables h (register lang tables r c) cs := ih hrep htables hopen.2
        _ = received h s.sent ++ expected lang tables h r (c :: cs) := by
            rw [hs.received_step c hopen.1, List.append_assoc, expected]

end Sent

/-- Over any run a handle is sent what its subscription at the time selects of every batch, and
every broadcast while it has a subscription: in order, once each, and nothing else. The batches
are those that no query of another handle fails on. -/
theorem received_eq_expected (lang : QueryLang T ρ F C) (tables : List T) (h : H)
    {cs : List (Call T H ρ)}
    (hopen : Admits (State.step lang) (State.Undisturbed lang h) (State.init tables) cs) :
    received h (exec (State.step lang) (State.init tables) cs).sent =
      expected lang tables h .empty cs :=
  received_exec (State.represents_init tables) rfl hopen

/-- Queries that select symbols. -/
def symbolQueries : QueryLang ℕ String (List String) Unit where
  parseFilts _ := none
  parseColumns _ := none
  noFilts := []
  noColumns := ()
  symFilts := id
  eval _ filts _ x := some (if filts = [] then x else x.filter fun sym => sym ∈ filts)

theorem received_eq_expected_two_subscribers :
    received 1 (exec (State.step symbolQueries) (State.init [0])
        [.subscribe 1 none (some (.syms ["BTCUSDT"])), .subscribe 2 none none,
          .publish 0 ["BTCUSDT", "ETHUSDT"], .closesub 1, .publish 0 ["BTCUSDT"]]).sent =
      expected symbolQueries [0] 1 .empty
        [.subscribe 1 none (some (.syms ["BTCUSDT"])), .subscribe 2 none none,
          .publish 0 ["BTCUSDT", "ETHUSDT"], .closesub 1, .publish 0 ["BTCUSDT"]] :=
  received_eq_expected symbolQueries [0] 1
    ⟨trivial, trivial, .inr fun _ _ _ _ => ⟨_, rfl⟩, trivial, .inr fun _ _ _ _ => ⟨_, rfl⟩,
      trivial⟩

/-- The calls that are no request of a handle. -/
def Call.NotBy (h : H) : Call T H ρ → Prop
  | .subscribe i _ _ => i ≠ h
  | _ => True

section Silent
variable {s : State T H ρ F C} {r : Registry T H (Selection F C)} {h : H}

/-- A handle without subscriptions gets none from the calls of others. -/
theorem register_none {c : Call T H ρ} (hc : c.NotBy h) (hnone : ∀ t, r t h = none) :
    ∀ t, register lang tables r c t h = none := by
  intro t
  cases c with
  | subscribe i table filters =>
      simp only [register]
      rw [Registry.grant_of_ne (Ne.symm hc)]
      exact hnone t
  | closesub i =>
      by_cases heq : h = i
      · subst heq
        exact Registry.leave_self
      · exact (Registry.leave_of_ne heq).trans (hnone t)
  | publish u x => exact hnone t
  | callendofday => exact hnone t
  | callendofperiod => exact hnone t

/-- A handle without subscriptions is sent nothing, whatever the queries of others do. -/
theorem State.Represents.silent_step (hs : s.Represents r) (hnone : ∀ t, r t h = none)
    (c : Call T H ρ) : received h (s.step lang c).sent = received h s.sent := by
  have hnobody : ¬ ∃ t, (r t h).isSome := by
    rintro ⟨t, ht⟩
    rw [hnone t] at ht
    cases ht
  cases c with
  | subscribe i table filters =>
      obtain ⟨-, -, hsent⟩ := hs.subscribe (h := i) lang table filters
      exact congrArg _ hsent
  | closesub i => exact congrArg _ (State.foldl_delhandle_frame _).2.2
  | publish t x =>
      have hout : h ∉ s.handles t := by simp [hs.whole, hnone]
      have hqueries := hs.received_sendSelected lang (h := h) (t := t) (x := x) (by simp [hnone])
      simp only [State.step, State.publish]
      split_ifs
      · rfl
      · simp only [received_append, received_broadcast (hs.nodup_handles t), if_neg hout, hqueries,
          List.append_nil]
  | callendofday =>
      refine (hs.received_callAll .endofday).trans ?_
      rw [if_neg hnobody, List.append_nil]
  | callendofperiod =>
      refine (hs.received_callAll .endofperiod).trans ?_
      rw [if_neg hnobody, List.append_nil]

theorem silent_exec (hs : s.Represents r) (ht : s.t = tables) (hnone : ∀ t, r t h = none)
    {cs : List (Call T H ρ)} (hcs : ∀ c ∈ cs, c.NotBy h) :
    received h (exec (State.step lang) s cs).sent = received h s.sent := by
  induction cs generalizing s r with
  | nil => rfl
  | cons c cs ih =>
      obtain ⟨hrep, htables⟩ := hs.step lang ht c
      obtain ⟨hc, hrest⟩ := List.forall_mem_cons.mp hcs
      calc received h (exec (State.step lang) s (c :: cs)).sent
          = received h (s.step lang c).sent :=
            ih hrep htables (register_none hc hnone) hrest
        _ = received h s.sent := hs.silent_step hnone c

end Silent

theorem State.exec_t (lang : QueryLang T ρ F C) (cs : List (Call T H ρ)) :
    (exec (State.step lang) (State.init tables) cs).t = tables := by
  refine (exec_invariant (P := fun s : State T H ρ F C =>
    s.t = tables ∧ ∃ r, s.Represents r) ?_ cs ⟨rfl, _, State.represents_init tables⟩).1
  rintro s c ⟨ht, r, hs⟩
  obtain ⟨hrep, htables⟩ := hs.step lang ht c
  exact ⟨htables, _, hrep⟩

/-- Once its connection is closed a handle is sent nothing more until it makes a request again,
in any run, also where queries fail. -/
theorem closed_receives_nothing (lang : QueryLang T ρ F C) (tables : List T) (h : H)
    (before : List (Call T H ρ)) {after : List (Call T H ρ)} (hafter : ∀ c ∈ after, c.NotBy h) :
    received h (exec (State.step lang) (State.init tables)
        (before ++ .closesub h :: after)).sent =
      received h (exec (State.step lang) (State.init tables) before).sent := by
  have hbefore := represents_exec lang (State.represents_init tables) rfl before
  obtain ⟨hclosed, htables⟩ := hbefore.step lang (State.exec_t lang before) (.closesub h)
  calc received h (exec (State.step lang) (State.init tables) (before ++ .closesub h :: after)).sent
      = received h ((exec (State.step lang) (State.init tables) before).step lang
          (.closesub h)).sent := by
        rw [exec_append, exec_cons]
        exact silent_exec hclosed htables (fun t => Registry.leave_self) hafter
    _ = received h (exec (State.step lang) (State.init tables) before).sent :=
        congrArg _ (State.foldl_delhandle_frame _).2.2

theorem closed_receives_nothing_other_requests :
    received 1 (exec (State.step symbolQueries) (State.init [0])
        ([.subscribe 1 none none] ++ .closesub 1 ::
          [.subscribe 2 none none, .publish 0 ["BTCUSDT"], .callendofday])).sent =
      received 1 (exec (State.step symbolQueries) (State.init [0]) [.subscribe 1 none none]).sent :=
  closed_receives_nothing symbolQueries [0] 1 [.subscribe 1 none none] (by simp [Call.NotBy])

end TickToSignal.PubSub
