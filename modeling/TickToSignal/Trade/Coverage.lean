import TickToSignal.Trade.LedgerSound

/-!
# Ids that are accounted for

From the first id of a symbol to the last one logged, every id is that of a row
or is reported by an event, where rows and events on their way to the log count
as well. `Covered` says the same of the last id the handler has seen, and keeps
what makes the rows still to come harmless: they are above all that is logged or
lie in the range of an event.

## Implementation notes

The invariant is kept by the moves of runs in which no row is gone and every
start gets the trade state. The end of the process keeps it when no event that
is lost with it is about an id at or below `lastId`.
-/

namespace TickToSignal.Trade

open Publisher Tp

variable {δ : Type*}

/-- An id the event reports as missing. -/
def Reports (e : GapEvent) (sym : String) (id : Int) : Prop :=
  e.key.sym = sym ∧ e.key.firstMissingId ≤ id ∧ id ≤ e.row.lastMissingId

/-- The id of the first row of a symbol. -/
def firstId (rows : List TradeRow) (sym : String) : Option Int :=
  (rows.find? fun r => r.sym = sym).map (·.id)

section First
variable {rows rows' : List TradeRow} {sym : String} {a : Int}

theorem firstId_append (h : a ∈ firstId (rows ++ rows') sym) :
    a ∈ firstId rows sym ∨ (∀ r ∈ rows, r.sym ≠ sym) ∧ ∃ r ∈ rows', r.sym = sym ∧ r.id = a := by
  simp only [firstId, List.find?_append, Option.mem_def, Option.map_eq_some_iff,
    Option.or_eq_some_iff] at h ⊢
  obtain ⟨r, hr | ⟨hnone, hr⟩, rfl⟩ := h
  · exact .inl ⟨r, hr, rfl⟩
  · refine .inr ⟨by simpa using hnone, r, List.mem_of_find?_eq_some hr, ?_, rfl⟩
    simpa using List.find?_some hr

theorem firstId_append_left (h : a ∈ firstId rows sym) : a ∈ firstId (rows ++ rows') sym := by
  simp only [firstId, List.find?_append, Option.mem_def, Option.map_eq_some_iff] at h ⊢
  obtain ⟨r, hr, rfl⟩ := h
  exact ⟨r, by rw [hr, Option.some_or], rfl⟩

theorem firstId_mem (h : a ∈ firstId rows sym) : ∃ r ∈ rows, r.sym = sym ∧ r.id = a := by
  obtain ⟨r, hr, rfl⟩ := Option.map_eq_some_iff.mp h
  exact ⟨r, List.mem_of_find?_eq_some hr, by simpa using List.find?_some hr, rfl⟩

end First

namespace Ledger

/-- Some event, logged or held, reports the id. -/
def InEvent (v : Ledger) (sym : String) (id : Int) : Prop :=
  ∃ e ∈ v.gapLog ++ v.events, Reports e sym id

/-- The id is that of a row or is reported. -/
def Accounted (v : Ledger) (sym : String) (id : Int) : Prop :=
  (∃ r ∈ v.stream, r.sym = sym ∧ r.id = id) ∨ v.InEvent sym id

/-- All ids from the first one of the symbol to `last` are accounted for. -/
def AccountedTo (v : Ledger) (sym : String) (last : Int) : Prop :=
  ∀ a ∈ firstId v.stream sym, ∀ id, a ≤ id → id ≤ last → v.Accounted sym id

/-- `b` is at most `last`, or a logged event reports the ids above `last` up to it. -/
def Reached (v : Ledger) (sym : String) (last b : Int) : Prop :=
  b ≤ last ∨ ∃ e ∈ v.gapLog, e.key.sym = sym ∧ e.key.firstMissingId ≤ last + 1 ∧
    b ≤ e.row.lastMissingId

/-- Everything below the gap is logged or published. -/
def Anchored (v : Ledger) (g : TradeGap) : Prop :=
  (∃ l ∈ v.lastId g.sym, g.firstId ≤ l + 1) ∨ ∃ r ∈ v.held, r.sym = g.sym ∧ g.firstId ≤ r.id + 1

/-- The invariant. -/
structure Covered (table : Table) (v : Ledger) : Prop where
  logged : ∀ sym, ∀ l ∈ v.lastId sym, v.AccountedTo sym l
  seen : ∀ sym, ∀ l ∈ v.seen sym, v.AccountedTo sym l
  /-- the last id seen is logged or on its way -/
  seenRow : ∀ sym, ∀ l ∈ v.seen sym, (∃ l' ∈ v.lastId sym, l ≤ l') ∨
    ∃ r ∈ v.held ++ v.due, r.sym = sym ∧ r.id = l
  rows : v.ready = true → ∀ r ∈ v.stream, ∃ l ∈ v.seen r.sym, v.Reached r.sym l r.id
  queue : ∀ g ∈ v.queue, ∃ l ∈ v.seen g.sym, v.Reached g.sym l g.lastId
  gapLog : ∀ e ∈ v.gapLog, ∃ l ∈ v.lastId e.key.sym, e.key.firstMissingId ≤ l + 1
  opened : ∀ g ∈ v.openGaps table, ∃ e ∈ v.gapLog, g.SameSpan (eventGap e)
  queueAnchored : ∀ g ∈ v.queue, v.Anchored g
  eventsAnchored : ∀ e ∈ v.events, v.Anchored (eventGap e)
  /-- rows still to be logged are above the log or reported, -/
  above : ∀ r ∈ v.held ++ v.due, (∀ l ∈ v.lastId r.sym, l < r.id) ∨ v.InEvent r.sym r.id
  /-- and in their order as well -/
  order : (v.held ++ v.due).Pairwise fun r r' => r.sym = r'.sym →
    r.id < r'.id ∨ v.InEvent r'.sym r'.id
  reported : ∀ g ∈ v.queue, ∃ e ∈ v.gapLog ++ v.events, g.SameSpan (eventGap e)

section Mono
variable {v v' : Ledger} {sym : String} {id last b : Int}

theorem InEvent.mono (h : v.InEvent sym id)
    (hevents : ∀ e ∈ v.gapLog ++ v.events, e ∈ v'.gapLog ++ v'.events) : v'.InEvent sym id := by
  obtain ⟨e, he, hreports⟩ := h
  exact ⟨e, hevents e he, hreports⟩

theorem Accounted.mono (h : v.Accounted sym id) (hrows : ∀ r ∈ v.stream, r ∈ v'.stream)
    (hevents : ∀ e ∈ v.gapLog ++ v.events, e ∈ v'.gapLog ++ v'.events) :
    v'.Accounted sym id := by
  obtain ⟨r, hr, heq⟩ | hevent := h
  · exact .inl ⟨r, hrows r hr, heq⟩
  · exact .inr (hevent.mono hevents)

theorem Reached.mono {last' : Int} (h : v.Reached sym last b)
    (hlog : ∀ e ∈ v.gapLog, e ∈ v'.gapLog) (hle : last ≤ last') : v'.Reached sym last' b := by
  obtain hb | ⟨e, he, hsym, hfirst, hlast⟩ := h
  · exact .inl (hb.trans hle)
  · exact .inr ⟨e, hlog e he, hsym, by omega, hlast⟩

/-- An id between is accounted for. -/
theorem Reached.accounted (h : v.Reached sym last b) (hto : v.AccountedTo sym last) :
    v.AccountedTo sym b := by
  intro a ha id hlow hhigh
  by_cases hid : id ≤ last
  · exact hto a ha id hlow hid
  · obtain hb | ⟨e, he, hsym, hfirst, hlast⟩ := h
    · omega
    · exact .inr ⟨e, List.mem_append_left _ he, hsym, by omega, by omega⟩

/-- A new id above `last` is above `b` as well, unless it is reported. -/
theorem Reached.lt_or_inEvent (h : v.Reached sym last b) (hid : last < id) :
    b < id ∨ v.InEvent sym id := by
  obtain hb | ⟨e, he, hsym, hfirst, hlast⟩ := h
  · exact .inl (by omega)
  · by_cases hlt : b < id
    · exact .inl hlt
    · exact .inr ⟨e, List.mem_append_left _ he, hsym, by omega, by omega⟩

/-- More rows after the ones there are. -/
theorem AccountedTo.append {rows : List TradeRow} (h : v.AccountedTo sym last)
    (hstream : v'.stream = v.stream ++ rows)
    (hevents : ∀ e ∈ v.gapLog ++ v.events, e ∈ v'.gapLog ++ v'.events)
    (hfirst : ∀ r ∈ rows, r.sym = sym → ∃ r' ∈ v.stream, r'.sym = sym) :
    v'.AccountedTo sym last := by
  intro a ha id hlow hhigh
  rw [hstream] at ha
  obtain ha | ⟨hnone, r, hr, hsym, -⟩ := firstId_append ha
  · exact (h a ha id hlow hhigh).mono
      (fun r hr => hstream ▸ List.mem_append_left rows hr) hevents
  · obtain ⟨r', hr', hsym'⟩ := hfirst r hr hsym
    exact absurd hsym' (hnone r' hr')

end Mono

/-! ## Trades that are sent -/

section Sent
variable {table : Table} {v : Ledger}

/-- A row in the log of the symbol. -/
theorem Sound.exists_row (hs : v.Sound table) {sym : String} {l : Int} (hl : l ∈ v.lastId sym) :
    ∃ r ∈ v.stream, r.sym = sym ∧ r.id = l := by
  obtain ⟨r, hr, heq⟩ := hs.last.mem sym l hl
  exact ⟨r, List.mem_append_left _ (List.mem_append_left _ hr), heq⟩

/-- The ids between the last one seen and a new one: all below them is logged or published. -/
theorem Covered.anchored (h : v.Covered table) (hdue : v.due = []) {sym : String} {l : Int}
    (hl : l ∈ v.seen sym) (id : Int) :
    v.Anchored { sym := sym, firstId := l + 1, lastId := id - 1 } := by
  obtain ⟨l', hl', hle⟩ | ⟨r, hr, hsym, hid⟩ := h.seenRow sym l hl
  · exact .inl ⟨l', hl', by simp only; omega⟩
  · rw [hdue, List.append_nil] at hr
    exact .inr ⟨r, hr, hsym, by simp only; omega⟩

/-- An id above all ids seen is above every row there is, unless it is reported. -/
theorem Covered.lt_or_inEvent (h : v.Covered table) (hready : v.ready = true) {sym : String}
    {id : Int} (habove : ∀ l ∈ v.seen sym, l < id) {r : TradeRow} (hr : r ∈ v.stream)
    (hsym : r.sym = sym) : r.id < id ∨ v.InEvent sym id := by
  obtain ⟨l, hl, hreached⟩ := h.rows hready r hr
  rw [hsym] at hl hreached
  exact hreached.lt_or_inEvent (habove l hl)

/-- Up to the id of a new row everything is accounted for, if events report what lies between. -/
theorem Covered.accountedTo_new (h : v.Covered table) (hready : v.ready = true) {v' : Ledger}
    {row : TradeRow} {es : List GapEvent} (hstream : v'.stream = v.stream ++ [row])
    (hevents : v'.gapLog ++ v'.events = v.gapLog ++ v.events ++ es)
    (hmid : ∀ l ∈ v.seen row.sym, ∀ i, l < i → i < row.id → ∃ e ∈ es, Reports e row.sym i) :
    v'.AccountedTo row.sym row.id := by
  intro a ha i hlow hhigh
  by_cases hid : i = row.id
  · exact .inl ⟨row, by simp [hstream], rfl, hid.symm⟩
  rw [hstream] at ha
  obtain ha | ⟨-, r, hr, -, hra⟩ := firstId_append ha
  · obtain ⟨r, hr, hrs, -⟩ := firstId_mem ha
    obtain ⟨l, hl, -⟩ := h.rows hready r hr
    rw [hrs] at hl
    by_cases hold : i ≤ l
    · exact (h.seen row.sym l hl a ha i hlow hold).mono
        (fun r hr => hstream ▸ List.mem_append_left _ hr)
        (fun e he => hevents ▸ List.mem_append_left es he)
    · obtain ⟨e, he, hreports⟩ := hmid l hl i (by omega) (by omega)
      exact .inr ⟨e, hevents ▸ List.mem_append_right _ he, hreports⟩
  · -- the row is the first one of its symbol
    obtain rfl := List.mem_singleton.mp hr
    omega

/-- Rows that go after the ones on their way. -/
theorem Covered.waiting (h : v.Covered table) (hdue : v.due = []) {v' : Ledger}
    {rs : List TradeRow} (hevents : ∀ e ∈ v.gapLog ++ v.events, e ∈ v'.gapLog ++ v'.events)
    (habove : ∀ r ∈ rs, (∀ l ∈ v.lastId r.sym, l < r.id) ∨ v'.InEvent r.sym r.id)
    (horder : rs.Pairwise fun r r' => r.sym = r'.sym → r.id < r'.id ∨ v'.InEvent r'.sym r'.id)
    (hafter : ∀ r ∈ v.held, ∀ r' ∈ rs, r.sym = r'.sym →
      r.id < r'.id ∨ v'.InEvent r'.sym r'.id) :
    (∀ r ∈ v.held ++ rs, (∀ l ∈ v.lastId r.sym, l < r.id) ∨ v'.InEvent r.sym r.id) ∧
      (v.held ++ rs).Pairwise fun r r' =>
        r.sym = r'.sym → r.id < r'.id ∨ v'.InEvent r'.sym r'.id := by
  have hold := h.order
  rw [hdue, List.append_nil] at hold
  constructor
  · intro r hr
    obtain hr | hr := List.mem_append.mp hr
    · have hheld := h.above r (List.mem_append_left _ hr)
      exact hheld.imp_right fun hevent => hevent.mono hevents
    · exact habove r hr
  · refine List.pairwise_append.mpr ⟨?_, horder, hafter⟩
    exact hold.imp fun hrr hsym => (hrr hsym).imp_right fun hevent => hevent.mono hevents

/-- A trade above all ids seen, with the event and the gap for the ids in between. -/
theorem Covered.send (h : v.Covered table) (hs : v.Sound table) (hready : v.ready = true)
    (hdue : v.due = []) (sym : String) (id : Int) (time : Option Int)
    (live : String → Option Int) (es : List GapEvent) (gs : List TradeGap)
    (habove : ∀ l ∈ v.seen sym, l < id)
    (hmid : ∀ l ∈ v.seen sym, ∀ i, l < i → i < id → ∃ e ∈ es, Reports e sym i)
    (hes : ∀ e ∈ es, ∃ l ∈ v.seen sym,
      eventGap e = { sym := sym, firstId := l + 1, lastId := id - 1 })
    (hgs : ∀ g ∈ gs, ∃ l ∈ v.seen sym, ∃ e ∈ es,
      g = { sym := sym, firstId := l + 1, lastId := id - 1 } ∧ g.SameSpan (eventGap e)) :
    Covered table { v with
      due := [{ sym := sym, id := id, exchEventTimeMs := time }], live := live
      seen := Function.update v.seen sym (some id), events := v.events ++ es
      queue := v.queue ++ gs } := by
  set row : TradeRow := { sym := sym, id := id, exchEventTimeMs := time }
  set v' : Ledger := { v with
    due := [row], live := live, seen := Function.update v.seen sym (some id)
    events := v.events ++ es, queue := v.queue ++ gs }
  have hstream : v'.stream = v.stream ++ [row] := by simp [v', stream, hdue]
  have hall : v'.gapLog ++ v'.events = v.gapLog ++ v.events ++ es :=
    (List.append_assoc _ _ _).symm
  have hevents : ∀ e ∈ v.gapLog ++ v.events, e ∈ v'.gapLog ++ v'.events :=
    fun e he => hall ▸ List.mem_append_left es he
  have hseen : ∀ s, ∀ b, (∃ l ∈ v.seen s, v.Reached s l b) → ∃ l ∈ v'.seen s, v'.Reached s l b := by
    rintro s b ⟨l, hl, hreached⟩
    by_cases hsym : s = sym
    · subst hsym
      exact ⟨id, by simp [v'], hreached.mono (fun e he => he) (habove l hl).le⟩
    · exact ⟨l, by simpa [v', hsym] using hl, hreached.mono (fun e he => he) le_rfl⟩
  have hnew : ∀ r ∈ v.stream, r.sym = sym → r.id < id ∨ v.InEvent sym id :=
    fun r hr hsym => h.lt_or_inEvent hready habove hr hsym
  have hrow : (∀ l ∈ v.lastId sym, l < id) ∨ v.InEvent sym id := by
    by_cases hevent : v.InEvent sym id
    · exact .inr hevent
    · left
      intro l hl
      obtain ⟨r, hr, hsym, rfl⟩ := hs.exists_row hl
      exact (hnew r hr hsym).resolve_right hevent
  have habove' : ∀ r ∈ [row], (∀ l ∈ v.lastId r.sym, l < r.id) ∨ v'.InEvent r.sym r.id := by
    intro r hr
    obtain rfl := List.mem_singleton.mp hr
    exact hrow.imp_right fun hevent => hevent.mono hevents
  have hafter : ∀ r ∈ v.held, ∀ r' ∈ [row], r.sym = r'.sym →
      r.id < r'.id ∨ v'.InEvent r'.sym r'.id := by
    intro r hr r' hr' hsym
    obtain rfl := List.mem_singleton.mp hr'
    have hstream' : r ∈ v.stream := List.mem_append_left _ (List.mem_append_right _ hr)
    exact (hnew r hstream' hsym).imp_right fun hevent => hevent.mono hevents
  have hwaiting := h.waiting hdue hevents habove' (List.pairwise_singleton _ _) hafter
  constructor
  case logged =>
    intro s l hl
    refine (h.logged s l hl).append hstream hevents fun _ _ _ => ?_
    obtain ⟨r, hr, hsym, -⟩ := hs.exists_row hl
    exact ⟨r, hr, hsym⟩
  case seen =>
    intro s l hl
    by_cases hsym : s = sym
    · subst hsym
      obtain rfl : id = l := by simpa [v'] using hl
      exact h.accountedTo_new hready hstream hall hmid
    · have hl' : l ∈ v.seen s := by simpa [v', hsym] using hl
      refine (h.seen s l hl').append hstream hevents fun r hr hrs => ?_
      obtain rfl := List.mem_singleton.mp hr
      exact absurd hrs.symm hsym
  case seenRow =>
    intro s l hl
    by_cases hsym : s = sym
    · subst hsym
      exact .inr ⟨row, by simp [v'], rfl, by simpa [v'] using hl⟩
    · have hl' : l ∈ v.seen s := by simpa [v', hsym] using hl
      obtain hlogged | ⟨r, hr, heq⟩ := h.seenRow s l hl'
      · exact .inl hlogged
      · rw [hdue, List.append_nil] at hr
        exact .inr ⟨r, List.mem_append_left _ hr, heq⟩
  case rows =>
    intro _ r hr
    rw [hstream] at hr
    obtain hr | hr := List.mem_append.mp hr
    · exact hseen _ _ (h.rows hready r hr)
    · obtain rfl := List.mem_singleton.mp hr
      exact ⟨id, by simp [v', row], .inl le_rfl⟩
  case queue =>
    intro g hg
    obtain hg | hg := List.mem_append.mp hg
    · exact hseen _ _ (h.queue g hg)
    · obtain ⟨l, -, e, -, rfl, -⟩ := hgs g hg
      exact ⟨id, by simp [v'], .inl (by simp only; omega)⟩
  case gapLog => exact h.gapLog
  case opened => exact h.opened
  case queueAnchored =>
    intro g hg
    obtain hg | hg := List.mem_append.mp hg
    · exact h.queueAnchored g hg
    · obtain ⟨l, hl, e, -, rfl, -⟩ := hgs g hg
      exact h.anchored hdue hl id
  case eventsAnchored =>
    intro e he
    obtain he | he := List.mem_append.mp he
    · exact h.eventsAnchored e he
    · obtain ⟨l, hl, heq⟩ := hes e he
      rw [heq]
      exact h.anchored hdue hl id
  case above => exact hwaiting.1
  case order => exact hwaiting.2
  case reported =>
    intro g hg
    obtain hg | hg := List.mem_append.mp hg
    · obtain ⟨e, he, hspan⟩ := h.reported g hg
      exact ⟨e, hevents e he, hspan⟩
    · obtain ⟨l, -, e, he, -, hspan⟩ := hgs g hg
      exact ⟨e, List.mem_append_right _ (List.mem_append_right _ he), hspan⟩

/-- Backfilled rows and the reports of a pump: all of them are about gaps of the queue. -/
theorem Covered.hand (h : v.Covered table) (hs : v.Sound table) (hready : v.ready = true)
    (hdue : v.due = []) {rs : List TradeRow} {es : List GapEvent} {gs : List TradeGap}
    (hrs : ∀ r ∈ rs, ∃ g ∈ v.queue, r.sym = g.sym ∧ g.firstId ≤ r.id ∧ r.id ≤ g.lastId)
    (hes : ∀ e ∈ es, ∃ g ∈ v.queue, (eventGap e).SameSpan g)
    (hgs : ∀ g ∈ gs, ∃ g₀ ∈ v.queue, g.SameSpan g₀) :
    Covered table { v with due := rs, events := v.events ++ es, queue := gs } := by
  set v' : Ledger := { v with due := rs, events := v.events ++ es, queue := gs }
  have hstream : v'.stream = v.stream ++ rs := by simp [v', stream, hdue]
  have hevents : ∀ e ∈ v.gapLog ++ v.events, e ∈ v'.gapLog ++ v'.events := by
    intro e he
    simp only [v', ← List.append_assoc]
    exact List.mem_append_left es he
  have hanchored : ∀ g, (∃ g₀ ∈ v.queue, g.SameSpan g₀) → v'.Anchored g := by
    rintro g ⟨g₀, hg₀, hsym, hfirst, -⟩
    have hold := h.queueAnchored g₀ hg₀
    rw [Anchored, ← hsym, ← hfirst] at hold
    exact hold
  have hfirst : ∀ sym, ∀ r ∈ rs, r.sym = sym → ∃ r' ∈ v.stream, r'.sym = sym := by
    rintro _ r hr rfl
    obtain ⟨g, hg, hsym, -⟩ := hrs r hr
    rw [hsym]
    obtain ⟨l, hl, -⟩ | ⟨r', hr', hsym', -⟩ := h.queueAnchored g hg
    · obtain ⟨r', hr', hsym', -⟩ := hs.exists_row hl
      exact ⟨r', hr', hsym'⟩
    · exact ⟨r', List.mem_append_left _ (List.mem_append_right _ hr'), hsym'⟩
  have hreported : ∀ r ∈ rs, v'.InEvent r.sym r.id := by
    intro r hr
    obtain ⟨g, hg, hsym, hlow, hhigh⟩ := hrs r hr
    obtain ⟨e, he, hspan⟩ := h.reported g hg
    obtain ⟨hesym, hefirst, helast⟩ := hspan
    exact ⟨e, hevents e he, hesym.symm.trans hsym.symm, hefirst.symm.trans_le hlow,
      hhigh.trans_eq helast⟩
  have hwaiting := h.waiting hdue hevents (fun r hr => .inr (hreported r hr))
    (List.pairwise_of_forall_mem_list fun _ _ r' hr' _ => .inr (hreported r' hr'))
    (fun _ _ r' hr' _ => .inr (hreported r' hr'))
  constructor
  case logged => exact fun s l hl => (h.logged s l hl).append hstream hevents (hfirst s)
  case seen => exact fun s l hl => (h.seen s l hl).append hstream hevents (hfirst s)
  case seenRow =>
    intro s l hl
    obtain hlogged | ⟨r, hr, heq⟩ := h.seenRow s l hl
    · exact .inl hlogged
    · rw [hdue, List.append_nil] at hr
      exact .inr ⟨r, List.mem_append_left _ hr, heq⟩
  case rows =>
    intro _ r hr
    rw [hstream] at hr
    obtain hr | hr := List.mem_append.mp hr
    · exact h.rows hready r hr
    · obtain ⟨g, hg, hsym, -, hlast⟩ := hrs r hr
      obtain ⟨l, hl, hreached⟩ := h.queue g hg
      rw [hsym]
      refine ⟨l, hl, ?_⟩
      obtain hle | ⟨e, he, hesym, hefirst, helast⟩ := hreached
      · exact .inl (hlast.trans hle)
      · exact .inr ⟨e, he, hesym, hefirst, hlast.trans helast⟩
  case queue =>
    intro g hg
    obtain ⟨g₀, hg₀, hsym, -, hlast⟩ := hgs g hg
    rw [hsym, hlast]
    exact h.queue g₀ hg₀
  case gapLog => exact h.gapLog
  case opened => exact h.opened
  case queueAnchored => exact fun g hg => hanchored g (hgs g hg)
  case eventsAnchored =>
    intro e he
    obtain he | he := List.mem_append.mp he
    · exact h.eventsAnchored e he
    · exact hanchored _ (hes e he)
  case above => exact hwaiting.1
  case order => exact hwaiting.2
  case reported =>
    intro g hg
    obtain ⟨g₀, hg₀, hspan⟩ := hgs g hg
    obtain ⟨e, he, hspan'⟩ := h.reported g₀ hg₀
    exact ⟨e, hevents e he, hspan.trans hspan'⟩

end Sent

/-- A row that is published is still on its way. -/
theorem Covered.publish {table : Table} {v : Ledger} (h : v.Covered table) {r : TradeRow}
    {due : List TradeRow} (hdue : v.due = r :: due) :
    Covered table { v with held := v.held ++ [r], due := due } := by
  set v' : Ledger := { v with held := v.held ++ [r], due := due }
  have hwaiting : v'.held ++ v'.due = v.held ++ v.due := by simp [v', hdue]
  have hstream : v'.stream = v.stream := by
    simp only [stream, List.append_assoc]
    rw [hwaiting]
  have hto : ∀ {s l}, v.AccountedTo s l → v'.AccountedTo s l := fun hto a ha id hlow hhigh =>
    (hto a (hstream ▸ ha) id hlow hhigh).mono (fun r hr => hstream ▸ hr) fun e he => he
  have hanchored : ∀ {g}, v.Anchored g → v'.Anchored g := by
    intro g hold
    obtain hlogged | ⟨r', hr', heq⟩ := hold
    · exact .inl hlogged
    · exact .inr ⟨r', List.mem_append_left _ hr', heq⟩
  constructor
  case logged => exact fun s l hl => hto (h.logged s l hl)
  case seen => exact fun s l hl => hto (h.seen s l hl)
  case seenRow =>
    rw [hwaiting]
    exact h.seenRow
  case rows => exact fun hready r' hr' => h.rows hready r' (hstream ▸ hr')
  case queue => exact h.queue
  case gapLog => exact h.gapLog
  case opened => exact h.opened
  case queueAnchored => exact fun g hg => hanchored (h.queueAnchored g hg)
  case eventsAnchored => exact fun e he => hanchored (h.eventsAnchored e he)
  case above =>
    rw [hwaiting]
    exact h.above
  case order =>
    rw [hwaiting]
    exact h.order
  case reported => exact h.reported

/-! ## What TP takes -/

section Taken
variable {table : Table} {v : Ledger}

/-- Being anchored survives the next row's way into the log. -/
theorem Anchored.deliver {r : TradeRow} {left : List TradeRow} {g : TradeGap}
    (h : v.Anchored g) (hheld : v.held = r :: left) {v' : Ledger} (hheld' : v'.held = left)
    (hlast : v'.lastId =
      Function.update v.lastId r.sym (some (orMax r.id (v.lastId r.sym)))) : v'.Anchored g := by
  obtain ⟨hle, hmax⟩ := le_orMax r.id (v.lastId r.sym)
  by_cases hsym : g.sym = r.sym
  · obtain ⟨l, hl, hfirst⟩ | ⟨r', hr', hrsym, hfirst⟩ := h
    · have hlmax := hmax l (hsym ▸ hl)
      exact .inl ⟨_, by rw [hlast, hsym, Function.update_self]; rfl, by omega⟩
    · obtain rfl | hr' := List.mem_cons.mp (hheld ▸ hr')
      · exact .inl ⟨_, by rw [hlast, hsym, Function.update_self]; rfl, by omega⟩
      · exact .inr ⟨r', hheld' ▸ hr', hrsym, hfirst⟩
  · obtain ⟨l, hl, hfirst⟩ | ⟨r', hr', hrsym, hfirst⟩ := h
    · exact .inl ⟨l, by rw [hlast, Function.update_of_ne hsym]; exact hl, hfirst⟩
    · obtain rfl | hr' := List.mem_cons.mp (hheld ▸ hr')
      · exact absurd hrsym.symm hsym
      · exact .inr ⟨r', hheld' ▸ hr', hrsym, hfirst⟩

theorem Covered.deliver (h : v.Covered table) (hs : v.Sound table) {r : TradeRow}
    {left : List TradeRow} (hheld : v.held = r :: left) :
    Covered table { v with
      logged := v.logged ++ [r], held := left
      lastId := Function.update v.lastId r.sym (some (orMax r.id (v.lastId r.sym)))
      gaps := noted table r v.gaps } := by
  set v' : Ledger := { v with
    logged := v.logged ++ [r], held := left
    lastId := Function.update v.lastId r.sym (some (orMax r.id (v.lastId r.sym)))
    gaps := noted table r v.gaps }
  have hready : v.ready = true := by
    by_contra hnot
    have hnone := (hs.starting (by simpa using hnot)).1
    simp [hheld] at hnone
  have hstream : v'.stream = v.stream := by simp [v', stream, hheld]
  have hwaiting : v.held ++ v.due = r :: (left ++ v.due) := by rw [hheld, List.cons_append]
  have hrow : r ∈ v.stream := by simp [stream, hheld]
  have hto : ∀ {s l}, v.AccountedTo s l → v'.AccountedTo s l := by
    intro s l hto a ha id hlow hhigh
    rw [hstream] at ha
    exact (hto a ha id hlow hhigh).mono (fun r hr => hstream ▸ hr) fun e he => he
  obtain ⟨hle, hmax⟩ := le_orMax r.id (v.lastId r.sym)
  have hlast : ∀ s, ∀ l ∈ v.lastId s, ∃ l' ∈ v'.lastId s, l ≤ l' := by
    intro s l hl
    by_cases hsym : s = r.sym
    · subst hsym
      exact ⟨_, by simp [v'], hmax l hl⟩
    · exact ⟨l, by simpa [v', hsym] using hl, le_rfl⟩
  have horder := h.order
  rw [hwaiting, List.pairwise_cons] at horder
  constructor
  case logged =>
    intro s l hl
    by_cases hsym : s = r.sym
    · subst hsym
      obtain rfl : orMax r.id (v.lastId r.sym) = l := by simpa [v'] using hl
      obtain heq | hmem := orMax_eq_or r.id (v.lastId r.sym)
      · obtain ⟨l₀, hl₀, hreached⟩ := h.rows hready r hrow
        rw [heq]
        exact hto (hreached.accounted (h.seen _ l₀ hl₀))
      · exact hto (h.logged _ _ hmem)
    · exact hto (h.logged s l (by simpa [v', hsym] using hl))
  case seen => exact fun s l hl => hto (h.seen s l hl)
  case seenRow =>
    intro s l hl
    obtain ⟨l', hl', hle'⟩ | ⟨r', hr', hsym, hid⟩ := h.seenRow s l hl
    · obtain ⟨l'', hl'', hle''⟩ := hlast s l' hl'
      exact .inl ⟨l'', hl'', hle'.trans hle''⟩
    · rw [hwaiting] at hr'
      obtain rfl | hr' := List.mem_cons.mp hr'
      · exact .inl ⟨orMax r'.id (v.lastId r'.sym), by simp [v', ← hsym], by omega⟩
      · exact .inr ⟨r', hr', hsym, hid⟩
  case rows => exact fun _ r' hr' => h.rows hready r' (hstream ▸ hr')
  case queue => exact h.queue
  case gapLog =>
    intro e he
    obtain ⟨l, hl, hfirst⟩ := h.gapLog e he
    obtain ⟨l', hl', hle'⟩ := hlast _ l hl
    exact ⟨l', hl', by omega⟩
  case opened =>
    intro g hg
    obtain ⟨g₀, hg₀, hspan, -⟩ := openGaps_deliver (v := v) (r := r) hg rfl rfl
    obtain ⟨e, he, hspan'⟩ := h.opened g₀ hg₀
    exact ⟨e, he, hspan.trans hspan'⟩
  case queueAnchored => exact fun g hg => (h.queueAnchored g hg).deliver hheld rfl rfl
  case eventsAnchored => exact fun e he => (h.eventsAnchored e he).deliver hheld rfl rfl
  case above =>
    intro r' hr'
    have hr'' : r' ∈ v.held ++ v.due := hwaiting ▸ List.mem_cons_of_mem r hr'
    by_cases hevent : v.InEvent r'.sym r'.id
    · exact .inr hevent
    · left
      intro l hl
      have hold := (h.above r' hr'').resolve_right hevent
      by_cases hsym : r.sym = r'.sym
      · obtain rfl : orMax r.id (v.lastId r'.sym) = l := by simpa [v', hsym] using hl
        obtain heq | hmem := orMax_eq_or r.id (v.lastId r'.sym)
        · rw [heq]
          exact (horder.1 r' hr' hsym).resolve_right hevent
        · exact hold _ hmem
      · exact hold l (by simpa [v', Ne.symm hsym] using hl)
  case order => exact horder.2
  case reported => exact h.reported

/-- TP takes the event of a gap when it has every row published before. -/
theorem Covered.event (h : v.Covered table) {e : GapEvent} {rest events : List GapEvent}
    (hevents : v.events = e :: rest) (hleft : events = rest ∨ events = e :: rest)
    (hheld : v.held = []) :
    Covered table { v with
      gapLog := v.gapLog ++ [e], gaps := Function.update v.gaps e.key (some e.row)
      events := events } := by
  set v' : Ledger := { v with
    gapLog := v.gapLog ++ [e], gaps := Function.update v.gaps e.key (some e.row), events := events }
  have hlog : ∀ e' ∈ v.gapLog, e' ∈ v'.gapLog := fun e' he' => List.mem_append_left _ he'
  have hall : ∀ e' ∈ v.gapLog ++ v.events, e' ∈ v'.gapLog ++ v'.events := by
    intro e' he'
    rw [hevents] at he'
    obtain he' | he' := List.mem_append.mp he'
    · exact List.mem_append_left _ (hlog e' he')
    · obtain rfl | he' := List.mem_cons.mp he'
      · exact List.mem_append_left _ (List.mem_append_right _ (List.mem_singleton_self _))
      · have hstill : e' ∈ events := by
          obtain hleft | hleft := hleft
          · exact hleft ▸ he'
          · exact hleft ▸ List.mem_cons_of_mem e he'
        exact List.mem_append_right _ hstill
  have hfewer : ∀ e' ∈ events, e' ∈ v.events := by
    intro e' he'
    rw [hevents]
    obtain rfl | rfl := hleft
    · exact List.mem_cons_of_mem e he'
    · exact he'
  have hto : ∀ {s l}, v.AccountedTo s l → v'.AccountedTo s l := fun hto a ha id hlow hhigh =>
    (hto a ha id hlow hhigh).mono (fun _ hr => hr) hall
  constructor
  case logged => exact fun s l hl => hto (h.logged s l hl)
  case seen => exact fun s l hl => hto (h.seen s l hl)
  case seenRow => exact h.seenRow
  case rows =>
    intro hready r hr
    obtain ⟨l, hl, hreached⟩ := h.rows hready r hr
    exact ⟨l, hl, hreached.mono hlog le_rfl⟩
  case queue =>
    intro g hg
    obtain ⟨l, hl, hreached⟩ := h.queue g hg
    exact ⟨l, hl, hreached.mono hlog le_rfl⟩
  case gapLog =>
    intro e' he'
    obtain he' | he' := List.mem_append.mp he'
    · exact h.gapLog e' he'
    · obtain rfl := List.mem_singleton.mp he'
      obtain hlogged | ⟨r, hr, -⟩ := h.eventsAnchored e' (hevents ▸ List.mem_cons_self)
      · exact hlogged
      · simp [hheld] at hr
  case opened =>
    intro g hg
    obtain rfl | hg := openGaps_event (v := v) (e := e) hg rfl rfl
    · exact ⟨e, List.mem_append_right _ (List.mem_singleton_self e), .refl _⟩
    · obtain ⟨e', he', hspan⟩ := h.opened g hg
      exact ⟨e', hlog e' he', hspan⟩
  case queueAnchored => exact h.queueAnchored
  case eventsAnchored => exact fun e' he' => h.eventsAnchored e' (hfewer e' he')
  case above => exact fun r hr => (h.above r hr).imp_right fun hevent => hevent.mono hall
  case order =>
    exact h.order.imp fun hrr hsym => (hrr hsym).imp_right fun hevent => hevent.mono hall
  case reported =>
    intro g hg
    obtain ⟨e', he', hspan⟩ := h.reported g hg
    exact ⟨e', hall e' he', hspan⟩

/-- The process ends while no event it holds is about an id at or below `lastId`. -/
theorem Covered.crash (h : v.Covered table)
    (hkept : ∀ e ∈ v.events, ∀ l ∈ v.lastId e.key.sym, l < e.key.firstMissingId) :
    Covered table { v with
      held := [], due := [], events := [], queue := [], seen := fun _ => none
      ready := false } := by
  have hevent : ∀ {s l id}, l ∈ v.lastId s → id ≤ l → v.InEvent s id →
      ∃ e ∈ v.gapLog, Reports e s id := by
    rintro s l id hl hle ⟨e, he, hreports⟩
    obtain he | he := List.mem_append.mp he
    · exact ⟨e, he, hreports⟩
    · obtain ⟨rfl, hfirst, -⟩ := hreports
      have hlt := hkept e he l hl
      omega
  constructor
  case logged =>
    intro s l hl a ha id hlow hhigh
    have hstream : v.stream = v.logged ++ (v.held ++ v.due) := by simp [stream]
    simp only [stream, List.append_nil] at ha
    have ha' : a ∈ firstId v.stream s := hstream ▸ firstId_append_left ha
    obtain ⟨r, hr, hsym, hid⟩ | hreported := h.logged s l hl a ha' id hlow hhigh
    · obtain hr | hr := List.mem_append.mp (hstream ▸ hr)
      · exact .inl ⟨r, by simpa [stream] using hr, hsym, hid⟩
      · obtain hlt | hreported := h.above r hr
        · have hlt := hlt l (hsym ▸ hl)
          omega
        · rw [hsym, hid] at hreported
          obtain ⟨e, he, hreports⟩ := hevent hl hhigh hreported
          exact .inr ⟨e, by simpa using he, hreports⟩
    · obtain ⟨e, he, hreports⟩ := hevent hl hhigh hreported
      exact .inr ⟨e, by simpa using he, hreports⟩
  case gapLog => exact h.gapLog
  case opened => exact h.opened
  all_goals simp

/-- A start that gets the trade state goes on from what is logged. -/
theorem Covered.resume (h : v.Covered table) (hs : v.Sound table) (hready : v.ready = false) :
    Covered table { v with
      ready := true, seen := v.lastId, queue := v.queue ++ v.openGaps table } := by
  obtain ⟨hheld, hdue, hevents, hqueue, -⟩ := hs.starting hready
  rw [hqueue, List.nil_append]
  constructor
  case logged => exact h.logged
  case seen => exact h.logged
  case seenRow => exact fun s l hl => .inl ⟨l, hl, le_rfl⟩
  case rows =>
    intro _ r hr
    have hlogged : r ∈ v.logged := by simpa [stream, hheld, hdue] using hr
    obtain ⟨l, hl, hle⟩ := hs.last.le r hlogged
    exact ⟨l, hl, .inl hle⟩
  case queue =>
    intro g hg
    obtain ⟨e, he, hsym, -, hlast⟩ := h.opened g hg
    obtain ⟨l, hl, hfirst⟩ := h.gapLog e he
    exact ⟨l, hsym ▸ hl, .inr ⟨e, he, hsym.symm, hfirst, hlast.le⟩⟩
  case gapLog => exact h.gapLog
  case opened => exact h.opened
  case queueAnchored =>
    intro g hg
    obtain ⟨e, he, hsym, hfirst, -⟩ := h.opened g hg
    obtain ⟨l, hl, hle⟩ := h.gapLog e he
    exact .inl ⟨l, hsym ▸ hl, hfirst.trans_le hle⟩
  case eventsAnchored => exact h.eventsAnchored
  case above => exact h.above
  case order => exact h.order
  case reported =>
    intro g hg
    obtain ⟨e, he, hspan⟩ := h.opened g hg
    exact ⟨e, List.mem_append_left _ he, hspan⟩

end Taken

/-- Every move keeps it, if no row is gone, every start gets the trade state, and the process
never ends with an event about an id at or below `lastId`. -/
theorem Covered.moves {cfg : HandlerConfig} {may : Allowed} {v v' : Ledger}
    (h : v.Covered cfg.table) (hs : v.Sound cfg.table) (hmove : Moves δ cfg may v v')
    (hgone : ¬ may.gone) (hseeded : ¬ may.unseeded)
    (hcrash : may.crash →
      ∀ e ∈ v.events, ∀ l ∈ v.lastId e.key.sym, l < e.key.firstMissingId) :
    v'.Covered cfg.table := by
  cases hmove with
  | quiet => exact h
  | unseeded hmay hready => exact absurd hmay hseeded
  | resume hmay hready => exact h.resume hs hready
  | live sym id time hready hdue hlive hnext =>
      have habove : ∀ l ∈ v.seen sym, l < (id : Int) := by
        intro l hl
        obtain ⟨-, l', hl', hle⟩ := hs.seen sym l hl
        exact hle.trans_lt (hlive l' hl')
      have hmax : orMax (id : Int) (v.seen sym) = id := by
        obtain heq | hmem := orMax_eq_or (id : Int) (v.seen sym)
        · exact heq
        · have hlt := habove _ hmem
          have hge := (le_orMax (id : Int) (v.seen sym)).1
          omega
      have hsent := h.send hs hready hdue sym id (some time)
        (Function.update v.live sym (some (id : Int))) [] [] habove
        (fun l hl i hlow hhigh => absurd (hnext l hl) (by omega)) (List.forall_mem_nil _)
        (List.forall_mem_nil _)
      simpa only [List.append_nil, hmax] using hsent
  | jump sym id time nowNs last reason hready hdue hlive hseen hgap =>
      have hlast : ∀ l ∈ v.seen sym, l = last := fun l hl =>
        Option.some.inj (hl.symm.trans hseen)
      refine h.send hs hready hdue sym id (some time)
        (Function.update v.live sym (some (id : Int))) _ _ ?_ ?_ ?_ ?_
      · intro l hl
        rw [hlast l hl]
        omega
      · intro l hl i hlow hhigh
        rw [hlast l hl] at hlow
        refine ⟨_, List.mem_singleton_self _, rfl, ?_, ?_⟩
        · simp only [buildGapRow]
          omega
        · simp only [buildGapRow]
          omega
      · intro e he
        rw [List.mem_singleton.mp he]
        exact ⟨last, hseen, rfl⟩
      · intro g hg
        rw [List.mem_singleton.mp hg]
        exact ⟨last, hseen, _, List.mem_singleton_self _, rfl, .refl _⟩
  | work new queue nowNs hready hdue hworked =>
      obtain ⟨hgaps, hout⟩ := hworked.within fun g hg => (hs.gaps g (.inl hg)).1
      refine h.hand hs hready hdue ?_ ?_ fun g hg => (hgaps g hg).2
      · intro r hr
        obtain ⟨job, sym, t, recv, ho, rfl⟩ := mem_dueRows_callback hr
        exact hout _ ho
      · intro e he
        obtain ⟨job, g, status, reason, ho, rfl⟩ := mem_dueEvents_callback he
        exact (hout _ ho).2
  | publish r due hdue => exact h.publish hdue
  | deliver skipped r left hheld hskip =>
      obtain rfl : skipped = [] := hskip.resolve_right hgone
      exact h.deliver hs hheld
  | event e rest events hevents hleft hheld =>
      exact h.event hevents hleft (hheld.resolve_right hgone)
  | crash hmay => exact h.crash (hcrash hmay)

end Ledger

end TickToSignal.Trade
