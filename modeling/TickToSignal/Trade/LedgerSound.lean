import TickToSignal.Trade.Ledger

/-!
# What holds of every ledger

Without any condition on the run: no row or gap lies above the last id the
exchange sent, every gap is a valid one, `lastId` is the highest id in the log,
and a handler that is starting holds nothing.
-/

namespace TickToSignal.Trade

open Publisher Tp

variable {δ : Type*}

/-! ## The gaps a pump reports -/

/-- The same ids are missing. -/
def TradeGap.SameSpan (g g' : TradeGap) : Prop :=
  g.sym = g'.sym ∧ g.firstId = g'.firstId ∧ g.lastId = g'.lastId

namespace TradeGap.SameSpan

variable {g g' g'' : TradeGap}

theorem refl (g : TradeGap) : g.SameSpan g := ⟨rfl, rfl, rfl⟩

theorem trans (h : g.SameSpan g') (h' : g'.SameSpan g'') : g.SameSpan g'' :=
  ⟨h.1.trans h'.1, h.2.1.trans h'.2.1, h.2.2.trans h'.2.2⟩

theorem advance (g : TradeGap) (n : Nat) : (g.advance n).SameSpan g :=
  ⟨g.advance_sym n, g.advance_firstId n, g.advance_lastId n⟩

end TradeGap.SameSpan

/-- The gap of an event. -/
def eventGap (e : GapEvent) : TradeGap := toGap e.key e.row

@[simp] theorem eventGap_buildGapRow (nowNs : Int) (g : TradeGap) (table : Table)
    (status : GapStatus) (reason : String) :
    eventGap (buildGapRow nowNs g table status reason) = g := rfl

/-- An output about one of the gaps. -/
def Out.Within (gs : List TradeGap) : Out δ → Prop
  | .row _ sym t _ => ∃ g ∈ gs, sym = g.sym ∧ g.firstId ≤ t.id ∧ t.id ≤ g.lastId
  | .event _ g _ _ => g.Valid ∧ ∃ g₀ ∈ gs, g.SameSpan g₀
  | .applied _ _ => True

theorem Out.Within.mono {gs gs' : List TradeGap} (hspan : ∀ g ∈ gs', ∃ g₀ ∈ gs, g.SameSpan g₀)
    {o : Out δ} (h : o.Within gs') : o.Within gs := by
  cases o with
  | row job sym t recv =>
      obtain ⟨g, hg, hsym, hfirst, hlast⟩ := h
      obtain ⟨g₀, hg₀, hspan⟩ := hspan g hg
      exact ⟨g₀, hg₀, hsym.trans hspan.1, hspan.2.1 ▸ hfirst, hspan.2.2 ▸ hlast⟩
  | event job g status reason =>
      obtain ⟨hvalid, g₁, hg₁, hsame⟩ := h
      obtain ⟨g₀, hg₀, hspan⟩ := hspan g₁ hg₁
      exact ⟨hvalid, g₀, hg₀, hsame.trans hspan⟩
  | applied job r => trivial

/-- A pump stays within the gaps it had. -/
theorem Worked.within {gs gs' : List TradeGap} {new : List (Out δ)} (h : Worked gs new gs')
    (hvalid : ∀ g ∈ gs, g.Valid) :
    (∀ g ∈ gs', g.Valid ∧ ∃ g₀ ∈ gs, g.SameSpan g₀) ∧ ∀ o ∈ new, o.Within gs := by
  have hself : ∀ {gs : List TradeGap}, (∀ g ∈ gs, g.Valid) →
      ∀ g ∈ gs, g.Valid ∧ ∃ g₀ ∈ gs, g.SameSpan g₀ :=
    fun hvalid g hg => ⟨hvalid g hg, g, hg, .refl g⟩
  induction h with
  | nothing gs => exact ⟨hself hvalid, nofun⟩
  | applied gs job r =>
      refine ⟨hself hvalid, fun o ho => ?_⟩
      obtain rfl := List.mem_singleton.mp ho
      trivial
  | report g gs job status reason =>
      refine ⟨hself hvalid, fun o ho => ?_⟩
      obtain rfl := List.mem_singleton.mp ho
      exact hself hvalid g List.mem_cons_self
  | finish g gs job status reason =>
      refine ⟨fun g' hg' => hself hvalid g' (List.mem_cons_of_mem g hg'), fun o ho => ?_⟩
      obtain rfl := List.mem_singleton.mp ho
      exact hself hvalid g List.mem_cons_self
  | rows g gs job recv ts hids hlast =>
      have hg := hvalid g List.mem_cons_self
      refine ⟨fun g' hg' => ?_, fun o ho => ?_⟩
      · obtain rfl | hg' := List.mem_cons.mp hg'
        · exact ⟨hg.advance hlast, g, List.mem_cons_self, .advance g _⟩
        · exact hself hvalid g' (List.mem_cons_of_mem g hg')
      · obtain ⟨t, ht, rfl⟩ := List.mem_map.mp ho
        have hid : t.id ∈ ts.map (·.id) := List.mem_map_of_mem ht
        rw [hids, List.mem_map] at hid
        obtain ⟨i, hi, heq⟩ := hid
        have hnext := hg.firstId_le_next
        rw [List.mem_range] at hi
        exact ⟨g, List.mem_cons_self, rfl, by omega, by omega⟩
  | trans h h' ih ih' =>
      obtain ⟨hgaps, hout⟩ := ih hvalid
      obtain ⟨hgaps', hout'⟩ := ih' fun g hg => (hgaps g hg).1
      refine ⟨fun g hg => ?_, fun o ho => ?_⟩
      · obtain ⟨hg, g₁, hg₁, hspan⟩ := hgaps' g hg
        obtain ⟨-, g₀, hg₀, hspan'⟩ := hgaps g₁ hg₁
        exact ⟨hg, g₀, hg₀, hspan.trans hspan'⟩
      · obtain ho | ho := List.mem_append.mp ho
        · exact hout o ho
        · exact (hout' o ho).mono fun g hg => (hgaps g hg).2

section Callback
variable {cfg : HandlerConfig} {nowNs : Int} {new : List (Out δ)}

theorem mem_dueRows_callback {r : TradeRow}
    (hr : r ∈ dueRows (new.flatMap (TradeFeedHandler.callback cfg nowNs))) :
    ∃ job sym t recv, Out.row job sym t recv ∈ new ∧
      r = { sym := sym, id := t.id, exchEventTimeMs := none } := by
  obtain ⟨a, ha, hrow⟩ := List.mem_filterMap.mp hr
  obtain ⟨o, ho, hao⟩ := List.mem_flatMap.mp ha
  cases o with
  | row job sym t recv =>
      obtain rfl := List.mem_singleton.mp hao
      exact ⟨job, sym, t, recv, ho, (Option.some.inj hrow).symm⟩
  | event job g status reason =>
      obtain rfl := List.mem_singleton.mp hao
      cases hrow
  | applied job r => cases hao

theorem mem_dueEvents_callback {e : GapEvent}
    (he : e ∈ dueEvents (new.flatMap (TradeFeedHandler.callback cfg nowNs))) :
    ∃ job g status reason, Out.event job g status reason ∈ new ∧
      e = buildGapRow nowNs g cfg.table status reason := by
  obtain ⟨a, ha, hevent⟩ := List.mem_filterMap.mp he
  obtain ⟨o, ho, hao⟩ := List.mem_flatMap.mp ha
  cases o with
  | row job sym t recv =>
      obtain rfl := List.mem_singleton.mp hao
      cases hevent
  | event job g status reason =>
      obtain rfl := List.mem_singleton.mp hao
      exact ⟨job, g, status, reason, ho, (Option.some.inj hevent).symm⟩
  | applied job r => cases hao

end Callback

/-! ## The invariant -/

namespace Ledger

theorem mem_openGaps {table : Table} {v : Ledger} {g : TradeGap} :
    g ∈ v.openGaps table ↔ ∃ key row, (∃ e ∈ v.gapLog, e.key = key) ∧ v.gaps key = some row ∧
      key.srcTable = table ∧ row.isOpen = true ∧ g = toGap key row := by
  simp only [openGaps, List.mem_filterMap, List.mem_reverse, List.mem_dedup, List.mem_map]
  constructor
  · rintro ⟨key, hkey, hg⟩
    split at hg
    · next row hrow =>
        split_ifs at hg with hopen
        exact ⟨key, row, hkey, hrow, hopen.1, hopen.2, (Option.some.inj hg).symm⟩
    · cases hg
  · rintro ⟨key, row, hkey, hrow, htable, hopen, rfl⟩
    exact ⟨key, hkey, by simp only [hrow, htable, hopen, and_self, if_true]⟩

/-- The rows that are in the log or on their way to it. -/
def stream (v : Ledger) : List TradeRow := v.logged ++ v.held ++ v.due

/-- A gap that is queued, that an event is to report, or that TP has as open. -/
def Known (table : Table) (v : Ledger) (g : TradeGap) : Prop :=
  g ∈ v.queue ∨ (∃ e ∈ v.events, eventGap e = g) ∨ g ∈ v.openGaps table

/-- The highest id of each symbol in the log. -/
structure IsLast (logged : List TradeRow) (lastId : String → Option Int) : Prop where
  le : ∀ r ∈ logged, ∃ l ∈ lastId r.sym, r.id ≤ l
  mem : ∀ sym, ∀ l ∈ lastId sym, ∃ r ∈ logged, r.sym = sym ∧ r.id = l

/-- Holds of every ledger in every run. -/
structure Sound (table : Table) (v : Ledger) : Prop where
  starting : v.ready = false →
    v.held = [] ∧ v.due = [] ∧ v.events = [] ∧ v.queue = [] ∧ v.seen = fun _ => none
  rows : ∀ r ∈ v.stream, 0 ≤ r.id ∧ ∃ l ∈ v.live r.sym, r.id ≤ l
  last : IsLast v.logged v.lastId
  gaps : ∀ g, v.Known table g → g.Valid ∧ ∃ l ∈ v.live g.sym, g.lastId ≤ l
  seen : ∀ sym, ∀ l ∈ v.seen sym, 0 ≤ l ∧ ∃ l' ∈ v.live sym, l ≤ l'

section Gaps
variable {table : Table} {v v' : Ledger} {g : TradeGap}

/-- An event that TP logs is the only change of the open gaps. -/
theorem openGaps_event {e : GapEvent} (hg : g ∈ v'.openGaps table)
    (hlog : v'.gapLog = v.gapLog ++ [e])
    (hgaps : v'.gaps = Function.update v.gaps e.key (some e.row)) :
    g = eventGap e ∨ g ∈ v.openGaps table := by
  rw [mem_openGaps, hlog, hgaps] at hg
  rw [mem_openGaps]
  obtain ⟨key, row, ⟨e', he', hkey⟩, hrow, htable, hopen, rfl⟩ := hg
  by_cases hsame : key = e.key
  · left
    rw [hsame, Function.update_self, Option.some.injEq] at hrow
    rw [hsame, ← hrow]
    rfl
  · right
    rw [Function.update_of_ne hsame] at hrow
    obtain he' | he' := List.mem_append.mp he'
    · exact ⟨key, row, ⟨e', he', hkey⟩, hrow, htable, hopen, rfl⟩
    · rw [List.mem_singleton.mp he'] at hkey
      exact absurd hkey.symm hsame

/-- A backfilled id is progress of the gap it lies in. -/
theorem toGap_backfilled (key : GapKey) (id : Int) (row : GapRow) :
    (toGap key (row.backfilled key id)).SameSpan (toGap key row) ∧
      ((toGap key row).Valid → (toGap key (row.backfilled key id)).Valid) := by
  simp only [GapRow.backfilled]
  split_ifs with hin
  · refine ⟨⟨rfl, rfl, rfl⟩, fun h => ?_⟩
    have hpos := h.firstId_pos
    have hrange := h.first_le_last
    have hprogress := h.progress
    simp only [toGap] at hpos hrange hprogress
    refine { firstId_pos := hpos, first_le_last := hrange, progress := Or.inr ?_ }
    simp only [toGap]
    omega
  · exact ⟨.refl _, fun h => h⟩

theorem openGaps_deliver {r : TradeRow} (hg : g ∈ v'.openGaps table)
    (hlog : v'.gapLog = v.gapLog) (hgaps : v'.gaps = noted table r v.gaps) :
    ∃ g₀ ∈ v.openGaps table, g.SameSpan g₀ ∧ (g₀.Valid → g.Valid) := by
  rw [mem_openGaps, hlog, hgaps] at hg
  simp only [mem_openGaps]
  obtain ⟨key, row, hkey, hrow, htable, hopen, rfl⟩ := hg
  simp only [noted] at hrow
  split_ifs at hrow with hbackfilled
  · obtain ⟨old, hold, rfl⟩ := Option.map_eq_some_iff.mp hrow
    obtain ⟨hspan, hvalid⟩ := toGap_backfilled key r.id old
    have hstatus : (old.backfilled key r.id).isOpen = old.isOpen := by
      simp only [GapRow.backfilled]
      split_ifs <;> rfl
    exact ⟨_, ⟨key, old, hkey, hold, htable, hstatus ▸ hopen, rfl⟩, hspan, hvalid⟩
  · exact ⟨_, ⟨key, row, hkey, hrow, htable, hopen, rfl⟩, .refl _, fun h => h⟩

end Gaps

section Last
variable {logged : List TradeRow} {lastId : String → Option Int}

theorem le_orMax (id : Int) (o : Option Int) : id ≤ orMax id o ∧ ∀ l ∈ o, l ≤ orMax id o := by
  cases o with
  | none => exact ⟨le_rfl, nofun⟩
  | some l =>
      refine ⟨le_max_left id l, ?_⟩
      rintro _ ⟨⟩
      exact le_max_right id l

theorem orMax_eq_or (id : Int) (o : Option Int) : orMax id o = id ∨ orMax id o ∈ o := by
  cases o with
  | none => exact .inl rfl
  | some l =>
      obtain h | h := max_choice id l
      · exact .inl h
      · exact .inr (congrArg some h.symm)

theorem IsLast.snoc (h : IsLast logged lastId) (r : TradeRow) :
    IsLast (logged ++ [r])
      (Function.update lastId r.sym (some (orMax r.id (lastId r.sym)))) := by
  obtain ⟨hle, hmax⟩ := le_orMax r.id (lastId r.sym)
  constructor
  · intro r' hr'
    by_cases hsym : r'.sym = r.sym
    · rw [hsym, Function.update_self]
      refine ⟨_, rfl, ?_⟩
      obtain hr' | hr' := List.mem_append.mp hr'
      · obtain ⟨l, hl, hid⟩ := h.le r' hr'
        exact hid.trans (hmax l (hsym ▸ hl))
      · rw [List.mem_singleton.mp hr']
        exact hle
    · rw [Function.update_of_ne hsym]
      obtain hr' | hr' := List.mem_append.mp hr'
      · exact h.le r' hr'
      · exact absurd (congrArg TradeRow.sym (List.mem_singleton.mp hr')) hsym
  · intro sym l hl
    by_cases hsym : sym = r.sym
    · rw [hsym, Function.update_self, Option.mem_some_iff] at hl
      obtain heq | hmem := orMax_eq_or r.id (lastId r.sym)
      · exact ⟨r, by simp, hsym.symm, heq.symm.trans hl⟩
      · obtain ⟨r', hr', hsym', hid⟩ := h.mem r.sym _ hmem
        exact ⟨r', List.mem_append_left _ hr', hsym'.trans hsym.symm, hid.trans hl⟩
    · rw [Function.update_of_ne hsym] at hl
      obtain ⟨r', hr', hsym', hid⟩ := h.mem sym l hl
      exact ⟨r', List.mem_append_left _ hr', hsym', hid⟩

end Last

/-! ## What a move leaves and adds -/

namespace Moves

variable {cfg : HandlerConfig} {may : Allowed} {v v' : Ledger}

/-- The last id sent does not go back. -/
theorem live_mono (h : Moves δ cfg may v v') (sym : String) :
    ∀ l ∈ v.live sym, ∃ l' ∈ v'.live sym, l ≤ l' := by
  have hupdate : ∀ (s : String) (id : Nat), (∀ l ∈ v.live s, l < (id : Int)) →
      ∀ l ∈ v.live sym, ∃ l' ∈ Function.update v.live s (some (id : Int)) sym, l ≤ l' := by
    intro s id hlive l hl
    by_cases hsym : sym = s
    · rw [hsym, Function.update_self]
      exact ⟨id, rfl, (hlive l (hsym ▸ hl)).le⟩
    · rw [Function.update_of_ne hsym]
      exact ⟨l, hl, le_rfl⟩
  cases h with
  | live sym' id time hready hdue hlive hnext => exact hupdate sym' id hlive
  | jump sym' id time nowNs last reason hready hdue hlive hseen hgap => exact hupdate sym' id hlive
  | _ => exact fun l hl => ⟨l, hl, le_rfl⟩

/-- A gap after a move is one from before, up to its progress, or lies between the last id the
handler has seen and the one it sees now. -/
theorem known (h : Moves δ cfg may v v') (hs : v.Sound cfg.table) {g : TradeGap}
    (hg : v'.Known cfg.table g) : g.Valid ∧ ((∃ g₀, v.Known cfg.table g₀ ∧ g.SameSpan g₀) ∨
      v.seen g.sym = some (g.firstId - 1) ∧ v'.seen g.sym = some (g.lastId + 1) ∧
        v'.live g.sym = some (g.lastId + 1)) := by
  have hold : ∀ {g₀}, v.Known cfg.table g₀ → g₀.Valid ∧
      ((∃ g₁, v.Known cfg.table g₁ ∧ g₀.SameSpan g₁) ∨
        v.seen g₀.sym = some (g₀.firstId - 1) ∧ v'.seen g₀.sym = some (g₀.lastId + 1) ∧
          v'.live g₀.sym = some (g₀.lastId + 1)) :=
    fun hg₀ => ⟨(hs.gaps _ hg₀).1, .inl ⟨_, hg₀, .refl _⟩⟩
  cases h with
  | quiet => exact hold hg
  | unseeded => exact hold hg
  | resume hmay hready =>
      obtain hg | hg := hg
      · exact hold ((List.mem_append.mp hg).imp_right .inr)
      · exact hold (.inr hg)
  | live sym id time hready hdue hlive hnext => exact hold hg
  | jump sym id time nowNs last reason hready hdue hlive hseen hgap =>
      have hpos := (hs.seen sym last hseen).1
      have hnew : g = { sym := sym, firstId := last + 1, lastId := id - 1 } →
          g.Valid ∧ ((∃ g₀, v.Known cfg.table g₀ ∧ g.SameSpan g₀) ∨
            v.seen g.sym = some (g.firstId - 1) ∧
              Function.update v.seen sym (some (id : Int)) g.sym = some (g.lastId + 1) ∧
              Function.update v.live sym (some (id : Int)) g.sym = some (g.lastId + 1)) := by
        rintro rfl
        refine ⟨?_, .inr ⟨?_, ?_, ?_⟩⟩
        · exact { firstId_pos := by simp only; omega, first_le_last := by simp only; omega
                  progress := .inl ⟨rfl, rfl⟩ }
        · simp [hseen]
        · simp
        · simp
      obtain hg | ⟨e, he, hg⟩ | hg := hg
      · obtain hg | hg := List.mem_append.mp hg
        · exact hold (.inl hg)
        · exact hnew (List.mem_singleton.mp hg)
      · obtain he | he := List.mem_append.mp he
        · exact hold (.inr (.inl ⟨e, he, hg⟩))
        · rw [List.mem_singleton.mp he] at hg
          exact hnew hg.symm
      · exact hold (.inr (.inr hg))
  | work new queue nowNs hready hdue hworked =>
      obtain ⟨hgaps, hout⟩ := hworked.within fun g hg => (hs.gaps g (.inl hg)).1
      obtain hg | ⟨e, he, hg⟩ | hg := hg
      · obtain ⟨hvalid, g₀, hg₀, hspan⟩ := hgaps g hg
        exact ⟨hvalid, .inl ⟨g₀, .inl hg₀, hspan⟩⟩
      · obtain he | he := List.mem_append.mp he
        · exact hold (.inr (.inl ⟨e, he, hg⟩))
        · obtain ⟨job, g', status, reason, ho, rfl⟩ := mem_dueEvents_callback he
          obtain rfl : g' = g := hg
          obtain ⟨hvalid, g₀, hg₀, hspan⟩ := hout _ ho
          exact ⟨hvalid, .inl ⟨g₀, .inl hg₀, hspan⟩⟩
      · exact hold (.inr (.inr hg))
  | publish r due hdue => exact hold hg
  | deliver skipped r left hheld hskip =>
      obtain hg | hg | hg := hg
      · exact hold (.inl hg)
      · exact hold (.inr (.inl hg))
      · obtain ⟨g₀, hg₀, hspan, hvalid⟩ := openGaps_deliver (v := v) (r := r) hg rfl rfl
        have hknown : v.Known cfg.table g₀ := .inr (.inr hg₀)
        exact ⟨hvalid (hs.gaps g₀ hknown).1, .inl ⟨g₀, hknown, hspan⟩⟩
  | event e rest events hevents hleft hheld =>
      have he : e ∈ v.events := hevents ▸ List.mem_cons_self
      obtain hg | ⟨e', he', hg⟩ | hg := hg
      · exact hold (.inl hg)
      · have hmem : e' ∈ v.events := by
          obtain hleft | hleft := hleft
          · rw [hevents]
            exact List.mem_cons_of_mem e (hleft ▸ he')
          · rw [hevents]
            exact hleft ▸ he'
        exact hold (.inr (.inl ⟨e', hmem, hg⟩))
      · obtain rfl | hg := openGaps_event hg rfl rfl
        · exact hold (.inr (.inl ⟨e, he, rfl⟩))
        · exact hold (.inr (.inr hg))
  | crash hmay =>
      obtain hg | ⟨e, he, -⟩ | hg := hg
      · cases hg
      · cases he
      · exact hold (.inr (.inr hg))

/-- A row after a move is one from before, the trade that was just sent, or backfilled in a gap. -/
theorem row (h : Moves δ cfg may v v') (hs : v.Sound cfg.table) {r : TradeRow}
    (hr : r ∈ v'.stream) : r ∈ v.stream ∨
      (0 ≤ r.id ∧ (∀ l ∈ v.live r.sym, l < r.id) ∧ v'.live r.sym = some r.id ∧
        v'.seen r.sym = some r.id) ∨
      r.exchEventTimeMs = none ∧
        ∃ g ∈ v.queue, r.sym = g.sym ∧ g.firstId ≤ r.id ∧ r.id ≤ g.lastId := by
  cases h with
  | quiet => exact .inl hr
  | unseeded => exact .inl hr
  | resume hmay hready => exact .inl hr
  | live sym id time hready hdue hlive hnext =>
      obtain hr | hr := List.mem_append.mp hr
      · exact .inl (List.mem_append_left _ hr)
      · have hmax : orMax (id : Int) (v.seen sym) = id := by
          obtain heq | hmem := orMax_eq_or (id : Int) (v.seen sym)
          · exact heq
          · obtain ⟨-, l, hl, hle⟩ := hs.seen sym _ hmem
            have hlt := hlive l hl
            have hge := (le_orMax (id : Int) (v.seen sym)).1
            omega
        rw [List.mem_singleton.mp hr]
        exact .inr (.inl ⟨Int.natCast_nonneg id, hlive, by simp, by simp [hmax]⟩)
  | jump sym id time nowNs last reason hready hdue hlive hseen hgap =>
      obtain hr | hr := List.mem_append.mp hr
      · exact .inl (List.mem_append_left _ hr)
      · rw [List.mem_singleton.mp hr]
        exact .inr (.inl ⟨Int.natCast_nonneg id, hlive, by simp, by simp⟩)
  | work new queue nowNs hready hdue hworked =>
      obtain hr | hr := List.mem_append.mp hr
      · exact .inl (List.mem_append_left _ hr)
      · have hout := (hworked.within fun g hg => (hs.gaps g (.inl hg)).1).2
        obtain ⟨job, sym, t, recv, ho, rfl⟩ := mem_dueRows_callback hr
        exact .inr (.inr ⟨rfl, hout _ ho⟩)
  | publish r' due hdue =>
      left
      simp only [stream, hdue, List.append_assoc, List.singleton_append] at hr ⊢
      exact hr
  | deliver skipped r' left hheld hskip =>
      left
      simp only [stream, hheld, List.mem_append, List.mem_cons] at hr ⊢
      tauto
  | event e rest events hevents hleft hheld => exact .inl hr
  | crash hmay =>
      left
      simp only [stream, List.append_nil] at hr
      exact List.mem_append_left _ (List.mem_append_left _ hr)

/-- What the handler sees as the last id: the same as before, what TP told it, or the trade that
was just sent. -/
theorem seen_cases (h : Moves δ cfg may v v') {sym : String} {l : Int} (hl : l ∈ v'.seen sym) :
    l ∈ v.seen sym ∨ (v.ready = false ∧ may.resume ∧ l ∈ v.lastId sym) ∨
      0 ≤ l ∧ l ∈ v'.live sym := by
  cases h with
  | resume hmay hready => exact .inr (.inl ⟨hready, hmay, hl⟩)
  | live sym' id time hready hdue hlive hnext =>
      simp only at hl ⊢
      by_cases hsym : sym = sym'
      · rw [hsym, Function.update_self, Option.mem_some_iff] at hl
        rw [hsym, Function.update_self]
        obtain heq | hmem := orMax_eq_or (id : Int) (v.seen sym')
        · exact .inr (.inr ⟨by omega, congrArg some (heq.symm.trans hl)⟩)
        · exact .inl (hl ▸ hmem)
      · rw [Function.update_of_ne hsym] at hl
        exact .inl hl
  | jump sym' id time nowNs last reason hready hdue hlive hseen hgap =>
      simp only at hl ⊢
      by_cases hsym : sym = sym'
      · rw [hsym, Function.update_self, Option.mem_some_iff] at hl
        rw [hsym, Function.update_self]
        exact .inr (.inr ⟨by omega, congrArg some hl⟩)
      · rw [Function.update_of_ne hsym] at hl
        exact .inl hl
  | crash hmay => cases hl
  | _ => exact .inl hl

theorem starting (h : Moves δ cfg may v v') (hs : v.Sound cfg.table) (hready : v'.ready = false) :
    v'.held = [] ∧ v'.due = [] ∧ v'.events = [] ∧ v'.queue = [] ∧ v'.seen = fun _ => none := by
  cases h with
  | quiet => exact hs.starting hready
  | unseeded hmay hstart => cases hready
  | resume hmay hstart => cases hready
  | live sym id time hrun hdue hlive hnext => exact absurd (hrun.symm.trans hready) nofun
  | jump sym id time nowNs last reason hrun hdue hlive hseen hgap =>
      exact absurd (hrun.symm.trans hready) nofun
  | work new queue nowNs hrun hdue hworked => exact absurd (hrun.symm.trans hready) nofun
  | publish r due hdue => exact absurd ((hs.starting hready).2.1.symm.trans hdue) nofun
  | deliver skipped r left hheld hskip =>
      have hnone := (hs.starting hready).1.symm.trans hheld
      simp at hnone
  | event e rest events hevents hleft hheld =>
      exact absurd ((hs.starting hready).2.2.1.symm.trans hevents) nofun
  | crash hmay => exact ⟨rfl, rfl, rfl, rfl, rfl⟩

theorem isLast (h : Moves δ cfg may v v') (hl : IsLast v.logged v.lastId) :
    IsLast v'.logged v'.lastId := by
  cases h with
  | deliver skipped r left hheld hskip => exact hl.snoc r
  | _ => exact hl

end Moves

theorem not_known_init {φ : Type*} (cfg : HandlerConfig) (g : TradeGap) :
    ¬ (TradeWorld.ledger cfg ({} : TradeWorld φ δ)).Known cfg.table g := by
  rintro (hg | ⟨e, he, -⟩ | hg)
  · cases hg
  · cases he
  · cases hg

theorem Sound.init {φ : Type*} (cfg : HandlerConfig) :
    (TradeWorld.ledger cfg ({} : TradeWorld φ δ)).Sound cfg.table :=
  { starting := fun _ => ⟨rfl, rfl, rfl, rfl, rfl⟩, rows := nofun
    last := { le := nofun, mem := nofun }, gaps := fun g hg => absurd hg (not_known_init cfg g)
    seen := nofun }

/-- Every move keeps it. -/
theorem Sound.moves {cfg : HandlerConfig} {may : Allowed} {v v' : Ledger}
    (hs : v.Sound cfg.table) (h : Moves δ cfg may v v') : v'.Sound cfg.table := by
  constructor
  case starting => exact h.starting hs
  case last => exact h.isLast hs.last
  case rows =>
    intro r hr
    obtain hr | ⟨hpos, -, hlive, -⟩ | ⟨-, g, hg, hsym, hfirst, hlast⟩ := h.row hs hr
    · obtain ⟨hpos, l, hl, hle⟩ := hs.rows r hr
      obtain ⟨l', hl', hle'⟩ := h.live_mono r.sym l hl
      exact ⟨hpos, l', hl', hle.trans hle'⟩
    · exact ⟨hpos, r.id, hlive, le_rfl⟩
    · obtain ⟨hvalid, l, hl, hle⟩ := hs.gaps g (.inl hg)
      obtain ⟨l', hl', hle'⟩ := h.live_mono g.sym l hl
      have hpos := hvalid.firstId_pos
      exact ⟨by omega, l', hsym ▸ hl', by omega⟩
  case gaps =>
    intro g hg
    obtain ⟨hvalid, ⟨g₀, hg₀, hspan⟩ | ⟨-, -, hlive⟩⟩ := h.known hs hg
    · obtain ⟨-, l, hl, hle⟩ := hs.gaps g₀ hg₀
      obtain ⟨l', hl', hle'⟩ := h.live_mono g₀.sym l hl
      exact ⟨hvalid, l', hspan.1 ▸ hl', by rw [hspan.2.2]; exact hle.trans hle'⟩
    · exact ⟨hvalid, _, hlive, by omega⟩
  case seen =>
    intro sym l hl
    obtain hl | ⟨-, -, hl⟩ | ⟨hpos, hl⟩ := h.seen_cases hl
    · obtain ⟨hpos, l₀, hl₀, hle⟩ := hs.seen sym l hl
      obtain ⟨l', hl', hle'⟩ := h.live_mono sym l₀ hl₀
      exact ⟨hpos, l', hl', hle.trans hle'⟩
    · obtain ⟨r, hr, rfl, rfl⟩ := hs.last.mem sym l hl
      obtain ⟨hpos, l₀, hl₀, hle⟩ :=
        hs.rows r (List.mem_append_left _ (List.mem_append_left _ hr))
      obtain ⟨l', hl', hle'⟩ := h.live_mono r.sym l₀ hl₀
      exact ⟨hpos, l', hl', hle.trans hle'⟩
    · exact ⟨hpos, l, hl, le_rfl⟩

end Ledger

end TickToSignal.Trade
