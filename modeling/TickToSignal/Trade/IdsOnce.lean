import TickToSignal.Foundation.Machine
import TickToSignal.Trade.LedgerSound

/-!
# Each trade id is logged once

The ids of live trades rise, and a gap is backfilled from its first id on, so a
row is published twice only where two gaps overlap or where a gap still needs an
id that is logged. A start can bring that about: it resumes the open gaps of TP,
and the handler's first id there is the last one logged. `ResumesRight` excludes
such starts.

## Implementation notes

`Tidy` speaks of the rows in the log and of those on their way to it together, so
a row that a lost connection drops is only one row less.
-/

namespace TickToSignal.Trade

open Foundation Publisher Tp

variable {φ δ : Type*}

/-- The symbol and the exchange's id of a row. -/
def rowKey (r : TradeRow) : String × Int := (r.sym, r.id)

namespace TradeGap

/-- No id is missing in both. -/
def Apart (g g' : TradeGap) : Prop :=
  g.sym = g'.sym → g.lastId < g'.firstId ∨ g'.lastId < g.firstId

/-- No id is missing in both, unless the two are one gap. -/
def Compat (g g' : TradeGap) : Prop :=
  g.sym = g'.sym → (g.firstId = g'.firstId ∧ g.lastId = g'.lastId) ∨
    g.lastId < g'.firstId ∨ g'.lastId < g.firstId

theorem Compat.of_spans {g g' g₀ g₀' : TradeGap} (h : g₀.Compat g₀') (hg : g.SameSpan g₀)
    (hg' : g'.SameSpan g₀') : g.Compat g' := by
  intro hsym
  rw [hg.2.1, hg.2.2, hg'.2.1, hg'.2.2]
  exact h (hg.1.symm.trans (hsym.trans hg'.1))

/-- No row has an id that the gap still needs. -/
def Free (g : TradeGap) (rows : List TradeRow) : Prop :=
  ∀ r ∈ rows, r.sym = g.sym → r.id < g.nextNeededId ∨ g.lastId < r.id

theorem Free.append {g : TradeGap} {rows rows' : List TradeRow} (h : g.Free rows)
    (h' : g.Free rows') : g.Free (rows ++ rows') := by
  intro r hr
  obtain hr | hr := List.mem_append.mp hr
  · exact h r hr
  · exact h' r hr

end TradeGap

open TradeGap

/-! ## One pump -/

section Worked
variable {cfg : HandlerConfig} {nowNs : Int} {gs gs' : List TradeGap} {new : List (Out δ)}
  {rows : List TradeRow}

/-- The rows of a page, as they are published. -/
theorem dueRows_page (job : Nat) (sym : String) (recv : Int) (ts : List (BackfillTrade δ)) :
    dueRows ((ts.map fun t => Out.row job sym t recv).flatMap
        (TradeFeedHandler.callback cfg nowNs)) =
      ts.map fun t => { sym := sym, id := t.id, exchEventTimeMs := none } := by
  induction ts with
  | nil => rfl
  | cons t ts ih =>
      rw [List.map_cons, List.flatMap_cons, dueRows_append, ih]
      rfl

/-- The rows of a page are the next ones of its gap, each once. -/
theorem page_keys (g : TradeGap) {ts : List (BackfillTrade δ)}
    (hids : ts.map (·.id) = (List.range ts.length).map fun i : Nat => g.nextNeededId + i) :
    ((ts.map fun t => ({ sym := g.sym, id := t.id, exchEventTimeMs := none } : TradeRow)).map
        rowKey).Nodup ∧
      ∀ r ∈ ts.map (fun t => ({ sym := g.sym, id := t.id, exchEventTimeMs := none } : TradeRow)),
        r.sym = g.sym ∧ g.nextNeededId ≤ r.id ∧ r.id < g.nextNeededId + ts.length := by
  constructor
  · have hkeys : (ts.map fun t =>
        ({ sym := g.sym, id := t.id, exchEventTimeMs := none } : TradeRow)).map rowKey =
          (ts.map (·.id)).map fun id => (g.sym, id) := by
      simp only [List.map_map]
      rfl
    rw [hkeys, hids, List.map_map]
    apply List.Nodup.map _ List.nodup_range
    intro i j hij
    simp only [Function.comp_apply, Prod.mk.injEq, true_and] at hij
    omega
  · intro r hr
    obtain ⟨t, ht, rfl⟩ := List.mem_map.mp hr
    have hid : t.id ∈ ts.map (·.id) := List.mem_map_of_mem ht
    rw [hids, List.mem_map] at hid
    obtain ⟨i, hi, heq⟩ := hid
    rw [List.mem_range] at hi
    exact ⟨rfl, by simp only; omega, by simp only; omega⟩

/-- Gaps that are apart stay so. -/
theorem Worked.apart (h : Worked gs new gs') (hapart : gs.Pairwise Apart) :
    gs'.Pairwise Apart := by
  induction h with
  | nothing gs => exact hapart
  | applied gs job r => exact hapart
  | report g gs job status reason => exact hapart
  | finish g gs job status reason => exact (List.pairwise_cons.mp hapart).2
  | rows g gs job recv ts hids hlast =>
      obtain ⟨hhead, htail⟩ := List.pairwise_cons.mp hapart
      refine List.pairwise_cons.mpr ⟨fun g' hg' => ?_, htail⟩
      obtain ⟨hsym, hfirst', hlast'⟩ := SameSpan.advance g ts.length
      simp only [Apart, hsym, hfirst', hlast']
      exact hhead g' hg'
  | trans h h' ih ih' => exact ih' (ih hapart)

/-- Gaps that are apart and need no row that is there are backfilled without repeating one. -/
theorem Worked.fresh (h : Worked gs new gs') (hvalid : ∀ g ∈ gs, g.Valid)
    (hapart : gs.Pairwise Apart) (hnodup : (rows.map rowKey).Nodup)
    (hfree : ∀ g ∈ gs, g.Free rows) :
    ((rows ++ dueRows (new.flatMap (TradeFeedHandler.callback cfg nowNs))).map rowKey).Nodup ∧
      ∀ g ∈ gs', g.Free (rows ++ dueRows (new.flatMap (TradeFeedHandler.callback cfg nowNs))) := by
  induction h generalizing rows with
  | nothing gs => exact ⟨by simpa using hnodup, by simpa using hfree⟩
  | applied gs job r =>
      exact ⟨by simpa [TradeFeedHandler.callback] using hnodup,
        by simpa [TradeFeedHandler.callback] using hfree⟩
  | report g gs job status reason =>
      exact ⟨by simpa [TradeFeedHandler.callback] using hnodup,
        by simpa [TradeFeedHandler.callback] using hfree⟩
  | finish g gs job status reason =>
      refine ⟨by simpa [TradeFeedHandler.callback] using hnodup, ?_⟩
      intro g' hg'
      simpa [TradeFeedHandler.callback] using hfree g' (List.mem_cons_of_mem g hg')
  | rows g gs job recv ts hids hlast =>
      have hg := hvalid g List.mem_cons_self
      have hfirst := hg.firstId_le_next
      have hhead := (List.pairwise_cons.mp hapart).1
      obtain ⟨hkeys, hbounds⟩ := page_keys g hids
      rw [dueRows_page]
      generalize ts.map (fun t => ({ sym := g.sym, id := t.id, exchEventTimeMs := none } :
        TradeRow)) = page at hkeys hbounds
      refine ⟨?_, fun g' hg' => ?_⟩
      · rw [List.map_append, List.nodup_append]
        refine ⟨hnodup, hkeys, ?_⟩
        rintro _ hk _ hk' rfl
        obtain ⟨r, hr, rfl⟩ := List.mem_map.mp hk
        obtain ⟨r', hr', heq⟩ := List.mem_map.mp hk'
        obtain ⟨hsym, hlow, hhigh⟩ := hbounds r' hr'
        obtain ⟨hsym', hid⟩ := Prod.mk.inj heq
        have hout := hfree g List.mem_cons_self r hr (hsym'.symm.trans hsym)
        omega
      · obtain rfl | hg' := List.mem_cons.mp hg'
        · have hnext := hg.advance_next ts.length
          refine Free.append (fun r hr hsym => ?_) fun r hr _ => ?_
          · have hout := hfree g List.mem_cons_self r hr (hsym.trans (advance_sym g _))
            rw [hnext, advance_lastId]
            omega
          · have hhigh := (hbounds r hr).2.2
            rw [hnext]
            omega
        · have hnext := (hvalid g' (List.mem_cons_of_mem g hg')).firstId_le_next
          refine Free.append (hfree g' (List.mem_cons_of_mem g hg')) fun r hr hsym => ?_
          obtain ⟨hsym', hlow, hhigh⟩ := hbounds r hr
          have hout := hhead g' hg' (hsym'.symm.trans hsym)
          omega
  | trans h h' ih ih' =>
      obtain ⟨hnodup, hfree⟩ := ih hvalid hapart hnodup hfree
      have hwithin := (h.within hvalid).1
      have hboth := ih' (fun g hg => (hwithin g hg).1) (h.apart hapart) hnodup hfree
      simpa only [List.flatMap_append, dueRows_append, List.append_assoc] using hboth

end Worked

/-! ## Every move -/

namespace Ledger

/-- Rows and gaps do not overlap. -/
structure Tidy (table : Table) (v : Ledger) : Prop where
  nodup : (v.stream.map rowKey).Nodup
  compat : ∀ g g', v.Known table g → v.Known table g' → g.Compat g'
  apart : v.queue.Pairwise Apart
  free : ∀ g ∈ v.queue, g.Free v.stream
  rows : ∀ r ∈ v.stream, ∀ l ∈ v.seen r.sym, r.id ≤ l
  gaps : ∀ g, v.Known table g → ∀ l ∈ v.seen g.sym, g.lastId ≤ l

/-- Every open gap ends at or below the last id logged of its symbol, and needs no id that is
logged. -/
def Resumable (table : Table) (v : Ledger) : Prop :=
  ∀ g ∈ v.openGaps table, (∃ l ∈ v.lastId g.sym, g.lastId ≤ l) ∧ g.Free v.logged

variable {table : Table} {cfg : HandlerConfig} {may : Allowed} {v v' : Ledger}

/-- Two open gaps of a table start at different ids. -/
theorem openGaps_apart
    (hcompat : ∀ g g', v.Known table g → v.Known table g' → g.Compat g') :
    (v.openGaps table).Pairwise Apart := by
  have hkeys : ((v.gapLog.map (·.key)).reverse.dedup.reverse).Pairwise (· ≠ ·) :=
    List.nodup_reverse.mpr (List.nodup_dedup _)
  rw [openGaps, List.pairwise_filterMap]
  refine hkeys.imp_of_mem fun {k k'} hk hk' hne g hg g' hg' hsym => ?_
  have hknown : v.Known table g := .inr (.inr (List.mem_filterMap.mpr ⟨k, hk, hg⟩))
  have hknown' : v.Known table g' := .inr (.inr (List.mem_filterMap.mpr ⟨k', hk', hg'⟩))
  have hspec : k.srcTable = table ∧ g.sym = k.sym ∧ g.firstId = k.firstMissingId := by
    split at hg
    · split_ifs at hg with hopen
      obtain rfl := Option.some.inj hg
      exact ⟨hopen.1, rfl, rfl⟩
    · cases hg
  have hspec' : k'.srcTable = table ∧ g'.sym = k'.sym ∧ g'.firstId = k'.firstMissingId := by
    split at hg'
    · split_ifs at hg' with hopen
      obtain rfl := Option.some.inj hg'
      exact ⟨hopen.1, rfl, rfl⟩
    · cases hg'
  obtain ⟨htable, hksym, hfirst⟩ := hspec
  obtain ⟨htable', hksym', hfirst'⟩ := hspec'
  obtain ⟨hsame, -⟩ | hapart := hcompat g g' hknown hknown' hsym
  · refine absurd ?_ hne
    cases k
    cases k'
    simp_all
  · exact hapart

/-- Fewer rows and the same gaps to backfill. -/
theorem Tidy.of_sublist (h : v.Tidy table) (hrows : v'.stream.Sublist v.stream)
    (hqueue : v'.queue = v.queue ∨ v'.queue = []) :
    (v'.stream.map rowKey).Nodup ∧ v'.queue.Pairwise Apart ∧ ∀ g ∈ v'.queue, g.Free v'.stream := by
  refine ⟨h.nodup.sublist (hrows.map rowKey), ?_, ?_⟩
  · obtain hqueue | hqueue := hqueue
    · exact hqueue ▸ h.apart
    · exact hqueue ▸ .nil
  · obtain hqueue | hqueue := hqueue
    · exact hqueue ▸ fun g hg r hr => h.free g hg r (hrows.subset hr)
    · rw [hqueue]
      nofun

/-- The trade that was just sent is above everything. -/
theorem Tidy.snoc (h : v.Tidy table) (hs : v.Sound table) (hdue : v.due = []) (r : TradeRow)
    (hlive : ∀ l ∈ v.live r.sym, l < r.id) :
    ((v.logged ++ v.held ++ [r]).map rowKey).Nodup ∧
      ∀ g ∈ v.queue, g.Free (v.logged ++ v.held ++ [r]) := by
  have hstream : v.stream = v.logged ++ v.held := by simp [stream, hdue]
  constructor
  · rw [← hstream, List.map_append, List.nodup_append]
    refine ⟨h.nodup, List.nodup_singleton _, ?_⟩
    rintro _ hk _ hk' rfl
    obtain ⟨r', hr', heq⟩ := List.mem_map.mp hk
    rw [List.map_singleton, List.mem_singleton] at hk'
    obtain ⟨hsym, hid⟩ := Prod.mk.inj (heq.trans hk')
    obtain ⟨-, l, hl, hle⟩ := hs.rows r' hr'
    have hlt := hlive l (hsym ▸ hl)
    omega
  · intro g hg
    rw [← hstream]
    refine (h.free g hg).append fun r' hr' hsym => ?_
    obtain rfl := List.mem_singleton.mp hr'
    obtain ⟨-, l, hl, hle⟩ := hs.gaps g (.inl hg)
    have hlt := hlive l (hsym ▸ hl)
    omega

/-- A gap that a trade reveals is above everything but that trade. -/
theorem Tidy.reveal (h : v.Tidy table) (hdue : v.due = []) {sym : String} {last : Int}
    (hseen : v.seen sym = some last) (id : Int) (time : Option Int) :
    (∀ g ∈ v.queue, g.Apart { sym := sym, firstId := last + 1, lastId := id - 1 }) ∧
      Free { sym := sym, firstId := last + 1, lastId := id - 1 }
        (v.logged ++ v.held ++ [{ sym := sym, id := id, exchEventTimeMs := time }]) := by
  have hstream : v.stream = v.logged ++ v.held := by simp [stream, hdue]
  constructor
  · intro g hg hsym
    have hle := h.gaps g (.inl hg) last (hsym ▸ hseen)
    left
    simp only
    omega
  · rw [← hstream]
    refine Free.append (fun r hr hsym => ?_) fun r hr _ => ?_
    · have hle := h.rows r hr last (hsym ▸ hseen)
      left
      simp only [nextNeededId, lt_irrefl, if_false]
      omega
    · rw [List.mem_singleton.mp hr]
      right
      simp only
      omega

/-- What a start with the trade state resumes. -/
theorem Tidy.resume (h : v.Tidy table) (hs : v.Sound table) (hready : v.ready = false)
    (hresume : v.Resumable table) :
    (v.queue ++ v.openGaps table).Pairwise Apart ∧
      ∀ g ∈ v.queue ++ v.openGaps table, g.Free v.stream := by
  obtain ⟨hheld, hdue, -, hqueue, -⟩ := hs.starting hready
  rw [hqueue, List.nil_append]
  refine ⟨openGaps_apart h.compat, fun g hg => ?_⟩
  have hstream : v.stream = v.logged := by simp [stream, hheld, hdue]
  exact hstream ▸ (hresume g hg).2

/-- What the handler sees as the last id stays above every row and every gap. -/
theorem Tidy.le_seen (h : v.Tidy cfg.table) (hs : v.Sound cfg.table)
    (hmove : Moves δ cfg may v v') (hresume : may.resume → v.Resumable cfg.table) {sym : String}
    {b l : Int}
    (hb : (∃ r ∈ v.stream, r.sym = sym ∧ r.id = b) ∨
      ∃ g, v.Known cfg.table g ∧ g.sym = sym ∧ g.lastId = b)
    (hl : l ∈ v'.seen sym) : b ≤ l := by
  obtain hl | ⟨hready, hmay, hl⟩ | ⟨-, hl⟩ := hmove.seen_cases hl
  · obtain ⟨r, hr, rfl, rfl⟩ | ⟨g, hg, rfl, rfl⟩ := hb
    · exact h.rows r hr l hl
    · exact h.gaps g hg l hl
  · obtain ⟨hheld, hdue, hevents, hqueue, -⟩ := hs.starting hready
    obtain ⟨r, hr, rfl, rfl⟩ | ⟨g, hg, rfl, rfl⟩ := hb
    · have hlogged : r ∈ v.logged := by simpa [stream, hheld, hdue] using hr
      obtain ⟨l', hl', hle⟩ := hs.last.le r hlogged
      exact Option.some.inj (hl'.symm.trans hl) ▸ hle
    · have hopen : g ∈ v.openGaps cfg.table := by simpa [Known, hevents, hqueue] using hg
      obtain ⟨l', hl', hle⟩ := (hresume hmay g hopen).1
      exact Option.some.inj (hl'.symm.trans hl) ▸ hle
  · obtain ⟨l₀, hl₀, hle⟩ : ∃ l₀ ∈ v.live sym, b ≤ l₀ := by
      obtain ⟨r, hr, rfl, rfl⟩ | ⟨g, hg, rfl, rfl⟩ := hb
      · exact (hs.rows r hr).2
      · exact (hs.gaps g hg).2
    obtain ⟨l', hl', hle'⟩ := hmove.live_mono sym l₀ hl₀
    exact Option.some.inj (hl'.symm.trans hl) ▸ hle.trans hle'

/-- Every move keeps it, if what a start resumes does not overlap. -/
theorem Tidy.moves (h : v.Tidy cfg.table) (hs : v.Sound cfg.table)
    (hmove : Moves δ cfg may v v') (hresume : may.resume → v.Resumable cfg.table) :
    v'.Tidy cfg.table := by
  have hbackfill : (v'.stream.map rowKey).Nodup ∧ v'.queue.Pairwise Apart ∧
      ∀ g ∈ v'.queue, g.Free v'.stream := by
    cases hmove with
    | quiet => exact h.of_sublist (.refl _) (.inl rfl)
    | unseeded hmay hready => exact h.of_sublist (.refl _) (.inl rfl)
    | resume hmay hready => exact ⟨h.nodup, h.resume hs hready (hresume hmay)⟩
    | live sym id time hready hdue hlive hnext =>
        obtain ⟨hnodup, hfree⟩ := h.snoc hs hdue
          { sym := sym, id := id, exchEventTimeMs := some time } hlive
        exact ⟨hnodup, h.apart, hfree⟩
    | jump sym id time nowNs last reason hready hdue hlive hseen hgap =>
        obtain ⟨hnodup, hfree⟩ := h.snoc hs hdue
          { sym := sym, id := id, exchEventTimeMs := some time } hlive
        obtain ⟨hapart, hnew⟩ := h.reveal hdue hseen id (some time)
        refine ⟨hnodup, List.pairwise_append.mpr ⟨h.apart, List.pairwise_singleton _ _, ?_⟩, ?_⟩
        · intro g hg g' hg'
          obtain rfl := List.mem_singleton.mp hg'
          exact hapart g hg
        · intro g hg
          obtain hg | hg := List.mem_append.mp hg
          · exact hfree g hg
          · obtain rfl := List.mem_singleton.mp hg
            exact hnew
    | work new queue nowNs hready hdue hworked =>
        have hvalid : ∀ g ∈ v.queue, g.Valid := fun g hg => (hs.gaps g (.inl hg)).1
        have hstream : v.stream = v.logged ++ v.held := by simp [stream, hdue]
        obtain ⟨hnodup, hfree⟩ := hworked.fresh hvalid h.apart h.nodup h.free
        rw [hstream] at hnodup hfree
        exact ⟨hnodup, hworked.apart h.apart, hfree⟩
    | publish r due hdue =>
        refine h.of_sublist ?_ (.inl rfl)
        simp [stream, hdue]
    | deliver skipped r left hheld hskip =>
        refine h.of_sublist ?_ (.inl rfl)
        simp only [stream, hheld, List.append_assoc, List.singleton_append]
        exact (List.sublist_append_right skipped _).append_left _
    | event e rest events hevents hleft hheld => exact h.of_sublist (.refl _) (.inl rfl)
    | crash hmay =>
        refine h.of_sublist ?_ (.inr rfl)
        simp [stream]
  obtain ⟨hnodup, hapart, hfree⟩ := hbackfill
  constructor
  case nodup => exact hnodup
  case apart => exact hapart
  case free => exact hfree
  case compat =>
    intro g g' hg hg'
    obtain ⟨-, ⟨g₀, hg₀, hspan⟩ | ⟨hfirst, hlast, -⟩⟩ := hmove.known hs hg <;>
      obtain ⟨-, ⟨g₀', hg₀', hspan'⟩ | ⟨hfirst', hlast', -⟩⟩ := hmove.known hs hg'
    · exact (h.compat g₀ g₀' hg₀ hg₀').of_spans hspan hspan'
    · intro hsym
      have hle := h.gaps g₀ hg₀ (g'.firstId - 1) (by rw [← hspan.1, hsym]; exact hfirst')
      have hlast₀ := hspan.2.2
      omega
    · intro hsym
      have hle := h.gaps g₀' hg₀' (g.firstId - 1) (by rw [← hspan'.1, ← hsym]; exact hfirst)
      have hlast₀ := hspan'.2.2
      omega
    · intro hsym
      rw [hsym] at hfirst hlast
      have heq := Option.some.inj (hfirst.symm.trans hfirst')
      have heq' := Option.some.inj (hlast.symm.trans hlast')
      omega
  case rows =>
    intro r hr l hl
    obtain hr | ⟨-, -, -, hseen⟩ | ⟨-, g, hg, hsym, -, hlast⟩ := hmove.row hs hr
    · exact h.le_seen hs hmove hresume (.inl ⟨r, hr, rfl, rfl⟩) hl
    · exact (Option.some.inj (hseen.symm.trans hl)).le
    · exact hlast.trans (h.le_seen hs hmove hresume (.inr ⟨g, .inl hg, hsym.symm, rfl⟩) hl)
  case gaps =>
    intro g hg l hl
    obtain ⟨-, ⟨g₀, hg₀, hspan⟩ | ⟨-, hlast, -⟩⟩ := hmove.known hs hg
    · exact h.le_seen hs hmove hresume (.inr ⟨g₀, hg₀, hspan.1.symm, hspan.2.2.symm⟩) hl
    · have heq := Option.some.inj (hlast.symm.trans hl)
      omega

end Ledger

/-! ## The result -/

/-- A start that gets the trade state finds every open gap to end at or below the last id logged
of its symbol, and no id logged that such a gap still needs. -/
def ResumesRight (cfg : HandlerConfig) (w : TradeWorld φ δ) : TradeStep φ → Prop
  | .tradeState true => ∀ g ∈ w.openGaps cfg,
      (∃ l ∈ w.mem.lastId cfg.table g.sym, g.lastId ≤ l) ∧
        ∀ e ∈ w.link.log, e.2.data.sym = g.sym →
          e.2.data.id < g.nextNeededId ∨ g.lastId < e.2.data.id
  | _ => True

instance (cfg : HandlerConfig) (w : TradeWorld φ δ) (s : TradeStep φ) :
    Decidable (ResumesRight cfg w s) :=
  match s with
  | .tradeState true => inferInstanceAs (Decidable (∀ g ∈ w.openGaps cfg,
      (∃ l ∈ w.mem.lastId cfg.table g.sym, g.lastId ≤ l) ∧
        ∀ e ∈ w.link.log, e.2.data.sym = g.sym →
          e.2.data.id < g.nextNeededId ∨ g.lastId < e.2.data.id))
  | .tradeState false | .start .. | .register .. | .resendRow .. | .connLost | .tpProcess
  | .message .. | .pump .. | .health | .workerPop | .workerPush | .act .. | .sendEvent ..
  | .crash => .isTrue trivial

theorem ResumesRight.resumable {cfg : HandlerConfig} {w : TradeWorld φ δ}
    (h : ResumesRight cfg w (.tradeState true)) : (w.ledger cfg).Resumable cfg.table := by
  intro g hg
  obtain ⟨hlast, hfree⟩ := h g hg
  refine ⟨hlast, fun r hr => ?_⟩
  obtain ⟨e, he, rfl⟩ := List.mem_map.mp hr
  exact hfree e he

/-- What every run with such starts keeps. -/
structure Once (cfg : HandlerConfig) (w : TradeWorld φ δ) : Prop where
  linked : Linked cfg w
  sound : (w.ledger cfg).Sound cfg.table
  tidy : (w.ledger cfg).Tidy cfg.table

namespace Once

variable {cfg : HandlerConfig} {w : TradeWorld φ δ}

theorem init (cfg : HandlerConfig) : Once cfg ({} : TradeWorld φ δ) := by
  refine { linked := .init cfg, sound := .init cfg, tidy := ?_ }
  exact
    { nodup := List.nodup_nil, compat := fun g _ hg => absurd hg (Ledger.not_known_init cfg g)
      apart := .nil, free := nofun, rows := nofun
      gaps := fun g hg => absurd hg (Ledger.not_known_init cfg g) }

theorem step (h : Once cfg w) (fetch : Fetcher φ δ) (s : TradeStep φ)
    (hguard : ResumesRight cfg w s) : Once cfg (w.step cfg fetch s) := by
  let may : Allowed :=
    { gone := True, resume := (w.ledger cfg).Resumable cfg.table, unseeded := True, crash := True }
  have hstart : ∀ received, s = .tradeState received →
      if received = true ∧ w.link.linkUp = true then may.resume else may.unseeded := by
    rintro received rfl
    split_ifs with hreceived
    · obtain rfl := hreceived.1
      exact hguard.resumable
    · trivial
  have hmoved : Moved cfg may w (w.step cfg fetch s) :=
    h.linked.step fetch s (.inr trivial) hstart fun _ => trivial
  obtain ⟨hlinked, hmove⟩ := hmoved
  exact
    { linked := hlinked, sound := h.sound.moves hmove
      tidy := h.tidy.moves h.sound hmove fun hmay => hmay }

end Once

/-- Live and backfilled rows together, over crashes, restarts and lost connections: no id of a
symbol is in the log twice, if every start resumes right. -/
theorem trade_ids_logged_once (cfg : HandlerConfig) (fetch : Fetcher φ δ)
    (steps : List (TradeStep φ))
    (hrun : Admits (TradeWorld.step cfg fetch) (ResumesRight cfg) {} steps) :
    ((exec (TradeWorld.step cfg fetch) {} steps).link.log.map
      fun e => (e.2.data.sym, e.2.data.id)).Nodup := by
  have honce : Once cfg (exec (TradeWorld.step cfg fetch) {} steps) :=
    hrun.invariant (fun _ s h hguard => h.step fetch s hguard) (.init cfg)
  have hrows := honce.tidy.nodup
  simp only [Ledger.stream, List.map_append, List.append_assoc] at hrows
  have hlogged := hrows.sublist (List.sublist_append_left _ _)
  simp only [TradeWorld.ledger, Publisher.World.rows, List.map_map] at hlogged
  exact hlogged

/-- The process ends with a gap half backfilled; the next one resumes it. -/
private def resumedSteps : List (TradeStep Unit) :=
  [.start 1 (), .register false, .tradeState true,
    .message "BTCUSDT" 10 0 0, .act true, .act true, .tpProcess,
    .message "BTCUSDT" 13 0 0, .act true, .sendEvent .acked, .act true, .act true, .act true,
    .tpProcess, .pump 0 0, .workerPop, .workerPush, .pump 0 0, .act true, .tpProcess, .crash,
    .start 2 (), .register false, .tradeState true, .pump 1 0, .workerPop, .workerPush, .pump 1 0,
    .act true, .tpProcess]

theorem trade_ids_logged_once_resumed :
    let w := exec (TradeWorld.step demoConfig demoFetch) {} resumedSteps
    w.link.log.map (fun e => (e.1, e.2.data.id)) = [(1, 10), (1, 13), (1, 11), (2, 12)] ∧
      (w.link.log.map fun e => (e.2.data.sym, e.2.data.id)).Nodup :=
  ⟨by decide +kernel,
    trade_ids_logged_once demoConfig demoFetch resumedSteps (by decide +kernel)⟩

/-- Trade 15 reveals the gap 11 to 14; the gap is logged and the process ends before the trade is.
The next one resumes 11 to 14, and trade 20 reveals 11 to 19 to it. -/
private def overlapSteps : List (TradeStep Unit) :=
  [.start 1 (), .register false, .tradeState true,
    .message "BTCUSDT" 10 0 0, .act true, .act true, .tpProcess,
    .message "BTCUSDT" 15 0 0, .act true, .sendEvent .acked, .crash,
    .start 2 (), .register false, .tradeState true,
    .message "BTCUSDT" 20 0 0, .act true, .sendEvent .acked, .act true, .act true, .act true,
    .tpProcess, .pump 0 0, .workerPop, .workerPush, .pump 0 0, .act true, .act true, .act true,
    .act true, .act true, .tpProcess, .tpProcess, .tpProcess, .tpProcess, .sendEvent .acked,
    .act true, .workerPop, .workerPush, .pump 0 0, .act true, .tpProcess]

/-- Trade 11 is then backfilled and logged for both gaps. -/
theorem overlapping_gaps_repeat_id :
    let w := exec (TradeWorld.step demoConfig demoFetch) {} overlapSteps
    w.link.log.map (fun e => e.2.data.id) = [10, 20, 11, 12, 13, 14, 11] ∧
      ¬ (w.link.log.map fun e => (e.2.data.sym, e.2.data.id)).Nodup := by
  decide +kernel

end TickToSignal.Trade
