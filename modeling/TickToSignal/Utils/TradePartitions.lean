import TickToSignal.Utils.TradeLoader
import TickToSignal.Foundation.Machine

/-!
# What the historical trade loaders save

Before a partition is saved its files were fetched anew, or were known to be
those of the loader's own archive. So the three loaders can run one after the
other in one directory, be stopped anywhere and be run again: no partition holds
anything but its own archive, and none that exists is written again. A range
that is run again loads the days that are not there yet.

## Implementation notes

A loader that only loads is trusted with the files it finds. So are the shells
of the futures loaders, which do not notice an archive that breaks off.
-/

namespace TickToSignal.Utils.TradeLoader

open Foundation

variable {F : Type*}

/-! ## One load -/

/-- Rows of the archives of some symbols, sorted. -/
def Loaded (src : Source F) (ldr : Loader) (dt : Date) (rows : List (TradeRow F)) : Prop :=
  ∃ syms : List String, syms ≠ [] ∧ syms.Nodup ∧
    (∀ sym ∈ syms, '-' ∉ sym.toList ∧ (src.archive ldr sym dt).isSome) ∧
      rows = src.partition ldr syms dt

/-- No partition of `before` is changed, and each that is saved is that of a load. -/
structure Sound (src : Source F) (before : Loader × Date → Option (Partition F))
    (s : LoadState F) : Prop where
  kept : ∀ k p, before k = some p → s.hdb k = some p
  loads : ∀ ldr dt rows, s.hdb (ldr, dt) = some (.saved rows) → Loaded src ldr dt rows

section Load
variable {src : Source F} {before : Loader × Date → Option (Partition F)} {c : Session} {dt : Date}
  {s t : LoadState F} {p : Trail (LoadState F)}

theorem Sound.congr (h : Sound src before s) (hdb : t.hdb = s.hdb) : Sound src before t :=
  ⟨hdb ▸ h.kept, hdb ▸ h.loads⟩

theorem Quiet.sound (hp : Quiet p) : p.Keeps (Sound src before) :=
  fun s hs t ht => hs.congr (hp s s (SameResult.refl s) t ht).hdb

/-- The files of the day are those of the loader's own archive. -/
structure Ready (src : Source F) (c : Session) (dt : Date) (s : LoadState F) : Prop where
  nodup : c.syms.Nodup
  own : ∀ sym ∈ c.syms, (src.archive c.ldr sym dt).isSome ∧
    s.csv (c.ldr.file sym dt) = (src.archive c.ldr sym dt).map c.ldr.extracted

theorem Ready.rowsFound_eq (h : Ready src c dt s) :
    rowsFound src c s dt = src.partition c.ldr c.syms dt := by
  have hrows : (c.syms.flatMap fun sym => c.ldr.loadRows src.casts (c.ldr.file sym dt)
      ((s.csv (c.ldr.file sym dt)).getD [])) = c.syms.flatMap fun sym => src.rows c.ldr sym dt := by
    apply List.flatMap_congr
    intro sym hsym
    obtain ⟨hsome, hcsv⟩ := h.own sym hsym
    obtain ⟨archive, harchive⟩ := Option.isSome_iff_exists.mp hsome
    rw [hcsv, Source.rows, harchive]
    rfl
  have hsorted : (src.partition c.ldr c.syms dt).Pairwise fun r r' => r.sym ≤ r'.sym := by
    apply (sortBy_pairwise TradeRow.key _).imp
    intro r r' hle
    exact (Prod.Lex.monotone_fst _ _ hle : _)
  rw [rowsFound, hrows]
  exact sortBy_of_pairwise hsorted

theorem Ready.not_missing (h : Ready src c dt s) : missing c s dt = false := by
  rw [missing, List.any_eq_false]
  intro sym hsym hnone
  obtain ⟨hsome, hcsv⟩ := h.own sym hsym
  rw [hcsv, Option.isNone_map, Option.isNone_iff_eq_none] at hnone
  rw [hnone] at hsome
  cases hsome

/-- A partition that was not there is saved as that of a load. -/
theorem loadOneDate_sound (hs : Sound src before s) (hnew : partitionExists c s dt = false)
    (hplain : ∀ sym ∈ c.syms, '-' ∉ sym.toList) (hready : missing c s dt = false → Ready src c dt s) :
    ∀ t ∈ loadOneDate src c dt s, Sound src before t := by
  have hnone : s.hdb (c.ldr, dt) = none := by
    simpa [partitionExists] using hnew
  have hset : ∀ p : Partition F, (∀ rows, p = .saved rows → Loaded src c.ldr dt rows) →
      ∀ u : LoadState F, u.hdb = Function.update s.hdb (c.ldr, dt) (some p) → Sound src before u := by
    intro p hp u hu
    constructor
    · intro k q hk
      have hold := hs.kept k q hk
      rw [hu, Function.update_of_ne]
      · exact hold
      · rintro rfl
        rw [hnone] at hold
        cases hold
    · intro ldr d rows hsaved
      rw [hu, Function.update_apply] at hsaved
      split_ifs at hsaved with hkey
      · cases hkey
        exact hp rows (Option.some.inj hsaved)
      · exact hs.loads ldr d rows hsaved
  intro t ht
  change t ∈ (if missing c s dt then Trail.skip else if c.syms = [] then leave else
    (setPartition c dt .unfinished).seq (setPartition c dt (.saved (rowsFound src c s dt)))) s at ht
  split_ifs at ht with hmissing hsyms
  · cases ht
  · obtain rfl := List.mem_singleton.mp ht
    exact hs.congr rfl
  · have hready := hready (Bool.eq_false_of_not_eq_true hmissing)
    rcases List.mem_cons.mp ht with rfl | ht
    · exact hset .unfinished (fun rows h => by cases h) _ rfl
    · obtain rfl := List.mem_singleton.mp ht
      refine hset (.saved (rowsFound src c s dt)) ?_ _ (Function.update_idem _ _ _)
      rintro rows hrows
      cases hrows
      exact ⟨c.syms, hsyms, hready.nodup, fun sym hsym => ⟨hplain sym hsym, (hready.own sym hsym).1⟩,
        hready.rowsFound_eq⟩

theorem ready_of_fetch (hextracts : c.Extracts) (hall : downloads src c dt = true)
    (hgoes : ((fetchOneDate src c dt).final s).left = false) :
    Ready src c dt ((fetchOneDate src c dt).final s) :=
  ⟨(fetchOneDate_spec hextracts hall hgoes).1, (fetchOneDate_spec hextracts hall hgoes).2⟩

theorem partitionExists_congr (hdb : t.hdb = s.hdb) :
    partitionExists c t dt = partitionExists c s dt := by
  rw [partitionExists, hdb]
  rfl

/-- What follows a fetch, where the call was not left. -/
theorem seq_unlessLeft_sound {q : Trail (LoadState F)} (hp : Quiet p) (hs : Sound src before s)
    (hq : (p.final s).left = false → ∀ t ∈ q (p.final s), Sound src before t) :
    ∀ t ∈ (p.seq (unlessLeft q)) s, Sound src before t := by
  intro t ht
  rcases List.mem_append.mp ht with ht | ht
  · exact hp.sound s hs t ht
  · change t ∈ (if (p.final s).left then Trail.skip else q) (p.final s) at ht
    split_ifs at ht with hleft
    · cases ht
    · exact hq (Bool.eq_false_of_not_eq_true hleft) t ht

end Load

/-! ## Calls -/

section Calls
variable {src : Source F} {before : Loader × Date → Option (Partition F)} {c : Session} {dt : Date}
  {s : LoadState F}

/-- What is relied on: a symbol can be read from the name of its file, the extraction of a futures
archive does not break off, and files that are only loaded are of the loader's own archive. -/
structure Session.Trusted (src : Source F) (c : Session) (f : Files F) : Prop where
  plain : ∀ sym ∈ c.syms, '-' ∉ sym.toList
  extracts : c.Extracts
  own : ∀ dt, c.request = .loadAndSave dt → c.syms.Nodup ∧ ∀ sym ∈ c.syms, ∀ csv,
    f.csv (c.ldr.file sym dt) = some csv →
      (src.archive c.ldr sym dt).map c.ldr.extracted = some csv

/-- A day that is not there is fetched anew and then loaded. -/
theorem fetch_load_sound (hplain : ∀ sym ∈ c.syms, '-' ∉ sym.toList) (hextracts : c.Extracts)
    (hall : downloads src c dt = true) (hnew : partitionExists c s dt = false)
    (hgoes : ((fetchOneDate src c dt).final s).left = false)
    (hs : Sound src before ((fetchOneDate src c dt).final s)) :
    ∀ t ∈ loadOneDate src c dt ((fetchOneDate src c dt).final s), Sound src before t := by
  apply loadOneDate_sound hs _ hplain fun _ => ready_of_fetch hextracts hall hgoes
  exact (partitionExists_congr (quiet_fetchOneDate src c dt |>.final s).hdb).trans hnew

theorem loadFetched_sound (hplain : ∀ sym ∈ c.syms, '-' ∉ sym.toList) (hextracts : c.Extracts)
    (hnew : partitionExists c s dt = false)
    (hgoes : ((fetchOneDate src c dt).final s).left = false)
    (hs : Sound src before ((fetchOneDate src c dt).final s)) :
    ∀ t ∈ loadFetched src c dt ((fetchOneDate src c dt).final s), Sound src before t := by
  intro t ht
  rw [loadFetched] at ht
  split_ifs at ht with hall
  · rw [Trail.read] at ht
    split_ifs at ht with hmissing
    · obtain rfl := List.mem_singleton.mp ht
      exact hs.congr rfl
    · have hload := fetch_load_sound hplain hextracts hall hnew hgoes hs
      rcases List.mem_append.mp ht with ht | ht
      · exact hload t ht
      · have hcounted : ∀ n, (Trail.update fun s' : LoadState F =>
            { s' with loaded := s'.loaded ++ [dt], totalRows := s'.totalRows + n }).Keeps
              (Sound src before) :=
          fun n => Trail.keeps_update fun u hu => hu.congr rfl
        exact keeps_unlessLeft (hcounted _) _ (Trail.final_of_all hs hload) t ht
  · obtain rfl := List.mem_singleton.mp ht
    exact hs.congr rfl

theorem rangeDate_sound (hplain : ∀ sym ∈ c.syms, '-' ∉ sym.toList) (hextracts : c.Extracts)
    (skipExisting : Bool) (dt : Date) :
    (rangeDate src c skipExisting dt).Keeps (Sound src before) := by
  apply keeps_unlessLeft
  intro s hs t ht
  rw [Trail.read] at ht
  split_ifs at ht with hexists hskip
  · obtain rfl := List.mem_singleton.mp ht
    exact hs.congr rfl
  · exact quiet_leave.sound s hs t ht
  · have hcleaned := quiet_deleteCsvs (F := F) c dt
    rcases List.mem_append.mp ht with ht | ht
    · exact hcleaned.sound s hs t ht
    · have hs' := Trail.Keeps.final hcleaned.sound hs
      set s₁ := (Trail.each (fun sym => deleteCsv c sym dt) c.syms).final s with hs₁
      have hnew : partitionExists c s₁ dt = false :=
        (partitionExists_congr (hcleaned.final s).hdb).trans (Bool.eq_false_of_not_eq_true hexists)
      refine seq_unlessLeft_sound (quiet_fetchOneDate src c dt) hs' (fun hgoes => ?_) t ht
      exact loadFetched_sound hplain hextracts hnew hgoes
        (Trail.Keeps.final (quiet_fetchOneDate src c dt).sound hs')

/-- Every state that a call passes through. -/
theorem perform_sound (htrusted : c.Trusted src s.toFiles) (hs : Sound src before s) :
    ∀ t ∈ perform src c s, Sound src before t := by
  obtain ⟨hplain, hextracts, hown⟩ := htrusted
  intro t ht
  rw [perform] at ht
  cases hrequest : c.request with
  | range startDt endDt skipExisting =>
      rw [hrequest] at ht
      simp only [range] at ht
      split_ifs at ht
      · exact quiet_leave.sound s hs t ht
      · exact Trail.keeps_each (rangeDate_sound hplain hextracts skipExisting) _ s hs t ht
  | downloadAndLoad dt =>
      rw [hrequest] at ht
      simp only [downloadAndLoad, Trail.read] at ht
      split_ifs at ht with hexists hfiles hall
      · exact quiet_leave.sound s hs t ht
      · exact quiet_leave.sound s hs t ht
      · refine seq_unlessLeft_sound (quiet_fetchOneDate src c dt) hs (fun hgoes => ?_) t ht
        exact fetch_load_sound hplain hextracts hall (Bool.eq_false_of_not_eq_true hexists) hgoes
          (Trail.Keeps.final (quiet_fetchOneDate src c dt).sound hs)
      · refine seq_unlessLeft_sound (quiet_fetchOneDate src c dt) hs (fun _ => ?_) t ht
        exact quiet_leave.sound _ (Trail.Keeps.final (quiet_fetchOneDate src c dt).sound hs)
  | downloadOnly dt =>
      rw [hrequest] at ht
      simp only [downloadOnly, Trail.read] at ht
      split_ifs at ht
      · exact quiet_leave.sound s hs t ht
      · exact (quiet_fetchOneDate src c dt).sound s hs t ht
  | loadAndSave dt =>
      rw [hrequest] at ht
      simp only [loadAndSave, Trail.read] at ht
      split_ifs at ht with hexists
      · exact quiet_leave.sound s hs t ht
      · obtain ⟨hnodup, hfiles⟩ := hown dt hrequest
        refine loadOneDate_sound hs (Bool.eq_false_of_not_eq_true hexists) hplain ?_ t ht
        intro hfound
        refine ⟨hnodup, fun sym hsym => ?_⟩
        rw [missing, List.any_eq_false] at hfound
        cases hcsv : s.csv (c.ldr.file sym dt) with
        | none => exact absurd (Option.isNone_iff_eq_none.mpr hcsv) (hfound sym hsym)
        | some csv =>
            have harchive := hfiles sym hsym csv hcsv
            rw [harchive]
            refine ⟨?_, rfl⟩
            have hsome := Option.isSome_of_eq_some harchive
            rwa [Option.isSome_map] at hsome

end Calls

/-! ## Any calls -/

/-- A call that came to an end or was stopped anywhere. -/
def Step (src : Source F) (f f' : Files F) : Prop :=
  ∃ c : Session, c.Trusted src f ∧ ∃ s ∈ perform src c { toFiles := f }, s.toFiles = f'

/-- A call that came to an end. -/
theorem reaches_final (src : Source F) {c : Session} {f : Files F} (htrusted : c.Trusted src f) :
    Relation.ReflTransGen (Step src) f
      ((perform src c).final { toFiles := f }).toFiles := by
  rcases Trail.getLastD_mem_or (perform src c { toFiles := f }) { toFiles := f } with hmem | hsame
  · exact .single ⟨c, htrusted, _, hmem, rfl⟩
  · rw [Trail.final, hsame]

/-- Every partition that was saved is that of a load. -/
def Loads (src : Source F) (f : Files F) : Prop :=
  ∀ ldr dt rows, f.hdb (ldr, dt) = some (.saved rows) → Loaded src ldr dt rows

theorem Step.sound {src : Source F} {f f' : Files F} (h : Step src f f') (hloads : Loads src f) :
    Sound src f.hdb ({ toFiles := f' } : LoadState F) := by
  obtain ⟨c, htrusted, s, hs, rfl⟩ := h
  exact (perform_sound (s := { toFiles := f }) htrusted ⟨fun _ _ h => h, hloads⟩ s hs).congr rfl

theorem loads_of_reached {src : Source F} {f f' : Files F}
    (h : Relation.ReflTransGen (Step src) f f') (hloads : Loads src f) : Loads src f' := by
  induction h with
  | refl => exact hloads
  | tail _ hlast ih => exact (hlast.sound ih).loads

theorem loads_empty (src : Source F) : Loads src Files.empty := fun ldr dt rows h => by cases h

/-- After any calls of any of the loaders, each stopped anywhere: every partition that was saved
holds the archives of different symbols, sorted by symbol and time, and no later call changes a
partition that exists. -/
theorem partitions_exact (src : Source F) {f : Files F}
    (h : Relation.ReflTransGen (Step src) Files.empty f) :
    (∀ ldr dt rows, f.hdb (ldr, dt) = some (.saved rows) → Loaded src ldr dt rows) ∧
      ∀ f', Relation.ReflTransGen (Step src) f f' → ∀ k p, f.hdb k = some p → f'.hdb k = some p := by
  have hloads := loads_of_reached h (loads_empty src)
  refine ⟨hloads, fun f' hlater => ?_⟩
  induction hlater with
  | refl => exact fun _ _ h => h
  | tail hbefore hlast ih =>
      intro k p hk
      exact (hlast.sound (loads_of_reached hbefore hloads)).kept k p (ih k p hk)

/-- One symbol has two spot trades on day zero. -/
def twoTrades : Source ℤ where
  archive ldr sym dt :=
    if ldr = .trade ∧ sym = "BTCUSDT" ∧ dt = 0 then
      some [["2", "101", "1", "101", "7", "True", "True"],
        ["1", "100", "1", "100", "5", "False", "True"]]
    else none
  casts := { long := fun s => s.toInt?.getD 0, float := fun s => s.toInt?.getD 0 }

/-- A call for one symbol, of which everything arrives. -/
def oneSymbol (ldr : Loader) (request : Request) : Session where
  ldr := ldr
  syms := ["BTCUSDT"]
  request := request
  arrives _ _ := true
  breaksAt _ _ := none

theorem oneSymbol_trusted (src : Source F) (ldr : Loader) (request : Request)
    (hrequest : ∀ dt, request ≠ .loadAndSave dt) (f : Files F) :
    (oneSymbol ldr request).Trusted src f where
  plain sym hsym := by
    obtain rfl := List.mem_singleton.mp hsym
    decide
  extracts _ _ _ := rfl
  own dt h := absurd h (hrequest dt)

theorem partitions_exact_two_trades :
    (∀ ldr dt rows,
        ((perform twoTrades (oneSymbol .trade (.range 0 1 true))).final
          { toFiles := Files.empty }).hdb (ldr, dt) = some (.saved rows) →
            Loaded twoTrades ldr dt rows) ∧
      ∀ f', Relation.ReflTransGen (Step twoTrades)
          ((perform twoTrades (oneSymbol .trade (.range 0 1 true))).final
            { toFiles := Files.empty }).toFiles f' →
        ∀ k p, ((perform twoTrades (oneSymbol .trade (.range 0 1 true))).final
          { toFiles := Files.empty }).hdb k = some p → f'.hdb k = some p :=
  partitions_exact twoTrades
    (reaches_final twoTrades (oneSymbol_trusted twoTrades .trade _ (fun _ => Request.noConfusion) _))

end TickToSignal.Utils.TradeLoader
