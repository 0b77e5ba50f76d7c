import TickToSignal.Utils.HdbMigrate

/-!
# Resuming a migration

Each table directory is planned and written for itself, so a run that stops
between two items is taken up where it stopped. One that stops inside an item
leaves a new column file beside a `.d` that does not list it, which the next
plan refuses, or a `.d` that lists a file that was never written.
-/

namespace TickToSignal.Utils

open Wdb Foundation Schema

section
variable {V : Type*} {cfg : MigrateConfig V} {s s' : Hdb V} {dir : Dir} {c : Col}
  {values : List V} {ws : List (Write V)} {p : Item} {pl : List Item}

/-! ## Writes -/

/-- The `.d` file. -/
def Hdb.cols (s : Hdb V) (dir : Dir) : Option (List Col) := (s.splay dir).bind fun sp => sp.d

theorem writeAll_append (s : Hdb V) (ws ws' : List (Write V)) :
    s.writeAll (ws ++ ws') = (s.writeAll ws).writeAll ws' := exec_append _ _ _ _

theorem dirs_writeAll (cfg : MigrateConfig V) (s : Hdb V) (ws : List (Write V)) :
    (s.writeAll ws).dirs cfg = s.dirs cfg :=
  exec_untouched (fun s : Hdb V => s.dirs cfg) (fun _ : Write V => False) (fun _ _ _ => rfl)
    fun _ _ => id

theorem splay_write_of_ne (s : Hdb V) {w : Write V} (h : w.dir ≠ dir) :
    (s.write w).splay dir = s.splay dir := Function.update_of_ne (Ne.symm h) _ _

theorem splay_writeAll_of_ne (h : ∀ w ∈ ws, w.dir ≠ dir) :
    (s.writeAll ws).splay dir = s.splay dir :=
  exec_untouched (fun s : Hdb V => s.splay dir) (fun w => w.dir = dir)
    (fun s _ hw => splay_write_of_ne s hw) h

/-- A write of something else leaves a column file as it is. -/
theorem file_write_of_ne (s : Hdb V) {w : Write V} (h : ¬ ∃ values, w = .column dir c values) :
    (s.write w).file dir c = s.file dir c := by
  by_cases hdir : w.dir = dir
  · subst hdir
    cases w with
    | d dir cols =>
        cases hs : s.splay dir <;>
          simp [Hdb.file, Hdb.write, Write.dir, Write.onSplayDir, hs]
    | column dir c' values =>
        have hne : c ≠ c' := by
          rintro rfl
          exact h ⟨values, rfl⟩
        cases hs : s.splay dir <;>
          simp [Hdb.file, Hdb.write, Write.dir, Write.onSplayDir, hs, hne]
  · rw [Hdb.file, splay_write_of_ne s hdir, Hdb.file]

theorem file_writeAll_of_not_mem (h : ∀ values, Write.column dir c values ∉ ws) :
    (s.writeAll ws).file dir c = s.file dir c := by
  refine exec_untouched (fun s : Hdb V => s.file dir c)
    (fun w => ∃ values, w = Write.column dir c values)
    (fun s _ hw => file_write_of_ne s hw) ?_
  rintro _ hw ⟨values, rfl⟩
  exact h values hw

/-- A column file holds what was written to it. -/
theorem file_writeAll_of_mem (h : Write.column dir c values ∈ ws)
    (hone : ∀ values', Write.column dir c values' ∈ ws → values' = values) :
    (s.writeAll ws).file dir c = some values := by
  refine exec_touched (fun s : Hdb V => s.file dir c)
    (fun w => ∃ values, w = Write.column dir c values)
    (fun s _ hw => file_write_of_ne s hw) ?_ ⟨_, h, values, rfl⟩
  rintro s _ hw ⟨values', rfl⟩
  simp [Hdb.file, Hdb.write, Write.dir, Write.onSplayDir, hone values' hw]

theorem cols_write_of_ne (s : Hdb V) {w : Write V} (h : ¬ ∃ cols, w = .d dir cols) :
    (s.write w).cols dir = s.cols dir := by
  by_cases hdir : w.dir = dir
  · subst hdir
    cases w with
    | d dir cols => exact absurd ⟨cols, rfl⟩ h
    | column dir c values =>
        cases hs : s.splay dir <;>
          simp [Hdb.cols, Hdb.write, Write.dir, Write.onSplayDir, hs]
  · rw [Hdb.cols, splay_write_of_ne s hdir, Hdb.cols]

theorem cols_writeAll_of_not_mem (h : ∀ cols, Write.d dir cols ∉ ws) :
    (s.writeAll ws).cols dir = s.cols dir := by
  refine exec_untouched (fun s : Hdb V => s.cols dir) (fun w => ∃ cols, w = Write.d dir cols)
    (fun s _ hw => cols_write_of_ne s hw) ?_
  rintro _ hw ⟨cols, rfl⟩
  exact h cols hw

/-- `.d` lists what was written to it. -/
theorem cols_writeAll_of_mem {cols : List Col} (h : Write.d dir cols ∈ ws)
    (hone : ∀ cols', Write.d dir cols' ∈ ws → cols' = cols) :
    (s.writeAll ws).cols dir = some cols := by
  refine exec_touched (fun s : Hdb V => s.cols dir) (fun w => ∃ cols, w = Write.d dir cols)
    (fun s _ hw => cols_write_of_ne s hw) ?_ ⟨_, h, cols, rfl⟩
  rintro s _ hw ⟨cols', rfl⟩
  simp [Hdb.cols, Hdb.write, Write.dir, Write.onSplayDir, hone cols' hw]

/-! ## One directory -/

/-- What a directory needs is what it has no file for, or all of a table. -/
structure Doable (cfg : MigrateConfig V) (found : Option (SplayDir V)) (p : Item) : Prop where
  wanted : ∀ c ∈ p.ncols, c ∈ storedCols cfg.depth p.dir.table
  distinct : p.ncols.Nodup
  absent : ∀ sp ∈ found, ∀ c ∈ p.ncols, sp.file c = none
  create : p.action = .createEmpty → found = none ∧ p.rows = 0 ∧
    p.ncols = storedCols cfg.depth p.dir.table
  add : p.action = .addNullCols ∨ p.action = .reorderD → ∃ sp, found = some sp ∧
    sp.splayCols ≠ storedCols cfg.depth p.dir.table ∧ ∀ c ∈ p.ncols, c ∉ sp.splayCols
  reorder : p.action = .reorderD → p.ncols = []

/-- A directory that differs from the schema has one item, and it is one that cannot be done
or the columns it lacks, none of which has a file. -/
theorem planOne_differs {sp : SplayDir V} {items : List Item}
    (hdiffer : sp.splayCols ≠ storedCols cfg.depth dir.table)
    (h : planOne cfg dir (some sp) = some items) :
    ∃ p, items = [p] ∧ p.dir = dir ∧ (p.action = .cannot ∨
      p.ncols = (storedCols cfg.depth dir.table).filter (· ∉ sp.splayCols) ∧
        (∀ c ∈ p.ncols, sp.file c = none) ∧
        p.action = if p.ncols = [] then .reorderD else .addNullCols) := by
  simp only [planOne, if_neg hdiffer, Option.map_eq_some_iff] at h
  obtain ⟨n, -, rfl⟩ := h
  split
  case isTrue => exact ⟨_, rfl, rfl, Or.inl rfl⟩
  split
  case isTrue => exact ⟨_, rfl, rfl, Or.inl rfl⟩
  split
  case isTrue => exact ⟨_, rfl, rfl, Or.inl rfl⟩
  case isFalse hpresent =>
    refine ⟨_, rfl, rfl, Or.inr ⟨rfl, ?_, rfl⟩⟩
    intro c hc
    rw [not_not, List.filter_eq_nil_iff] at hpresent
    simpa using hpresent c hc

/-- A directory has at most one item, and it can be done unless it says that it cannot. -/
theorem planOne_spec {found : Option (SplayDir V)} {items : List Item}
    (h : planOne cfg dir found = some items) :
    items = [] ∨ ∃ p, items = [p] ∧ p.dir = dir ∧
      (p.action ≠ .cannot → Doable cfg found p) := by
  cases found with
  | none =>
      simp only [planOne] at h
      split_ifs at h with hkind
      · obtain rfl := Option.some.inj h
        refine Or.inr ⟨_, rfl, rfl, fun _ => ?_⟩
        exact
          { wanted := fun c hc => hc
            distinct := nodup_storedCols cfg.depth dir.table
            absent := fun sp hsp => by simp at hsp
            create := fun _ => ⟨rfl, rfl, rfl⟩
            add := by simp
            reorder := by simp }
      · exact Or.inl (Option.some.inj h).symm
  | some sp =>
      by_cases hsame : sp.splayCols = storedCols cfg.depth dir.table
      · simp only [planOne, if_pos hsame] at h
        exact Or.inl (Option.some.inj h).symm
      · obtain ⟨p, hitems, rfl, hp⟩ := planOne_differs hsame h
        refine Or.inr ⟨p, hitems, rfl, fun hcan => ?_⟩
        obtain ⟨hcols, habsent, haction⟩ := hp.resolve_left hcan
        exact
          { wanted := fun c hc => by
              rw [hcols] at hc
              exact (List.mem_filter.mp hc).1
            distinct := hcols ▸ (nodup_storedCols cfg.depth p.dir.table).filter _
            absent := by
              rintro _ ⟨⟩
              exact habsent
            create := fun hcreate => by
              rw [haction] at hcreate
              split_ifs at hcreate
            add := fun _ => ⟨sp, rfl, hsame, fun c hc => by
              rw [hcols] at hc
              simpa using (List.mem_filter.mp hc).2⟩
            reorder := fun hreorder => by
              rw [haction] at hreorder
              split_ifs at hreorder with hnone
              exact hnone }

theorem planOne_done {sp : SplayDir V} (h : sp.splayCols = storedCols cfg.depth dir.table) :
    planOne cfg dir (some sp) = some [] := by
  simp only [planOne, if_pos h]

/-- A column file beside a `.d` that does not list it cannot be migrated. -/
theorem planOne_present {sp : SplayDir V} {items : List Item}
    (hwant : c ∈ storedCols cfg.depth dir.table) (hlist : c ∉ sp.splayCols)
    (hfile : (sp.file c).isSome = true) (h : planOne cfg dir (some sp) = some items) :
    ∃ p ∈ items, p.action = .cannot := by
  have hdiffer : sp.splayCols ≠ storedCols cfg.depth dir.table := by
    intro hsame
    exact hlist (hsame ▸ hwant)
  obtain ⟨p, rfl, -, hp⟩ := planOne_differs hdiffer h
  refine ⟨p, List.mem_singleton_self p, hp.resolve_right ?_⟩
  rintro ⟨hcols, habsent, -⟩
  have hc : c ∈ p.ncols := by
    rw [hcols, List.mem_filter]
    exact ⟨hwant, by simpa using hlist⟩
  simp [habsent c hc] at hfile

/-! ## The plan of all directories -/

theorem planDirs_cons {dirs : List Dir} (h : planDirs cfg s (dir :: dirs) = some pl) :
    ∃ items rest, planOne cfg dir (s.splay dir) = some items ∧
      planDirs cfg s dirs = some rest ∧ pl = items ++ rest := by
  simp only [planDirs] at h
  split at h
  · next items rest hone hall => exact ⟨items, rest, hone, hall, (Option.some.inj h).symm⟩
  · simp at h

/-- The items of a plan are about its directories, each at most once. -/
theorem planDirs_sublist {dirs : List Dir} (h : planDirs cfg s dirs = some pl) :
    (pl.map (·.dir)).Sublist dirs := by
  induction dirs generalizing pl with
  | nil =>
      obtain rfl : [] = pl := by simpa [planDirs] using h
      exact List.Sublist.refl _
  | cons dir dirs ih =>
      obtain ⟨items, rest, hone, hall, rfl⟩ := planDirs_cons h
      obtain rfl | ⟨p, rfl, rfl, -⟩ := planOne_spec hone
      · exact (ih hall).cons dir
      · exact (ih hall).cons_cons p.dir

/-- The plan of a directory is in the plan. -/
theorem planDirs_mem {dirs : List Dir} (h : planDirs cfg s dirs = some pl) (hdir : dir ∈ dirs) :
    ∃ items, planOne cfg dir (s.splay dir) = some items ∧ items ⊆ pl := by
  induction dirs generalizing pl with
  | nil => simp at hdir
  | cons first dirs ih =>
      obtain ⟨items, rest, hone, hall, rfl⟩ := planDirs_cons h
      obtain rfl | hdir := List.mem_cons.mp hdir
      · exact ⟨items, hone, List.subset_append_left _ _⟩
      · obtain ⟨items', hone', hsub⟩ := ih hall hdir
        exact ⟨items', hone', fun p hp => List.mem_append_right _ (hsub hp)⟩

/-- Each item is the plan of its directory. -/
theorem planDirs_item {dirs : List Dir} (h : planDirs cfg s dirs = some pl) (hp : p ∈ pl) :
    planOne cfg p.dir (s.splay p.dir) = some [p] ∧ p.dir ∈ dirs := by
  induction dirs generalizing pl with
  | nil =>
      obtain rfl : [] = pl := by simpa [planDirs] using h
      simp at hp
  | cons dir dirs ih =>
      obtain ⟨items, rest, hone, hall, rfl⟩ := planDirs_cons h
      obtain hmem | hmem := List.mem_append.mp hp
      · obtain rfl | ⟨q, rfl, rfl, -⟩ := planOne_spec hone
        · simp at hmem
        · obtain rfl := List.mem_singleton.mp hmem
          exact ⟨hone, List.mem_cons_self⟩
      · exact (ih hall hmem).imp_right (List.mem_cons_of_mem dir)

theorem nodup_dataRoots (cfg : MigrateConfig V) (s : Hdb V) : (s.dataRoots cfg).Nodup := by
  have hmap : ∀ (kind : RootKind) (names : List String), names.Nodup →
      (names.map (kind, ·)).Nodup :=
    fun kind names h => h.map fun a b hab => (Prod.mk.inj hab).2
  refine List.nodup_append'.mpr
    ⟨hmap _ _ (s.hdbNodup.filter _), hmap _ _ (s.tmpNodup.filter _), ?_⟩
  rw [List.disjoint_left]
  intro r hr hr'
  obtain ⟨_, -, rfl⟩ := List.mem_map.mp hr
  obtain ⟨_, -, heq⟩ := List.mem_map.mp hr'
  exact absurd (Prod.mk.inj heq).1 (by decide)

theorem nodup_dirs (cfg : MigrateConfig V) (s : Hdb V) : (s.dirs cfg).Nodup := by
  rw [Hdb.dirs, List.nodup_flatMap]
  refine ⟨fun r _ => ?_, ?_⟩
  · have htables : tables.Nodup := by decide
    exact htables.map fun t t' h => congrArg Dir.table h
  · refine (nodup_dataRoots cfg s).imp fun {r r'} hne => ?_
    apply List.disjoint_left.mpr
    intro dir hdir hdir'
    obtain ⟨_, -, rfl⟩ := List.mem_map.mp hdir
    obtain ⟨_, -, heq⟩ := List.mem_map.mp hdir'
    exact hne (Prod.ext (congrArg Dir.kind heq).symm (congrArg Dir.root heq).symm)

/-- What a plan is: one item for each of some of the directories. -/
structure Planned (cfg : MigrateConfig V) (s : Hdb V) (pl : List Item) : Prop where
  item : ∀ p ∈ pl, planOne cfg p.dir (s.splay p.dir) = some [p] ∧ p.dir ∈ s.dirs cfg
  apart : (pl.map (·.dir)).Nodup

theorem plan_planned (h : s.plan cfg = some pl) : Planned cfg s pl :=
  ⟨fun _ hp => planDirs_item h hp, (planDirs_sublist h).nodup (nodup_dirs cfg s)⟩

/-! ## The writes of an item -/

theorem mem_setOrder {cols : List Col} {name : Option Col} :
    name ∈ cfg.setOrder cols ↔ name = none ∨ ∃ c ∈ cols, name = some c := by
  rw [(cfg.setOrder_perm cols).mem_iff]
  simp [eq_comm]

theorem dir_of_mem_writes {w : Write V} (hw : w ∈ p.writes cfg) : w.dir = p.dir := by
  cases haction : p.action with
  | addNullCols | reorderD =>
      simp only [Item.writes, haction, List.mem_append, List.mem_map, List.mem_singleton] at hw
      obtain ⟨c, -, rfl⟩ | rfl := hw <;> rfl
  | createEmpty =>
      simp only [Item.writes, haction, List.mem_map] at hw
      obtain ⟨name, -, rfl⟩ := hw
      cases name <;> rfl
  | cannot => simp [Item.writes, haction] at hw

/-- What an item that can be done writes to column files. -/
theorem column_mem_writes {found : Option (SplayDir V)} (hp : Doable cfg found p)
    (hcan : p.action ≠ .cannot) :
    Write.column dir c values ∈ p.writes cfg ↔
      dir = p.dir ∧ c ∈ p.ncols ∧ values = nulls cfg p.dir.table c p.rows := by
  cases haction : p.action with
  | addNullCols | reorderD =>
      simp only [Item.writes, haction, List.mem_append, List.mem_map, List.mem_singleton,
        Write.column.injEq, reduceCtorEq, or_false]
      constructor
      · rintro ⟨_, hc, rfl, rfl, rfl⟩
        exact ⟨rfl, hc, rfl⟩
      · rintro ⟨rfl, hc, rfl⟩
        exact ⟨c, hc, rfl, rfl, rfl⟩
  | createEmpty =>
      obtain ⟨-, hrows, hcols⟩ := hp.create haction
      simp only [Item.writes, haction, List.mem_map, hrows, hcols, nulls, List.replicate_zero]
      constructor
      · rintro ⟨_ | c', hname, heq⟩
        · cases heq
        · cases heq
          obtain hnone | ⟨c, hc, hsome⟩ := mem_setOrder.mp hname
          · simp at hnone
          · exact ⟨rfl, Option.some.inj hsome ▸ hc, rfl⟩
      · rintro ⟨rfl, hc, rfl⟩
        exact ⟨some c, mem_setOrder.mpr (Or.inr ⟨c, hc, rfl⟩), rfl⟩
  | cannot => exact absurd haction hcan

theorem d_mem_writes (hcan : p.action ≠ .cannot) {cols : List Col} :
    Write.d dir cols ∈ p.writes cfg ↔ dir = p.dir ∧ cols = storedCols cfg.depth p.dir.table := by
  cases haction : p.action with
  | addNullCols | reorderD => simp [Item.writes, haction]
  | createEmpty =>
      simp only [Item.writes, haction, List.mem_map]
      constructor
      · rintro ⟨_ | c, -, heq⟩
        · cases heq
          exact ⟨rfl, rfl⟩
        · cases heq
      · rintro ⟨rfl, rfl⟩
        exact ⟨none, mem_setOrder.mpr (Or.inl rfl), rfl⟩
  | cannot => exact absurd haction hcan

/-- Nothing refuses to write what has no file. -/
theorem doAdd_eq {cs : List Col} (hnodup : cs.Nodup) (habsent : ∀ c ∈ cs, s.file p.dir c = none) :
    doAdd cfg p cs s =
      (cs.map (fun c => .column p.dir c (nulls cfg p.dir.table c p.rows)) ++
        [.d p.dir (storedCols cfg.depth p.dir.table)], none) := by
  induction cs generalizing s with
  | nil => rfl
  | cons c cs ih =>
      obtain ⟨hnot, hnodup⟩ := List.nodup_cons.mp hnodup
      have hfree : (s.file p.dir c).isSome ≠ true := by
        simp [habsent c List.mem_cons_self]
      have hrest : ∀ c' ∈ cs, (s.write (.column p.dir c
          (nulls cfg p.dir.table c p.rows))).file p.dir c' = none := by
        intro c' hc'
        rw [file_write_of_ne]
        · exact habsent c' (List.mem_cons_of_mem c hc')
        · rintro ⟨values, heq⟩
          cases heq
          exact hnot hc'
      simp only [doAdd, if_neg hfree, ih hnodup hrest, List.map_cons, List.cons_append]

theorem run_eq (hp : Doable cfg (s.splay p.dir) p) (hcan : p.action ≠ .cannot) :
    run cfg p s = (p.writes cfg, none) := by
  have habsent : ∀ c ∈ p.ncols, s.file p.dir c = none := by
    intro c hc
    cases hs : s.splay p.dir with
    | none => simp [Hdb.file, hs]
    | some sp => simpa [Hdb.file, hs] using hp.absent sp (by simp [hs]) c hc
  cases haction : p.action with
  | addNullCols =>
      simp only [run, Item.writes, haction]
      exact doAdd_eq hp.distinct habsent
  | reorderD => simp [run, Item.writes, haction, doReorder, hp.reorder haction]
  | createEmpty =>
      simp [run, Item.writes, haction, doCreate, (hp.create haction).1]
  | cannot => exact absurd haction hcan

/-- Items that are ready, and concern different directories, run one after the other. -/
theorem runAll_eq (hready : ∀ p ∈ pl, Doable cfg (s.splay p.dir) p ∧ p.action ≠ .cannot)
    (hapart : (pl.map (·.dir)).Nodup) :
    runAll cfg pl s = (pl.flatMap (·.writes cfg), []) := by
  induction pl generalizing s with
  | nil => rfl
  | cons p pl ih =>
      obtain ⟨hp, hcan⟩ := hready p List.mem_cons_self
      obtain ⟨hnot, hapart⟩ := List.nodup_cons.mp hapart
      have hrest : ∀ q ∈ pl,
          Doable cfg ((s.writeAll (p.writes cfg)).splay q.dir) q ∧ q.action ≠ .cannot := by
        intro q hq
        have hne : ∀ w ∈ p.writes cfg, w.dir ≠ q.dir := by
          intro w hw hdir
          refine hnot (List.mem_map.mpr ⟨q, hq, ?_⟩)
          rw [← hdir, dir_of_mem_writes hw]
        rw [splay_writeAll_of_ne hne]
        exact hready q (List.mem_cons_of_mem p hq)
      rw [runAll, run_eq hp hcan, ih hrest hapart]
      rfl

/-! ## After whole items -/

theorem plan_ready (hplan : Planned cfg s pl) (hcan : ∀ p ∈ pl, p.action ≠ .cannot) :
    ∀ p ∈ pl, Doable cfg (s.splay p.dir) p ∧ p.action ≠ .cannot := by
  intro p hp
  obtain hnone | ⟨q, hq, -, hdo⟩ := planOne_spec (hplan.item p hp).1
  · simp at hnone
  · obtain rfl := List.singleton_inj.mp hq
    exact ⟨hdo (hcan p hp), hcan p hp⟩

theorem mem_flatMap_writes {w : Write V} (hw : w ∈ pl.flatMap (·.writes cfg)) :
    ∃ p ∈ pl, w ∈ p.writes cfg ∧ w.dir = p.dir := by
  obtain ⟨p, hp, hw⟩ := List.mem_flatMap.mp hw
  exact ⟨p, hp, hw, dir_of_mem_writes hw⟩

theorem planOne_after (s : Hdb V) (hcan : ∀ p ∈ pl, p.action ≠ .cannot) (hp : p ∈ pl) :
    planOne cfg p.dir ((s.writeAll (pl.flatMap (·.writes cfg))).splay p.dir) = some [] := by
  have hd : Write.d p.dir (storedCols cfg.depth p.dir.table) ∈ pl.flatMap (·.writes cfg) :=
    List.mem_flatMap.mpr ⟨p, hp, (d_mem_writes (hcan p hp)).mpr ⟨rfl, rfl⟩⟩
  have hcols : (s.writeAll (pl.flatMap (·.writes cfg))).cols p.dir =
      some (storedCols cfg.depth p.dir.table) := by
    refine cols_writeAll_of_mem hd fun cols hmem => ?_
    obtain ⟨q, hq, hw⟩ := List.mem_flatMap.mp hmem
    obtain ⟨hdir, hcols⟩ := (d_mem_writes (hcan q hq)).mp hw
    rw [hcols, ← hdir]
  cases hs : (s.writeAll (pl.flatMap (·.writes cfg))).splay p.dir with
  | none => simp [Hdb.cols, hs] at hcols
  | some sp =>
      refine planOne_done ?_
      simp only [Hdb.cols, hs, Option.bind_some] at hcols
      rw [SplayDir.splayCols, hcols, Option.getD_some]

theorem splay_after {done : List Item} (hdir : dir ∉ done.map (·.dir)) :
    (s.writeAll (done.flatMap (·.writes cfg))).splay dir = s.splay dir := by
  refine splay_writeAll_of_ne fun w hw heq => hdir ?_
  obtain ⟨p, hp, -, hwp⟩ := mem_flatMap_writes hw
  exact List.mem_map.mpr ⟨p, hp, hwp.symm.trans heq⟩

theorem planDirs_after {done : List Item} (hcan : ∀ p ∈ done, p.action ≠ .cannot)
    {dirs : List Dir} (h : planDirs cfg s dirs = some pl) :
    planDirs cfg (s.writeAll (done.flatMap (·.writes cfg))) dirs =
      some (pl.filter fun p => p.dir ∉ done.map (·.dir)) := by
  induction dirs generalizing pl with
  | nil =>
      obtain rfl : [] = pl := by simpa [planDirs] using h
      rfl
  | cons dir dirs ih =>
      obtain ⟨items, rest, hone, hall, rfl⟩ := planDirs_cons h
      have hitems : ∀ q ∈ items, q.dir = dir := by
        obtain rfl | ⟨p, rfl, rfl, -⟩ := planOne_spec hone
        · simp
        · simp
      have hafter : planOne cfg dir ((s.writeAll (done.flatMap (·.writes cfg))).splay dir) =
          some (items.filter fun p => p.dir ∉ done.map (·.dir)) := by
        by_cases hdir : dir ∈ done.map (·.dir)
        · have hnone : (items.filter fun p => p.dir ∉ done.map (·.dir)) = [] := by
            rw [List.filter_eq_nil_iff]
            intro q hq
            simpa [hitems q hq] using hdir
          obtain ⟨p, hp, rfl⟩ := List.mem_map.mp hdir
          rw [hnone, planOne_after s hcan hp]
        · have hsame : (items.filter fun p => p.dir ∉ done.map (·.dir)) = items := by
            rw [List.filter_eq_self]
            intro q hq
            simpa [hitems q hq] using hdir
          rw [hsame, splay_after hdir, hone]
      simp only [planDirs, hafter, ih hall, List.filter_append]

/-- Once the first items are written, the rest of the plan is the plan. -/
theorem plan_after {done rest : List Item} (h : s.plan cfg = some (done ++ rest))
    (hcan : ∀ p ∈ done ++ rest, p.action ≠ .cannot) :
    (s.writeAll (done.flatMap (·.writes cfg))).plan cfg = some rest := by
  have hapart := (plan_planned h).apart
  rw [List.map_append, List.nodup_append'] at hapart
  have hdone : ((done ++ rest).filter fun p => p.dir ∉ done.map (·.dir)) = rest := by
    rw [List.filter_append, List.filter_eq_nil_iff.mpr, List.filter_eq_self.mpr, List.nil_append]
    · intro p hp
      have hmem : p.dir ∈ rest.map (·.dir) := List.mem_map_of_mem hp
      simpa using fun q hq heq => List.disjoint_right.mp hapart.2.2 hmem
        (List.mem_map.mpr ⟨q, hq, heq⟩)
    · intro p hp
      simpa using ⟨p, hp, rfl⟩
  rw [Hdb.plan, dirs_writeAll,
    planDirs_after (fun p hp => hcan p (List.mem_append_left _ hp)) h, hdone]

/-- A run that finds the rest of a plan does it. -/
theorem migrate_ready (hplan : s.plan cfg = some pl) (hcan : ∀ p ∈ pl, p.action ≠ .cannot) :
    (s.migrate cfg true).2 = s.writeAll (pl.flatMap (·.writes cfg)) := by
  have hrun := runAll_eq (plan_ready (plan_planned hplan) hcan) (plan_planned hplan).apart
  have hnone : ¬ ∃ p ∈ pl, p.action = .cannot := by
    rintro ⟨p, hp, haction⟩
    exact hcan p hp haction
  simp only [Hdb.migrate, hplan, if_neg hnone, hrun, Bool.true_eq_false, if_false, ne_eq,
    not_true_eq_false]
  split
  · next hnil =>
      subst hnil
      rfl
  · rfl

/-- All of a plan done. -/
theorem migrated_all (hplan : s.plan cfg = some pl) (hcan : ∀ p ∈ pl, p.action ≠ .cannot) :
    Migrated cfg s pl (s.writeAll (pl.flatMap (·.writes cfg))) := by
  have hready := plan_ready (plan_planned hplan) hcan
  refine { plan := ?_, kept := ?_, added := ?_ }
  · have hall : s.plan cfg = some (pl ++ []) := by rwa [List.append_nil]
    exact plan_after hall (by rwa [List.append_nil])
  · intro dir c values hfile
    rw [file_writeAll_of_not_mem, hfile]
    intro values' hmem
    obtain ⟨p, hp, hw, -⟩ := mem_flatMap_writes hmem
    obtain ⟨rfl, hc, -⟩ := (column_mem_writes (hready p hp).1 (hcan p hp)).mp hw
    cases hs : s.splay p.dir with
    | none => simp [Hdb.file, hs] at hfile
    | some sp =>
        have habsent := (hready p hp).1.absent sp (by simp [hs]) c hc
        simp [Hdb.file, hs, habsent] at hfile
  · intro p hp c hc
    refine file_writeAll_of_mem (List.mem_flatMap.mpr ⟨p, hp, ?_⟩) ?_
    · exact (column_mem_writes (hready p hp).1 (hcan p hp)).mpr ⟨rfl, hc, rfl⟩
    · intro values' hmem
      obtain ⟨q, hq, hw, -⟩ := mem_flatMap_writes hmem
      obtain ⟨hdir, -, rfl⟩ := (column_mem_writes (hready q hq).1 (hcan q hq)).mp hw
      obtain rfl : p = q := List.inj_on_of_nodup_map (plan_planned hplan).apart hp hq hdir
      rfl

/-! ## After a part of an item -/

/-- A run that finds an item it cannot do does nothing, and neither does the next. -/
theorem not_migrated_of_cannot {s₀ : Hdb V} {pl₀ : List Item} (hdir : dir ∈ s.dirs cfg)
    (hbad : ∀ items, planOne cfg dir (s.splay dir) = some items → ∃ p ∈ items, p.action = .cannot) :
    ¬ Migrated cfg s₀ pl₀ (s.migrate cfg true).2 := by
  have hcannot : ∀ pl, s.plan cfg = some pl → ∃ p ∈ pl, p.action = .cannot := by
    intro pl hpl
    obtain ⟨items, hone, hsub⟩ := planDirs_mem hpl hdir
    obtain ⟨p, hp, haction⟩ := hbad items hone
    exact ⟨p, hsub hp, haction⟩
  have hsame : (s.migrate cfg true).2 = s := by
    cases hpl : s.plan cfg with
    | none => simp only [Hdb.migrate, hpl]
    | some pl =>
        simp only [Hdb.migrate, hpl, if_pos (hcannot pl hpl)]
        split <;> rfl
  rintro ⟨hplan, -, -⟩
  rw [hsame] at hplan
  obtain ⟨p, hp, -⟩ := hcannot [] hplan
  simp at hp

/-- Each write is for an item of the plan. -/
theorem dir_of_mem_run {w : Write V} (hw : w ∈ (run cfg p s).1) : w.dir = p.dir := by
  have hadd : ∀ (cs : List Col) (s : Hdb V), w ∈ (doAdd cfg p cs s).1 → w.dir = p.dir := by
    intro cs
    induction cs with
    | nil =>
        intro s hw
        obtain rfl := List.mem_singleton.mp hw
        rfl
    | cons c cs ih =>
        intro s hw
        simp only [doAdd] at hw
        split at hw
        · simp at hw
        · obtain rfl | hw := List.mem_cons.mp hw
          · rfl
          · exact ih _ hw
  cases haction : p.action with
  | addNullCols =>
      simp only [run, haction] at hw
      exact hadd _ _ hw
  | reorderD =>
      simp only [run, haction, doReorder, List.mem_singleton] at hw
      subst hw
      rfl
  | createEmpty =>
      simp only [run, haction, doCreate] at hw
      split at hw
      · simp at hw
      · obtain ⟨name, -, rfl⟩ := List.mem_map.mp hw
        cases name <;> rfl
  | cannot => simp [run, haction] at hw

theorem dir_of_mem_runAll {w : Write V} (hw : w ∈ (runAll cfg pl s).1) :
    ∃ p ∈ pl, w.dir = p.dir := by
  induction pl generalizing s with
  | nil => simp [runAll] at hw
  | cons p pl ih =>
      obtain hw | hw := List.mem_append.mp hw
      · exact ⟨p, List.mem_cons_self, dir_of_mem_run hw⟩
      · obtain ⟨q, hq, hdir⟩ := ih hw
        exact ⟨q, List.mem_cons_of_mem p hq, hdir⟩

/-- A directory that seems to be done is left alone. -/
theorem migrate_splay (hdone : planOne cfg dir (s.splay dir) = some []) :
    (s.migrate cfg true).2.splay dir = s.splay dir := by
  cases hpl : s.plan cfg with
  | none => simp only [Hdb.migrate, hpl]
  | some pl =>
      have hrun : (s.writeAll (runAll cfg pl s).1).splay dir = s.splay dir := by
        refine splay_writeAll_of_ne fun w hw heq => ?_
        obtain ⟨p, hp, hdir⟩ := dir_of_mem_runAll hw
        have hone := ((plan_planned hpl).item p hp).1
        rw [← hdir, heq, hdone] at hone
        simp at hone
      simp only [Hdb.migrate, hpl]
      split
      · rfl
      split
      · rfl
      split
      · rfl
      split <;> exact hrun

theorem writes_nodup {found : Option (SplayDir V)} (hp : Doable cfg found p) :
    (p.writes cfg).Nodup := by
  cases haction : p.action with
  | addNullCols | reorderD =>
      simp only [Item.writes, haction]
      refine List.nodup_append'.mpr ⟨hp.distinct.map fun c c' h => ?_, List.nodup_singleton _, ?_⟩
      · exact (Write.column.inj h).2.1
      · simp
  | createEmpty =>
      simp only [Item.writes, haction]
      have hnames : (none :: (storedCols cfg.depth p.dir.table).map some).Nodup := by
        refine List.nodup_cons.mpr ⟨by simp, ?_⟩
        exact (nodup_storedCols cfg.depth p.dir.table).map (Option.some_injective _)
      refine List.Nodup.map ?_ ((cfg.setOrder_perm _).nodup_iff.mpr hnames)
      rintro (_ | c) (_ | c') h
      · rfl
      · cases h
      · cases h
      · cases h
        rfl
  | cannot => simp [Item.writes, haction]

/-- A directory's `.d` does not list what it lacks. -/
theorem not_listed (hp : Doable cfg (s.splay p.dir) p) (hcan : p.action ≠ .cannot)
    (hc : c ∈ p.ncols) : c ∉ (s.cols p.dir).getD [] := by
  cases haction : p.action with
  | addNullCols =>
      obtain ⟨sp, hs, -, hnot⟩ := hp.add (Or.inl haction)
      simpa [Hdb.cols, hs, SplayDir.splayCols] using hnot c hc
  | reorderD =>
      obtain ⟨sp, hs, -, hnot⟩ := hp.add (Or.inr haction)
      simpa [Hdb.cols, hs, SplayDir.splayCols] using hnot c hc
  | createEmpty => simp [Hdb.cols, (hp.create haction).1]
  | cannot => exact absurd haction hcan

/-- New column files, and the `.d` of before. -/
theorem not_migrated_without_d {s₀ : Hdb V} {pl₀ : List Item}
    (hp : Doable cfg (s.splay p.dir) p) (hcan : p.action ≠ .cannot) (hdir : p.dir ∈ s.dirs cfg)
    (hpart : ws ⊆ p.writes cfg) (hsome : ws ≠ []) (hnod : ∀ cols, Write.d p.dir cols ∉ ws) :
    ¬ Migrated cfg s₀ pl₀ ((s.writeAll ws).migrate cfg true).2 := by
  have hcol : ∃ c values, Write.column p.dir c values ∈ ws := by
    obtain ⟨w, hw⟩ := List.exists_mem_of_ne_nil ws hsome
    cases w with
    | d dir cols =>
        obtain ⟨rfl, -⟩ := (d_mem_writes hcan).mp (hpart hw)
        exact absurd hw (hnod cols)
    | column dir c values =>
        obtain ⟨rfl, -, -⟩ := (column_mem_writes hp hcan).mp (hpart hw)
        exact ⟨c, values, hw⟩
  obtain ⟨c, values, hw⟩ := hcol
  obtain ⟨-, hc, hvalues⟩ := (column_mem_writes hp hcan).mp (hpart hw)
  have hfile : (s.writeAll ws).file p.dir c = some values := by
    refine file_writeAll_of_mem hw fun values' hw' => ?_
    exact ((column_mem_writes hp hcan).mp (hpart hw')).2.2.trans hvalues.symm
  have hcols : (s.writeAll ws).cols p.dir = s.cols p.dir := cols_writeAll_of_not_mem hnod
  have hbad : ∀ items, planOne cfg p.dir ((s.writeAll ws).splay p.dir) = some items →
      ∃ q ∈ items, q.action = .cannot := by
    intro items hitems
    cases hs : (s.writeAll ws).splay p.dir with
    | none => simp [Hdb.file, hs] at hfile
    | some sp =>
        rw [hs] at hitems
        have hlist := not_listed hp hcan hc
        rw [← hcols] at hlist
        refine planOne_present (hp.wanted c hc) ?_ ?_ hitems
        · simpa [Hdb.cols, hs, SplayDir.splayCols] using hlist
        · simp only [Hdb.file, hs, Option.bind_some] at hfile
          rw [hfile, Option.isSome_some]
  exact not_migrated_of_cannot (by rwa [dirs_writeAll]) hbad

/-- The `.d` of the schema, and a column without a file. -/
theorem not_migrated_with_d {s₀ : Hdb V} {pl₀ : List Item} (hp₀ : p ∈ pl₀)
    (hp : Doable cfg (s.splay p.dir) p) (hcan : p.action ≠ .cannot)
    (hpart : ws ⊆ p.writes cfg) (hd : Write.d p.dir (storedCols cfg.depth p.dir.table) ∈ ws)
    (hc : c ∈ p.ncols) (hmissing : ∀ values, Write.column p.dir c values ∉ ws) :
    ¬ Migrated cfg s₀ pl₀ ((s.writeAll ws).migrate cfg true).2 := by
  have hcols : (s.writeAll ws).cols p.dir = some (storedCols cfg.depth p.dir.table) :=
    cols_writeAll_of_mem hd fun cols hw => ((d_mem_writes hcan).mp (hpart hw)).2
  have hfile : (s.writeAll ws).file p.dir c = none := by
    rw [file_writeAll_of_not_mem hmissing, Hdb.file, Option.bind_eq_none_iff]
    exact fun sp hsp => hp.absent sp hsp c hc
  have hdone : planOne cfg p.dir ((s.writeAll ws).splay p.dir) = some [] := by
    cases hs : (s.writeAll ws).splay p.dir with
    | none => simp [Hdb.cols, hs] at hcols
    | some sp =>
        refine planOne_done ?_
        simp only [Hdb.cols, hs, Option.bind_some] at hcols
        rw [SplayDir.splayCols, hcols, Option.getD_some]
  rintro ⟨-, -, hadded⟩
  have hthere := hadded p hp₀ c hc
  rw [Hdb.file, migrate_splay hdone, ← Hdb.file, hfile] at hthere
  simp at hthere

/-- Some but not all of the files of an item. -/
theorem not_migrated_within {done rest : List Item} {k j : Nat} (hplan : s.plan cfg = some pl)
    (hcan : ∀ p ∈ pl, p.action ≠ .cannot)
    (h : WithinItem (fun p : Item => p.writes cfg) pl done p rest k j) :
    ¬ Migrated cfg s pl (((s.writeAll ((pl.flatMap (·.writes cfg)).take k)).migrate cfg true).2) := by
  have hmem : p ∈ pl := by
    rw [h.split]
    exact List.mem_append_right _ List.mem_cons_self
  have hnot : p.dir ∉ done.map (·.dir) := by
    have hapart := (plan_planned hplan).apart
    rw [h.split, List.map_append, List.nodup_append'] at hapart
    exact List.disjoint_right.mp hapart.2.2 List.mem_cons_self
  rw [h.take_flatMap, writeAll_append]
  have hdo := (plan_ready (plan_planned hplan) hcan p hmem).1
  have hsame : (s.writeAll (done.flatMap (·.writes cfg))).splay p.dir = s.splay p.dir :=
    splay_after hnot
  rw [← hsame] at hdo
  have hdir : p.dir ∈ (s.writeAll (done.flatMap (·.writes cfg))).dirs cfg := by
    rw [dirs_writeAll]
    exact ((plan_planned hplan).item p hmem).2
  have hpart : (p.writes cfg).take j ⊆ p.writes cfg := List.take_subset _ _
  by_cases hd : Write.d p.dir (storedCols cfg.depth p.dir.table) ∈ (p.writes cfg).take j
  · -- the first file that is not written is a column
    obtain ⟨w, hw⟩ := List.exists_mem_of_ne_nil ((p.writes cfg).drop j)
      (by simpa using h.unfinished)
    have hapart := writes_nodup hdo
    rw [← List.take_append_drop j (p.writes cfg), List.nodup_append'] at hapart
    have hlate : w ∉ (p.writes cfg).take j := List.disjoint_right.mp hapart.2.2 hw
    have hall : w ∈ p.writes cfg := List.mem_of_mem_drop hw
    cases w with
    | d dir cols =>
        obtain ⟨rfl, rfl⟩ := (d_mem_writes (hcan p hmem)).mp hall
        exact absurd hd hlate
    | column dir c values =>
        obtain ⟨rfl, hc, hvalues⟩ := (column_mem_writes hdo (hcan p hmem)).mp hall
        refine not_migrated_with_d hmem hdo (hcan p hmem) hpart hd hc fun values' hw' => hlate ?_
        obtain ⟨-, -, hvalues'⟩ := (column_mem_writes hdo (hcan p hmem)).mp (hpart hw')
        rwa [hvalues, ← hvalues']
  · refine not_migrated_without_d hdo (hcan p hmem) hdir hpart ?_ fun cols hw => hd ?_
    · simpa using ⟨h.begun.ne', List.ne_nil_of_length_pos (Nat.lt_of_lt_of_le h.begun
        (Nat.le_of_lt h.unfinished))⟩
    · obtain ⟨-, rfl⟩ := (d_mem_writes (hcan p hmem)).mp (hpart hw)
      exact hw

end

/-- A migration of a plan that can be done is taken up by the next run, to the same end as
without the crash, exactly if the crash came between two items. -/
theorem migrate_resumes_iff {V : Type*} (cfg : MigrateConfig V) (s : Hdb V) {pl : List Item}
    (hplan : s.plan cfg = some pl) (hcan : ∀ p ∈ pl, p.action ≠ .cannot) {k : Nat}
    (hk : k ≤ (runAll cfg pl s).1.length) :
    Migrated cfg s pl ((s.writeAll ((runAll cfg pl s).1.take k)).migrate cfg true).2 ↔
      BetweenItems (fun p : Item => p.writes cfg) pl k := by
  have hrun := runAll_eq (plan_ready (plan_planned hplan) hcan) (plan_planned hplan).apart
  rw [hrun] at hk ⊢
  constructor
  · intro hmigrated
    obtain hbetween | ⟨done, p, rest, j, hwithin⟩ := between_or_within hk
    · exact hbetween
    · exact absurd hmigrated (not_migrated_within hplan hcan hwithin)
  · rintro ⟨done, ⟨rest, rfl⟩, rfl⟩
    have hrest := migrate_ready (plan_after hplan hcan)
      fun p hp => hcan p (List.mem_append_right _ hp)
    rw [take_flatMap_done, hrest, ← writeAll_append, ← List.flatMap_append]
    exact migrated_all hplan hcan

/-- Depth 1, and a `set` that writes `.d` first; a cell is a number. -/
def sampleMigrate : MigrateConfig (Option Nat) where
  depth := 1
  hdbDir := "hdb"
  tmpDir := "tmp"
  isDate := fun _ => true
  nullOf := fun _ => none
  setOrder := fun cols => none :: cols.map some
  setOrder_perm := fun _ => List.Perm.refl _

def sampleDir (t : WdbTable) : Dir := { kind := .tmp, root := "tmp.2026.01.07", table := t }

/-- The columns of `trade_binance_fut` before it had `qtyExRpi`. -/
def oldFutCols : List Col := (storedCols 1 .tradeBinanceFut).filter (· ≠ "qtyExRpi")

/-- An intraday directory with two rows in the old layout, and one in another order. -/
def oldHdb : Hdb (Option Nat) where
  hdbNames := []
  tmpNames := ["tmp.2026.01.07"]
  splay := fun dir =>
    if dir = sampleDir .tradeBinanceFut then
      some
        { d := some oldFutCols
          file := fun c => if c ∈ oldFutCols then some [some 1, some 2] else none }
    else if dir = sampleDir .tradeGap then
      some { d := some (storedCols 1 .tradeGap).reverse, file := fun _ => some [some 3] }
    else none
  hdbNodup := List.nodup_nil
  tmpNodup := List.nodup_singleton _

def oldPlan : List Item :=
  [{ dir := sampleDir .tradeBinanceFut, rows := 2, action := .addNullCols, ncols := ["qtyExRpi"]
     note := "" },
    { dir := sampleDir .tradeGap, rows := 1, action := .reorderD, ncols := [], note := "" }]

/-- A crash once the first directory is done. -/
theorem migrate_resumes_old :
    Migrated sampleMigrate oldHdb oldPlan
      ((oldHdb.writeAll ((runAll sampleMigrate oldPlan oldHdb).1.take 2)).migrate
        sampleMigrate true).2 := by
  refine (migrate_resumes_iff sampleMigrate oldHdb (by decide +kernel) (by decide)
    (by decide +kernel)).mpr ⟨oldPlan.take 1, List.take_prefix 1 _, by decide +kernel⟩

/-- After the first of the writes the column file is there and `.d` does not list it; the
next run changes nothing. -/
theorem migrate_stuck :
    oldHdb.plan sampleMigrate = some oldPlan ∧
      ((oldHdb.writeAll ((runAll sampleMigrate oldPlan oldHdb).1.take 1)).migrate
        sampleMigrate true).2.plan sampleMigrate =
          some [{ dir := sampleDir .tradeBinanceFut, rows := 2, action := .cannot
                  ncols := ["qtyExRpi"], note := "column file exists but is not listed in .d" },
            { dir := sampleDir .tradeGap, rows := 1, action := .reorderD, ncols := []
              note := "" }] := by
  decide +kernel

end TickToSignal.Utils
