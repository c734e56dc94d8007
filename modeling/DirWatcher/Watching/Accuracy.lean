import DirWatcher.Watching.Configured

/-!
The recorded paths lead to the watched directories. While an event is on its way that
will prune a row, the row and all that is linked below it may be wrong. All other rows
are right in every state, and when nothing is on its way all rows are.
-/

set_option autoImplicit false
set_option relaxedAutoImplicit false

namespace DirWatcher.Watching

open Source Environment Foundation.SeparatedPaths Foundation.Runs

/-! ### Sound rows -/

/-- The path of the row leads to the directory its watch is on. -/
def Accurate (s : System FileSystem) (row : Row) : Prop :=
  ∃ dir, ⟨row.wd, dir⟩ ∈ s.kernel.watches ∧ s.kernel.tree.resolve row.path = some dir

/-- What will make the watcher remove the row: its watch is dead, its directory has been
removed, or it has been moved and the event is pending. -/
inductive Broken (s : System FileSystem) (row : Row) : Prop
  | dead (hdead : row.wd ∉ s.kernel.live)
  | removed {dir : Dir} (hparent : row.parentWd ≠ nullWd)
      (hwatch : ⟨row.wd, dir⟩ ∈ s.kernel.watches) (hremoved : ¬ s.kernel.tree.Attached dir)
  | moved {event : Event} {path : Bytes} (hevent : event ∈ pending s.inotify)
      (hdeparture : Departure event) (hwd : event.wd = row.parentWd)
      (hpath : row.path = joinPath path event.name)

theorem Accurate.resolve_eq {s : System FileSystem} {row : Row} {dir : Dir}
    (haccurate : Accurate s row) (hwatch : ⟨row.wd, dir⟩ ∈ s.kernel.watches) :
    s.kernel.tree.resolve row.path = some dir := by
  obtain ⟨other, hother, hresolve⟩ := haccurate
  rwa [FileSystem.dir_eq_of_wd hwatch hother]

theorem Accurate.resolve_entry {s : System FileSystem} {row : Row} {entry : Entry}
    (haccurate : Accurate s row) (hwatch : ⟨row.wd, entry.parent⟩ ∈ s.kernel.watches)
    (hentry : entry ∈ s.kernel.tree.entries) :
    s.kernel.tree.resolve (joinPath row.path entry.name) = some entry.dir := by
  have hresolve := haccurate.resolve_eq hwatch
  have hne : row.path ≠ [] := by
    rintro hnil
    simp [hnil, DirTree.resolve] at hresolve
  rw [DirTree.resolve_joinPath hne (s.kernel.tree.names entry hentry), hresolve, Option.bind_some]
  exact DirTree.child_eq_some_iff.mpr hentry

/-- Nothing is on its way that will remove the row or a row above it. -/
inductive Sound (s : System FileSystem) : Row → Prop
  | root {row : Row} (hrow : row ∈ s.watcher.table) (hnull : row.parentWd = nullWd)
      (hwhole : ¬ Broken s row) : Sound s row
  | child {parent row : Row} (hparent : Sound s parent) (hrow : row ∈ s.watcher.table)
      (hof : ParentOf parent row) (hwhole : ¬ Broken s row) : Sound s row

def Truthful (s : System FileSystem) : Prop := ∀ row, Sound s row → Accurate s row

variable {cfg : Config} {s after : System FileSystem} {row : Row}

theorem Sound.mem (hsound : Sound s row) : row ∈ s.watcher.table := by
  cases hsound with
  | root hrow => exact hrow
  | child _ hrow => exact hrow

theorem Sound.not_broken (hsound : Sound s row) : ¬ Broken s row := by
  cases hsound with
  | root _ _ hwhole => exact hwhole
  | child _ _ _ hwhole => exact hwhole

theorem Sound.live (hsound : Sound s row) : ∃ dir, ⟨row.wd, dir⟩ ∈ s.kernel.watches := by
  by_contra hdead
  exact hsound.not_broken (.dead fun hlive ↦ hdead (FileSystem.mem_live.mp hlive))

/-- A broken row stays so, and it does not get a parent that is new. -/
structure Decays (s after : System FileSystem) : Prop where
  parents : ∀ row ∈ s.watcher.table, ∀ parent ∈ after.watcher.table, ParentOf parent row →
    parent ∈ s.watcher.table
  broken : ∀ row ∈ s.watcher.table, row ∈ after.watcher.table → Broken s row → Broken after row

/-- What is sound after a step has been so before. -/
theorem Sound.back (hsound : Sound after row) (hdecays : Decays s after)
    (hold : row ∈ s.watcher.table) : Sound s row := by
  induction hsound with
  | root hrow hnull hwhole =>
    exact .root hold hnull fun hbroken ↦ hwhole (hdecays.broken _ hold hrow hbroken)
  | child hparent hrow hof hwhole ih =>
    exact .child (ih (hdecays.parents _ hold _ hparent.mem hof)) hold hof fun hbroken ↦
      hwhole (hdecays.broken _ hold hrow hbroken)

/-! ### Where nothing is moved -/

theorem Broken.shrink (hbroken : Broken s row) (htree : after.kernel.tree = s.kernel.tree)
    (hwatches : after.kernel.watches ⊆ s.kernel.watches)
    (hpending : pending s.inotify ⊆ pending after.inotify) : Broken after row := by
  cases hbroken with
  | dead hdead =>
    refine .dead fun hlive ↦ ?_
    obtain ⟨dir, hwatch⟩ := FileSystem.mem_live.mp hlive
    exact hdead (FileSystem.mem_live.mpr ⟨dir, hwatches hwatch⟩)
  | @removed dir hparent hwatch hremoved =>
    by_cases hlive : row.wd ∈ after.kernel.live
    · obtain ⟨other, hother⟩ := FileSystem.mem_live.mp hlive
      obtain rfl := FileSystem.dir_eq_of_wd hwatch (hwatches hother)
      exact .removed hparent hother (htree ▸ hremoved)
    · exact .dead hlive
  | moved hevent hdeparture hwd hpath => exact .moved (hpending hevent) hdeparture hwd hpath

theorem Accurate.shrink (haccurate : Accurate s row) (htree : after.kernel.tree = s.kernel.tree)
    (hwatches : after.kernel.watches ⊆ s.kernel.watches)
    (hlive : ∃ dir, ⟨row.wd, dir⟩ ∈ after.kernel.watches) : Accurate after row := by
  obtain ⟨dir, hwatch, hresolve⟩ := haccurate
  obtain ⟨other, hother⟩ := hlive
  obtain rfl := FileSystem.dir_eq_of_wd hwatch (hwatches hother)
  exact ⟨dir, hother, htree ▸ hresolve⟩

theorem Shrinks.decays (hshrinks : Shrinks s after) : Decays s after where
  parents := fun _ _ _ hparent _ ↦ hshrinks.table hparent
  broken := fun _ _ _ hbroken ↦
    hbroken.shrink hshrinks.tree hshrinks.watches hshrinks.pending

theorem Truthful.shrink (htruthful : Truthful s) (hshrinks : Shrinks s after) : Truthful after :=
  fun row hsound ↦ (htruthful row (hsound.back hshrinks.decays (hshrinks.table hsound.mem))).shrink
    hshrinks.tree hshrinks.watches hsound.live

/-! ### Where a row is inserted -/

theorem decays_of_insert {new : Row} (hrooted : Rooted s.watcher.table) (hpositive : 0 < new.wd)
    (htable : after.watcher.table = s.watcher.table ++ [new]) (hfree : Free s.watcher.table new)
    (hbroken : ∀ row ∈ s.watcher.table, Broken s row → Broken after row) : Decays s after where
  parents := by
    intro row hrow parent hparent hof
    rw [htable] at hparent
    rcases List.mem_append.mp hparent with hold | hnew
    · exact hold
    · rw [List.mem_singleton.mp hnew] at hof
      rcases hrooted.parent_cases hrow with hnull | ⟨old, hold, hwd⟩
      · exact absurd (hof.link.symm.trans hnull) (ne_of_gt hpositive)
      · exact absurd (hwd.trans hof.link) (hfree old hold).1
  broken := fun row hrow _ ↦ hbroken row hrow

theorem FreshWatch.decays {new : Row} {dir : Dir} (hregular : Regular s.inotify)
    (hfresh : FreshWatch s new dir after) : Decays s after := by
  have hfree := hfresh.free hregular.toSteady
  refine decays_of_insert hregular.agreeing.rooted hfresh.positive
    (table_of_insert hfree hfresh.insert) hfree fun row hrow hbroken ↦ ?_
  cases hbroken with
  | dead hdead =>
    refine .dead fun hlive ↦ ?_
    obtain ⟨other, hwatch⟩ := FileSystem.mem_live.mp hlive
    rcases hfresh.mem_watches.mp hwatch with hnew | hold
    · exact (hfree row hrow).1 (congrArg Watch.wd hnew)
    · exact hdead (FileSystem.mem_live.mpr ⟨other, hold⟩)
  | removed hparent hwatch hremoved =>
    exact .removed hparent (hfresh.mem_watches.mpr (Or.inr hwatch)) (hfresh.tree ▸ hremoved)
  | moved hevent hdeparture hwd hpath =>
    exact .moved (hfresh.pending_eq ▸ hevent) hdeparture hwd hpath

theorem Truthful.fresh {new : Row} {dir : Dir} (htruthful : Truthful s)
    (hregular : Regular s.inotify) (hfresh : FreshWatch s new dir after) : Truthful after := by
  intro row hsound
  have htable := table_of_insert (hfresh.free hregular.toSteady) hfresh.insert
  have hrow := hsound.mem
  rw [htable] at hrow
  rcases List.mem_append.mp hrow with hold | hnew
  · obtain ⟨other, hwatch, hresolve⟩ :=
      htruthful row (hsound.back (hfresh.decays hregular) hold)
    exact ⟨other, hfresh.mem_watches.mpr (Or.inr hwatch), hfresh.tree ▸ hresolve⟩
  · rw [List.mem_singleton.mp hnew]
    exact ⟨dir, hfresh.mem_watches.mpr (Or.inl rfl), hfresh.tree ▸ hfresh.resolve⟩

/-! ### Where an event is processed -/

theorem Broken.internal {watcher : Watcher} (hregular : Regular s.inotify)
    (hstep : InternalStep cfg s.watcher watcher) (hruns : ¬ Stopped watcher)
    (hrow : row ∈ s.watcher.table) (hleft : row ∈ watcher.table) (hbroken : Broken s row) :
    Broken { s with watcher } row := by
  cases hbroken with
  | dead hdead => exact .dead hdead
  | removed hparent hwatch hremoved => exact .removed hparent hwatch hremoved
  | @moved event path hevent hdeparture hwd hpath =>
    rcases batch_or_dispatch_of_internal hstep with ⟨hbatch, -⟩ |
      ⟨taken, rest, hplace, hbatch, hdispatch⟩
    · refine .moved ?_ hdeparture hwd hpath
      change event ∈ watcher.batch ++ s.kernel.queue
      exact hbatch ▸ hevent
    · have hafter : watcher.batch = rest :=
        (batch_of_dispatch hdispatch).trans (findParent_batch _ _)
      change event ∈ s.watcher.batch ++ s.kernel.queue at hevent
      rw [hbatch, List.cons_append] at hevent
      rcases List.mem_cons.mp hevent with rfl | hlater
      · exact absurd hleft (hregular.not_left_of_departure hplace hbatch hdeparture hdispatch hruns
          hrow hwd hpath)
      · refine .moved ?_ hdeparture hwd hpath
        change event ∈ watcher.batch ++ s.kernel.queue
        exact hafter ▸ hlater

/-- A row that is inserted again for a pruned watch has no live one. -/
theorem decays_of_internal {watcher : Watcher} (hregular : Regular s.inotify)
    (hstep : InternalStep cfg s.watcher watcher) (hruns : ¬ Stopped watcher) :
    Decays s { s with watcher } ∧
      ∀ row ∈ watcher.table, row ∈ s.watcher.table ∨ row.wd ∉ s.kernel.live := by
  by_cases hinserting : ∃ row, Inserting s.watcher row
  · obtain ⟨row, wds, hrow⟩ := hinserting
    have hcopy := hstep
    cases hstep with
    | @insertsPruned new _ hplace hinsert =>
      have hchecked : Checked s.watcher.table s.watcher.place := hregular.ordered.keys.checked
      rw [hplace] at hchecked
      obtain ⟨hpositive, -, hfree⟩ := hchecked
      have htable := table_of_insert hfree hinsert
      refine ⟨decays_of_insert hregular.agreeing.rooted hpositive htable hfree
        fun old hold hbroken ↦ ?_, fun old hold ↦ ?_⟩
      · refine hbroken.internal hregular hcopy hruns hold ?_
        rw [htable]
        exact List.mem_append_left _ hold
      · rw [htable] at hold
        refine (List.mem_append.mp hold).imp id fun hnew ↦ ?_
        rw [List.mem_singleton.mp hnew]
        exact (hregular.pruning.inserting [] new hplace).resolve_left List.not_mem_nil
    | startsPolling hplace => simp [hrow] at hplace
    | readsLine hplace | takesEvent hplace | refuses hplace | requests hplace
    | finishesPrune hplace | finishesSubDirs hplace | descends hplace | overflows hplace
    | returns hplace | reports hplace => simp [hrow] at hplace
  · have hsub : ∀ row ∈ watcher.table, row ∈ s.watcher.table := fun row hrow ↦
      (mem_table_of_internal hstep hrow).resolve_right fun hnew ↦ hinserting ⟨row, hnew⟩
    refine ⟨⟨fun row hrow parent hparent _ ↦ hsub parent hparent, ?_⟩,
      fun row hrow ↦ Or.inl (hsub row hrow)⟩
    exact fun row hrow hleft hbroken ↦ hbroken.internal hregular hstep hruns hrow hleft

theorem Truthful.internal {watcher : Watcher} (htruthful : Truthful s)
    (hregular : Regular s.inotify)
    (hstep : InternalStep cfg s.watcher watcher) (hruns : ¬ Stopped watcher) :
    Truthful { s with watcher } := by
  obtain ⟨hdecays, hrows⟩ := decays_of_internal hregular hstep hruns
  intro row hsound
  rcases hrows row hsound.mem with hold | hdead
  · exact htruthful row (hsound.back hdecays hold)
  · exact absurd (.dead hdead) hsound.not_broken

/-! ### Where directories are made, moved and removed -/

/-- What the paths of the rows at the root lead to is not changed. -/
def RootsStay (s : System FileSystem) : Label FsAct → Prop
  | .act action => ∀ fs ∈ s.kernel.act action, ∀ row ∈ s.watcher.table, row.parentWd = nullWd →
      fs.tree.resolve row.path = s.kernel.tree.resolve row.path
  | _ => True

instance (s : System FileSystem) (label : Label FsAct) : Decidable (RootsStay s label) :=
  match label with
  | .act action => inferInstanceAs (Decidable (∀ fs ∈ s.kernel.act action, ∀ row ∈ s.watcher.table,
      row.parentWd = nullWd → fs.tree.resolve row.path = s.kernel.tree.resolve row.path))
  | .internal | .answer _ => inferInstanceAs (Decidable True)

theorem decays_of_changes {kernel : FileSystem} {news : List Event}
    (hchanges : Changes s.kernel news kernel) : Decays s { s with kernel } where
  parents := fun _ _ _ hparent _ ↦ hparent
  broken := by
    intro row _ _ hbroken
    cases hbroken with
    | dead hdead =>
      refine .dead fun hlive ↦ ?_
      obtain ⟨dir, hwatch⟩ := FileSystem.mem_live.mp hlive
      exact hdead (FileSystem.mem_live.mpr ⟨dir, hchanges.watches hwatch⟩)
    | @removed dir hparent hwatch hremoved =>
      by_cases hlive : row.wd ∈ kernel.live
      · obtain ⟨other, hother⟩ := FileSystem.mem_live.mp hlive
        obtain rfl := FileSystem.dir_eq_of_wd hwatch (hchanges.watches hother)
        exact .removed hparent hother (hchanges.removed dir (s.kernel.known _ hwatch).2 hremoved)
      · exact .dead hlive
    | moved hevent hdeparture hwd hpath =>
      refine .moved ?_ hdeparture hwd hpath
      change _ ∈ s.watcher.batch ++ kernel.queue
      rw [hchanges.queue, ← List.append_assoc]
      exact List.mem_append_left _ hevent

/-- The path of a sound row leads to the place of its directory in that of its parent. -/
theorem Truthful.act {kernel : FileSystem} {news : List Event} (htruthful : Truthful s)
    (hkeyed : Keyed s.watcher.table) (hchanges : Changes s.kernel news kernel)
    (hroots : ∀ row ∈ s.watcher.table, row.parentWd = nullWd →
      kernel.tree.resolve row.path = s.kernel.tree.resolve row.path) :
    Truthful { s with kernel } := by
  intro row hsound
  have hdecays := decays_of_changes hchanges
  induction hsound with
  | @root row hrow hnull hwhole =>
    obtain ⟨dir, hwatch, hresolve⟩ :=
      htruthful row ((Sound.root hrow hnull hwhole).back hdecays hrow)
    obtain ⟨other, hother⟩ := (Sound.root hrow hnull hwhole).live
    obtain rfl := FileSystem.dir_eq_of_wd hwatch (hchanges.watches hother)
    exact ⟨dir, hother, (hroots row hrow hnull).trans hresolve⟩
  | @child parent row hparent hrow hof hwhole ih =>
    have hsound := Sound.child hparent hrow hof hwhole
    obtain ⟨dir, hwatch, hresolve⟩ := htruthful row (hsound.back hdecays hrow)
    obtain ⟨other, hother⟩ := hsound.live
    obtain rfl := FileSystem.dir_eq_of_wd hwatch (hchanges.watches hother)
    obtain ⟨above, haboveWatch, haboveResolve⟩ :=
      htruthful parent (hparent.back hdecays hparent.mem)
    obtain ⟨name, hname, hpath⟩ := hof.path
    obtain ⟨later, hlaterWatch, hlaterResolve⟩ := ih
    obtain rfl := FileSystem.dir_eq_of_wd haboveWatch (hchanges.watches hlaterWatch)
    have hne : parent.path ≠ [] := by
      rintro hnil
      simp [hnil, DirTree.resolve] at haboveResolve
    rw [hpath, DirTree.resolve_joinPath hne hname, haboveResolve, Option.bind_some,
      DirTree.child_eq_some_iff] at hresolve
    refine ⟨dir, hother, ?_⟩
    rw [hpath, DirTree.resolve_joinPath hne hname, hlaterResolve, Option.bind_some,
      DirTree.child_eq_some_iff]
    rcases hchanges.kept _ hresolve with hkept | hremoved | hmoved
    · exact hkept
    · refine absurd (Broken.removed ?_ hother hremoved) hwhole
      exact hof.link ▸ ne_of_gt (hkeyed.positive parent hparent.mem)
    · obtain ⟨event, hevent, hdeparture, hwd, hevName⟩ := hmoved parent.wd haboveWatch
      refine absurd (Broken.moved ?_ hdeparture (hwd.trans hof.link.symm) (by rw [hpath, hevName]))
        hwhole
      change event ∈ s.watcher.batch ++ kernel.queue
      rw [hchanges.queue]
      simp [hevent]

/-! ### Runs -/

/-- The conditions under which the rows stay truthful. -/
def TruthfulStep (s : System FileSystem) (label : Label FsAct) : Prop :=
  OrderlyStep s label ∧ RootsStay s label

instance (s : System FileSystem) (label : Label FsAct) : Decidable (TruthfulStep s label) := by
  unfold TruthfulStep
  infer_instance

theorem Truthful.step (hregular : Regular s.inotify) (htruthful : Stopped s.watcher ∨ Truthful s)
    {label : Label FsAct} (hroots : RootsStay s label)
    (hstep : s.step cfg fileSystem label = some after) :
    Stopped after.watcher ∨ Truthful after := by
  cases label with
  | act action =>
    obtain ⟨kernel, hact, rfl⟩ := System.exists_kernel hstep
    obtain ⟨news, hchanges⟩ := FileSystem.exists_changes hact
    exact htruthful.imp id fun htruthful ↦ htruthful.act hregular.ordered.keys.keyed hchanges
      (hroots kernel hact)
  | internal =>
    obtain ⟨watcher, hinternal, rfl⟩ := System.exists_watcher hstep
    by_cases hruns : Stopped watcher
    · exact Or.inl hruns
    · have htruthful := htruthful.resolve_left (not_stopped_of_internal hinternal)
      exact Or.inr (htruthful.internal hregular (internalStep hinternal) hruns)
  | answer answer =>
    obtain ⟨call, hcall, -, -⟩ := System.step_answer hstep
    have htruthful := htruthful.resolve_left (not_stopped_of_call hcall)
    rcases answer_cases hregular.toSteady hstep with ⟨row, dir, -, hfresh⟩ | hshrinks
    · exact Or.inr (htruthful.fresh hregular hfresh)
    · exact Or.inr (htruthful.shrink hshrinks)

theorem truthful_start (cfg : Config) (tree : DirTree) :
    Truthful (System.start cfg (.start tree)) := by
  intro row hsound
  exact absurd hsound.mem (by simp [System.start, Watcher.start])

theorem truthful_of_reachesWhen {tree : DirTree}
    (hreaches : ReachesWhen (System.step cfg fileSystem) TruthfulStep
      (System.start cfg (.start tree)) s) :
    Regular s.inotify ∧ Configured cfg s.watcher ∧ (Stopped s.watcher ∨ Truthful s) := by
  refine hreaches.invariant
    (fun s ↦ Regular s.inotify ∧ Configured cfg s.watcher ∧ (Stopped s.watcher ∨ Truthful s))
    ⟨regular_start cfg, configured_start cfg, Or.inr (truthful_start cfg tree)⟩ ?_
  rintro s label next ⟨hregular, hconfigured, htruthful⟩ ⟨horderly, hroots⟩ hstep
  exact ⟨hregular.step_fileSystem horderly hstep, hconfigured.step hregular hstep,
    Truthful.step hregular htruthful hroots hstep⟩

/-- When nothing is pending, no row is broken. -/
theorem AtRest.not_broken (hrest : AtRest s) (hpaired : Paired s.inotify)
    (hrow : row ∈ s.watcher.table) : ¬ Broken s row := by
  intro hbroken
  cases hbroken with
  | dead hdead =>
    rcases hpaired.announced row hrow with hlive | hevent
    · exact hdead hlive
    · exact hrest.not_pending _ hevent
  | removed _ hwatch hremoved => exact hremoved (hrest.attached _ hwatch)
  | moved hevent => exact hrest.not_pending _ hevent

/-- The induction is on the length of the path: the parent of a row has a shorter one. -/
theorem AtRest.sound (hrest : AtRest s) (hregular : Regular s.inotify)
    (hrow : row ∈ s.watcher.table) : Sound s row := by
  induction hlength : row.path.length using Nat.strong_induction_on generalizing row with
  | _ length ih =>
    have hwhole := hrest.not_broken hregular.paired hrow
    rcases hregular.agreeing.rooted row hrow with hroot | ⟨parent, hparent, hof⟩
    · exact .root hrow hroot.link hwhole
    · exact .child (ih _ (hlength ▸ hof.length_lt) hparent rfl) hrow hof hwhole

/-- In an orderly run in which the paths of the rows at the root go on leading to the same
directories, the path of each row leads at rest to the directory its watch is on, and it
is a line of the config file or lies below one. -/
theorem recorded_paths_accurate (cfg : Config) (tree : DirTree) {s : System FileSystem}
    (hreaches : ReachesWhen (System.step cfg fileSystem) TruthfulStep
      (System.start cfg (.start tree)) s)
    (hrest : AtRest s) :
    ∀ row ∈ s.watcher.table, ∀ dir, ⟨row.wd, dir⟩ ∈ s.kernel.watches →
      s.kernel.tree.resolve row.path = some dir ∧ ∃ top ∈ cfg.topLevelPaths, AtOrBelow top row := by
  obtain ⟨hregular, hconfigured, htruthful⟩ := truthful_of_reachesWhen hreaches
  intro row hrow dir hwatch
  have haccurate := htruthful.resolve_left hrest.not_stopped row (hrest.sound hregular hrow)
  exact ⟨haccurate.resolve_eq hwatch, hconfigured.below_top hregular.agreeing.rooted hrow⟩

/-- `/t/a` becomes `/t/b`. -/
theorem recorded_paths_accurate_renamed :
    ∃ s, ReachesWhen (System.step ⟨[literal "/t"], [], by decide⟩ fileSystem) TruthfulStep
        (System.start ⟨[literal "/t"], [], by decide⟩ (.start oneSubDir)) s ∧
      s.watcher.table = [⟨1, 0, literal "/t"⟩, ⟨3, 1, literal "/t/b"⟩] ∧
      ∀ row ∈ s.watcher.table, ∀ dir, ⟨row.wd, dir⟩ ∈ s.kernel.watches →
        s.kernel.tree.resolve row.path = some dir ∧ ∃ top ∈ [literal "/t"], AtOrBelow top row := by
  have hrun : (runChecked (System.step ⟨[literal "/t"], [], by decide⟩ fileSystem)
      (fun s label ↦ decide (TruthfulStep s label))
      (System.start ⟨[literal "/t"], [], by decide⟩ (.start oneSubDir))
      (startsOneSubDir ++ renamesSubDir)).map
      (fun s : System FileSystem ↦ (decide (AtRest s), s.watcher.table)) =
      some (true, [⟨1, 0, literal "/t"⟩, ⟨3, 1, literal "/t/b"⟩]) := by decide
  obtain ⟨s, hreaches, hseen⟩ := exists_reachesWhen_of_run hrun
  simp only [Prod.mk.injEq, decide_eq_true_eq] at hseen
  exact ⟨s, hreaches, hseen.2, recorded_paths_accurate _ _ hreaches hseen.1⟩

/-- The config file has `/t/x/z` before `/t`, and `/t/x` is moved out. The row of
`/t/x/z` keeps its watch and its path, which leads nowhere. -/
theorem recorded_paths_accurate_fails :
    ∃ s, Reaches (System.step ⟨[literal "/t/x/z", literal "/t"], [], by decide⟩ fileSystem)
        (System.start ⟨[literal "/t/x/z", literal "/t"], [], by decide⟩ (.start nestedDirs)) s ∧
      AtRest s ∧ ⟨1, 0, literal "/t/x/z"⟩ ∈ s.watcher.table ∧ ⟨1, 3⟩ ∈ s.kernel.watches ∧
      s.kernel.tree.resolve (literal "/t/x/z") ≠ some 3 := by
  have hrun : (run (System.step ⟨[literal "/t/x/z", literal "/t"], [], by decide⟩ fileSystem)
      (System.start ⟨[literal "/t/x/z", literal "/t"], [], by decide⟩ (.start nestedDirs))
      (startsNestedDirs ++ [.act (.rename ⟨1, literal "x", 2⟩ 0 (literal "out") 5),
        .answer (.events [⟨2, FileSystem.movedFromDirMask, 5, literal "x"⟩,
          ⟨3, inMoveSelf, 0, []⟩]),
        .internal, .answer .done, .internal, .internal, .internal, .internal,
        .answer (.events [⟨3, inIgnored, 0, []⟩]), .internal, .internal])).map
      (fun s : System FileSystem ↦ (decide (AtRest s ∧ ⟨1, 0, literal "/t/x/z"⟩ ∈ s.watcher.table ∧
        ⟨1, 3⟩ ∈ s.kernel.watches ∧ s.kernel.tree.resolve (literal "/t/x/z") ≠ some 3))) =
      some true := by decide
  obtain ⟨s, hreaches, hseen⟩ := exists_reaches_of_run hrun
  exact ⟨s, hreaches, of_decide_eq_true hseen⟩

end DirWatcher.Watching
