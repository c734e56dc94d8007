import DirWatcher.Watching.WatchedTrees

/-!
The rows without a parent are for lines of the config file, so that every recorded path
is one of its lines or lies below one.
-/

set_option autoImplicit false
set_option relaxedAutoImplicit false

namespace DirWatcher.Watching

open Source Environment Foundation.SeparatedPaths Foundation.Runs

/-- The parent and the path of the row that `add_watch` is at work on. -/
def asked : Place → Option (Wd × Bytes)
  | .addWatch parentWd path => some (parentWd, path)
  | .inotifyAddWatch parentWd path => some (parentWd, path)
  | .removePrunedWds _ (some row) => some (row.parentWd, row.path)
  | _ => none

structure Configured (cfg : Config) (w : Watcher) : Prop where
  lines : ∀ line ∈ w.lines, line ∈ cfg.topLevelPaths
  rows : ∀ row ∈ w.table, row.parentWd = nullWd → row.path ∈ cfg.topLevelPaths
  asked : ∀ path, asked w.place = some (nullWd, path) → path ∈ cfg.topLevelPaths

variable {cfg : Config} {s : System Inotify} {w after : Watcher}

theorem configured_start (cfg : Config) : Configured cfg (Watcher.start cfg) where
  lines := fun _ hline ↦ hline
  rows := by simp [Watcher.start]
  asked := by simp [Watcher.start, Watching.asked]

/-- The table only loses rows, and the new place asks for nothing at the root. -/
theorem Configured.stay (hconfigured : Configured cfg w) (hlines : after.lines = w.lines)
    (htable : after.table ⊆ w.table)
    (hasked : ∀ path, Watching.asked after.place = some (nullWd, path) →
      Watching.asked w.place = some (nullWd, path)) : Configured cfg after where
  lines := hlines ▸ hconfigured.lines
  rows := fun row hrow ↦ hconfigured.rows row (htable hrow)
  asked := fun path hpath ↦ hconfigured.asked path (hasked path hpath)

theorem Configured.insert (hconfigured : Configured cfg w) {row : Row}
    (hrow : Watching.asked w.place = some (row.parentWd, row.path))
    (hstep : InsertStep w row after) : Configured cfg after := by
  cases hstep with
  | clashes => exact hconfigured.stay rfl (List.Subset.refl _) (by simp [Watching.asked])
  | inserts hadd =>
    obtain ⟨-, rfl⟩ := addWdDirectory_eq_some_iff.mp hadd
    refine ⟨hconfigured.lines, fun old hold hnull ↦ ?_, by simp [Watching.asked]⟩
    rcases List.mem_append.mp hold with hmem | hnew
    · exact hconfigured.rows old hmem hnull
    · rw [List.mem_singleton.mp hnew] at hnull ⊢
      exact hconfigured.asked row.path (by rw [hrow, hnull])

theorem Configured.prune (hconfigured : Configured cfg w) {wd : Wd} {new : Option Row}
    (hnew : ∀ row ∈ new, Watching.asked w.place = some (row.parentWd, row.path))
    (hstep : PruneStep w wd new after) : Configured cfg after := by
  cases hstep with
  | loops => exact hconfigured.stay rfl (List.Subset.refl _) (by simp [Watching.asked])
  | removes hprune =>
    refine hconfigured.stay rfl (pruneWdDirectory_spec hprune).2.2.subset fun path hpath ↦ ?_
    cases new with
    | none => simp [Watching.asked] at hpath
    | some row => exact (hnew row rfl).trans hpath

/-- A watch descriptor that is asked for with the event of a watch, or for the name in a
directory that has been watched, is not the one of the root. -/
theorem Configured.internal (hconfigured : Configured cfg s.watcher) (hregular : Regular s)
    (hstep : InternalStep cfg s.watcher after) : Configured cfg after := by
  have htask := hregular.agreeing.task
  cases hstep with
  | @readsLine line rest _ hlines =>
    refine ⟨fun other hother ↦ hconfigured.lines other (hlines ▸ List.mem_cons_of_mem _ hother),
      hconfigured.rows, fun path hpath ↦ ?_⟩
    obtain rfl : line = path := by simpa [Watching.asked] using hpath
    exact hconfigured.lines line (hlines ▸ List.mem_cons_self)
  | @takesEvent event rest _ hplace hbatch hdispatch =>
    have hpositive : 0 < event.wd := by
      refine hregular.ordered.delivered.positive _ (hregular.ordered.delivered.used event ?_)
      rw [pending, hbatch]
      exact List.mem_append_left _ List.mem_cons_self
    have hwatcher : Configured cfg ({ s.watcher with batch := rest }.findParent event) := by
      unfold Watcher.findParent
      split_ifs <;> exact ⟨hconfigured.lines, hconfigured.rows, hconfigured.asked⟩
    cases hdispatch with
    | forgets =>
      exact hwatcher.stay rfl removeWdDirectory_sublist.subset (by simp [Watching.asked])
    | watches =>
      refine hwatcher.stay rfl (List.Subset.refl _) fun path hpath ↦ ?_
      simp only [Watching.asked, Option.some.injEq, Prod.mk.injEq] at hpath
      exact absurd hpath.1 (ne_of_gt hpositive)
    | prunes cookie _ _ _ _ hprune =>
      have hcookie : Configured cfg
          { { s.watcher with batch := rest }.findParent event with prevCookie := cookie } :=
        ⟨hwatcher.lines, hwatcher.rows, hwatcher.asked⟩
      exact hcookie.prune (by simp) hprune
    | _ => exact hwatcher.stay rfl (List.Subset.refl _) (by simp [Watching.asked])
  | requests hplace =>
    exact hconfigured.stay rfl (List.Subset.refl _) (by simp [Watching.asked, hplace])
  | insertsPruned hplace hinsert =>
    exact hconfigured.insert (by simp [Watching.asked, hplace]) hinsert
  | descends hplace =>
    rw [hplace] at htask
    refine hconfigured.stay rfl (List.Subset.refl _) fun path hpath ↦ ?_
    simp only [Watching.asked, Option.some.injEq, Prod.mk.injEq] at hpath
    exact absurd hpath.1 htask.follows.2.1
  | @returns result frame =>
    refine hconfigured.stay (by cases frame <;> rfl)
      (by cases frame <;> exact List.Subset.refl _) ?_
    cases frame with
    | created =>
      simp only [Watcher.returnTo]
      split_ifs <;> simp [Watching.asked]
    | _ => simp [Watcher.returnTo, Watching.asked]
  | reports =>
    rw [report_eq]
    exact hconfigured.stay rfl (List.Subset.refl _) (by simp [Watching.asked])
  | _ => exact hconfigured.stay rfl (List.Subset.refl _) (by simp [Watching.asked, Watcher.exit])

theorem Configured.resume (hconfigured : Configured cfg w) {answer : Answer}
    (hstep : ResumeStep w answer after) : Configured cfg after := by
  cases hstep with
  | reuses hplace _ hprune =>
    exact hconfigured.prune (by simp [Watching.asked, hplace]) hprune
  | adds hplace _ hinsert => exact hconfigured.insert (by simp [Watching.asked, hplace]) hinsert
  | @removes _ _ row _ hplace =>
    refine hconfigured.stay rfl (List.Subset.refl _) fun path hpath ↦ ?_
    cases row with
    | none => simp [Watching.asked] at hpath
    | some row => simpa [Watching.asked, hplace] using hpath
  | reads => exact ⟨hconfigured.lines, hconfigured.rows,
    by simp [Watcher.startBatch, Watching.asked]⟩
  | _ => exact hconfigured.stay rfl (List.Subset.refl _) (by simp [Watching.asked, Watcher.exit])

theorem Configured.step {s after : System FileSystem} {label : Label FsAct}
    (hconfigured : Configured cfg s.watcher) (hregular : Regular s.inotify)
    (hstep : s.step cfg fileSystem label = some after) : Configured cfg after.watcher := by
  cases label with
  | act action => exact (System.step_act hstep).2 ▸ hconfigured
  | internal =>
    exact Configured.internal hconfigured hregular (internalStep (System.step_internal hstep).1)
  | answer answer =>
    obtain ⟨-, -, -, hresume⟩ := System.step_answer hstep
    exact hconfigured.resume (resumeStep hresume)

/-- In an orderly run each recorded path is a line of the config file or lies below
one. -/
theorem Configured.below_top (hconfigured : Configured cfg w) (hrooted : Rooted w.table) {row : Row}
    (hrow : row ∈ w.table) : ∃ top ∈ cfg.topLevelPaths, AtOrBelow top row := by
  obtain ⟨root, hroot, hnull, hbelow⟩ := hrooted.exists_root hrow
  exact ⟨root.path, hconfigured.rows root hroot hnull, hbelow⟩

end DirWatcher.Watching
