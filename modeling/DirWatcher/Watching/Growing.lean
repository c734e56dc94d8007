import DirWatcher.Environment.Growth
import DirWatcher.Watching.Accuracy
import DirWatcher.Watching.Places

/-!
Runs in which directories are only made. No watch dies, so that no row is removed, each
row stays accurate, and the directory of an event is always found.
-/

set_option autoImplicit false
set_option relaxedAutoImplicit false

namespace DirWatcher.Watching

open Source Environment Foundation.Runs

/-- Of what can happen to the directories, only creations happen. -/
def Creation : Label FsAct → Prop
  | .act action => action.Creation
  | _ => True

instance (label : Label FsAct) : Decidable (Creation label) :=
  match label with
  | .act action => inferInstanceAs (Decidable action.Creation)
  | .internal | .answer _ => inferInstanceAs (Decidable True)

/-- Directories are only made, and no watch is asked for twice. -/
def GrowthStep (s : System FileSystem) (label : Label FsAct) : Prop :=
  Creation label ∧ NewWatch s label

instance (s : System FileSystem) (label : Label FsAct) : Decidable (GrowthStep s label) := by
  unfold GrowthStep
  infer_instance

/-- The directory of the last event looked up is recorded, with the path memoised. -/
def Remembered (w : Watcher) : Prop :=
  w.prevWd = nullWd ∨ ∃ row ∈ w.table, row.wd = w.prevWd ∧ w.parentDir = some row.path

structure Growing (s : System FileSystem) : Prop where
  steady : Steady s.inotify
  recorded : ∀ wd ∈ s.kernel.used, ∃ row ∈ s.watcher.table, row.wd = wd
  accurate : ∀ row ∈ s.watcher.table, Accurate s row
  stays : ∀ event ∈ pending s.inotify, ¬ Departure event
  arrives : ∀ event ∈ pending s.inotify, Arrival event → ∀ dir, ⟨event.wd, dir⟩ ∈ s.kernel.watches →
    ∃ found, ⟨dir, event.name, found⟩ ∈ s.kernel.tree.entries
  unpruned : ∀ wds row, s.watcher.place ≠ .removePrunedWds wds row
  remembered : Remembered s.watcher

theorem growing_start (cfg : Config) (tree : DirTree) :
    Growing (System.start cfg (.start tree)) where
  steady := steady_start cfg
  recorded := by simp [System.start, FileSystem.start]
  accurate := by simp [System.start, Watcher.start]
  stays := by
    intro event hevent
    change event ∈ [] ++ [] at hevent
    simp at hevent
  arrives := by
    intro event hevent
    change event ∈ [] ++ [] at hevent
    simp at hevent
  unpruned := by simp [System.start, Watcher.start]
  remembered := Or.inl rfl

variable {cfg : Config} {s after : System FileSystem}

theorem Growing.live (hgrowing : Growing s) {wd : Wd} (hused : wd ∈ s.kernel.used) :
    wd ∈ s.kernel.live := by
  obtain ⟨row, hrow, rfl⟩ := hgrowing.recorded wd hused
  obtain ⟨dir, hwatch, -⟩ := hgrowing.accurate row hrow
  exact FileSystem.mem_live.mpr ⟨dir, hwatch⟩

theorem Growing.not_ignored (hgrowing : Growing s) {event : Event}
    (hevent : event ∈ pending s.inotify) : event.branch ≠ .ignored := by
  intro hbranch
  have hdelivered := hgrowing.steady.ordered.delivered
  exact (hdelivered.ignored event hevent (has_inIgnored_of_branch hbranch)).2
    (hgrowing.live (hdelivered.used event hevent))

/-- The directory of an event is recorded, with the path that is looked up or memoised. -/
theorem Growing.looked (hgrowing : Growing s) {event : Event} (hevent : event ∈ pending s.inotify) :
    ∃ row ∈ s.watcher.table, row.wd = event.wd ∧
      (s.watcher.findParent event).parentDir = some row.path ∧
      (s.watcher.findParent event).prevWd = event.wd := by
  have hordered := hgrowing.steady.ordered
  have hused := hordered.delivered.used event hevent
  unfold Watcher.findParent
  split_ifs with hsame
  · rcases hgrowing.remembered with hnull | ⟨row, hrow, hwd, hpath⟩
    · exact absurd (hsame.trans hnull) (ne_of_gt (hordered.delivered.positive _ hused))
    · exact ⟨row, hrow, hwd.trans hsame.symm, hpath, hsame.symm⟩
  · obtain ⟨row, hrow, hwd⟩ := hgrowing.recorded event.wd hused
    refine ⟨row, hrow, hwd, ?_, rfl⟩
    have hfound := hordered.keys.keyed.findWdDirectory_eq hrow maxPathLen
    rwa [List.take_of_length_le (hordered.keys.short row hrow).le, hwd] at hfound

theorem Growing.act {kernel : FileSystem} {news : List Event}
    (hgrowing : Growing s) (hsteady : Steady ({ s with kernel } : System FileSystem).inotify)
    (hcreates : Creates s.kernel news kernel) : Growing { s with kernel } := by
  have hpending := pending_of_queue hcreates.queue
  refine ⟨hsteady, fun wd hwd ↦ hgrowing.recorded wd (hcreates.used ▸ hwd), fun row hrow ↦ ?_,
    fun event hevent ↦ ?_, fun event hevent harrival dir hwatch ↦ ?_, hgrowing.unpruned,
    hgrowing.remembered⟩
  · obtain ⟨dir, hwatch, hresolve⟩ := hgrowing.accurate row hrow
    exact ⟨dir, hcreates.watches ▸ hwatch, hcreates.grows.resolve hresolve⟩
  · rw [hpending] at hevent
    exact (List.mem_append.mp hevent).elim (hgrowing.stays event) (hcreates.stays event)
  · rw [hpending] at hevent
    change ⟨event.wd, dir⟩ ∈ kernel.watches at hwatch
    rw [hcreates.watches] at hwatch
    rcases List.mem_append.mp hevent with hold | hnew
    · obtain ⟨found, hentry⟩ := hgrowing.arrives event hold harrival dir hwatch
      exact ⟨found, hcreates.grows.entries hentry⟩
    · exact hcreates.arrives event hnew harrival dir hwatch

/-- No event that is processed removes a row or starts a prune. -/
theorem table_of_dispatch {w next : Watcher} {event : Event} (hignored : event.branch ≠ .ignored)
    (hstays : ¬ Departure event) (hstep : DispatchStep event w next) :
    next.table = w.table ∧ ∀ wds row, next.place ≠ .removePrunedWds wds row := by
  cases hstep with
  | forgets hbranch => exact absurd hbranch hignored
  | prunes _ hbranch hisdir => exact absurd ⟨hbranch, hisdir⟩ hstays
  | _ => exact ⟨rfl, by simp⟩

theorem Growing.event_mem {event : Event} {rest : List Event}
    (hbatch : s.watcher.batch = event :: rest) : event ∈ pending s.inotify := by
  change event ∈ s.watcher.batch ++ s.kernel.queue
  simp [hbatch]

theorem Growing.taken_mem {label : Label FsAct} {event : Event}
    (htaken : event ∈ takenEvent s.watcher label) : event ∈ pending s.inotify := by
  change event ∈ s.watcher.batch ++ s.kernel.queue
  unfold takenEvent at htaken
  split at htaken
  · split at htaken
    · exact List.mem_append_left _ (List.mem_of_mem_head? htaken)
    · cases htaken
  · cases htaken

theorem Growing.internal {watcher : Watcher} (hgrowing : Growing s)
    (hsteady : Steady ({ s with watcher } : System FileSystem).inotify)
    (hstep : InternalStep cfg s.watcher watcher) :
    Growing { s with watcher } ∧ watcher.table = s.watcher.table := by
  have hpending : ∀ event, event ∈ pending ({ s with watcher } : System FileSystem).inotify →
      event ∈ pending s.inotify := by
    intro event hevent
    change event ∈ watcher.batch ++ s.kernel.queue at hevent
    change event ∈ s.watcher.batch ++ s.kernel.queue
    rcases batch_of_internal hstep with hsame | ⟨taken, htaken⟩
    · rwa [← hsame]
    · rw [htaken]
      exact List.mem_cons_of_mem _ hevent
  suffices htable : watcher.table = s.watcher.table ∧
      (∀ wds row, watcher.place ≠ .removePrunedWds wds row) ∧ Remembered watcher by
    obtain ⟨htable, hunpruned, hremembered⟩ := htable
    refine ⟨⟨hsteady, ?_, ?_, fun event hevent ↦ hgrowing.stays event (hpending event hevent),
      fun event hevent ↦ hgrowing.arrives event (hpending event hevent), hunpruned, hremembered⟩,
      htable⟩
    · change ∀ wd ∈ s.kernel.used, ∃ row ∈ watcher.table, row.wd = wd
      rw [htable]
      exact hgrowing.recorded
    · change ∀ row ∈ watcher.table, Accurate s row
      rw [htable]
      exact hgrowing.accurate
  have hremembered : Remembered s.watcher := hgrowing.remembered
  cases hstep with
  | @takesEvent event rest _ hplace hbatch hdispatch =>
    have hevent := Growing.event_mem hbatch
    obtain ⟨row, hrow, hwd, hpath, hprev⟩ := hgrowing.looked hevent
    obtain ⟨htable, hunpruned⟩ :=
      table_of_dispatch (hgrowing.not_ignored hevent) (hgrowing.stays event hevent) hdispatch
    rw [findParent_table] at htable
    refine ⟨htable, hunpruned, Or.inr ⟨row, htable ▸ hrow, ?_, ?_⟩⟩
    · rw [prevWd_of_dispatch hdispatch, findParent_withBatch]
      exact hwd.trans hprev.symm
    · rw [parentDir_of_dispatch hdispatch, findParent_withBatch]
      exact hpath
  | insertsPruned hplace => exact absurd hplace (hgrowing.unpruned _ _)
  | finishesPrune hplace => exact absurd hplace (hgrowing.unpruned _ _)
  | @returns result frame =>
    cases frame with
    | created =>
      refine ⟨rfl, ?_, hremembered⟩
      simp only [Watcher.returnTo]
      split_ifs <;> simp
    | _ => exact ⟨rfl, by simp [Watcher.returnTo], hremembered⟩
  | reports =>
    rw [report_eq]
    exact ⟨rfl, by simp, hremembered⟩
  | overflows => exact ⟨rfl, by simp [Watcher.exit], hremembered⟩
  | _ => exact ⟨rfl, by simp, hremembered⟩

theorem unpruned_of_resume {w next : Watcher} {answer : Answer}
    (hnew : ∀ wd, answer = .watch wd → ∀ row ∈ w.table, row.wd ≠ wd)
    (hunpruned : ∀ wds row, w.place ≠ .removePrunedWds wds row) (hstep : ResumeStep w answer next) :
    ∀ wds row, next.place ≠ .removePrunedWds wds row := by
  intro wds row hplace
  cases hstep with
  | reuses _ hexists =>
    obtain ⟨old, hold, hwd⟩ := wdDirectoryExists_iff.mp hexists
    exact hnew _ rfl old hold hwd
  | adds _ _ hinsert => cases hinsert <;> simp at hplace
  | removes _ hother => exact hunpruned _ _ hother
  | _ => simp [Watcher.startBatch, Watcher.exit] at hplace

/-- What is remembered is kept until the next events are read. -/
theorem Remembered.resume {w next : Watcher} {answer : Answer} (hremembered : Remembered w)
    (hkept : w.table ⊆ next.table) (hstep : ResumeStep w answer next) : Remembered next := by
  have hsame : next.prevWd = nullWd ∨
      next.prevWd = w.prevWd ∧ next.parentDir = w.parentDir := by
    cases hstep with
    | reads => exact Or.inl rfl
    | reuses _ _ hprune => cases hprune <;> exact Or.inr ⟨rfl, rfl⟩
    | adds _ _ hinsert => cases hinsert <;> exact Or.inr ⟨rfl, rfl⟩
    | _ => exact Or.inr ⟨rfl, rfl⟩
  rcases hsame with hnull | ⟨hprev, hpath⟩
  · exact Or.inl hnull
  · rw [Remembered, hprev, hpath]
    exact hremembered.imp id fun ⟨row, hrow, hwd, hparent⟩ ↦ ⟨row, hkept hrow, hwd, hparent⟩

theorem FreshWatch.growing {new : Row} {dir : Dir} (hfresh : FreshWatch s new dir after)
    (hgrowing : Growing s) :
    (∀ wd ∈ after.kernel.used, ∃ row ∈ after.watcher.table, row.wd = wd) ∧
      (∀ row ∈ after.watcher.table, Accurate after row) ∧
      ∀ event ∈ pending s.inotify, ∀ other, ⟨event.wd, other⟩ ∈ after.kernel.watches →
        ⟨event.wd, other⟩ ∈ s.kernel.watches := by
  have hfree := hfresh.free hgrowing.steady
  rw [table_of_insert hfree hfresh.insert]
  refine ⟨fun wd hwd ↦ ?_, fun row hrow ↦ ?_, fun event hevent other hwatch ↦ ?_⟩
  · obtain ⟨_, _, _, hkernel⟩ := hfresh.kernel
    rw [hkernel] at hwd
    rcases List.mem_cons.mp hwd with rfl | hold
    · exact ⟨new, List.mem_append_right _ (List.mem_singleton.mpr rfl), rfl⟩
    · obtain ⟨row, hrow, hsame⟩ := hgrowing.recorded wd hold
      exact ⟨row, List.mem_append_left _ hrow, hsame⟩
  · rcases List.mem_append.mp hrow with hold | hlast
    · obtain ⟨other, hwatch, hresolve⟩ := hgrowing.accurate row hold
      exact ⟨other, hfresh.mem_watches.mpr (Or.inr hwatch), hfresh.tree ▸ hresolve⟩
    · rw [List.mem_singleton.mp hlast]
      exact ⟨dir, hfresh.mem_watches.mpr (Or.inl rfl), hfresh.tree ▸ hfresh.resolve⟩
  · refine (hfresh.mem_watches.mp hwatch).resolve_left fun hsame ↦ hfresh.fresh ?_
    have hused := hgrowing.steady.ordered.delivered.used event hevent
    rwa [show event.wd = new.wd from congrArg Watch.wd hsame] at hused

/-- The answers that are not a new watch take nothing away. -/
theorem Shrinks.growing (hshrinks : Shrinks s after) (hgrowing : Growing s)
    (hkept : s.watcher.table ⊆ after.watcher.table) :
    (∀ wd ∈ after.kernel.used, ∃ row ∈ after.watcher.table, row.wd = wd) ∧
      ∀ row ∈ after.watcher.table, Accurate after row := by
  refine ⟨fun wd hwd ↦ ?_, fun row hrow ↦ ?_⟩
  · rw [hshrinks.used] at hwd
    obtain ⟨row, hrow, hsame⟩ := hgrowing.recorded wd hwd
    exact ⟨row, hkept hrow, hsame⟩
  · have haccurate := hgrowing.accurate row (hshrinks.table hrow)
    have hlive : row.wd ∈ s.kernel.live :=
      FileSystem.mem_live.mpr (haccurate.imp fun _ hwatch ↦ hwatch.1)
    exact haccurate.shrink hshrinks.tree hshrinks.watches
      (FileSystem.mem_live.mp (hshrinks.kept row hrow hlive))

theorem Growing.answer {answer : Answer} (hgrowing : Growing s) (hsteady : Steady after.inotify)
    (hnew : NewWatch s (.answer answer))
    (hstep : s.step cfg fileSystem (.answer answer) = some after) : Growing after := by
  obtain ⟨-, -, -, hresume⟩ := System.step_answer hstep
  have hresume := resumeStep hresume
  have hanswer : ∀ wd, answer = .watch wd → ∀ row ∈ s.watcher.table, row.wd ≠ wd := by
    rintro wd rfl
    exact hnew
  obtain ⟨hkept, -⟩ := table_of_resume hanswer hresume
  have hunpruned := unpruned_of_resume hanswer hgrowing.unpruned hresume
  have hremembered := hgrowing.remembered.resume hkept hresume
  rcases answer_cases hgrowing.steady hstep with ⟨new, dir, -, hfresh⟩ | hshrinks
  · obtain ⟨hrecorded, haccurate, hwatches⟩ := hfresh.growing hgrowing
    refine ⟨hsteady, hrecorded, haccurate, ?_, ?_, hunpruned, hremembered⟩
    · rw [hfresh.pending_eq]
      exact hgrowing.stays
    · rw [hfresh.pending_eq, hfresh.tree]
      exact fun event hevent harrival other hwatch ↦
        hgrowing.arrives event hevent harrival other (hwatches event hevent other hwatch)
  · obtain ⟨hrecorded, haccurate⟩ := hshrinks.growing hgrowing hkept
    obtain ⟨news, hpending, hnews⟩ := hshrinks.announces
    refine ⟨hsteady, hrecorded, haccurate, fun event hevent ↦ ?_,
      fun event hevent harrival dir hwatch ↦ ?_, hunpruned, hremembered⟩
    · rw [hpending] at hevent
      rcases List.mem_append.mp hevent with hold | hlast
      · exact hgrowing.stays event hold
      · obtain ⟨wd, rfl⟩ := hnews event hlast
        exact not_departure_ignoredEvent wd
    · rw [hpending] at hevent
      rw [hshrinks.tree]
      rcases List.mem_append.mp hevent with hold | hlast
      · exact hgrowing.arrives event hold harrival dir (hshrinks.watches hwatch)
      · obtain ⟨wd, rfl⟩ := hnews event hlast
        have hisdir := harrival.isdir
        simp only [ignoredEvent, Event.has] at hisdir
        exact absurd hisdir (by decide)

/-- A step in which directories are at most made leaves what paths lead to. -/
theorem grows_of_step (hsteady : Steady s.inotify) {label : Label FsAct}
    (hcreation : Creation label)
    (hstep : s.step cfg fileSystem label = some after) : s.kernel.tree.Grows after.kernel.tree := by
  cases label with
  | act action =>
    obtain ⟨news, hcreates⟩ := FileSystem.exists_creates hcreation (System.step_act hstep).1
    exact hcreates.grows
  | internal => exact (System.step_internal hstep).2 ▸ DirTree.Grows.refl _
  | answer answer =>
    rcases answer_cases hsteady hstep with ⟨new, dir, -, hfresh⟩ | hshrinks
    · exact hfresh.tree ▸ DirTree.Grows.refl _
    · exact hshrinks.tree ▸ DirTree.Grows.refl _

theorem Growing.step (hgrowing : Growing s) {label : Label FsAct} (hgrowth : GrowthStep s label)
    (hstep : s.step cfg fileSystem label = some after) :
    Growing after ∧ s.watcher.table ⊆ after.watcher.table := by
  obtain ⟨hcreation, hnew⟩ := hgrowth
  have hsteady := hgrowing.steady.step_fileSystem hstep
  cases label with
  | act action =>
    obtain ⟨kernel, hact, rfl⟩ := System.exists_kernel hstep
    obtain ⟨news, hcreates⟩ := FileSystem.exists_creates hcreation hact
    exact ⟨hgrowing.act hsteady hcreates, List.Subset.refl _⟩
  | internal =>
    obtain ⟨watcher, hinternal, rfl⟩ := System.exists_watcher hstep
    obtain ⟨hafter, htable⟩ := hgrowing.internal hsteady (internalStep hinternal)
    exact ⟨hafter, htable ▸ List.Subset.refl _⟩
  | answer answer =>
    obtain ⟨-, -, -, hresume⟩ := System.step_answer hstep
    exact ⟨hgrowing.answer hsteady hnew hstep,
      (table_of_resume (by rintro wd rfl; exact hnew) (resumeStep hresume)).1⟩

/-- No watch is lost. -/
theorem watches_of_growth (hgrowing : Growing s) {label : Label FsAct}
    (hgrowth : GrowthStep s label) (hstep : s.step cfg fileSystem label = some after) :
    s.kernel.watches ⊆ after.kernel.watches := by
  rintro ⟨wd, held⟩ hwatch
  obtain ⟨row, hrow, rfl⟩ := hgrowing.recorded wd (s.kernel.known _ hwatch).1
  obtain ⟨hafter, htable⟩ := hgrowing.step hgrowth hstep
  obtain ⟨dir, hown, hresolve⟩ := hafter.accurate row (htable hrow)
  have hsame := (grows_of_step hgrowing.steady hgrowth.1 hstep).resolve
    ((hgrowing.accurate row hrow).resolve_eq hwatch)
  rwa [Option.some_inj.mp (hsame.symm.trans hresolve)]

end DirWatcher.Watching
