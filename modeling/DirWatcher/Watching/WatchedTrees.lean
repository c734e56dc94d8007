import DirWatcher.Environment.Changes
import DirWatcher.Watching.Departures

/-!
The steps of the watcher with a file system. The answers to its system calls are about
the directories as they are at that moment, and all but a new watch leave both the
directories and the table as they are or take something away.
-/

set_option autoImplicit false
set_option relaxedAutoImplicit false

namespace DirWatcher.Watching

open Source Environment Foundation.Runs

variable {cfg : Config} {s after : System FileSystem}

/-- The watcher waits for events, there are none, and no directory that is still watched
has been removed. -/
structure AtRest (s : System FileSystem) : Prop where
  place : s.watcher.place = .poll
  batch : s.watcher.batch = []
  queue : s.kernel.queue = []
  attached : ∀ watch ∈ s.kernel.watches, s.kernel.tree.Attached watch.dir

instance (s : System FileSystem) : Decidable (AtRest s) :=
  decidable_of_iff (s.watcher.place = .poll ∧ s.watcher.batch = [] ∧ s.kernel.queue = [] ∧
      ∀ watch ∈ s.kernel.watches, s.kernel.tree.Attached watch.dir)
    ⟨fun ⟨hplace, hbatch, hqueue, hattached⟩ ↦ ⟨hplace, hbatch, hqueue, hattached⟩,
      fun ⟨hplace, hbatch, hqueue, hattached⟩ ↦ ⟨hplace, hbatch, hqueue, hattached⟩⟩

theorem AtRest.not_pending (hrest : AtRest s) (event : Event) : event ∉ pending s.inotify := by
  change event ∉ s.watcher.batch ++ s.kernel.queue
  simp [hrest.batch, hrest.queue]

/-- The events of what happens outside of the watcher come behind those not processed. -/
theorem pending_of_queue {kernel : FileSystem} {news : List Event}
    (hqueue : kernel.queue = s.kernel.queue ++ news) :
    pending ({ s with kernel } : System FileSystem).inotify = pending s.inotify ++ news := by
  change s.watcher.batch ++ kernel.queue = s.watcher.batch ++ s.kernel.queue ++ news
  rw [hqueue, List.append_assoc]

theorem AtRest.not_stopped (hrest : AtRest s) : ¬ Stopped s.watcher := by
  rintro ⟨stop, hstop⟩
  simp [hrest.place] at hstop

theorem Regular.step_fileSystem (hregular : Regular s.inotify) {label : Label FsAct}
    (horderly : OrderlyStep s label) (hstep : s.step cfg fileSystem label = some after) :
    Regular after.inotify :=
  (System.step_inotify orderlyStep_implies horderly hstep).invariant Regular hregular
    fun _ _ _ hregular horderly hstep ↦ hregular.step horderly hstep

theorem Steady.step_fileSystem (hsteady : Steady s.inotify) {label : Label FsAct}
    (hstep : s.step cfg fileSystem label = some after) : Steady after.inotify := by
  have himplies : Implies (fun _ _ ↦ True) (fun _ _ ↦ True) :=
    ⟨fun _ _ ↦ trivial, fun _ _ ↦ trivial, fun _ _ _ ↦ trivial⟩
  exact (System.step_inotify himplies trivial hstep).invariant Steady hsteady
    fun _ _ _ hsteady _ hstep ↦ hsteady.step hstep

theorem not_stopped_of_internal {w next : Watcher} (hstep : w.internal cfg = some next) :
    ¬ Stopped w := by
  rintro ⟨stop, hplace⟩
  simp [Watcher.internal, hplace] at hstep

theorem not_stopped_of_call {w : Watcher} {call : Call} (hcall : w.call = some call) :
    ¬ Stopped w := by
  rintro ⟨stop, hplace⟩
  simp [Watcher.call, hplace] at hcall

/-! ### Answers -/

/-- `inotify_add_watch` sets a new watch, and the row is inserted. -/
structure FreshWatch (s : System FileSystem) (row : Row) (dir : Dir) (after : System FileSystem) :
    Prop where
  place : s.watcher.place = .inotifyAddWatch row.parentWd row.path
  resolve : s.kernel.tree.resolve row.path = some dir
  readable : dir ∉ s.kernel.tree.unreadable
  positive : 0 < row.wd
  fresh : row.wd ∉ s.kernel.used
  unwatched : ∀ old ∈ s.kernel.watches, old.dir ≠ dir
  kernel : ∃ (hwd : row.wd ∉ s.kernel.used) (hdir : ∀ old ∈ s.kernel.watches, old.dir ≠ dir)
    (hmade : dir < s.kernel.tree.next), after.kernel = s.kernel.watch row.wd dir hwd hdir hmade
  insert : InsertStep s.watcher row after.watcher

/-- The events are announcements of watches that have died. -/
def Announcements (news : List Event) : Prop := ∀ event ∈ news, ∃ wd, event = ignoredEvent wd

/-- The answer leaves the directories as they are. Watches and rows may be lost, but no
row loses its watch. -/
structure Shrinks (s after : System FileSystem) : Prop where
  tree : after.kernel.tree = s.kernel.tree
  used : after.kernel.used = s.kernel.used
  watches : after.kernel.watches ⊆ s.kernel.watches
  table : after.watcher.table ⊆ s.watcher.table
  kept : ∀ row ∈ after.watcher.table, row.wd ∈ s.kernel.live → row.wd ∈ after.kernel.live
  announces : ∃ news, pending after.inotify = pending s.inotify ++ news ∧ Announcements news

theorem Shrinks.pending (hshrinks : Shrinks s after) :
    pending s.inotify ⊆ Watching.pending after.inotify := by
  obtain ⟨news, hnews, -⟩ := hshrinks.announces
  rw [hnews]
  exact List.subset_append_left _ _

/-- The events that are handed over with an answer. -/
def eventsIn : Answer → List Event
  | .events events => events
  | _ => []

/-- What an answer does to the kernel, unless it is a new watch. -/
structure Served (fs : FileSystem) (call : Call) (answer : Answer) (kernel : FileSystem) :
    Prop where
  tree : kernel.tree = fs.tree
  used : kernel.used = fs.used
  watches : kernel.watches ⊆ fs.watches
  kept : ∀ wd ∈ fs.live, call = .inotifyRmWatch wd ∨ wd ∈ kernel.live
  queue : ∃ news, eventsIn answer ++ kernel.queue = fs.queue ++ news ∧ Announcements news

/-- An answer that leaves the kernel as it is, but for the directory being read. -/
theorem served_of_scan {fs : FileSystem} {call : Call} {answer : Answer} {scan : Option Scan}
    (hevents : eventsIn answer = []) : Served fs call answer { fs with scan } :=
  ⟨rfl, rfl, List.Subset.refl _, fun _ hlive ↦ Or.inr hlive, [], by simp [hevents],
    by simp [Announcements]⟩

theorem served_of_serve {fs kernel : FileSystem} {call : Call} {answer : Answer}
    (hserve : fs.serve call answer = some kernel) (hanswer : ∀ wd, answer ≠ .watch wd) :
    Served fs call answer kernel := by
  unfold FileSystem.serve at hserve
  split at hserve
  · exact absurd rfl (hanswer _)
  · split_ifs at hserve
    cases hserve
    exact served_of_scan rfl
  · split_ifs at hserve
    cases hserve
    refine ⟨rfl, rfl, List.filter_subset_self _, fun wd hlive ↦ ?_,
      [ignoredEvent _], rfl, by simp [Announcements]⟩
    obtain ⟨dir, hwatch⟩ := FileSystem.mem_live.mp hlive
    refine or_iff_not_imp_left.mpr fun hother ↦ FileSystem.mem_live.mpr ⟨dir, ?_⟩
    exact List.mem_filter.mpr ⟨hwatch, decide_eq_true fun hwd ↦ hother (congrArg _ hwd.symm)⟩
  · split_ifs at hserve
    cases hserve
    exact served_of_scan rfl
  · obtain ⟨dir, -, rfl⟩ := FileSystem.opendir_spec hserve
    exact served_of_scan rfl
  · split_ifs at hserve
    cases hserve
    exact served_of_scan rfl
  · obtain ⟨scan, -, -, -, rfl⟩ := FileSystem.readdir_spec hserve
    exact served_of_scan rfl
  · cases hserve
    exact served_of_scan rfl
  · split_ifs at hserve with hprefix
    cases hserve
    exact ⟨rfl, rfl, List.Subset.refl _, fun _ hlive ↦ Or.inr hlive,
      [], by simp [eventsIn, List.prefix_iff_eq_append.mp hprefix], by simp [Announcements]⟩
  · cases hserve
    exact served_of_scan rfl
  · cases hserve

theorem shrinks_of_served {watcher : Watcher} {kernel : FileSystem} {call : Call} {answer : Answer}
    (hserved : Served s.kernel call answer kernel) (hevents : eventsIn answer = [])
    (htable : watcher.table ⊆ s.watcher.table) (hbatch : watcher.batch = s.watcher.batch)
    (hcall : ∀ row ∈ watcher.table, call ≠ .inotifyRmWatch row.wd) :
    Shrinks s ⟨watcher, kernel⟩ := by
  refine ⟨hserved.tree, hserved.used, hserved.watches, htable, fun row hrow hlive ↦ ?_, ?_⟩
  · exact (hserved.kept row.wd hlive).resolve_left (hcall row hrow)
  · obtain ⟨news, hqueue, hnews⟩ := hserved.queue
    refine ⟨news, ?_, hnews⟩
    change watcher.batch ++ kernel.queue = s.watcher.batch ++ s.kernel.queue ++ news
    rw [hevents, List.nil_append] at hqueue
    rw [hbatch, hqueue, List.append_assoc]

theorem table_subset_of_prune {w after : Watcher} {wd : Wd} {new : Option Row}
    (hstep : PruneStep w wd new after) : after.table ⊆ w.table := fun _ hrow ↦
  mem_table_of_prune hstep hrow

theorem mem_removing_of_call {w : Watcher} {wd : Wd} (hcall : w.call = some (.inotifyRmWatch wd)) :
    wd ∈ removing w.place := by
  unfold Watcher.call at hcall
  split at hcall <;> simp_all [removing]

theorem watch_cases (hsteady : Steady s.inotify) {wd : Wd} {watcher : Watcher}
    {kernel : FileSystem} {path : Bytes} (hcall : s.watcher.call = some (.inotifyAddWatch path))
    (hwatch : s.kernel.inotifyAddWatch path wd = some kernel)
    (hresume : ResumeStep s.watcher (.watch wd) watcher) :
    (∃ row dir, wd = row.wd ∧ FreshWatch s row dir ⟨watcher, kernel⟩) ∨
      Shrinks s ⟨watcher, kernel⟩ := by
  obtain ⟨dir, hresolve, hreadable, hkernel⟩ := FileSystem.inotifyAddWatch_spec hwatch
  cases hresume with
  | @reuses parentWd other _ _ hplace hexists hprune =>
    obtain ⟨row, hrow, rfl⟩ := wdDirectoryExists_iff.mp hexists
    rcases hkernel with ⟨-, rfl⟩ | ⟨hwd, -⟩
    · have hserved : Served s.kernel (.inotifyAddWatch path) (.watch row.wd) s.kernel :=
        served_of_scan rfl
      exact Or.inr (shrinks_of_served hserved rfl (table_subset_of_prune hprune)
        (batch_of_prune hprune) (by simp))
    · exact absurd (hsteady.ordered.rowsUsed.table row hrow) hwd
  | @adds parentWd other _ _ hplace hexists hinsert =>
    rcases hkernel with ⟨hlive, rfl⟩ | ⟨hwd, hdir, hmade, hpositive, rfl⟩
    · obtain ⟨row, hrow, hrowWd⟩ := hsteady.paired.exists_row
        (by rw [System.inotify, hplace]; rfl) (by simp [Stopped, System.inotify, hplace])
        (FileSystem.mem_live.mpr ⟨dir, hlive⟩)
      exact absurd hrowWd (wdDirectoryExists_eq_false_iff.mp hexists row hrow)
    · obtain rfl : other = path := by simpa [Watcher.call, hplace] using hcall
      exact Or.inl ⟨⟨wd, parentWd, other⟩, dir, rfl, hplace, hresolve, hreadable, hpositive, hwd,
        hdir, ⟨hwd, hdir, hmade, rfl⟩, hinsert⟩
  | removes _ _ hanswer => simp at hanswer

/-- An answer sets a new watch, or it shrinks the state. -/
theorem answer_cases (hsteady : Steady s.inotify) {answer : Answer}
    (hstep : s.step cfg fileSystem (.answer answer) = some after) :
    (∃ row dir, answer = .watch row.wd ∧ FreshWatch s row dir after) ∨ Shrinks s after := by
  obtain ⟨call, hcall, hserve, hresume⟩ := System.step_answer hstep
  obtain ⟨watcher, kernel⟩ := after
  have hstep := resumeStep hresume
  by_cases hwatch : ∃ wd, answer = .watch wd
  · obtain ⟨wd, rfl⟩ := hwatch
    cases call with
    | inotifyAddWatch path =>
      rcases watch_cases hsteady hcall hserve hstep with ⟨row, dir, rfl, hfresh⟩ | hshrinks
      · exact Or.inl ⟨row, dir, rfl, hfresh⟩
      · exact Or.inr hshrinks
    | _ => cases hserve
  · have hserved := served_of_serve hserve fun wd heq ↦ hwatch ⟨wd, heq⟩
    refine Or.inr ?_
    have hcalls : ∀ row ∈ s.watcher.table, call ≠ .inotifyRmWatch row.wd := by
      rintro row hrow rfl
      refine hsteady.pruning.table row hrow ?_
      exact mem_removing_of_call hcall
    cases hstep with
    | reads events hplace =>
      have hbatch : s.watcher.batch = [] := hsteady.ordered.control.idle (Or.inl hplace)
      refine ⟨hserved.tree, hserved.used, hserved.watches, List.Subset.refl _, fun row hrow hlive ↦
        (hserved.kept row.wd hlive).resolve_left (hcalls row hrow), ?_⟩
      change ∃ news, events ++ kernel.queue = s.watcher.batch ++ s.kernel.queue ++ news ∧ _
      rw [hbatch, List.nil_append]
      exact hserved.queue
    | reuses => exact absurd ⟨_, rfl⟩ hwatch
    | adds => exact absurd ⟨_, rfl⟩ hwatch
    | removes answer hplace hanswer =>
      refine shrinks_of_served hserved ?_ (List.Subset.refl _) rfl hcalls
      rcases hanswer with rfl | rfl <;> rfl
    | _ => exact shrinks_of_served hserved rfl (List.Subset.refl _) rfl hcalls

theorem FreshWatch.free {row : Row} {dir : Dir} (hsteady : Steady s.inotify)
    (hfresh : FreshWatch s row dir after) : Free s.watcher.table row := by
  have hchecked := hsteady.ordered.keys.checked
  change Checked s.watcher.table s.watcher.place at hchecked
  rw [hfresh.place] at hchecked
  refine fun old hold ↦ ⟨fun hwd ↦ hfresh.fresh ?_, hchecked.2 old hold⟩
  exact hwd ▸ hsteady.ordered.rowsUsed.table old hold

theorem FreshWatch.mem_watches {row : Row} {dir : Dir} {watch : Watch}
    (hfresh : FreshWatch s row dir after) :
    watch ∈ after.kernel.watches ↔ watch = ⟨row.wd, dir⟩ ∨ watch ∈ s.kernel.watches := by
  obtain ⟨hwd, hdir, hmade, hkernel⟩ := hfresh.kernel
  rw [hkernel]
  exact List.mem_cons

theorem FreshWatch.tree {row : Row} {dir : Dir} (hfresh : FreshWatch s row dir after) :
    after.kernel.tree = s.kernel.tree := by
  obtain ⟨hwd, hdir, hmade, hkernel⟩ := hfresh.kernel
  rw [hkernel]
  rfl

theorem FreshWatch.pending_eq {row : Row} {dir : Dir} (hfresh : FreshWatch s row dir after) :
    pending after.inotify = pending s.inotify := by
  obtain ⟨hwd, hdir, hmade, hkernel⟩ := hfresh.kernel
  change after.watcher.batch ++ after.kernel.queue = s.watcher.batch ++ s.kernel.queue
  rw [batch_of_insert hfresh.insert, hkernel]
  rfl

theorem table_of_insert {w watcher : Watcher} {row : Row} (hfree : Free w.table row)
    (hstep : InsertStep w row watcher) : watcher.table = w.table ++ [row] := by
  rw [hstep.eq_of_free hfree]

/-- The answer to `inotify_add_watch` is not the watch descriptor of a row. -/
def NewWatch (s : System FileSystem) : Label FsAct → Prop
  | .answer (.watch wd) => ∀ row ∈ s.watcher.table, row.wd ≠ wd
  | _ => True

instance (s : System FileSystem) (label : Label FsAct) : Decidable (NewWatch s label) := by
  unfold NewWatch
  split <;> infer_instance

theorem table_of_resume {w next : Watcher} {answer : Answer}
    (hnew : ∀ wd, answer = .watch wd → ∀ row ∈ w.table, row.wd ≠ wd)
    (hstep : ResumeStep w answer next) : w.table ⊆ next.table ∧ next.stack = w.stack := by
  cases hstep with
  | reuses _ hexists =>
    obtain ⟨row, hrow, hwd⟩ := wdDirectoryExists_iff.mp hexists
    exact absurd hwd (hnew _ rfl row hrow)
  | adds _ _ hinsert =>
    exact ⟨table_subset_of_insert hinsert, by cases hinsert <;> rfl⟩
  | _ => exact ⟨List.Subset.refl _, rfl⟩

theorem failsWith_resolve {fs : FileSystem} {path : Bytes} {errno : Errno} {dir : Dir}
    (hfails : fs.FailsWith path errno)
    (herrno : errno = .enoent ∨ errno = .eacces ∨ errno = .enotdir)
    (hresolve : fs.tree.resolve path = some dir) : dir ∈ fs.tree.unreadable := by
  rcases herrno with rfl | rfl | rfl
  · exact absurd (hfails.symm.trans hresolve) (by simp)
  · obtain ⟨other, hunreadable, hother⟩ := hfails
    rwa [Option.some_inj.mp (hresolve.symm.trans hother)]
  · exact absurd (hfails.symm.trans hresolve) (by simp)

end DirWatcher.Watching
