import DirWatcher.Watching.Reports

/-!
The reports of changes to files. When directories are only made, each change to a file in a
watched directory that the program is interested in is followed by a report of just that
directory, whatever else is processed in between.
-/

set_option autoImplicit false
set_option relaxedAutoImplicit false

namespace DirWatcher.Watching

open Source Environment Foundation.Runs

variable {cfg : Config} {s after : System FileSystem} {w next : Watcher} {event : Event}
  {before : List Bytes} {row : Row}

/-- The event is about a file, and is one of those that lead to a report: the end of a
write, a deletion, or a move. The creation of a file leads to none. -/
structure FileChange (event : Event) : Prop where
  branch : event.branch ∈ [.movedFrom, .movedTo, .other]
  file : event.has inIsdir = false

instance (event : Event) : Decidable (FileChange event) :=
  decidable_of_iff (event.branch ∈ [.movedFrom, .movedTo, .other] ∧ event.has inIsdir = false)
    ⟨fun ⟨hbranch, hfile⟩ ↦ ⟨hbranch, hfile⟩, fun ⟨hbranch, hfile⟩ ↦ ⟨hbranch, hfile⟩⟩

/-- A file that is moved with the cookie of the move before stops the process. -/
theorem FileChange.dispatch (hchange : FileChange event) (w : Watcher) :
    Stopped (w.dispatch event) ∨
      ∃ cookie, w.dispatch event = { w with prevCookie := cookie, place := .report } := by
  have hbranch := hchange.branch
  simp only [List.mem_cons, List.not_mem_nil, or_false] at hbranch
  rcases hbranch with hbranch | hbranch | hbranch <;>
    simp only [Watcher.dispatch, hbranch, Watcher.movedFrom, Watcher.movedTo, hchange.file,
      Bool.false_eq_true, if_false]
  · by_cases hcookie : event.cookie = w.prevCookie
    · rw [if_pos hcookie]
      exact Or.inl ⟨_, rfl⟩
    · rw [if_neg hcookie]
      exact Or.inr ⟨event.cookie, rfl⟩
  · exact Or.inr ⟨event.cookie, rfl⟩
  · exact Or.inr ⟨w.prevCookie, rfl⟩

/-! ### What is due to a change -/

/-- The event of the change is still to come, or its directory is reported next. -/
inductive Due (s : System FileSystem) (row : Row) : Prop
  | announced {event : Event} (hevent : event ∈ pending s.inotify) (hchange : FileChange event)
      (hwd : event.wd = row.wd)
  | next (hplace : s.watcher.place = .report) (hparent : s.watcher.parentDir = some row.path)

/-- What holds from the time of the change on. -/
structure Awaiting (before : List Bytes) (row : Row) (s : System FileSystem) : Prop where
  growing : Growing s
  mem : row ∈ s.watcher.table
  reports : before <+: s.watcher.reports
  due : Stopped s.watcher ∨ row.path ∈ s.watcher.reports.drop before.length ∨ Due s row

theorem mem_drop_later {reports later : List Bytes} {path : Bytes}
    (hreports : reports <+: later) (hmem : path ∈ reports.drop before.length) :
    path ∈ later.drop before.length := by
  obtain ⟨more, rfl⟩ := hreports
  rw [List.drop_append]
  exact List.mem_append_left _ hmem

/-- The event is taken: it leads to the report of its directory. -/
theorem due_of_taken (hgrowing : Growing s) (hrow : row ∈ s.watcher.table) {rest : List Event}
    (hbatch : s.watcher.batch = event :: rest) (hchange : FileChange event)
    (hwd : event.wd = row.wd) {watcher : Watcher}
    (hnext : watcher = ({ s.watcher with batch := rest }.findParent event).dispatch event) :
    Stopped watcher ∨ Due { s with watcher } row := by
  obtain ⟨other, hother, hotherWd, hpath, -⟩ := hgrowing.looked (Growing.event_mem hbatch)
  obtain rfl := hgrowing.steady.ordered.keys.keyed.eq_of_wd hother hrow (hotherWd.trans hwd)
  rcases hchange.dispatch ({ s.watcher with batch := rest }.findParent event) with
    hstopped | ⟨cookie, hreport⟩
  · exact Or.inl (hnext ▸ hstopped)
  · rw [hnext, hreport, findParent_withBatch]
    exact Or.inr (.next rfl hpath)

theorem Due.internal (hdue : Due s row) (hgrowing : Growing s) (hrow : row ∈ s.watcher.table)
    (hbefore : before <+: s.watcher.reports) {watcher : Watcher}
    (hinternal : s.watcher.internal cfg = some watcher) :
    Stopped watcher ∨ row.path ∈ watcher.reports.drop before.length ∨
      Due { s with watcher } row := by
  cases hdue with
  | next hplace hparent =>
    obtain rfl : s.watcher.report = watcher := by
      simpa [Watcher.internal, hplace] using hinternal
    obtain ⟨more, hmore⟩ := hbefore
    refine Or.inr (Or.inl ?_)
    rw [report_eq, hparent, ← hmore, List.append_assoc, List.drop_left]
    simp
  | @announced event hevent hchange hwd =>
    change event ∈ s.watcher.batch ++ s.kernel.queue at hevent
    rcases batch_or_dispatch_of_internal (internalStep hinternal) with ⟨hbatch, -⟩ |
      ⟨first, rest, hplace, hbatch, hdispatch⟩
    · refine Or.inr (Or.inr (Due.announced (?_ : event ∈ watcher.batch ++ s.kernel.queue) hchange
        hwd))
      rwa [hbatch]
    · rw [hbatch, List.cons_append] at hevent
      rcases List.mem_cons.mp hevent with rfl | hrest
      · have hnext : ({ s.watcher with batch := rest }.findParent event).dispatch event =
            watcher := by simpa [Watcher.internal, hplace, hbatch] using hinternal
        exact (due_of_taken hgrowing hrow hbatch hchange hwd hnext.symm).imp_right Or.inr
      · refine Or.inr (Or.inr (Due.announced (?_ : event ∈ watcher.batch ++ s.kernel.queue)
          hchange hwd))
        rwa [batch_of_dispatch hdispatch, findParent_batch]

theorem Due.answer (hdue : Due s row) (hgrowing : Growing s) {answer : Answer}
    (hstep : s.step cfg fileSystem (.answer answer) = some after) : Due after row := by
  obtain ⟨call, hcall, -, -⟩ := System.step_answer hstep
  cases hdue with
  | next hplace => simp [Watcher.call, hplace] at hcall
  | announced hevent hchange hwd =>
    rcases answer_cases hgrowing.steady hstep with ⟨new, dir, rfl, hfresh⟩ | hshrinks
    · exact .announced (hfresh.pending_eq ▸ hevent) hchange hwd
    · exact .announced (hshrinks.pending hevent) hchange hwd

theorem Awaiting.step (hawaiting : Awaiting before row s) {label : Label FsAct}
    (hgrowth : GrowthStep s label) (hstep : s.step cfg fileSystem label = some after) :
    Awaiting before row after := by
  obtain ⟨hgrowing, hrow, hreports, hdue⟩ := hawaiting
  obtain ⟨hafter, htable⟩ := hgrowing.step hgrowth hstep
  have hlater := reports_of_step hstep
  refine ⟨hafter, htable hrow, hreports.trans hlater, ?_⟩
  cases label with
  | act action =>
    obtain ⟨kernel, hact, rfl⟩ := System.exists_kernel hstep
    obtain ⟨news, hcreates⟩ := FileSystem.exists_creates hgrowth.1 hact
    refine hdue.imp_right (Or.imp_right fun hdue ↦ ?_)
    cases hdue with
    | next hplace hparent => exact .next hplace hparent
    | @announced event hevent hchange hwd =>
      refine Due.announced (?_ : event ∈ pending ({ s with kernel } : System _).inotify) hchange hwd
      rw [pending_of_queue hcreates.queue]
      exact List.mem_append_left _ hevent
  | internal =>
    obtain ⟨watcher, hinternal, rfl⟩ := System.exists_watcher hstep
    rcases hdue.resolve_left (not_stopped_of_internal hinternal) with hreported | hdue
    · exact Or.inr (Or.inl (mem_drop_later hlater hreported))
    · exact hdue.internal hgrowing hrow hreports hinternal
  | answer answer =>
    obtain ⟨call, hcall, -, -⟩ := System.step_answer hstep
    rcases hdue.resolve_left (not_stopped_of_call hcall) with hreported | hdue
    · exact Or.inr (Or.inl (mem_drop_later hlater hreported))
    · exact Or.inr (Or.inr (hdue.answer hgrowing hstep))

/-! ### Runs -/

theorem growing_of_reachesWhen {tree : DirTree}
    (hreaches : ReachesWhen (System.step cfg fileSystem) GrowthStep
      (System.start cfg (.start tree)) s) : Growing s :=
  hreaches.invariant Growing (growing_start cfg tree) fun _ _ _ hgrowing hgrowth hstep ↦
    (hgrowing.step hgrowth hstep).1

/-- The event of a file is put at the end of the queue. -/
theorem Awaiting.start (hgrowing : Growing s) (hrow : row ∈ s.watcher.table)
    (hwd : event.wd = row.wd) (hchange : FileChange event)
    (hstep : s.step cfg fileSystem (.act (.fileEvent event)) = some after) :
    Awaiting after.watcher.reports row after := by
  have hgrowth : GrowthStep s (.act (.fileEvent event)) := ⟨trivial, trivial⟩
  obtain ⟨hafter, htable⟩ := hgrowing.step hgrowth hstep
  obtain ⟨kernel, hact, rfl⟩ := System.exists_kernel hstep
  have hcreates := FileSystem.creates_fileEvent hact
  refine ⟨hafter, htable hrow, List.prefix_refl _, Or.inr (Or.inr ?_)⟩
  refine Due.announced (?_ : event ∈ pending ({ s with kernel } : System _).inotify) hchange hwd
  rw [pending_of_queue hcreates.queue]
  exact List.mem_append_right _ (List.mem_singleton_self _)

/-- The directory of an event of a file is recorded, under the path that leads to it. -/
theorem Growing.exists_row (hgrowing : Growing s)
    (hstep : s.step cfg fileSystem (.act (.fileEvent event)) = some after) :
    ∃ row ∈ s.watcher.table, row.wd = event.wd ∧
      ∀ dir, ⟨event.wd, dir⟩ ∈ s.kernel.watches → s.kernel.tree.resolve row.path = some dir := by
  obtain ⟨kernel, hact, hkernel⟩ := System.exists_kernel hstep
  obtain ⟨dir, hwatch⟩ : ∃ dir, ⟨event.wd, dir⟩ ∈ s.kernel.watches := by
    change s.kernel.fileEvent event = some kernel at hact
    unfold FileSystem.fileEvent at hact
    split_ifs at hact with hlive
    exact FileSystem.mem_live.mp hlive.1
  obtain ⟨row, hrow, hwd⟩ := hgrowing.recorded event.wd (s.kernel.known _ hwatch).1
  exact ⟨row, hrow, hwd, fun dir hwatch ↦
    (hgrowing.accurate row hrow).resolve_eq (hwd.symm ▸ hwatch)⟩

/-- When the queue is drained the directory has been reported. -/
theorem Awaiting.reported (hawaiting : Awaiting before row s) (hplace : s.watcher.place = .poll)
    (hqueue : s.kernel.queue = []) : row.path ∈ s.watcher.reports.drop before.length := by
  have hcontrol := hawaiting.growing.steady.ordered.control
  rcases hawaiting.due with ⟨stop, hstop⟩ | hreported | hdue
  · simp [hplace] at hstop
  · exact hreported
  · cases hdue with
    | next hother => simp [hplace] at hother
    | announced hevent =>
      change _ ∈ s.watcher.batch ++ s.kernel.queue at hevent
      rw [show s.watcher.batch = [] from hcontrol.idle (Or.inl hplace), hqueue] at hevent
      cases hevent

end DirWatcher.Watching
