import DirWatcher.Watching.Coverage
import DirWatcher.Watching.Growing

/-!
Directories that are made while the watcher scans. When directories are only made, each
has one name, and no top level path lies below another, then the conditions under which
no directory is lost hold in every step, and no directory is recorded twice.
-/

set_option autoImplicit false
set_option relaxedAutoImplicit false

namespace DirWatcher.Watching

open Source Environment Foundation.SeparatedPaths Foundation.Runs

/-- No top level path lies below another. -/
def NotNested (tops : List Bytes) : Prop := ∀ top ∈ tops, ∀ other ∈ tops, ¬ AbovePath top other

instance (tops : List Bytes) : Decidable (NotNested tops) := by
  unfold NotNested
  infer_instance

variable {cfg : Config} {s after : System FileSystem}

/-- What holds in all states of such a run. -/
structure Racing (cfg : Config) (s : System FileSystem) : Prop where
  regular : Regular s.inotify
  configured : Configured cfg s.watcher
  growing : Growing s
  complete : Stopped s.watcher ∨ Complete cfg s

/-! ### Where the recorded paths lead -/

theorem Racing.reached (hracing : Racing cfg s) {row : Row} (hrow : row ∈ s.watcher.table) :
    ∃ top ∈ cfg.topLevelPaths, ∀ dir, ⟨row.wd, dir⟩ ∈ s.kernel.watches →
      s.kernel.tree.Reached top row.path dir := by
  induction hlength : row.path.length using Nat.strong_induction_on generalizing row with
  | _ length ih =>
    have haccurate := hracing.growing.accurate row hrow
    rcases hracing.regular.agreeing.rooted row hrow with hroot | ⟨parent, hparent, hof⟩
    · exact ⟨row.path, hracing.configured.rows row hrow hroot.link,
        fun dir hwatch ↦ .top (haccurate.resolve_eq hwatch)⟩
    · obtain ⟨top, htop, hreached⟩ := ih _ (hlength ▸ hof.length_lt) hparent rfl
      obtain ⟨above, hwatch, hresolve⟩ := hracing.growing.accurate parent hparent
      obtain ⟨name, hname, hpath⟩ := hof.path
      refine ⟨top, htop, fun dir hown ↦ ?_⟩
      rw [hpath]
      exact (hreached above hwatch).entry hname hresolve (hpath ▸ haccurate.resolve_eq hown)

/-- The parent of a row that is asked for is recorded. -/
theorem Racing.asked_parent (hracing : Racing cfg s) {parentWd : Wd} {path : Bytes}
    (hplace : s.watcher.place = .inotifyAddWatch parentWd path) (hparent : parentWd ≠ nullWd) :
    ∃ parent ∈ s.watcher.table, parent.wd = parentWd := by
  have htask := hracing.regular.agreeing.task
  have hfits := hracing.regular.ordered.control.fits
  change Task s.watcher.table s.watcher.prevWd s.watcher.stack s.watcher.place at htask
  change StackFits s.watcher.place s.watcher.stack at hfits
  rw [hplace] at htask hfits
  obtain ⟨⟨hfollows, hrecorded⟩, -⟩ := htask
  have hremembered :
      parentWd = s.watcher.prevWd → ∃ parent ∈ s.watcher.table, parent.wd = parentWd := by
    rintro rfl
    rcases hracing.growing.remembered with hnull | ⟨row, hrow, hwd, -⟩
    · exact absurd hnull hparent
    · exact ⟨row, hrow, hwd⟩
  cases hstack : s.watcher.stack with
  | nil =>
    rw [hstack] at hfits
    exact absurd hfits id
  | cons frame rest =>
    rw [hstack] at hfollows hrecorded
    cases frame with
    | subDirs => exact hrecorded
    | topLevel => exact absurd hfollows hparent
    | created => exact hremembered hfollows.1
    | movedTo => exact hremembered hfollows.1

theorem Racing.reached_asked (hracing : Racing cfg s) {parentWd : Wd} {path : Bytes} {dir : Dir}
    (hplace : s.watcher.place = .inotifyAddWatch parentWd path)
    (hresolve : s.kernel.tree.resolve path = some dir) :
    ∃ top ∈ cfg.topLevelPaths, s.kernel.tree.Reached top path dir := by
  by_cases hnull : parentWd = nullWd
  · refine ⟨path, hracing.configured.asked path ?_, .top hresolve⟩
    rw [hplace, hnull]
    rfl
  · obtain ⟨parent, hparent, hwd⟩ := hracing.asked_parent hplace hnull
    have htask := hracing.regular.agreeing.task
    change Task s.watcher.table s.watcher.prevWd s.watcher.stack s.watcher.place at htask
    rw [hplace] at htask
    obtain ⟨name, hname, rfl⟩ := htask.2 parent hparent hwd
    obtain ⟨top, htop, hreached⟩ := hracing.reached hparent
    obtain ⟨above, hwatch, habove⟩ := hracing.growing.accurate parent hparent
    exact ⟨top, htop, (hreached above hwatch).entry hname habove hresolve⟩

/-! ### The conditions hold -/

theorem Racing.rowFits (hracing : Racing cfg s) (hnested : NotNested cfg.topLevelPaths)
    {parentWd wd : Wd} {path : Bytes} (hplace : s.watcher.place = .inotifyAddWatch parentWd path) :
    RowFits s.watcher.table ⟨wd, parentWd, path⟩ := by
  unfold RowFits
  split_ifs with hnull
  · obtain rfl : parentWd = nullWd := hnull
    have htop := hracing.configured.asked path (by rw [hplace]; rfl)
    have hchecked := hracing.regular.ordered.keys.checked
    change Checked s.watcher.table s.watcher.place at hchecked
    rw [hplace] at hchecked
    intro old hold
    obtain ⟨root, hroot, hrootNull, hbelow⟩ := hracing.regular.agreeing.rooted.exists_root hold
    have hrootTop := hracing.configured.rows root hroot hrootNull
    refine ⟨fun habove ↦ hnested root.path hrootTop path htop ?_, fun habove ↦ ?_⟩
    · rcases hbelow with hat | hhigher
      · exact hat ▸ habove
      · exact hhigher.trans habove
    · rcases hbelow with hat | hhigher
      · exact hnested path htop root.path hrootTop (hat ▸ habove)
      · rcases habove.comparable hhigher with hsame | hlower | hupper
        · exact hchecked.2 root hroot hsame.symm
        · exact hnested path htop root.path hrootTop hlower
        · exact hnested root.path hrootTop path htop hupper
  · exact hracing.asked_parent hplace hnull

theorem Racing.orderly (hracing : Racing cfg s) (hnested : NotNested cfg.topLevelPaths)
    (hshort : s.kernel.tree.ShortPaths cfg.topLevelPaths) (label : Label FsAct) :
    OrderlyStep s label := by
  refine ⟨fun row hrow ↦ ?_, fun event hevent ↦ ?_⟩
  · unfold insertedRow at hrow
    split at hrow
    · split at hrow
      · next wd _ parentWd path hplace =>
        split_ifs at hrow
        · cases hrow
        · cases hrow
          exact hracing.rowFits hnested hplace
      · cases hrow
    · split at hrow
      · next hplace => exact absurd hplace (hracing.growing.unpruned _ _)
      · cases hrow
    · cases hrow
  · have hmem := Growing.taken_mem hevent
    refine ⟨fun hbranch ↦ absurd hbranch (hracing.growing.not_ignored hmem), fun harrival ↦ ?_⟩
    obtain ⟨row, hrow, hwd, hpath, -⟩ := hracing.growing.looked hmem
    obtain ⟨dir, hwatch, -⟩ := hracing.growing.accurate row hrow
    obtain ⟨top, htop, hreached⟩ := hracing.reached hrow
    obtain ⟨found, hentry⟩ := hracing.growing.arrives event hmem harrival dir (hwd ▸ hwatch)
    rw [eventPath, hpath]
    exact (hshort top htop _ _ (.child (hreached dir hwatch) hentry)).le

/-- The watch of a row is on another directory than the one asked for: that has another
name. -/
theorem Racing.newWatch (hracing : Racing cfg s) (hnames : s.kernel.tree.OneName cfg.topLevelPaths)
    {label : Label FsAct} (hstep : s.step cfg fileSystem label = some after) :
    NewWatch s label := by
  unfold NewWatch
  split
  · next wd =>
    rintro row hrow rfl
    obtain ⟨call, hcall, hserve, hresume⟩ := System.step_answer hstep
    obtain ⟨watcher, kernel⟩ := after
    have hresume := resumeStep hresume
    obtain ⟨parentWd, path, hplace⟩ :
        ∃ parentWd path, s.watcher.place = .inotifyAddWatch parentWd path := by
      cases hresume with
      | reuses hplace => exact ⟨_, _, hplace⟩
      | adds hplace => exact ⟨_, _, hplace⟩
      | removes _ _ hanswer => simp at hanswer
    obtain rfl := call_eq_inotifyAddWatch hplace hcall
    obtain ⟨dir, hresolve, -, hwatch⟩ := FileSystem.inotifyAddWatch_spec hserve
    rcases hwatch with ⟨hlive, -⟩ | ⟨hfresh, -⟩
    · have hchecked := hracing.regular.ordered.keys.checked
      change Checked s.watcher.table s.watcher.place at hchecked
      rw [hplace] at hchecked
      obtain ⟨top, htop, hreached⟩ := hracing.reached hrow
      obtain ⟨other, hother, hasked⟩ := hracing.reached_asked hplace hresolve
      exact hchecked.2 row hrow (hnames top htop other hother _ _ dir (hreached dir hlive) hasked)
    · exact hfresh (hracing.regular.ordered.rowsUsed.table row hrow)
  · trivial

theorem Racing.coverageStep (hracing : Racing cfg s) (hnested : NotNested cfg.topLevelPaths)
    (hnames : s.kernel.tree.OneName cfg.topLevelPaths)
    (hshort : s.kernel.tree.ShortPaths cfg.topLevelPaths) {label : Label FsAct}
    (hcreation : Creation label) (hstep : s.step cfg fileSystem label = some after) :
    CoverageStep s label := by
  refine ⟨⟨hracing.orderly hnested hshort label, ?_⟩, hracing.newWatch hnames hstep, ?_,
    fun event hevent hdeparture ↦ ?_⟩
  · cases label with
    | act action =>
      intro fs hact row hrow _
      obtain ⟨news, hcreates⟩ := FileSystem.exists_creates hcreation hact
      obtain ⟨dir, -, hresolve⟩ := hracing.growing.accurate row hrow
      rw [hresolve]
      exact hcreates.grows.resolve hresolve
    | internal => trivial
    | answer => trivial
  · cases label with
    | act action =>
      intro fs hact
      obtain ⟨news, hcreates⟩ := FileSystem.exists_creates hcreation hact
      refine ⟨fun row hrow watch hwatch hwd hremoved entry hentry hends _ ↦ hremoved ?_,
        fun row hrow _ ↦ ?_⟩
      · rw [hcreates.watches] at hwatch
        obtain ⟨path, hpath⟩ := endsIn_iff.mp hends
        have hown : (⟨row.wd, watch.dir⟩ : Watch) ∈ s.kernel.watches := hwd ▸ hwatch
        have hresolve := (hracing.growing.accurate row hrow).resolve_eq hown
        rw [hpath] at hresolve
        exact hcreates.grows.attached (DirTree.attached_of_resolve_joinPath
          (fs.tree.names entry hentry) hresolve)
      · obtain ⟨dir, hwatch, -⟩ := hracing.growing.accurate row hrow
        exact FileSystem.mem_live.mpr ⟨dir, hcreates.watches ▸ hwatch⟩
    | internal => trivial
    | answer => trivial
  · exact absurd hdeparture (hracing.growing.stays event (Growing.taken_mem hevent))

/-! ### Runs -/

theorem racing_start (cfg : Config) (tree : DirTree) :
    Racing cfg (System.start cfg (.start tree)) where
  regular := regular_start cfg
  configured := configured_start cfg
  growing := growing_start cfg tree
  complete := Or.inr (complete_start cfg tree)

theorem Racing.step (hracing : Racing cfg s) (hnested : NotNested cfg.topLevelPaths)
    (hnames : s.kernel.tree.OneName cfg.topLevelPaths)
    (hshort : s.kernel.tree.ShortPaths cfg.topLevelPaths) {label : Label FsAct}
    (hcreation : Creation label) (hstep : s.step cfg fileSystem label = some after) :
    Racing cfg after := by
  have hcoverage := hracing.coverageStep hnested hnames hshort hcreation hstep
  exact ⟨hracing.regular.step_fileSystem hcoverage.truthful.1 hstep,
    hracing.configured.step hracing.regular hstep,
    (hracing.growing.step ⟨hcreation, hcoverage.newWatch⟩ hstep).1,
    Complete.step hracing.regular hracing.complete hcoverage hstep⟩

/-- Each directory had one name and its paths were short all the time, as what has been
made once stays. -/
theorem racing_of_reachesWhen {tree : DirTree} (hnested : NotNested cfg.topLevelPaths)
    (hreaches : ReachesWhen (System.step cfg fileSystem) (fun _ label ↦ Creation label)
      (System.start cfg (.start tree)) s)
    (hnames : s.kernel.tree.OneName cfg.topLevelPaths)
    (hshort : s.kernel.tree.ShortPaths cfg.topLevelPaths) : Racing cfg s := by
  refine (hreaches.invariant (fun s ↦ Steady s.inotify ∧
    (s.kernel.tree.OneName cfg.topLevelPaths → s.kernel.tree.ShortPaths cfg.topLevelPaths →
      Racing cfg s)) ⟨steady_start cfg, fun _ _ ↦ racing_start cfg tree⟩ ?_).2 hnames hshort
  rintro s label next ⟨hsteady, hracing⟩ hcreation hstep
  refine ⟨hsteady.step_fileSystem hstep, fun hnames hshort ↦ ?_⟩
  have hgrows := grows_of_step hsteady hcreation hstep
  have hbefore := hracing (hnames.of_grows hgrows) (hshort.of_grows hgrows)
  exact hbefore.step hnested (hnames.of_grows hgrows) (hshort.of_grows hgrows) hcreation hstep

/-! ### One row for each directory -/

/-- The row is the only one with the path or with a watch on the directory, and its parent
is the row of the containing directory. -/
structure RecordedOnce (s : System FileSystem) (top path : Bytes) (dir : Dir) (row : Row) :
    Prop where
  mem : row ∈ s.watcher.table
  place : row.path = path
  watch : ⟨row.wd, dir⟩ ∈ s.kernel.watches
  once : ∀ other ∈ s.watcher.table, other.path = path ∨ ⟨other.wd, dir⟩ ∈ s.kernel.watches →
    other = row
  root : path = top → row.parentWd = nullWd
  parent : path ≠ top → ∃ parent ∈ s.watcher.table, ∃ entry ∈ s.kernel.tree.entries,
    entry.dir = dir ∧ ⟨parent.wd, entry.parent⟩ ∈ s.kernel.watches ∧ row.parentWd = parent.wd

theorem Racing.recordedOnce (hracing : Racing cfg s) (hrest : AtRest s) {top path : Bytes}
    {dir : Dir}
    (htop : top ∈ s.watcher.watchedTops) (hvisible : Visible cfg s.kernel.tree top path dir) :
    ∃ row, RecordedOnce s top path dir row := by
  have hregular := hracing.regular
  have hkeyed := hregular.ordered.keys.keyed
  have hcomplete := hracing.complete.resolve_left hrest.not_stopped
  obtain ⟨row, hrow, hpath, hwatch⟩ := hrest.covered hregular hcomplete htop hvisible
  refine ⟨row, hrow, hpath, hwatch, fun other hother hsame ↦ ?_, fun hat ↦ ?_, fun hbelow ↦ ?_⟩
  · rcases hsame with hsamePath | hsameWatch
    · exact hkeyed.eq_of_path hother hrow (hsamePath.trans hpath.symm)
    · exact hkeyed.eq_of_wd hother hrow (FileSystem.wd_eq_of_dir hsameWatch hwatch)
  · obtain ⟨root, hroot, hrootPath, hnull⟩ := hcomplete.tops.watched top htop
    rw [hkeyed.eq_of_path hrow hroot (hpath.trans (hat.trans hrootPath.symm))]
    exact hnull
  · cases hvisible with
    | top => exact absurd rfl hbelow
    | @child above entry habove hentry =>
      obtain ⟨parent, hparent, hparentPath, hparentWatch⟩ :=
        hrest.covered hregular hcomplete htop habove
      have hof := hregular.agreeing.rooted.parentOf_of_path hkeyed hparent hrow
        (s.kernel.tree.names entry hentry) (hparentPath ▸ hpath)
      exact ⟨parent, hparent, entry, hentry, rfl, hparentWatch, hof.link⟩

/-- When directories are only made, each with one name and a path that fits in a buffer,
and no top level path lies below another, then at rest each readable directory below a
watched top level path has exactly one row, unless a directory on the way is unreadable,
excluded or marked to be ignored. -/
theorem creations_recorded_once (cfg : Config) (tree : DirTree) {s : System FileSystem}
    (hnested : NotNested cfg.topLevelPaths)
    (hreaches : ReachesWhen (System.step cfg fileSystem) (fun _ label ↦ Creation label)
      (System.start cfg (.start tree)) s)
    (hnames : s.kernel.tree.OneName cfg.topLevelPaths)
    (hshort : s.kernel.tree.ShortPaths cfg.topLevelPaths) (hrest : AtRest s) :
    ∀ top ∈ s.watcher.watchedTops, ∀ path dir, Visible cfg s.kernel.tree top path dir →
      ∃ row, RecordedOnce s top path dir row := by
  intro top htop path dir hvisible
  exact (racing_of_reachesWhen hnested hreaches hnames hshort).recordedOnce hrest htop hvisible

/-- `/t/a` is made after the watch on `/t` has been set and before `/t` is listed, so that
the scan finds it and its event comes later. -/
theorem creations_recorded_once_race :
    ∃ s, ReachesWhen (System.step ⟨[literal "/t"], [], by decide⟩ fileSystem)
        (fun _ label ↦ Creation label)
        (System.start ⟨[literal "/t"], [], by decide⟩ (.start DirTree.oneDir)) s ∧
      s.watcher.watchedTops = [literal "/t"] ∧
      Visible ⟨[literal "/t"], [], by decide⟩ s.kernel.tree (literal "/t") (literal "/t/a") 2 ∧
      ∃ row, RecordedOnce s (literal "/t") (literal "/t/a") 2 row := by
  have hrun : (runChecked (System.step ⟨[literal "/t"], [], by decide⟩ fileSystem)
      (fun _ label ↦ decide (Creation label))
      (System.start ⟨[literal "/t"], [], by decide⟩ (.start DirTree.oneDir))
      [.internal, .internal, .answer (.watch 1), .act (.mkdir true 1 (literal "a")), .answer .done,
        .answer (.names [literal "a"]), .internal, .internal, .answer (.watch 2), .answer .done,
        .answer (.names []), .internal, .internal, .internal, .internal, .internal,
        .answer (.events [⟨1, createDirMask, 0, literal "a"⟩]),
        .internal, .internal, .internal, .internal]).map
      (fun s : System FileSystem ↦ (decide (AtRest s ∧ s.kernel.tree.unreadable = [] ∧
        s.kernel.tree.resolve (literal "/t") = some 1), s.kernel.tree.entries,
          s.watcher.watchedTops)) =
      some (true, [⟨1, literal "a", 2⟩, ⟨rootDir, literal "t", 1⟩], [literal "/t"]) := by decide
  obtain ⟨s, hreaches, hseen⟩ := exists_reachesWhen_of_run hrun
  simp only [Prod.mk.injEq, decide_eq_true_eq] at hseen
  obtain ⟨⟨hrest, hreadable, hresolve⟩, hentries, htops⟩ := hseen
  have hlists : s.kernel.tree.Lists (literal "/t") [(literal "/t", 1), (literal "/t/a", 2)] := by
    refine ⟨fun dir hdir ↦ ?_, by rw [hentries]; decide⟩
    obtain rfl := Option.some_inj.mp (hresolve.symm.trans hdir)
    exact List.mem_cons_self
  have hentry : ⟨1, literal "a", 2⟩ ∈ s.kernel.tree.entries := by simp [hentries]
  have hvisible : Visible ⟨[literal "/t"], [], by decide⟩ s.kernel.tree (literal "/t")
      (literal "/t/a") 2 :=
    .child (.top hresolve) hentry (by simp [hreadable]) (by decide)
  exact ⟨s, hreaches, htops, hvisible, creations_recorded_once _ _ (by decide) hreaches
    (hlists.oneName (by decide)) (hlists.shortPaths (by decide)) hrest (literal "/t")
    (by simp [htops]) _ _ hvisible⟩

/-- A directory in one that is marked to be ignored is not found, though no mark or
exclude is about its own path. -/
theorem creations_recorded_once_fails :
    ∃ s, ReachesWhen (System.step ⟨[literal "/t"], [], by decide⟩ fileSystem)
        (fun _ label ↦ Creation label)
        (System.start ⟨[literal "/t"], [], by decide⟩ (.start DirTree.oneDir)) s ∧
      s.kernel.tree.OneName [literal "/t"] ∧ s.kernel.tree.ShortPaths [literal "/t"] ∧
      AtRest s ∧ literal "/t" ∈ s.watcher.watchedTops ∧
      s.kernel.tree.Reached (literal "/t") (literal "/t/x__dir_watcher_ignore/b") 3 ∧
      3 ∉ s.kernel.tree.unreadable ∧
      refusesPath ⟨[literal "/t"], [], by decide⟩ (literal "/t/x__dir_watcher_ignore/b") = false ∧
      ∀ row ∈ s.watcher.table, row.path ≠ literal "/t/x__dir_watcher_ignore/b" := by
  have hrun : (runChecked (System.step ⟨[literal "/t"], [], by decide⟩ fileSystem)
      (fun _ label ↦ decide (Creation label))
      (System.start ⟨[literal "/t"], [], by decide⟩ (.start DirTree.oneDir))
      [.internal, .internal, .answer (.watch 1), .answer .done, .answer (.names []),
        .internal, .internal, .internal, .act (.mkdir true 1 (literal "x__dir_watcher_ignore")),
        .act (.mkdir true 2 (literal "b")),
        .answer (.events [⟨1, createDirMask, 0, literal "x__dir_watcher_ignore"⟩]),
        .internal, .internal, .internal, .internal]).map
      (fun s : System FileSystem ↦ (decide (AtRest s ∧ 3 ∉ s.kernel.tree.unreadable ∧
        s.kernel.tree.resolve (literal "/t") = some 1 ∧ literal "/t" ∈ s.watcher.watchedTops ∧
        ∀ row ∈ s.watcher.table, row.path ≠ literal "/t/x__dir_watcher_ignore/b"),
        s.kernel.tree.entries)) =
      some (true, [⟨2, literal "b", 3⟩, ⟨1, literal "x__dir_watcher_ignore", 2⟩,
        ⟨rootDir, literal "t", 1⟩]) := by decide
  obtain ⟨s, hreaches, hseen⟩ := exists_reachesWhen_of_run hrun
  simp only [Prod.mk.injEq, decide_eq_true_eq] at hseen
  obtain ⟨⟨hrest, hreadable, hresolve, htop, hnone⟩, hentries⟩ := hseen
  have hlists : s.kernel.tree.Lists (literal "/t") [(literal "/t", 1),
      (literal "/t/x__dir_watcher_ignore", 2), (literal "/t/x__dir_watcher_ignore/b", 3)] := by
    refine ⟨fun dir hdir ↦ ?_, by rw [hentries]; decide⟩
    obtain rfl := Option.some_inj.mp (hresolve.symm.trans hdir)
    exact List.mem_cons_self
  have houter :
    ⟨1, literal "x__dir_watcher_ignore", 2⟩ ∈ s.kernel.tree.entries := by simp [hentries]
  have hinner : ⟨2, literal "b", 3⟩ ∈ s.kernel.tree.entries := by simp [hentries]
  exact ⟨s, hreaches, hlists.oneName (by decide), hlists.shortPaths (by decide), hrest, htop,
    .child (.child (.top hresolve) houter) hinner, hreadable, by decide, hnone⟩

end DirWatcher.Watching
