import DirWatcher.Watching.FileReports

/-!
Reports that are on their way. An event about a recorded directory that is to be reported leads
to a report of that directory, or of one above it when the row is pruned before. So a path stays
promised until a directory that includes it has been reported, also while directories are moved
and removed.
-/

set_option autoImplicit false
set_option relaxedAutoImplicit false

namespace DirWatcher.Watching

open Source Environment Foundation.ParentLinks Foundation.SeparatedPaths Foundation.Runs

variable {cfg : Config} {s after : System FileSystem} {w next : Watcher} {event : Event}
  {rest : List Event} {row : Row} {directory path name : Bytes} {before : List Bytes}

/-! ### Directories that include a path -/

/-- The first path is the second one or lies above it. -/
def Includes (directory path : Bytes) : Prop := directory = path ∨ AbovePath directory path

theorem includes_self : Includes path path := Or.inl rfl

theorem includes_join : Includes path (joinPath path name) := Or.inr above_join

theorem Includes.trans {low : Bytes} (hfirst : Includes directory path)
    (hsecond : Includes path low) : Includes directory low := by
  rcases hfirst with rfl | hfirst
  · exact hsecond
  · rcases hsecond with rfl | hsecond
    · exact Or.inr hfirst
    · exact Or.inr (hfirst.trans hsecond)

/-- The rows linked below a row are included in it. -/
theorem Rooted.includes_of_belowWd {table : Table} (hrooted : Rooted table) (hkeyed : Keyed table)
    {top : Row} (htop : top ∈ table) (hrow : row ∈ table)
    (hbelow : BelowWd table top.wd row.wd) : Includes top.path row.path := by
  obtain ⟨wd, hwd⟩ : ∃ wd, row.wd = wd := ⟨_, rfl⟩
  rw [hwd] at hbelow
  induction hbelow generalizing row with
  | refl => exact Or.inl (congrArg Row.path (hkeyed.eq_of_wd htop hrow hwd.symm))
  | tail hlinks hlink ih =>
    obtain ⟨found, hfound, hfoundWd, hparent⟩ := mem_findChildren.mp hlink
    obtain rfl := hkeyed.eq_of_wd hfound hrow (hfoundWd.trans hwd.symm)
    rcases hrooted found hrow with hroot | ⟨parent, hparentMem, hof⟩
    · obtain ⟨other, hother, hotherWd, -⟩ := hrooted.length_le_of_belowWd hkeyed htop hlinks
      have hpositive := hkeyed.positive other hother
      rw [hotherWd, ← hparent, hroot.link] at hpositive
      exact absurd hpositive (lt_irrefl _)
    · exact (ih hparentMem (hof.link.symm.trans hparent)).trans (Or.inr hof.above)

/-! ### Events that are to be reported -/

/-- The event is one of those that end in a report: all but those that say that a directory has
been made, or what has become of the watched directory itself. -/
def Telling (event : Event) : Prop := event.branch ∈ [.movedFrom, .movedTo, .other]

instance (event : Event) : Decidable (Telling event) := by
  unfold Telling
  infer_instance

theorem telling_of_departure (hdeparture : Departure event) : Telling event := by
  simp [Telling, hdeparture.1]

theorem FileChange.telling (hchange : FileChange event) : Telling event := hchange.branch

/-- The event that is being processed will be reported, if the process goes on. -/
inductive Reporting (w : Watcher) : Prop
  | committed (hcommitted : Committed w)
  | prunes {wds : List Wd} (hplace : w.place = .removePrunedWds wds none)
  | moved (hframe : .movedTo ∈ w.stack)

theorem Telling.dispatch (htelling : Telling event) (w : Watcher) :
    Stopped (w.dispatch event) ∨ Reporting (w.dispatch event) := by
  by_cases hother : event.branch = .other
  · rw [Watcher.dispatch, hother]
    exact Or.inr (.committed (.reports rfl))
  have hbranch : event.branch = .movedFrom ∨ event.branch = .movedTo := by
    simpa [Telling, hother] using htelling
  have hstep := dispatchStep event w
  generalize w.dispatch event = next at hstep
  cases hstep with
  | exits => exact Or.inl ⟨_, rfl⟩
  | skips hnone => rcases hbranch with hbranch | hbranch <;> simp [hbranch] at hnone
  | forgets hignored => rcases hbranch with hbranch | hbranch <;> simp [hbranch] at hignored
  | reports | movesUnrecorded => exact Or.inr (.committed (.reports rfl))
  | watches cookie frame hframe =>
    rcases hframe with ⟨hcreated, -⟩ | ⟨-, rfl⟩
    · rcases hbranch with hbranch | hbranch <;> simp [hbranch] at hcreated
    · exact Or.inr (.moved List.mem_cons_self)
  | prunes _ _ _ _ _ hprune =>
    cases hprune with
    | loops => exact Or.inl ⟨_, rfl⟩
    | removes => exact Or.inr (.prunes rfl)

/-- A prune is not on its way while `add_watch` is at work. -/
theorem Committed.unpruned (hcommitted : Committed w) (hfits : StackFits w.place w.stack)
    (hsettled : ∀ row, ¬ Inserting w row) (wds : List Wd) (row : Option Row) :
    w.place ≠ .removePrunedWds wds row := by
  intro hplace
  cases row with
  | some row => exact hsettled row ⟨wds, hplace⟩
  | none =>
    rw [hplace] at hfits
    cases hcommitted with
    | nested hstack => simp [StackFits, hstack] at hfits
    | reports hother | opens hother | reads hother | loops hother | succeeds hother =>
      simp [hplace] at hother

theorem parentDir_of_internal (hstep : InternalStep cfg w next) (hplace : w.place ≠ .nextEvent) :
    next.parentDir = w.parentDir := by
  cases hstep with
  | takesEvent hother => exact absurd hother hplace
  | insertsPruned _ hinsert => cases hinsert <;> rfl
  | @returns _ frame => cases frame <;> rfl
  | reports => rw [report_eq]
  | _ => rfl

theorem parentDir_of_resume {answer : Answer} (hstep : ResumeStep w answer next)
    (hplace : w.place ≠ .poll) : next.parentDir = w.parentDir := by
  cases hstep with
  | reads _ hother => exact absurd hother hplace
  | reuses _ _ hprune => cases hprune <;> rfl
  | adds _ _ hinsert => cases hinsert <;> rfl
  | _ => rfl

theorem offConfig_of_not_loading (hloading : ¬ Loading w) : OffConfig w :=
  fun top htop ↦ hloading (Or.inr ⟨top, htop⟩)

/-- The watcher goes on to report the directory of the event. -/
theorem Reporting.internal (hreporting : Reporting w) (hloading : ¬ Loading w)
    (hfits : StackFits w.place w.stack) (hsettled : ∀ row, ¬ Inserting w row)
    (hstep : InternalStep cfg w next) (hruns : ¬ Stopped next) :
    next = w.report ∨ Reporting next ∧ next.parentDir = w.parentDir := by
  cases hreporting with
  | committed hcommitted =>
    rcases hcommitted.internal (offConfig_of_not_loading hloading) hfits
      (hcommitted.unpruned hfits hsettled) hstep hruns with ⟨-, hreport⟩ | ⟨hnext, -, hsame⟩
    · exact Or.inl hreport
    · exact Or.inr ⟨.committed hnext, hsame⟩
  | prunes hplace =>
    cases hstep with
    | finishesPrune => exact Or.inr ⟨.committed (.reports rfl), rfl⟩
    | startsPolling hother =>
      rcases hother with ⟨hother, -⟩ | ⟨hother, -⟩ <;> simp [hplace] at hother
    | readsLine hother | takesEvent hother | refuses hother | requests hother | insertsPruned hother
    | finishesSubDirs hother | descends hother | overflows hother | returns hother
    | reports hother => simp [hplace] at hother
  | moved hframe =>
    have hplace : w.place ≠ .nextEvent := by
      intro hplace
      rw [hplace] at hfits
      rw [show w.stack = [] from hfits] at hframe
      cases hframe
    refine Or.inr ⟨?_, parentDir_of_internal hstep hplace⟩
    rcases frame_of_internal hstep hframe with hstays | ⟨result, left, rfl⟩
    · exact .moved hstays
    · exact .committed (.reports rfl)

theorem Reporting.resume {answer : Answer} (hreporting : Reporting w) (hloading : ¬ Loading w)
    (hfits : StackFits w.place w.stack) (hsettled : ∀ row, ¬ Inserting w row)
    (hnew : ∀ wd, answer = .watch wd → ∀ row ∈ w.table, row.wd ≠ wd)
    (hstep : ResumeStep w answer next) (hruns : ¬ Stopped next) :
    Reporting next ∧ next.parentDir = w.parentDir := by
  cases hreporting with
  | committed hcommitted =>
    obtain ⟨hnext, -, hsame⟩ := hcommitted.resume (offConfig_of_not_loading hloading) hfits hnew
      (hcommitted.unpruned hfits hsettled) hstep hruns
    exact ⟨.committed hnext, hsame⟩
  | prunes hplace =>
    cases hstep with
    | exits => exact absurd ⟨_, rfl⟩ hruns
    | removes _ hother =>
      rw [hplace, Place.removePrunedWds.injEq] at hother
      exact ⟨.prunes (by rw [← hother.2]), rfl⟩
    | reads _ hother | reuses hother | adds hother | missed _ hother | opens hother
    | opensNothing _ hother | lists _ hother => simp [hplace] at hother
  | moved hframe =>
    have hplace : w.place ≠ .poll := by
      intro hplace
      rw [hplace] at hfits
      rw [show w.stack = [] from hfits] at hframe
      cases hframe
    exact ⟨.moved ((stack_of_resume hstep).symm ▸ hframe), parentDir_of_resume hstep hplace⟩

/-! ### Promised paths -/

/-- A directory that includes the path has been reported since. -/
def Told (before : List Bytes) (path : Bytes) (w : Watcher) : Prop :=
  ∃ directory ∈ w.reports.drop before.length, Includes directory path

theorem Told.later (htold : Told before path w) (hreports : w.reports <+: next.reports) :
    Told before path next := by
  obtain ⟨directory, hdirectory, hincludes⟩ := htold
  exact ⟨directory, mem_drop_later hreports hdirectory, hincludes⟩

theorem told_of_report (hbefore : before <+: w.reports) (hparent : w.parentDir = some directory)
    (hincludes : Includes directory path) : Told before path w.report := by
  obtain ⟨more, hmore⟩ := hbefore
  refine ⟨directory, ?_, hincludes⟩
  rw [report_eq, hparent, ← hmore, List.append_assoc, List.drop_left]
  simp

/-- An event about a directory that includes the path is to be reported, or is being processed
and will be. -/
inductive Promised (s : System FileSystem) (path : Bytes) : Prop
  | announced {event : Event} {row : Row} (hevent : event ∈ pending s.inotify)
      (htelling : Telling event) (hrow : row ∈ s.watcher.table) (hwd : event.wd = row.wd)
      (hincludes : Includes row.path path)
  | reporting {directory : Bytes} (hreporting : Reporting s.watcher)
      (hparent : s.watcher.parentDir = some directory) (hincludes : Includes directory path)

theorem Promised.mono (hpromised : Promised s directory) (hincludes : Includes directory path) :
    Promised s path := by
  cases hpromised with
  | announced hevent htelling hrow hwd habove =>
    exact .announced hevent htelling hrow hwd (habove.trans hincludes)
  | reporting hreporting hparent habove =>
    exact .reporting hreporting hparent (habove.trans hincludes)

theorem Promised.act {kernel : FileSystem} {news : List Event} (hpromised : Promised s path)
    (hqueue : kernel.queue = s.kernel.queue ++ news) : Promised { s with kernel } path := by
  cases hpromised with
  | announced hevent htelling hrow hwd hincludes =>
    refine .announced ?_ htelling hrow hwd hincludes
    rw [pending_of_queue hqueue]
    exact List.mem_append_left _ hevent
  | reporting hreporting hparent hincludes => exact .reporting hreporting hparent hincludes

/-- The event is taken, and its directory is recorded. -/
theorem promised_of_taken {watcher : Watcher} (hregular : Regular s.inotify)
    (hplace : s.watcher.place = .nextEvent) (hbatch : s.watcher.batch = event :: rest)
    (hnext : ({ s.watcher with batch := rest }.findParent event).dispatch event = watcher)
    (hruns : ¬ Stopped watcher) (htelling : Telling event) (hrow : row ∈ s.watcher.table)
    (hwd : event.wd = row.wd) : Promised { s with watcher } row.path := by
  have hlooked := hregular.agreeing.looked hregular.ordered hplace hbatch
  have hparent := hlooked.path row (by rw [findParent_table]; exact hrow) hwd.symm
  have hreporting := htelling.dispatch ({ s.watcher with batch := rest }.findParent event)
  rw [hnext] at hreporting
  refine .reporting (hreporting.resolve_left hruns) ?_ includes_self
  exact (parentDir_of_dispatch (hnext ▸ dispatchStep event _)).trans hparent

/-- A row that is pruned lies in the directory of an event that is then reported. -/
theorem promised_of_removed {watcher : Watcher} (hregular : Regular s.inotify)
    (hmoves : MovesKnown (s.watcher.findParent event) event)
    (hnext : ({ s.watcher with batch := rest }.findParent event).dispatch event = watcher)
    (hruns : ¬ Stopped watcher) (hrow : row ∈ s.watcher.table) (hgone : row ∉ watcher.table) :
    (event.branch = .ignored ∧ row.wd = event.wd) ∨ Promised { s with watcher } row.path := by
  have hdispatch : DispatchStep event ({ s.watcher with batch := rest }.findParent event) watcher :=
    hnext ▸ dispatchStep event _
  refine (removed_of_dispatch hdispatch (by rw [findParent_table]; exact hrow) hgone).imp_right ?_
  rintro ⟨hdeparture, top, htop, hpath, hbelow, -⟩
  have hreporting := (telling_of_departure hdeparture).dispatch
    ({ s.watcher with batch := rest }.findParent event)
  rw [hnext] at hreporting
  simp only [findParent_table] at htop hbelow
  rw [findParent_withBatch] at hdispatch hpath
  have hparentDir := parentDir_of_dispatch hdispatch
  cases hparent : (s.watcher.findParent event).parentDir with
  | none => exact absurd hpath (hmoves hdeparture hparent top (by rwa [findParent_table]))
  | some directory =>
    refine .reporting (hreporting.resolve_left hruns) (hparentDir.trans hparent) ?_
    have hjoin : top.path = joinPath directory event.name :=
      hpath.trans (congrArg (fun parent ↦ joinPath (Watcher.printed parent) event.name) hparent)
    have habove : Includes directory top.path := hjoin ▸ includes_join
    exact habove.trans (hregular.agreeing.rooted.includes_of_belowWd hregular.ordered.keys.keyed
      htop hrow hbelow)

/-- The `IN_IGNORED` of a watch comes after all other events of it. -/
theorem Regular.not_ignored (hregular : Regular s.inotify)
    (hbatch : s.watcher.batch = event :: rest)
    {later : Event} (hlater : later ∈ rest ++ s.kernel.queue) (hsame : later.wd = event.wd) :
    event.branch ≠ .ignored := by
  intro hbranch
  have hdelivered := hregular.ordered.delivered.last
  change (s.watcher.batch ++ s.kernel.queue).Pairwise _ at hdelivered
  rw [hbatch, List.cons_append] at hdelivered
  exact (List.pairwise_cons.mp hdelivered).1 later hlater (has_inIgnored_of_branch hbranch) hsame

theorem Promised.internal {watcher : Watcher} (hpromised : Promised s path)
    (hregular : Regular s.inotify) (hloading : ¬ Loading s.watcher)
    (hsettled : ∀ row, ¬ Inserting s.watcher row) (hbefore : before <+: s.watcher.reports)
    (hmoves : ∀ event ∈ takenEvent s.watcher (.internal : Label FsAct),
      MovesKnown (s.watcher.findParent event) event)
    (hinternal : s.watcher.internal cfg = some watcher) (hruns : ¬ Stopped watcher) :
    Told before path watcher ∨ Promised { s with watcher } path := by
  have hstep := internalStep hinternal
  cases hpromised with
  | @announced event row hevent htelling hrow hwd hincludes =>
    refine Or.inr (Promised.mono ?_ hincludes)
    change event ∈ s.watcher.batch ++ s.kernel.queue at hevent
    rcases batch_or_dispatch_of_internal hstep with ⟨hbatch, htable⟩ |
      ⟨first, rest, hplace, hbatch, hdispatch⟩
    · refine Promised.announced (?_ : event ∈ watcher.batch ++ s.kernel.queue) htelling
        (htable hrow) hwd includes_self
      rwa [hbatch]
    · have hnext : ({ s.watcher with batch := rest }.findParent first).dispatch first =
          watcher := by simpa [Watcher.internal, hplace, hbatch] using hinternal
      rw [hbatch, List.cons_append] at hevent
      rcases List.mem_cons.mp hevent with rfl | hlater
      · exact promised_of_taken hregular hplace hbatch hnext hruns htelling hrow hwd
      by_cases hleft : row ∈ watcher.table
      · refine Promised.announced (?_ : event ∈ watcher.batch ++ s.kernel.queue) htelling hleft hwd
          includes_self
        rwa [batch_of_dispatch hdispatch, findParent_batch]
      · refine (promised_of_removed hregular (hmoves first (by simp [takenEvent, hplace, hbatch]))
          hnext hruns hrow hleft).resolve_left ?_
        rintro ⟨hignored, hsame⟩
        exact hregular.not_ignored hbatch hlater (hwd.trans hsame) hignored
  | reporting hreporting hparent hincludes =>
    have hfits : StackFits s.watcher.place s.watcher.stack := hregular.ordered.control.fits
    rcases hreporting.internal hloading hfits hsettled hstep hruns with rfl | ⟨hnext, hsame⟩
    · exact Or.inl (told_of_report hbefore hparent hincludes)
    · exact Or.inr (.reporting hnext (hsame.trans hparent) hincludes)

theorem Promised.answer {answer : Answer} (hpromised : Promised s path)
    (hregular : Regular s.inotify) (hloading : ¬ Loading s.watcher)
    (hsettled : ∀ row, ¬ Inserting s.watcher row) (hnew : NewWatch s (.answer answer))
    (hstep : s.step cfg fileSystem (.answer answer) = some after)
    (hruns : ¬ Stopped after.watcher) : Promised after path := by
  have hnewWd : ∀ wd, answer = .watch wd → ∀ row ∈ s.watcher.table, row.wd ≠ wd := by
    rintro wd rfl
    exact hnew
  obtain ⟨-, -, -, hresume⟩ := System.step_answer hstep
  cases hpromised with
  | announced hevent htelling hrow hwd hincludes =>
    refine .announced ?_ htelling ((table_of_resume hnewWd (resumeStep hresume)).1 hrow) hwd
      hincludes
    rcases answer_cases hregular.toSteady hstep with ⟨new, dir, -, hfresh⟩ | hshrinks
    · exact hfresh.pending_eq ▸ hevent
    · exact hshrinks.pending hevent
  | reporting hreporting hparent hincludes =>
    have hfits : StackFits s.watcher.place s.watcher.stack := hregular.ordered.control.fits
    obtain ⟨hnext, hsame⟩ := hreporting.resume hloading hfits hsettled hnewWd (resumeStep hresume)
      hruns
    exact .reporting hnext (hsame.trans hparent) hincludes

end DirWatcher.Watching
