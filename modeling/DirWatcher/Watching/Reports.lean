import DirWatcher.Watching.Coverage
import DirWatcher.Watching.Growing

/-!
The reports of new directories. When directories are only made, the event of a new
directory in a watched one leads to a report of the watched directory or of one above
it, unless the scan of a line of the config file has recorded the new one first.
-/

set_option autoImplicit false
set_option relaxedAutoImplicit false

namespace DirWatcher.Watching

open Source Environment Foundation.SeparatedPaths Foundation.Runs

variable {cfg : Config} {s after : System FileSystem} {w next : Watcher}

/-! ### Reports are only added -/

theorem reports_of_internal (hstep : InternalStep cfg w next) : w.reports <+: next.reports := by
  rw [reports_eq_of_internal hstep]
  exact List.prefix_append _ _

theorem reports_of_step {label : Label FsAct} (hstep : s.step cfg fileSystem label = some after) :
    s.watcher.reports <+: after.watcher.reports := by
  cases label with
  | act action => rw [(System.step_act hstep).2]
  | internal => exact reports_of_internal (internalStep (System.step_internal hstep).1)
  | answer answer =>
    obtain ⟨-, -, -, hresume⟩ := System.step_answer hstep
    rw [reports_of_resume (resumeStep hresume)]

/-! ### The paths that the calls of `add_watch` are about -/

/-- The path of the innermost call of `add_watch`, until it returns. -/
def workPath : Place → Option Bytes
  | .addWatch _ path => some path
  | .inotifyAddWatch _ path => some path
  | .opendir _ path => some path
  | .readdir _ path => some path
  | .subDirs _ path _ => some path
  | _ => none

/-- A call of `add_watch` that has not returned is about the path. -/
inductive Visited (w : Watcher) (path : Bytes) : Prop
  | place (hplace : workPath w.place = some path)
  | frame {wd : Wd} {names : List Bytes} (hframe : .subDirs wd path names ∈ w.stack)

/-- No call of `add_watch` comes from the config file. -/
def OffConfig (w : Watcher) : Prop := ∀ top, .topLevel top ∉ w.stack

/-- While an event is processed, its directory lies above the paths that `add_watch` is at
work on. -/
def Beneath (w : Watcher) : Prop :=
  OffConfig w → ∀ path, Visited w path →
    ∃ directory, w.parentDir = some directory ∧ AbovePath directory path

theorem beneath_of_idle (hplace : workPath w.place = none) (hstack : w.stack = []) : Beneath w := by
  intro _ path hvisited
  cases hvisited with
  | place hother => simp [hplace] at hother
  | frame hframe => simp [hstack] at hframe

/-- Nothing is visited that was not visited before or lies below what was. -/
theorem Beneath.stay (hbeneath : Beneath w) (hparent : next.parentDir = w.parentDir)
    (htops : OffConfig next → OffConfig w)
    (hvisited : ∀ path, Visited next path → Visited w path ∨
      ∃ directory name, Visited w directory ∧ path = joinPath directory name) : Beneath next := by
  intro hoff path hpath
  rw [hparent]
  rcases hvisited path hpath with hbefore | ⟨directory, name, hbefore, rfl⟩
  · exact hbeneath (htops hoff) path hbefore
  · obtain ⟨above, habove, hlies⟩ := hbeneath (htops hoff) directory hbefore
    exact ⟨above, habove, hlies.join⟩

/-- A step of the innermost call that stays on its path or leaves it. -/
theorem Beneath.move (hbeneath : Beneath w) {place : Place}
    (hplace : workPath place = none ∨ workPath place = workPath w.place) {table : Table}
    {cookie : UInt32} : Beneath { w with place, table, prevCookie := cookie } := by
  refine hbeneath.stay rfl id fun path hvisited ↦ Or.inl ?_
  cases hvisited with
  | place hpath =>
    change workPath place = some path at hpath
    rcases hplace with hnone | hsame
    · simp [hnone] at hpath
    · exact .place (hsame ▸ hpath)
  | frame hframe => exact .frame hframe

theorem Beneath.insert (hbeneath : Beneath w) {row : Row}
    (hplace : workPath w.place = some row.path) (hstep : InsertStep w row next) : Beneath next := by
  cases hstep with
  | clashes => exact hbeneath.move (Or.inl rfl)
  | inserts => exact hbeneath.move (Or.inr (hplace ▸ rfl))

theorem Beneath.dispatch {event : Event} (hstack : w.stack = [])
    (hparent : ∃ directory, w.parentDir = some directory)
    (hwhole : Arrival event → (eventPath w event).length ≤ maxPathLen)
    (hstays : ¬ Departure event) (hstep : DispatchStep event w next) : Beneath next := by
  cases hstep with
  | watches cookie frame hframe hlength =>
    have harrival : Arrival event := hframe.imp And.left And.left
    obtain ⟨directory, hparent⟩ := hparent
    intro _ path hvisited
    cases hvisited with
    | place hpath =>
      have hsame : eventPath w event = path := by
        rw [← take_eventPath (hwhole harrival) hlength]
        exact Option.some_inj.mp hpath
      rw [← hsame, eventPath, hparent]
      exact ⟨directory, rfl, above_join⟩
    | frame hother =>
      simp only [hstack, List.mem_singleton] at hother
      rcases hframe with ⟨-, rfl⟩ | ⟨-, rfl⟩ <;> cases hother
  | prunes _ hbranch hisdir => exact absurd ⟨hbranch, hisdir⟩ hstays
  | _ => exact beneath_of_idle rfl hstack

/-! ### The conditions -/

/-- Directories are only made, no watch is asked for twice, and the path of a new directory
is not cut off. -/
structure WholeGrowthStep (s : System FileSystem) (label : Label FsAct) : Prop where
  growth : GrowthStep s label
  whole : ∀ event ∈ takenEvent s.watcher label, Arrival event →
    (eventPath (s.watcher.findParent event) event).length ≤ maxPathLen

instance (s : System FileSystem) (label : Label FsAct) : Decidable (WholeGrowthStep s label) :=
  decidable_of_iff (GrowthStep s label ∧ ∀ event ∈ takenEvent s.watcher label, Arrival event →
      (eventPath (s.watcher.findParent event) event).length ≤ maxPathLen)
    ⟨fun ⟨hgrowth, hwhole⟩ ↦ ⟨hgrowth, hwhole⟩, fun ⟨hgrowth, hwhole⟩ ↦ ⟨hgrowth, hwhole⟩⟩

/-- The step does not insert a row with the path in the scan of a line of the config
file. -/
structure UnscannedStep (path : Bytes) (s : System FileSystem) (label : Label FsAct) : Prop where
  growth : WholeGrowthStep s label
  unscanned : Loading s.watcher → ∀ row ∈ insertedRow s.watcher label, row.path ≠ path

instance (path : Bytes) (s : System FileSystem) (label : Label FsAct) :
    Decidable (UnscannedStep path s label) :=
  decidable_of_iff (WholeGrowthStep s label ∧
      (Loading s.watcher → ∀ row ∈ insertedRow s.watcher label, row.path ≠ path))
    ⟨fun ⟨hgrowth, hunscanned⟩ ↦ ⟨hgrowth, hunscanned⟩,
      fun ⟨hgrowth, hunscanned⟩ ↦ ⟨hgrowth, hunscanned⟩⟩

theorem Beneath.internal (hbeneath : Beneath s.watcher) (hgrowing : Growing s)
    (hwhole : ∀ event ∈ takenEvent s.watcher (.internal : Label FsAct), Arrival event →
      (eventPath (s.watcher.findParent event) event).length ≤ maxPathLen)
    (hstep : InternalStep cfg s.watcher next) : Beneath next := by
  have hfits : StackFits s.watcher.place s.watcher.stack := hgrowing.steady.ordered.control.fits
  cases hstep with
  | readsLine => exact fun hoff ↦ absurd List.mem_cons_self (hoff _)
  | startsPolling hplace =>
    rcases hplace with ⟨hplace, -⟩ | ⟨hplace, -⟩ <;> rw [hplace] at hfits <;>
      exact beneath_of_idle rfl hfits
  | @takesEvent event rest _ hplace hbatch hdispatch =>
    rw [hplace] at hfits
    have hevent := Growing.event_mem hbatch
    obtain ⟨row, hrow, hwd, hpath, -⟩ := hgrowing.looked hevent
    rw [findParent_withBatch] at hdispatch
    refine Beneath.dispatch ?_ ?_ ?_ (hgrowing.stays event hevent) hdispatch
    · exact (findParent_stack _ _).trans hfits
    · exact ⟨row.path, hpath⟩
    · exact hwhole event (by simp [takenEvent, hplace, hbatch])
  | refuses => exact hbeneath.move (Or.inl rfl)
  | requests hplace => exact hbeneath.move (Or.inr (by rw [hplace]; rfl))
  | finishesPrune => exact hbeneath.move (Or.inl rfl)
  | insertsPruned hplace => exact absurd hplace (hgrowing.unpruned _ _)
  | finishesSubDirs => exact hbeneath.move (Or.inl rfl)
  | @descends wd path name rest hplace =>
    have hplaced : Visited s.watcher path := .place (by rw [hplace]; rfl)
    refine hbeneath.stay rfl (fun hoff top htop ↦ hoff top (List.mem_cons_of_mem _ htop))
      fun other hvisited ↦ ?_
    cases hvisited with
    | place hother => exact Or.inr ⟨path, name, hplaced, (Option.some_inj.mp hother).symm⟩
    | frame hframe =>
      rcases List.mem_cons.mp hframe with hfirst | hrest
      · cases hfirst
        exact Or.inl hplaced
      · exact Or.inl (.frame hrest)
  | overflows => exact hbeneath.move (Or.inl rfl)
  | @returns result frame rest hplace hstack =>
    rw [hplace, hstack] at hfits
    cases frame with
    | subDirs wd path names =>
      have hframed : Visited s.watcher path := .frame (hstack ▸ List.mem_cons_self)
      refine hbeneath.stay rfl (fun hoff top htop ↦ ?_) fun other hvisited ↦ Or.inl ?_
      · rw [hstack] at htop
        exact hoff top ((List.mem_cons.mp htop).resolve_left (by simp))
      · cases hvisited with
        | place hother => exact Option.some_inj.mp hother ▸ hframed
        | frame hframe => exact .frame (hstack ▸ List.mem_cons_of_mem _ hframe)
    | topLevel => exact beneath_of_idle rfl hfits
    | created => exact beneath_of_idle (by simp only [Watcher.returnTo]; split_ifs <;> rfl) hfits
    | movedTo => exact beneath_of_idle rfl hfits
  | reports hplace =>
    rw [hplace] at hfits
    rw [report_eq]
    exact beneath_of_idle rfl hfits

theorem Beneath.answer {answer : Answer} (hbeneath : Beneath s.watcher) (hgrowing : Growing s)
    (hnew : NewWatch s (.answer answer)) (hstep : ResumeStep s.watcher answer next) :
    Beneath next := by
  have hfits : StackFits s.watcher.place s.watcher.stack := hgrowing.steady.ordered.control.fits
  cases hstep with
  | reads events hplace =>
    rw [hplace] at hfits
    exact beneath_of_idle rfl hfits
  | reuses _ hexists =>
    obtain ⟨old, hold, hwd⟩ := wdDirectoryExists_iff.mp hexists
    exact absurd hwd (hnew old hold)
  | adds hplace _ hinsert => exact hbeneath.insert (by rw [hplace]; rfl) hinsert
  | opens hplace | opensNothing _ hplace | lists _ hplace =>
    exact hbeneath.move (Or.inr (by rw [hplace]; rfl))
  | _ => exact hbeneath.move (Or.inl rfl)

theorem Beneath.step (hbeneath : Beneath s.watcher) (hgrowing : Growing s) {label : Label FsAct}
    (hwhole : WholeGrowthStep s label) (hstep : s.step cfg fileSystem label = some after) :
    Beneath after.watcher := by
  cases label with
  | act action => exact (System.step_act hstep).2 ▸ hbeneath
  | internal =>
    exact hbeneath.internal hgrowing hwhole.whole (internalStep (System.step_internal hstep).1)
  | answer answer =>
    obtain ⟨-, -, -, hresume⟩ := System.step_answer hstep
    exact hbeneath.answer hgrowing hwhole.growth.2 (resumeStep hresume)

/-! ### What is owed to a new directory -/

/-- The outermost call of `add_watch` has set its watch, or the report is next. -/
inductive Committed (w : Watcher) : Prop
  | reports (hplace : w.place = .report)
  | opens {wd : Wd} {path : Bytes} (hplace : w.place = .opendir wd path)
  | reads {wd : Wd} {path : Bytes} (hplace : w.place = .readdir wd path)
  | loops {wd : Wd} {path : Bytes} {names : List Bytes} (hplace : w.place = .subDirs wd path names)
  | succeeds (hplace : w.place = .returned 0)
  | nested {wd : Wd} {path : Bytes} {names : List Bytes} {rest : List Frame}
      (hstack : w.stack = .subDirs wd path names :: rest)

/-- The path is that of the row or lies above it. -/
def AtOrAbove (directory : Bytes) (row : Row) : Prop :=
  directory = row.path ∨ AbovePath directory row.path

/-- The event of the directory with the name is still to come, or it is being processed, or
an event of the directory of the row or of one above it is, and will be reported. -/
inductive Owed (s : System FileSystem) (row : Row) (name : Bytes) : Prop
  | announced {event : Event} (hevent : event ∈ pending s.inotify)
      (harrives : Arrives row.wd name event)
      (hnone : ∀ old ∈ s.watcher.table, old.path ≠ joinPath row.path name)
  | asked {parentWd : Wd} {frame : Frame}
      (hplace : s.watcher.place = .addWatch parentWd (joinPath row.path name) ∨
        s.watcher.place = .inotifyAddWatch parentWd (joinPath row.path name))
      (hstack : s.watcher.stack = [frame]) (hframe : ∀ top, frame ≠ .topLevel top)
      (hparent : s.watcher.parentDir = some row.path)
      (hnone : ∀ old ∈ s.watcher.table, old.path ≠ joinPath row.path name)
  | committed {directory : Bytes} (hcommitted : Committed s.watcher) (hoff : OffConfig s.watcher)
      (hparent : s.watcher.parentDir = some directory) (habove : AtOrAbove directory row)

/-- Since then, the directory of the row or one above it has been reported. -/
def Reported (before : List Bytes) (row : Row) (w : Watcher) : Prop :=
  ∃ more, w.reports = before ++ more ∧ ∃ directory ∈ more, AtOrAbove directory row

variable {before : List Bytes} {row : Row} {entry : Entry}

theorem Reported.mono (hreported : Reported before row w) (hreports : w.reports <+: next.reports) :
    Reported before row next := by
  obtain ⟨more, hmore, directory, hdirectory, habove⟩ := hreported
  obtain ⟨later, hlater⟩ := hreports
  exact ⟨more ++ later, by rw [← hlater, hmore, List.append_assoc], directory,
    List.mem_append_left _ hdirectory, habove⟩

theorem reported_of_report {directory : Bytes} (hbefore : before <+: w.reports)
    (hparent : w.parentDir = some directory) (habove : AtOrAbove directory row) :
    Reported before row w.report := by
  obtain ⟨more, hmore⟩ := hbefore
  refine ⟨more ++ [directory], ?_, directory, by simp, habove⟩
  rw [report_eq, hparent, ← List.append_assoc, hmore, Option.toList_some]

/-! ### Steps -/

/-- The event is processed: its directory is asked for. -/
theorem asked_of_arrival {event : Event} {rest : List Event} {name : Bytes} (hgrowing : Growing s)
    (hplace : s.watcher.place = .nextEvent) (hbatch : s.watcher.batch = event :: rest)
    (hwhole : (eventPath (s.watcher.findParent event) event).length ≤ maxPathLen)
    (hrow : row ∈ s.watcher.table) (harrives : Arrives row.wd name event)
    (hnone : ∀ old ∈ s.watcher.table, old.path ≠ joinPath row.path name)
    (hdispatch : DispatchStep event ({ s.watcher with batch := rest }.findParent event) next)
    (hruns : ¬ Stopped next) : Owed { s with watcher := next } row name := by
  obtain ⟨harrival, hwd, rfl⟩ := harrives
  obtain ⟨other, hother, hotherWd, hpath, -⟩ := hgrowing.looked (Growing.event_mem hbatch)
  obtain rfl := hgrowing.steady.ordered.keys.keyed.eq_of_wd hother hrow (hotherWd.trans hwd)
  have hstack : s.watcher.stack = [] := by
    have hfits : StackFits s.watcher.place s.watcher.stack := hgrowing.steady.ordered.control.fits
    rwa [hplace] at hfits
  have hjoin : eventPath (s.watcher.findParent event) event = joinPath other.path event.name := by
    rw [eventPath, hpath]
    rfl
  rw [findParent_withBatch] at hdispatch
  obtain ⟨cookie, frame, hframe, rfl⟩ := asks_of_arrival harrival hdispatch hwhole hruns
  refine .asked (Or.inl (congrArg (Place.addWatch event.wd) hjoin))
    (congrArg _ ((findParent_stack _ _).trans hstack)) ?_ hpath ?_
  · rcases hframe with rfl | rfl <;> simp
  · change ∀ old ∈ (s.watcher.findParent event).table, _
    rwa [findParent_table]

/-- A committed watcher is in a call of `add_watch`, or about to report. -/
theorem Committed.not_idle (hcommitted : Committed w) (hfits : StackFits w.place w.stack) :
    w.place ∉ [.loadTopLevelPaths, .poll, .nextEvent] := by
  intro hplace
  simp only [List.mem_cons, List.not_mem_nil, or_false] at hplace
  rcases hplace with hplace | hplace | hplace
  all_goals
    rw [hplace] at hfits
    cases hcommitted with
    | nested hstack => simp [StackFits, hstack] at hfits
    | reports hother | opens hother | reads hother | loops hother | succeeds hother =>
      simp [hplace] at hother

/-- A committed watcher goes on to report the directory of the event. -/
theorem Committed.internal (hcommitted : Committed w) (hoff : OffConfig w)
    (hfits : StackFits w.place w.stack) (hunpruned : ∀ wds row, w.place ≠ .removePrunedWds wds row)
    (hstep : InternalStep cfg w next) (hruns : ¬ Stopped next) :
    w.place = .report ∧ next = w.report ∨
      Committed next ∧ OffConfig next ∧ next.parentDir = w.parentDir := by
  have hidle := hcommitted.not_idle hfits
  cases hstep with
  | readsLine hplace => simp [hplace] at hidle
  | startsPolling hplace => rcases hplace with ⟨hplace, -⟩ | ⟨hplace, -⟩ <;> simp [hplace] at hidle
  | takesEvent hplace => simp [hplace] at hidle
  | refuses hplace | requests hplace =>
    cases hcommitted with
    | nested hstack => exact Or.inr ⟨.nested hstack, hoff, rfl⟩
    | reports hother | opens hother | reads hother | loops hother | succeeds hother =>
      simp [hplace] at hother
  | finishesPrune hplace => exact absurd hplace (hunpruned _ _)
  | insertsPruned hplace => exact absurd hplace (hunpruned _ _)
  | finishesSubDirs => exact Or.inr ⟨.succeeds rfl, hoff, rfl⟩
  | descends =>
    refine Or.inr ⟨.nested rfl, fun top htop ↦ hoff top ?_, rfl⟩
    exact (List.mem_cons.mp htop).resolve_left (by simp)
  | overflows => exact absurd ⟨_, rfl⟩ hruns
  | @returns result frame rest hplace hstack =>
    have hrest : OffConfig ({ w with stack := rest }.returnTo result frame) := by
      intro top htop
      refine hoff top (hstack ▸ List.mem_cons_of_mem _ ?_)
      cases frame <;> exact htop
    cases frame with
    | subDirs => exact Or.inr ⟨.loops rfl, hrest, rfl⟩
    | topLevel top => exact absurd (hstack ▸ List.mem_cons_self) (hoff top)
    | movedTo => exact Or.inr ⟨.reports rfl, hrest, rfl⟩
    | created =>
      have hzero : result = 0 := by
        cases hcommitted with
        | succeeds hother => simpa [hplace] using hother
        | nested hother => simp [hstack] at hother
        | reports hother | opens hother | reads hother | loops hother => simp [hplace] at hother
      exact Or.inr ⟨.reports (by simp [Watcher.returnTo, hzero]), hrest, rfl⟩
  | reports hplace => exact Or.inl ⟨hplace, rfl⟩

theorem Committed.resume {answer : Answer} (hcommitted : Committed w) (hoff : OffConfig w)
    (hfits : StackFits w.place w.stack)
    (hnew : ∀ wd, answer = .watch wd → ∀ row ∈ w.table, row.wd ≠ wd)
    (hunpruned : ∀ wds row, w.place ≠ .removePrunedWds wds row) (hstep : ResumeStep w answer next)
    (hruns : ¬ Stopped next) :
    Committed next ∧ OffConfig next ∧ next.parentDir = w.parentDir := by
  cases hstep with
  | reads _ hplace => exact absurd (by simp [hplace]) (hcommitted.not_idle hfits)
  | exits => exact absurd ⟨_, rfl⟩ hruns
  | reuses _ hexists =>
    obtain ⟨old, hold, hwd⟩ := wdDirectoryExists_iff.mp hexists
    exact absurd hwd (hnew _ rfl old hold)
  | adds _ _ hinsert =>
    cases hinsert with
    | clashes => exact absurd ⟨_, rfl⟩ hruns
    | inserts => exact ⟨.opens rfl, hoff, rfl⟩
  | missed _ hplace =>
    cases hcommitted with
    | nested hstack => exact ⟨.nested hstack, hoff, rfl⟩
    | reports hother | opens hother | reads hother | loops hother | succeeds hother =>
      simp [hplace] at hother
  | removes _ hplace => exact absurd hplace (hunpruned _ _)
  | opens => exact ⟨.reads rfl, hoff, rfl⟩
  | opensNothing => exact ⟨.loops rfl, hoff, rfl⟩
  | lists => exact ⟨.loops rfl, hoff, rfl⟩

/-! ### The whole state -/

/-- What holds from the time a directory has been made on. -/
structure Chased (cfg : Config) (before : List Bytes) (row : Row) (entry : Entry)
    (s : System FileSystem) : Prop where
  growing : Growing s
  beneath : Beneath s.watcher
  mem : row ∈ s.watcher.table
  wanted : Wanted cfg s row entry
  reports : before <+: s.watcher.reports
  owed : Stopped s.watcher ∨ Reported before row s.watcher ∨ Owed s row entry.name

theorem Wanted.grows (hwanted : Wanted cfg s row entry)
    (hgrows : s.kernel.tree.Grows after.kernel.tree)
    (hwatches : s.kernel.watches ⊆ after.kernel.watches) : Wanted cfg after row entry where
  mem := hgrows.entries hwanted.mem
  watch := hwatches hwanted.watch
  readable := by
    rw [hgrows.unreadable _ (s.kernel.tree.made entry hwanted.mem).2.1]
    exact hwanted.readable
  path := hwanted.path

theorem Owed.act {kernel : FileSystem} {news : List Event} {name : Bytes} (howed : Owed s row name)
    (hcreates : Creates s.kernel news kernel) : Owed { s with kernel } row name := by
  cases howed with
  | @announced event hevent harrives hnone =>
    refine Owed.announced (?_ : event ∈ s.watcher.batch ++ kernel.queue) harrives hnone
    rw [hcreates.queue, ← List.append_assoc]
    exact List.mem_append_left _ hevent
  | asked hplace hstack hframe hparent hnone => exact .asked hplace hstack hframe hparent hnone
  | committed hcommitted hoff hparent habove => exact .committed hcommitted hoff hparent habove

theorem Owed.internal (howed : Owed s row entry.name) (hgrowing : Growing s)
    (hrow : row ∈ s.watcher.table) (hwanted : Wanted cfg s row entry)
    (hbefore : before <+: s.watcher.reports)
    (hwhole : ∀ event ∈ takenEvent s.watcher (.internal : Label FsAct), Arrival event →
      (eventPath (s.watcher.findParent event) event).length ≤ maxPathLen)
    (hstep : InternalStep cfg s.watcher next) (htable : next.table = s.watcher.table)
    (hruns : ¬ Stopped next) :
    Reported before row next ∨ Owed { s with watcher := next } row entry.name := by
  have hfits : StackFits s.watcher.place s.watcher.stack := hgrowing.steady.ordered.control.fits
  cases howed with
  | @announced event hevent harrives hnone =>
    have hstill : ∀ old ∈ next.table, old.path ≠ joinPath row.path entry.name := htable ▸ hnone
    rcases batch_or_dispatch_of_internal hstep with ⟨hbatch, -⟩ |
      ⟨first, rest, hplace, hbatch, hdispatch⟩
    · refine Or.inr (Owed.announced (?_ : event ∈ next.batch ++ s.kernel.queue) harrives hstill)
      rw [hbatch]
      exact hevent
    · change event ∈ s.watcher.batch ++ s.kernel.queue at hevent
      rw [hbatch, List.cons_append] at hevent
      rcases List.mem_cons.mp hevent with rfl | hrest
      · exact Or.inr (asked_of_arrival hgrowing hplace hbatch
          (hwhole event (by simp [takenEvent, hplace, hbatch]) harrives.1) hrow harrives hnone
          hdispatch hruns)
      · refine Or.inr (Owed.announced (?_ : event ∈ next.batch ++ s.kernel.queue) harrives hstill)
        rwa [batch_of_dispatch hdispatch, findParent_batch]
  | @asked parentWd frame hplace hstack hframe hparent hnone =>
    rcases requests_of_asked hplace hwanted.path hstep with
      ⟨⟨child, hchild, hpath⟩, -⟩ | rfl
    · exact absurd hpath (hnone child hchild)
    · exact Or.inr (.asked (Or.inr rfl) hstack hframe hparent hnone)
  | committed hcommitted hoff hparent habove =>
    rcases hcommitted.internal hoff hfits hgrowing.unpruned hstep hruns with
      ⟨-, rfl⟩ | ⟨hnext, hnextOff, hsame⟩
    · exact Or.inl (reported_of_report hbefore hparent habove)
    · exact Or.inr (.committed hnext hnextOff (hsame.trans hparent) habove)

theorem insertedRow_of_fresh {new : Row} {dir : Dir} (hsteady : Steady s.inotify)
    (hfresh : FreshWatch s new dir after) :
    insertedRow s.watcher (.answer (.watch new.wd) : Label FsAct) = some new := by
  have hexists : ¬ wdDirectoryExists s.watcher.table new.wd = true := by
    rw [wdDirectoryExists_iff]
    rintro ⟨old, hold, hwd⟩
    exact (hfresh.free hsteady old hold).1 hwd
  simp [insertedRow, hfresh.place, hexists]

/-- A row with the path is inserted while an event of a directory at or above that of the
row is processed. -/
theorem owed_of_insert {new : Row} {directory : Bytes} {name : Bytes} (hoff : OffConfig s.watcher)
    (hparent : s.watcher.parentDir = some directory) (habove : AtOrAbove directory row)
    (hinsert : InsertStep s.watcher new after.watcher) (hruns : ¬ Stopped after.watcher) :
    Owed after row name := by
  obtain ⟨watcher, kernel⟩ := after
  cases hinsert with
  | clashes => exact absurd ⟨_, rfl⟩ hruns
  | inserts => exact .committed (.opens rfl) hoff hparent habove

theorem Owed.fresh {new : Row} {dir : Dir} (hgrowing : Growing s) (hbeneath : Beneath s.watcher)
    (hname : slash ∉ entry.name) {event : Event} (hevent : event ∈ pending s.inotify)
    (harrives : Arrives row.wd entry.name event)
    (hnone : ∀ old ∈ s.watcher.table, old.path ≠ joinPath row.path entry.name)
    (hunscanned : Loading s.watcher → new.path ≠ joinPath row.path entry.name)
    (hfresh : FreshWatch s new dir after) (hruns : ¬ Stopped after.watcher) :
    Owed after row entry.name := by
  by_cases hsame : new.path = joinPath row.path entry.name
  · have hoff : OffConfig s.watcher := fun top htop ↦
      absurd hsame (hunscanned (Or.inr ⟨top, htop⟩))
    obtain ⟨directory, hparent, habove⟩ :=
      hbeneath hoff new.path (.place (by rw [hfresh.place]; rfl))
    rw [hsame] at habove
    refine owed_of_insert hoff hparent ?_ hfresh.insert hruns
    exact (eq_or_above_of_above_join hname habove).imp Eq.symm id
  · refine .announced (hfresh.pending_eq ▸ hevent) harrives fun old hold ↦ ?_
    rw [table_of_insert (hfresh.free hgrowing.steady) hfresh.insert] at hold
    rcases List.mem_append.mp hold with hbefore | hlast
    · exact hnone old hbefore
    · rwa [List.mem_singleton.mp hlast]

theorem Owed.answer {answer : Answer} (howed : Owed s row entry.name) (hgrowing : Growing s)
    (hbeneath : Beneath s.watcher) (hrow : row ∈ s.watcher.table) (hwanted : Wanted cfg s row entry)
    (hnew : NewWatch s (.answer answer))
    (hunscanned : Loading s.watcher → ∀ new ∈ insertedRow s.watcher (.answer answer : Label FsAct),
      new.path ≠ joinPath row.path entry.name)
    (hstep : s.step cfg fileSystem (.answer answer) = some after)
    (hruns : ¬ Stopped after.watcher) : Owed after row entry.name := by
  have hfits : StackFits s.watcher.place s.watcher.stack := hgrowing.steady.ordered.control.fits
  have hnewWd : ∀ wd, answer = .watch wd → ∀ row ∈ s.watcher.table, row.wd ≠ wd := by
    rintro wd rfl
    exact hnew
  obtain ⟨call, hcall, hserve, hresume⟩ := System.step_answer hstep
  cases howed with
  | announced hevent harrives hnone =>
    rcases answer_cases hgrowing.steady hstep with ⟨new, dir, rfl, hfresh⟩ | hshrinks
    · refine Owed.fresh hgrowing hbeneath (s.kernel.tree.names entry hwanted.mem).slash hevent
        harrives hnone (fun hloading ↦ ?_) hfresh hruns
      exact hunscanned hloading new (insertedRow_of_fresh hgrowing.steady hfresh)
    · exact .announced (hshrinks.pending hevent) harrives fun old hold ↦ hnone old
        (hshrinks.table hold)
  | @asked parentWd frame hplace hstack hframe hparent hnone =>
    have hoff : OffConfig s.watcher := by
      intro top htop
      rw [hstack, List.mem_singleton] at htop
      exact hframe top htop.symm
    obtain ⟨wd, hinsert⟩ := inserts_of_asked (hgrowing.accurate row hrow) hwanted hplace hnew hcall
      hserve (resumeStep hresume) hruns
    exact owed_of_insert hoff hparent (Or.inl rfl) hinsert hruns
  | committed hcommitted hoff hparent habove =>
    obtain ⟨hnext, hnextOff, hsame⟩ :=
      hcommitted.resume hoff hfits hnewWd hgrowing.unpruned (resumeStep hresume) hruns
    exact .committed hnext hnextOff (hsame.trans hparent) habove

theorem Chased.step {before : List Bytes} (hchased : Chased cfg before row entry s)
    {label : Label FsAct} (hcondition : UnscannedStep (joinPath row.path entry.name) s label)
    (hstep : s.step cfg fileSystem label = some after) : Chased cfg before row entry after := by
  obtain ⟨hgrowing, hbeneath, hrow, hwanted, hreports, howed⟩ := hchased
  obtain ⟨hwhole, hunscanned⟩ := hcondition
  obtain ⟨hafter, htable⟩ := hgrowing.step hwhole.growth hstep
  have hlater := reports_of_step hstep
  refine ⟨hafter, hbeneath.step hgrowing hwhole hstep, htable hrow,
    hwanted.grows (grows_of_step hgrowing.steady hwhole.growth.1 hstep)
      (watches_of_growth hgrowing hwhole.growth hstep),
    hreports.trans hlater, or_iff_not_imp_left.mpr fun hruns ↦ ?_⟩
  cases label with
  | act action =>
    obtain ⟨kernel, hact, rfl⟩ := System.exists_kernel hstep
    obtain ⟨news, hcreates⟩ := FileSystem.exists_creates hwhole.growth.1 hact
    exact (howed.resolve_left hruns).imp id fun howed ↦ howed.act hcreates
  | internal =>
    obtain ⟨watcher, hinternal, rfl⟩ := System.exists_watcher hstep
    rcases howed.resolve_left (not_stopped_of_internal hinternal) with hreported | howed
    · exact Or.inl (hreported.mono hlater)
    · exact howed.internal hgrowing hrow hwanted hreports hwhole.whole (internalStep hinternal)
        (hgrowing.internal hafter.steady (internalStep hinternal)).2 hruns
  | answer answer =>
    obtain ⟨call, hcall, -, -⟩ := System.step_answer hstep
    rcases howed.resolve_left (not_stopped_of_call hcall) with hreported | howed
    · exact Or.inl (hreported.mono hlater)
    · exact Or.inr (howed.answer hgrowing hbeneath hrow hwanted hwhole.growth.2 hunscanned hstep
        hruns)

/-! ### Runs -/

theorem beneath_of_reachesWhen {tree : DirTree}
    (hreaches : ReachesWhen (System.step cfg fileSystem) WholeGrowthStep
      (System.start cfg (.start tree)) s) : Growing s ∧ Beneath s.watcher := by
  refine hreaches.invariant (fun s ↦ Growing s ∧ Beneath s.watcher)
    ⟨growing_start cfg tree, beneath_of_idle rfl rfl⟩ ?_
  rintro s label next ⟨hgrowing, hbeneath⟩ hwhole hstep
  exact ⟨(hgrowing.step hwhole.growth hstep).1, hbeneath.step hgrowing hwhole hstep⟩

/-- Nothing is recorded where a new directory is made. -/
theorem Growing.unrecorded (hgrowing : Growing s) (hrow : row ∈ s.watcher.table) {parent : Dir}
    {name : Bytes} (hwatch : ⟨row.wd, parent⟩ ∈ s.kernel.watches) (hname : ValidName name)
    (hfree : s.kernel.tree.child parent name = none) :
    ∀ old ∈ s.watcher.table, old.path ≠ joinPath row.path name := by
  intro old hold hpath
  have hparent := (hgrowing.accurate row hrow).resolve_eq hwatch
  have hne : row.path ≠ [] := by
    intro hnil
    simp [hnil, DirTree.resolve] at hparent
  obtain ⟨dir, -, hresolve⟩ := hgrowing.accurate old hold
  rw [hpath, DirTree.resolve_joinPath hne hname, hparent, Option.bind_some, hfree] at hresolve
  cases hresolve

theorem Chased.start (hgrowing : Growing s) (hbeneath : Beneath s.watcher)
    (hrow : row ∈ s.watcher.table) {parent : Dir} {name : Bytes} {readable : Bool}
    (hwatch : ⟨row.wd, parent⟩ ∈ s.kernel.watches)
    (hmkdir : s.step cfg fileSystem (.act (.mkdir readable parent name)) = some after)
    (hreadable : s.kernel.tree.next ∉ after.kernel.tree.unreadable)
    (hpath : refusesPath cfg (joinPath row.path name) = false) :
    Chased cfg after.watcher.reports row ⟨parent, name, s.kernel.tree.next⟩ after := by
  have hgrowth : GrowthStep s (.act (.mkdir readable parent name)) := ⟨trivial, trivial⟩
  obtain ⟨hafter, htable⟩ := hgrowing.step hgrowth hmkdir
  obtain ⟨hact, hwatcher⟩ := System.step_act hmkdir
  obtain ⟨hcreates, hentry, hfree, -⟩ := FileSystem.creates_mkdir hact
  have hunrecorded := hgrowing.unrecorded hrow hwatch (after.kernel.tree.names _ hentry) hfree
  refine ⟨hafter, hwatcher ▸ hbeneath, htable hrow, ⟨hentry, hcreates.watches ▸ hwatch, hreadable,
    hpath⟩, List.prefix_refl _, Or.inr (Or.inr ?_)⟩
  refine Owed.announced (?_ : ⟨row.wd, createDirMask, 0, name⟩ ∈ _)
    ⟨arrival_createDir, rfl, rfl⟩ (hwatcher ▸ hunrecorded)
  change _ ∈ after.watcher.batch ++ after.kernel.queue
  rw [hcreates.queue]
  refine List.mem_append_right _ (List.mem_append_right _ ?_)
  exact FileSystem.mem_notices.mpr ⟨row.wd, hwatch, rfl⟩

/-- When directories are only made, a readable directory that is not refused for its path
and is made in a watched one is followed by a report of that one or of one above it, unless
the scan of a line of the config file records it after it has been made. -/
theorem creations_reported (cfg : Config) (tree : DirTree) {s made : System FileSystem} {wd : Wd}
    {parent : Dir} {name : Bytes} {readable : Bool}
    (hreaches : ReachesWhen (System.step cfg fileSystem) WholeGrowthStep
      (System.start cfg (.start tree)) s)
    (hwatch : ⟨wd, parent⟩ ∈ s.kernel.watches)
    (hmkdir : s.step cfg fileSystem (.act (.mkdir readable parent name)) = some made)
    (hreadable : s.kernel.tree.next ∉ made.kernel.tree.unreadable) :
    ∃ row ∈ s.watcher.table, row.wd = wd ∧ s.kernel.tree.resolve row.path = some parent ∧
      (refusesPath cfg (joinPath row.path name) = false →
        ∀ later, ReachesWhen (System.step cfg fileSystem) (UnscannedStep (joinPath row.path name))
            made later →
          later.watcher.place = .poll → later.kernel.queue = [] →
          ∃ more, later.watcher.reports = made.watcher.reports ++ more ∧
            ∃ directory ∈ more, directory = row.path ∨ AbovePath directory row.path) := by
  obtain ⟨hgrowing, hbeneath⟩ := beneath_of_reachesWhen hreaches
  obtain ⟨row, hrow, rfl⟩ := hgrowing.recorded wd (s.kernel.known _ hwatch).1
  refine ⟨row, hrow, rfl, (hgrowing.accurate row hrow).resolve_eq hwatch,
    fun hpath later hlater hplace hqueue ↦ ?_⟩
  have hstart := Chased.start hgrowing hbeneath hrow hwatch hmkdir hreadable hpath
  have hchased := hlater.invariant _ hstart fun _ _ _ hchased hcondition hstep ↦
    hchased.step hcondition hstep
  have hcontrol := hchased.growing.steady.ordered.control
  rcases hchased.owed with ⟨stop, hstop⟩ | hreported | howed
  · simp [hplace] at hstop
  · exact hreported
  · cases howed with
    | announced hevent =>
      change _ ∈ later.watcher.batch ++ later.kernel.queue at hevent
      rw [show later.watcher.batch = [] from hcontrol.idle (Or.inl hplace), hqueue] at hevent
      cases hevent
    | asked hother => simp [hplace] at hother
    | committed hcommitted => exact absurd (by simp [hplace]) (hcommitted.not_idle hcontrol.fits)

/-- `/t/a` is made when the start-up scan is over. -/
theorem creations_reported_later :
    ∃ s made later : System FileSystem, s.watcher.table = [⟨1, 0, literal "/t"⟩] ∧
      ReachesWhen (System.step ⟨[literal "/t"], [], by decide⟩ fileSystem)
        (UnscannedStep (literal "/t/a")) made later ∧
      s.step ⟨[literal "/t"], [], by decide⟩ fileSystem (.act (.mkdir true 1 (literal "a"))) =
        some made ∧
      later.watcher.place = .poll ∧ later.kernel.queue = [] ∧
      ∃ more, later.watcher.reports = made.watcher.reports ++ more ∧
        ∃ directory ∈ more, directory = literal "/t" ∨ AbovePath directory (literal "/t") := by
  have hrun : ((runChecked (System.step ⟨[literal "/t"], [], by decide⟩ fileSystem)
      (fun s label ↦ decide (WholeGrowthStep s label))
      (System.start ⟨[literal "/t"], [], by decide⟩ (.start DirTree.oneDir))
      [.internal, .internal, .answer (.watch 1), .answer .done, .answer (.names []), .internal,
        .internal, .internal]).bind
      fun s ↦ (s.step ⟨[literal "/t"], [], by decide⟩ fileSystem
        (.act (.mkdir true 1 (literal "a")))).bind
      fun made ↦ (runChecked (System.step ⟨[literal "/t"], [], by decide⟩ fileSystem)
        (fun s label ↦ decide (UnscannedStep (literal "/t/a") s label)) made
        [.answer (.events [⟨1, createDirMask, 0, literal "a"⟩]), .internal, .internal,
          .answer (.watch 2), .answer .done, .answer (.names []), .internal, .internal, .internal,
          .internal]).map
      fun later ↦ (decide (⟨1, 1⟩ ∈ s.kernel.watches ∧ s.kernel.tree.next = 2 ∧
        made.kernel.tree.unreadable = [] ∧ later.watcher.place = .poll ∧ later.kernel.queue = []),
        s.watcher.table)) = some (true, [⟨1, 0, literal "/t"⟩]) := by decide
  obtain ⟨s, made, later, hreaches, hmkdir, hlater, hseen⟩ := exists_reachesWhen_around hrun
  simp only [Prod.mk.injEq, decide_eq_true_eq] at hseen
  obtain ⟨⟨hwatch, hnext, hreadable, hplace, hqueue⟩, htable⟩ := hseen
  obtain ⟨row, hrow, -, -, hreported⟩ :=
    creations_reported _ _ hreaches hwatch hmkdir (by simp [hreadable])
  rw [htable, List.mem_singleton] at hrow
  obtain rfl := hrow
  exact ⟨s, made, later, htable, hlater, hmkdir, hplace, hqueue,
    hreported (by decide) later hlater hplace hqueue⟩

/-- `/t/a` is made after the watch on `/t` has been set and before `/t` is listed. The scan
records it, and the event is not followed by a report. -/
theorem creations_reported_fails :
    ∃ s made later : System FileSystem, ReachesWhen
      (System.step ⟨[literal "/t"], [], by decide⟩ fileSystem)
        (fun _ label ↦ Creation label)
        (System.start ⟨[literal "/t"], [], by decide⟩ (.start DirTree.oneDir)) s ∧
      ⟨1, 1⟩ ∈ s.kernel.watches ∧ s.kernel.tree.resolve (literal "/t") = some 1 ∧
      s.step ⟨[literal "/t"], [], by decide⟩ fileSystem (.act (.mkdir true 1 (literal "a"))) =
        some made ∧
      s.kernel.tree.next ∉ made.kernel.tree.unreadable ∧
      refusesPath ⟨[literal "/t"], [], by decide⟩ (literal "/t/a") = false ∧
      ReachesWhen (System.step ⟨[literal "/t"], [], by decide⟩ fileSystem)
        (fun _ label ↦ Creation label) made later ∧
      AtRest later ∧ later.watcher.reports = made.watcher.reports := by
  have hrun : ((runChecked (System.step ⟨[literal "/t"], [], by decide⟩ fileSystem)
      (fun _ label ↦ decide (Creation label))
      (System.start ⟨[literal "/t"], [], by decide⟩ (.start DirTree.oneDir))
      [.internal, .internal, .answer (.watch 1)]).bind
      fun s ↦ (s.step ⟨[literal "/t"], [], by decide⟩ fileSystem
        (.act (.mkdir true 1 (literal "a")))).bind
      fun made ↦ (runChecked (System.step ⟨[literal "/t"], [], by decide⟩ fileSystem)
        (fun _ label ↦ decide (Creation label)) made
        [.answer .done, .answer (.names [literal "a"]), .internal, .internal, .answer (.watch 2),
          .answer .done, .answer (.names []), .internal, .internal, .internal, .internal, .internal,
          .answer (.events [⟨1, createDirMask, 0, literal "a"⟩]), .internal, .internal, .internal,
          .internal]).map
      fun later ↦ decide (⟨1, 1⟩ ∈ s.kernel.watches ∧
        s.kernel.tree.resolve (literal "/t") = some 1 ∧
        s.kernel.tree.next ∉ made.kernel.tree.unreadable ∧ AtRest later ∧
        later.watcher.reports = made.watcher.reports)) = some true := by decide
  obtain ⟨s, made, later, hreaches, hmkdir, hlater, hseen⟩ := exists_reachesWhen_around hrun
  obtain ⟨hwatch, hresolve, hreadable, hrest, hreports⟩ := of_decide_eq_true hseen
  exact ⟨s, made, later, hreaches, hwatch, hresolve, hmkdir, hreadable, by decide, hlater, hrest,
    hreports⟩

end DirWatcher.Watching
