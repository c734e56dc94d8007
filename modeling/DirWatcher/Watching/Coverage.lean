import DirWatcher.Watching.Accuracy
import DirWatcher.Watching.Places

/-!
No directory is lost. Each readable directory in a watched one has a row, or an event
is pending that it has come there, or the watcher has found it and is on its way to
watch it. When nothing is pending and the watcher waits for events, it has a row.
-/

set_option autoImplicit false
set_option relaxedAutoImplicit false

namespace DirWatcher.Watching

open Source Environment Foundation.SeparatedPaths Foundation.Runs

/-! ### Directories that the watcher has found -/

/-- The watcher is on its way to ask for a watch on a name in the directory of the row. -/
inductive Underway (s : System FileSystem) (row : Row) (name : Bytes) : Prop
  | asked {parentWd : Wd}
      (hplace : s.watcher.place = .addWatch parentWd (joinPath row.path name) ∨
        s.watcher.place = .inotifyAddWatch parentWd (joinPath row.path name))
  | opens (hplace : s.watcher.place = .opendir row.wd row.path)
  | reads {scan : Scan} (hplace : s.watcher.place = .readdir row.wd row.path)
      (hscan : s.kernel.scan = some scan) (hwatch : ⟨row.wd, scan.dir⟩ ∈ s.kernel.watches)
      (hmust : name ∈ scan.must)
  | loops {names : List Bytes} (hplace : s.watcher.place = .subDirs row.wd row.path names)
      (hname : name ∈ names)
  | waits {names : List Bytes} (hframe : .subDirs row.wd row.path names ∈ s.watcher.stack)
      (hname : name ∈ names)

inductive Covered (s : System FileSystem) (row : Row) (name : Bytes) : Prop
  | announced {event : Event} (hevent : event ∈ pending s.inotify)
      (harrives : Arrives row.wd name event)
  | recorded {child : Row} (hchild : child ∈ s.watcher.table)
      (hpath : child.path = joinPath row.path name)
  | underway (hunderway : Underway s row name)

/-- The name has a row, or the watcher is on its way to ask for a watch on it. -/
def Caught (s : System FileSystem) (row : Row) (name : Bytes) : Prop :=
  (∃ child ∈ s.watcher.table, child.path = joinPath row.path name) ∨ Underway s row name

theorem Caught.covered {s : System FileSystem} {row : Row} {name : Bytes}
    (hcaught : Caught s row name) : Covered s row name := by
  rcases hcaught with ⟨child, hchild, hpath⟩ | hunderway
  · exact .recorded hchild hpath
  · exact .underway hunderway

/-- The entry is for a directory in that of the row which the watcher is to watch. -/
structure Wanted (cfg : Config) (s : System FileSystem) (row : Row) (entry : Entry) : Prop where
  mem : entry ∈ s.kernel.tree.entries
  watch : ⟨row.wd, entry.parent⟩ ∈ s.kernel.watches
  readable : entry.dir ∉ s.kernel.tree.unreadable
  path : refusesPath cfg (joinPath row.path entry.name) = false

def Found (cfg : Config) (s : System FileSystem) : Prop :=
  ∀ row, Sound s row → ∀ entry, Wanted cfg s row entry → Covered s row entry.name

variable {cfg : Config} {s after : System FileSystem} {row : Row} {entry : Entry}

theorem Found.act {kernel : FileSystem} {news : List Event} (hfound : Found cfg s)
    (hchanges : Changes s.kernel news kernel) : Found cfg { s with kernel } := by
  intro row hsound entry hwanted
  have hpending := pending_of_queue hchanges.queue
  have hwatch : ⟨row.wd, entry.parent⟩ ∈ s.kernel.watches := hchanges.watches hwanted.watch
  rcases hchanges.arrived entry hwanted.mem with hold | hnew
  · have hmade := (s.kernel.tree.made entry hold).2.1
    have hbefore : Wanted cfg s row entry := ⟨hold, hwatch,
      fun hunreadable ↦ hwanted.readable ((hchanges.unreadable _ hmade).mpr hunreadable),
        hwanted.path⟩
    have hcovered := hfound row (hsound.back (decays_of_changes hchanges) hsound.mem) entry hbefore
    cases hcovered with
    | announced hevent harrives =>
      exact .announced (hpending ▸ List.mem_append_left _ hevent) harrives
    | recorded hchild hpath => exact .recorded hchild hpath
    | underway hunderway =>
      refine .underway ?_
      cases hunderway with
      | asked hplace => exact .asked hplace
      | opens hplace => exact .opens hplace
      | reads hplace hscan hscanWatch hmust =>
        obtain ⟨later, hlater, hdir, hleft⟩ := hchanges.scan _ hscan
        have hsame := FileSystem.dir_eq_of_wd hwatch hscanWatch
        refine .reads hplace hlater ?_ (hleft entry hwanted.mem hold hsame hmust)
        rw [hdir, ← hsame]
        exact hwanted.watch
      | loops hplace hname => exact .loops hplace hname
      | waits hframe hname => exact .waits hframe hname
  · obtain ⟨event, hevent, harrives⟩ := hnew row.wd hwatch
    exact .announced (hpending ▸ List.mem_append_right _ hevent) harrives

/-! ### Paths that have been asked for -/

/-- What is in the way of the system call is only a row that the path has already. -/
theorem requests_of_asked {parentWd : Wd} {path : Bytes} {watcher : Watcher}
    (hplace : s.watcher.place = .addWatch parentWd path ∨
      s.watcher.place = .inotifyAddWatch parentWd path)
    (hallowed : refusesPath cfg path = false) (hstep : InternalStep cfg s.watcher watcher) :
    (∃ child ∈ s.watcher.table, child.path = path) ∧
        watcher = { s.watcher with place := .returned (-1) } ∨
      watcher = { s.watcher with place := .inotifyAddWatch parentWd path } := by
  have hcall := call_of_internal hstep
  replace hplace : s.watcher.place = .addWatch parentWd path := by
    refine hplace.resolve_right fun hplace ↦ ?_
    simp [Watcher.call, hplace] at hcall
  cases hstep with
  | refuses hother hrefused =>
    rw [hplace, Place.addWatch.injEq] at hother
    obtain ⟨rfl, rfl⟩ := hother
    have hfind := hrefused.resolve_left (by simp [hallowed])
    obtain ⟨child, hchild, hpath, -⟩ := exists_of_findDirectoryWd_ne hfind
    exact Or.inl ⟨⟨child, hchild, hpath⟩, rfl⟩
  | requests hother =>
    rw [hplace, Place.addWatch.injEq] at hother
    obtain ⟨rfl, rfl⟩ := hother
    exact Or.inr rfl
  | startsPolling hother =>
    rcases hother with ⟨hother, -⟩ | ⟨hother, -⟩ <;> simp [hother] at hplace
  | readsLine hother | takesEvent hother | insertsPruned hother | finishesPrune hother
  | finishesSubDirs hother | descends hother | overflows hother | returns hother
  | reports hother => simp [hother] at hplace

/-- The watch that has been asked for is set: the directory is there and readable. -/
theorem inserts_of_asked {parentWd : Wd} {call : Call} {answer : Answer} {kernel : FileSystem}
    {watcher : Watcher} (haccurate : Accurate s row) (hwanted : Wanted cfg s row entry)
    (hplace : s.watcher.place = .addWatch parentWd (joinPath row.path entry.name) ∨
      s.watcher.place = .inotifyAddWatch parentWd (joinPath row.path entry.name))
    (hnew : NewWatch s (.answer answer)) (hcall : s.watcher.call = some call)
    (hserve : fileSystem.serve s.kernel call answer = some kernel)
    (hstep : ResumeStep s.watcher answer watcher) (hruns : ¬ Stopped watcher) :
    ∃ wd, InsertStep s.watcher ⟨wd, parentWd, joinPath row.path entry.name⟩ watcher := by
  replace hplace :
      s.watcher.place = .inotifyAddWatch parentWd (joinPath row.path entry.name) := by
    refine hplace.resolve_left fun hplace ↦ ?_
    simp [Watcher.call, hplace] at hcall
  obtain rfl := call_eq_inotifyAddWatch hplace hcall
  cases hstep with
  | exits => exact absurd ⟨_, rfl⟩ hruns
  | reuses _ hexists =>
    obtain ⟨old, hold, hwd⟩ := wdDirectoryExists_iff.mp hexists
    exact absurd hwd (hnew old hold)
  | adds hother _ hinsert =>
    rw [hplace, Place.inotifyAddWatch.injEq] at hother
    obtain ⟨rfl, rfl⟩ := hother
    exact ⟨_, hinsert⟩
  | missed errno hother herrno =>
    have hfails : s.kernel.FailsWith (joinPath row.path entry.name) errno := by
      by_contra hother
      simp [fileSystem, FileSystem.serve, hother] at hserve
    exact absurd (failsWith_resolve hfails (by tauto)
      (haccurate.resolve_entry hwanted.watch hwanted.mem)) hwanted.readable
  | reads _ hother | removes _ hother | opens hother | opensNothing _ hother | lists _ hother =>
    simp [hplace] at hother

/-! ### Answers -/

theorem Underway.answer {answer : Answer} (hunderway : Underway s row entry.name)
    (haccurate : Accurate s row) (hwanted : Wanted cfg s row entry)
    (hnew : NewWatch s (.answer answer))
    (hstep : s.step cfg fileSystem (.answer answer) = some after)
    (hruns : ¬ Stopped after.watcher) : Caught after row entry.name := by
  obtain ⟨call, hcall, hserve, hresume⟩ := System.step_answer hstep
  obtain ⟨watcher, kernel⟩ := after
  have hstep := resumeStep hresume
  cases hunderway with
  | asked hplace =>
    obtain ⟨wd, hinsert⟩ :=
      inserts_of_asked haccurate hwanted hplace hnew hcall hserve hstep hruns
    cases hinsert with
    | clashes => exact absurd ⟨_, rfl⟩ hruns
    | inserts hadd =>
      obtain ⟨-, rfl⟩ := addWdDirectory_eq_some_iff.mp hadd
      exact Or.inl ⟨_, List.mem_append_right _ (List.mem_singleton.mpr rfl), rfl⟩
  | opens hplace =>
    obtain rfl := call_eq_opendir hplace hcall
    have hresolve := haccurate.resolve_eq hwanted.watch
    cases hstep with
    | exits => exact absurd ⟨_, rfl⟩ hruns
    | opens hother =>
      rw [hplace, Place.opendir.injEq] at hother
      obtain ⟨rfl, rfl⟩ := hother
      obtain ⟨dir, hdir, rfl⟩ := FileSystem.opendir_spec hserve
      obtain rfl := Option.some_inj.mp (hresolve.symm.trans hdir)
      exact Or.inr (.reads rfl rfl hwanted.watch
        (DirTree.mem_listing.mpr ⟨entry.dir, hwanted.mem⟩))
    | opensNothing errno hother herrno =>
      have hfails : s.kernel.FailsWith row.path errno := by
        by_contra hother
        simp [fileSystem, FileSystem.serve, hother] at hserve
      rcases herrno with rfl | rfl <;> exact absurd (hfails.symm.trans hresolve) (by simp)
    | reads _ hother | reuses hother | adds hother | missed _ hother | removes _ hother
    | lists _ hother => simp [hplace] at hother
  | reads hplace hscan _ hmust =>
    obtain rfl := call_eq_readdir hplace hcall
    cases hstep with
    | exits => exact absurd ⟨_, rfl⟩ hruns
    | lists names hother =>
      rw [hplace, Place.readdir.injEq] at hother
      obtain ⟨rfl, rfl⟩ := hother
      obtain ⟨scan, hsome, hfound, -, -⟩ := FileSystem.readdir_spec hserve
      obtain rfl := Option.some_inj.mp (hscan.symm.trans hsome)
      exact Or.inr (.loops rfl (hfound hmust))
    | reads _ hother | reuses hother | adds hother | missed _ hother | removes _ hother
    | opens hother | opensNothing _ hother => simp [hplace] at hother
  | loops hplace => simp [Watcher.call, hplace] at hcall
  | waits hframe hname =>
    have hstack := (table_of_resume (by rintro wd rfl; exact hnew) hstep).2
    exact Or.inr (.waits (hstack ▸ hframe) hname)

theorem Covered.answer {answer : Answer} (hcovered : Covered s row entry.name)
    (haccurate : Accurate s row) (hwanted : Wanted cfg s row entry)
    (hnew : NewWatch s (.answer answer)) (hpending : pending s.inotify ⊆ pending after.inotify)
    (hstep : s.step cfg fileSystem (.answer answer) = some after)
    (hruns : ¬ Stopped after.watcher) : Covered after row entry.name := by
  cases hcovered with
  | announced hevent harrives => exact .announced (hpending hevent) harrives
  | recorded hchild hpath =>
    obtain ⟨-, -, -, hresume⟩ := System.step_answer hstep
    refine .recorded ((table_of_resume ?_ (resumeStep hresume)).1 hchild) hpath
    rintro wd rfl
    exact hnew
  | underway hunderway =>
    exact (hunderway.answer haccurate hwanted hnew hstep hruns).covered

theorem Found.answer {answer : Answer} (hfound : Found cfg s) (htruthful : Truthful s)
    (hregular : Regular s.inotify) (hnew : NewWatch s (.answer answer))
    (hstep : s.step cfg fileSystem (.answer answer) = some after)
    (hruns : ¬ Stopped after.watcher) : Found cfg after := by
  intro row hsound entry hwanted
  rcases answer_cases hregular.toSteady hstep with ⟨new, dir, rfl, hfresh⟩ | hshrinks
  · have hfree := hfresh.free hregular.toSteady
    have hrow := hsound.mem
    rw [table_of_insert hfree hfresh.insert] at hrow
    rcases List.mem_append.mp hrow with hold | hlast
    · have hbefore := hsound.back (hfresh.decays hregular) hold
      have hentry := hwanted.mem
      have hreadable := hwanted.readable
      rw [hfresh.tree] at hentry hreadable
      have hwatch : ⟨row.wd, entry.parent⟩ ∈ s.kernel.watches := by
        refine (hfresh.mem_watches.mp hwanted.watch).resolve_left fun hsame ↦ ?_
        exact (hfree row hold).1 (congrArg Watch.wd hsame)
      have hwas : Wanted cfg s row entry := ⟨hentry, hwatch, hreadable, hwanted.path⟩
      exact (hfound row hbefore entry hwas).answer (htruthful row hbefore) hwas hnew
        (hfresh.pending_eq ▸ List.Subset.refl _) hstep hruns
    · rw [List.mem_singleton.mp hlast]
      exact .underway (.opens (by rw [hfresh.insert.eq_of_free hfree]))
  · have hbefore := hsound.back hshrinks.decays (hshrinks.table hsound.mem)
    have hentry := hwanted.mem
    have hreadable := hwanted.readable
    rw [hshrinks.tree] at hentry hreadable
    have hwas : Wanted cfg s row entry :=
      ⟨hentry, hshrinks.watches hwanted.watch, hreadable, hwanted.path⟩
    exact (hfound row hbefore entry hwas).answer (htruthful row hbefore) hwas hnew
      hshrinks.pending hstep hruns

/-! ### Steps without a system call -/

/-- The path of the event that says that a directory has come to a place is the one of
the place. -/
theorem underway_of_arrival {event : Event} {rest : List Event} {watcher : Watcher} {name : Bytes}
    (hregular : Regular s.inotify) (hplace : s.watcher.place = .nextEvent)
    (hbatch : s.watcher.batch = event :: rest)
    (hfits : EventFits (s.watcher.findParent event) event)
    (hdispatch : DispatchStep event ({ s.watcher with batch := rest }.findParent event) watcher)
    (hruns : ¬ Stopped watcher) (hrow : row ∈ s.watcher.table)
    (harrives : Arrives row.wd name event) : Underway { s with watcher } row name := by
  obtain ⟨harrival, hwd, rfl⟩ := harrives
  have hlooked := hregular.agreeing.looked hregular.ordered hplace hbatch
  have hwhole := hfits.whole harrival
  rw [findParent_withBatch] at hlooked hdispatch
  have hpath := hlooked.eventPath_eq (by rw [← findParent_withBatch, findParent_table]; exact hrow)
    hwd.symm
  obtain ⟨cookie, frame, -, rfl⟩ := asks_of_arrival harrival hdispatch hwhole hruns
  exact .asked (Or.inl (congrArg (Place.addWatch event.wd) hpath))

theorem Underway.internal {watcher : Watcher} (hunderway : Underway s row entry.name)
    (hwanted : Wanted cfg s row entry) (hstep : InternalStep cfg s.watcher watcher)
    (hruns : ¬ Stopped watcher) : Caught { s with watcher } row entry.name := by
  have hcall := call_of_internal hstep
  cases hunderway with
  | asked hplace =>
    rcases requests_of_asked hplace hwanted.path hstep with ⟨hrecorded, rfl⟩ | rfl
    · exact Or.inl hrecorded
    · exact Or.inr (.asked (Or.inr rfl))
  | opens hplace | reads hplace => simp [Watcher.call, hplace] at hcall
  | loops hplace hname =>
    cases hstep with
    | finishesSubDirs hother =>
      rw [hplace, Place.subDirs.injEq] at hother
      simp [hother.2.2] at hname
    | descends hother =>
      rw [hplace, Place.subDirs.injEq] at hother
      obtain ⟨rfl, rfl, rfl⟩ := hother
      rcases List.mem_cons.mp hname with hfirst | hrest
      · exact Or.inr (.asked (Or.inl (by rw [hfirst])))
      · exact Or.inr (.waits List.mem_cons_self hrest)
    | overflows => exact absurd ⟨_, rfl⟩ hruns
    | startsPolling hother =>
      rcases hother with ⟨hother, -⟩ | ⟨hother, -⟩ <;> simp [hother] at hplace
    | readsLine hother | takesEvent hother | insertsPruned hother | finishesPrune hother
    | refuses hother | requests hother | returns hother | reports hother => simp [hother] at hplace
  | waits hframe hname =>
    rcases frame_of_internal hstep hframe with hstack | ⟨result, rest, rfl⟩
    · exact Or.inr (.waits hstack hname)
    · exact Or.inr (.loops rfl hname)

theorem Found.internal {watcher : Watcher} (hfound : Found cfg s) (hregular : Regular s.inotify)
    (hplaces : Places s) (horderly : OrderlyStep s (.internal : Label FsAct))
    (hmoves : ∀ event ∈ takenEvent s.watcher (.internal : Label FsAct),
      MovesKnown (s.watcher.findParent event) event)
    (hstep : InternalStep cfg s.watcher watcher) (hrows : watcher.table ⊆ s.watcher.table)
    (hruns : ¬ Stopped watcher) : Found cfg { s with watcher } := by
  intro row hsound entry hwanted
  have hbefore := hsound.back (decays_of_internal hregular hstep hruns).1 (hrows hsound.mem)
  have hwas : Wanted cfg s row entry := ⟨hwanted.mem, hwanted.watch, hwanted.readable, hwanted.path⟩
  have hcovered := hfound row hbefore entry hwas
  rcases batch_or_dispatch_of_internal hstep with ⟨hbatch, htable⟩ |
    ⟨event, rest, hplace, hbatch, hdispatch⟩
  · cases hcovered with
    | @announced event hevent harrives =>
      refine Covered.announced (?_ : event ∈ _) harrives
      change event ∈ watcher.batch ++ s.kernel.queue
      rw [hbatch]
      exact hevent
    | recorded hchild hpath => exact .recorded (htable hchild) hpath
    | underway hunderway => exact (hunderway.internal hwas hstep hruns).covered
  · have hafter : watcher.batch = rest := (batch_of_dispatch hdispatch).trans (findParent_batch _ _)
    have htaken : event ∈ takenEvent s.watcher (.internal : Label FsAct) := by
      simp [takenEvent, hplace, hbatch]
    have hlater :
      ∀ later ∈ rest ++ s.kernel.queue,
        later ∈ pending ({ s with watcher } : System FileSystem).inotify := by
      intro later hmem
      change later ∈ watcher.batch ++ s.kernel.queue
      rwa [hafter]
    cases hcovered with
    | @announced first hevent harrives =>
      change first ∈ s.watcher.batch ++ s.kernel.queue at hevent
      rw [hbatch, List.cons_append] at hevent
      rcases List.mem_cons.mp hevent with rfl | hrest
      · exact .underway (underway_of_arrival hregular hplace hbatch (horderly.events _ htaken)
          hdispatch hruns hbefore.mem harrives)
      · exact .announced (hlater first hrest) harrives
    | @recorded child hchild hpath =>
      by_cases hleft : child ∈ watcher.table
      · exact .recorded hleft hpath
      · have hof := hregular.agreeing.rooted.parentOf_of_path hregular.ordered.keys.keyed
          hbefore.mem hchild (s.kernel.tree.names entry hwanted.mem) hpath
        obtain ⟨later, hmem, harrives⟩ := hplaces.arrives_of_removed hregular hplace hbatch
          (hmoves event htaken) hdispatch hchild hleft hbefore.mem hsound.mem hof hwanted.mem hpath
          hwanted.watch
        exact .announced (hlater later hmem) harrives
    | underway hunderway => exact (hunderway.internal hwas hstep hruns).covered

/-! ### The directories of the config file -/

def TopRow (table : Table) (top : Bytes) : Prop :=
  ∃ row ∈ table, row.path = top ∧ row.parentWd = nullWd

/-- A call of `add_watch` for a line of the config file has inserted its row, or it is the
only call, and has not got so far or has failed. -/
def TopAsked (w : Watcher) (top : Bytes) : Prop :=
  w.stack = [.topLevel top] ∧ (w.place = .addWatch nullWd top ∨
    w.place = .inotifyAddWatch nullWd top ∨ ∃ result ≠ 0, w.place = .returned result)

structure Tops (s : System FileSystem) : Prop where
  watched : ∀ top ∈ s.watcher.watchedTops, TopRow s.watcher.table top
  calls : ∀ top, .topLevel top ∈ s.watcher.stack → TopRow s.watcher.table top ∨
    TopAsked s.watcher top
  live : ∀ row ∈ s.watcher.table, row.parentWd = nullWd → row.wd ∈ s.kernel.live

/-- No row without a parent is lost. -/
def RootsKept (w next : Watcher) : Prop :=
  ∀ row ∈ w.table, row.parentWd = nullWd → row ∈ next.table

theorem TopRow.kept {w next : Watcher} {top : Bytes} (htop : TopRow w.table top)
    (hkept : RootsKept w next) : TopRow next.table top := by
  obtain ⟨row, hrow, hpath, hnull⟩ := htop
  exact ⟨row, hkept row hrow hnull, hpath, hnull⟩

theorem rootsKept_internal {watcher : Watcher} (hregular : Regular s.inotify) (htops : Tops s)
    (hmoves : ∀ event ∈ takenEvent s.watcher (.internal : Label FsAct),
      MovesKnown (s.watcher.findParent event) event)
    (hstep : InternalStep cfg s.watcher watcher) : RootsKept s.watcher watcher := by
  intro row hrow hnull
  rcases batch_or_dispatch_of_internal hstep with ⟨-, htable⟩ |
    ⟨event, rest, hplace, hbatch, hdispatch⟩
  · exact htable hrow
  · by_contra hgone
    obtain ⟨hbranch, hwd⟩ := ignored_of_removed hregular hplace hbatch
      (hmoves event (by simp [takenEvent, hplace, hbatch])) hdispatch hrow hgone hnull
    have hevent : event ∈ pending s.inotify := by
      change event ∈ s.watcher.batch ++ s.kernel.queue
      simp [hbatch]
    refine (hregular.ordered.delivered.ignored event hevent (has_inIgnored_of_branch hbranch)).2 ?_
    exact hwd ▸ htops.live row hrow hnull

/-- The stack and the directories watched are as before, and no call for the config file
goes on to another place before it has its row. -/
theorem Tops.stay {watcher : Watcher} {kernel : FileSystem} (htops : Tops s)
    (hkept : RootsKept s.watcher watcher) (hwatched : watcher.watchedTops = s.watcher.watchedTops)
    (hcalls : ∀ top, .topLevel top ∈ watcher.stack → .topLevel top ∈ s.watcher.stack ∧
      (TopAsked s.watcher top → TopRow watcher.table top ∨ TopAsked watcher top))
    (hlive : ∀ row ∈ watcher.table, row.parentWd = nullWd → row.wd ∈ kernel.live) :
    Tops ⟨watcher, kernel⟩ := by
  refine ⟨fun top htop ↦ ?_, fun top htop ↦ ?_, hlive⟩
  · change top ∈ watcher.watchedTops at htop
    rw [hwatched] at htop
    exact (htops.watched top htop).kept hkept
  · obtain ⟨hbefore, hasked⟩ := hcalls top htop
    rcases htops.calls top hbefore with hrow | hask
    · exact Or.inl (hrow.kept hkept)
    · exact hasked hask

theorem watchedTops_of_dispatch {w next : Watcher} {event : Event}
    (hstep : DispatchStep event w next) : next.watchedTops = w.watchedTops := by
  cases hstep with
  | prunes _ _ _ _ _ hprune => cases hprune <;> rfl
  | _ => rfl

theorem Tops.internal {watcher : Watcher} (htops : Tops s) (hregular : Regular s.inotify)
    (hmoves : ∀ event ∈ takenEvent s.watcher (.internal : Label FsAct),
      MovesKnown (s.watcher.findParent event) event)
    (hrows : watcher.table ⊆ s.watcher.table) (hstep : InternalStep cfg s.watcher watcher)
    (hruns : ¬ Stopped watcher) : Tops { s with watcher } := by
  have hkept := rootsKept_internal hregular htops hmoves hstep
  have hlive : ∀ row ∈ watcher.table, row.parentWd = nullWd → row.wd ∈ s.kernel.live :=
    fun row hrow ↦ htops.live row (hrows hrow)
  have hfits : StackFits s.watcher.place s.watcher.stack := hregular.ordered.control.fits
  cases hstep with
  | readsLine hplace =>
    rw [hplace] at hfits
    have hnil : s.watcher.stack = [] := hfits
    refine ⟨fun top htop ↦ (htops.watched top htop).kept hkept, fun top htop ↦ ?_, hlive⟩
    simp only [hnil, List.mem_singleton, Frame.topLevel.injEq] at htop
    exact Or.inr ⟨by simp [hnil, htop], Or.inl (by rw [htop])⟩
  | takesEvent hplace _ hdispatch =>
    refine htops.stay hkept ?_ (fun top htop ↦ ⟨?_, fun hasked ↦ ?_⟩) hlive
    · rw [watchedTops_of_dispatch hdispatch, findParent_watchedTops]
    · simpa using topLevel_of_dispatch hdispatch htop
    · simp [TopAsked, hplace] at hasked
  | refuses hplace =>
    refine htops.stay hkept rfl (fun top htop ↦ ⟨htop, fun hasked ↦ Or.inr ?_⟩) hlive
    exact ⟨hasked.1, Or.inr (Or.inr ⟨-1, by decide, rfl⟩)⟩
  | requests hplace =>
    refine htops.stay hkept rfl (fun top htop ↦ ⟨htop, fun hasked ↦ Or.inr ⟨hasked.1, ?_⟩⟩) hlive
    simpa [hplace] using hasked.2
  | @returns result frame rest hplace hstack =>
    have hrest : ∀ top, .topLevel top ∈ rest → TopRow s.watcher.table top := by
      intro top htop
      refine (htops.calls top (hstack ▸ List.mem_cons_of_mem _ htop)).resolve_right fun hasked ↦ ?_
      have hone := hasked.1
      rw [hstack, List.cons.injEq] at hone
      simp [hone.2] at htop
    cases frame with
    | topLevel top =>
      refine ⟨fun other hother ↦ ?_, fun other hother ↦ Or.inl (hrest other hother), hlive⟩
      change other ∈ (if result = 0 then s.watcher.watchedTops ++ [top] else s.watcher.watchedTops)
        at hother
      split_ifs at hother with hzero
      · rcases List.mem_append.mp hother with hold | hnew
        · exact htops.watched other hold
        · rw [List.mem_singleton.mp hnew]
          refine (htops.calls top (hstack ▸ List.mem_cons_self)).resolve_right fun hasked ↦ ?_
          simpa [hplace, hzero] using hasked.2
      · exact htops.watched other hother
    | subDirs => exact ⟨htops.watched, fun other hother ↦ Or.inl (hrest other hother), hlive⟩
    | created => exact ⟨htops.watched, fun other hother ↦ Or.inl (hrest other hother), hlive⟩
    | movedTo => exact ⟨htops.watched, fun other hother ↦ Or.inl (hrest other hother), hlive⟩
  | descends hplace =>
    refine htops.stay hkept rfl (fun top htop ↦ ⟨by simpa using htop, fun hasked ↦ ?_⟩) hlive
    simp [TopAsked, hplace] at hasked
  | reports hplace =>
    rw [report_eq] at hkept hlive ⊢
    exact htops.stay hkept rfl (fun top htop ↦ ⟨htop, by simp [TopAsked, hplace]⟩) hlive
  | startsPolling hplace =>
    refine htops.stay hkept rfl (fun top htop ↦ ⟨htop, fun hasked ↦ ?_⟩) hlive
    rcases hplace with ⟨hplace, -⟩ | ⟨hplace, -⟩ <;> simp [TopAsked, hplace] at hasked
  | insertsPruned hplace hinsert =>
    have hsame : watcher.stack = s.watcher.stack ∧ watcher.watchedTops = s.watcher.watchedTops := by
      cases hinsert <;> exact ⟨rfl, rfl⟩
    refine htops.stay hkept hsame.2 (fun top htop ↦ ⟨hsame.1 ▸ htop, fun hasked ↦ ?_⟩) hlive
    simp [TopAsked, hplace] at hasked
  | finishesPrune hplace | finishesSubDirs hplace =>
    refine htops.stay hkept rfl (fun top htop ↦ ⟨htop, fun hasked ↦ ?_⟩) hlive
    simp [TopAsked, hplace] at hasked
  | overflows => exact absurd ⟨_, rfl⟩ hruns

/-- The call for a line of the config file inserts its row or fails. -/
theorem Tops.answer {answer : Answer} (htops : Tops s) (hregular : Regular s.inotify)
    (hnew : NewWatch s (.answer answer))
    (hstep : s.step cfg fileSystem (.answer answer) = some after)
    (hruns : ¬ Stopped after.watcher) : Tops after := by
  have hlive : ∀ row ∈ after.watcher.table, row.parentWd = nullWd → row.wd ∈ after.kernel.live := by
    intro row hrow hnull
    rcases answer_cases hregular.toSteady hstep with ⟨new, dir, -, hfresh⟩ | hshrinks
    · rw [table_of_insert (hfresh.free hregular.toSteady) hfresh.insert] at hrow
      rcases List.mem_append.mp hrow with hold | hlast
      · obtain ⟨other, hwatch⟩ := FileSystem.mem_live.mp (htops.live row hold hnull)
        exact FileSystem.mem_live.mpr ⟨other, hfresh.mem_watches.mpr (Or.inr hwatch)⟩
      · rw [List.mem_singleton.mp hlast]
        exact FileSystem.mem_live.mpr ⟨dir, hfresh.mem_watches.mpr (Or.inl rfl)⟩
    · exact hshrinks.kept row hrow (htops.live row (hshrinks.table hrow) hnull)
  obtain ⟨-, -, -, hresume⟩ := System.step_answer hstep
  have hstep := resumeStep hresume
  obtain ⟨htable, hstack⟩ := table_of_resume (by rintro wd rfl; exact hnew) hstep
  have hkept : RootsKept s.watcher after.watcher := fun row hrow _ ↦ htable hrow
  obtain ⟨watcher, kernel⟩ := after
  refine htops.stay hkept ?_ (fun top htop ↦ ⟨hstack ▸ htop, fun hasked ↦ ?_⟩) hlive
  · cases hstep with
    | reuses _ _ hprune => cases hprune <;> rfl
    | adds _ _ hinsert => cases hinsert <;> rfl
    | _ => rfl
  · cases hstep with
    | adds hplace _ hinsert =>
      simp only [TopAsked, hplace, reduceCtorEq, false_or, Place.inotifyAddWatch.injEq, and_false,
        exists_false, or_false] at hasked
      obtain ⟨-, rfl, rfl⟩ := hasked
      cases hinsert with
      | clashes => exact absurd ⟨_, rfl⟩ hruns
      | inserts hadd =>
        obtain ⟨-, rfl⟩ := addWdDirectory_eq_some_iff.mp hadd
        exact Or.inl ⟨_, List.mem_append_right _ (List.mem_singleton.mpr rfl), rfl, rfl⟩
    | missed => exact Or.inr ⟨hasked.1, Or.inr (Or.inr ⟨-1, by decide, rfl⟩)⟩
    | exits => exact absurd ⟨_, rfl⟩ hruns
    | reuses _ hexists =>
      obtain ⟨row, hrow, hwd⟩ := wdDirectoryExists_iff.mp hexists
      exact absurd hwd (hnew row hrow)
    | reads _ hplace | removes _ hplace | opens hplace | opensNothing _ hplace | lists _ hplace =>
      simp [TopAsked, hplace] at hasked

/-! ### Runs -/

/-- What happens to the directories leaves the directories of the config file watched,
and no directory comes to the place of one that has been removed but not freed. -/
def ActFits (s : System FileSystem) : Label FsAct → Prop
  | .act action => ∀ fs ∈ s.kernel.act action, Vacant s.watcher.table fs ∧
      ∀ row ∈ s.watcher.table, row.parentWd = nullWd → row.wd ∈ fs.live
  | _ => True

instance (s : System FileSystem) (label : Label FsAct) : Decidable (ActFits s label) :=
  match label with
  | .act action => inferInstanceAs (Decidable (∀ fs ∈ s.kernel.act action,
      Vacant s.watcher.table fs ∧
        ∀ row ∈ s.watcher.table, row.parentWd = nullWd → row.wd ∈ fs.live))
  | .internal | .answer _ => inferInstanceAs (Decidable True)

/-- The conditions under which no directory is lost. -/
structure CoverageStep (s : System FileSystem) (label : Label FsAct) : Prop where
  truthful : TruthfulStep s label
  newWatch : NewWatch s label
  act : ActFits s label
  moves : ∀ event ∈ takenEvent s.watcher label, MovesKnown (s.watcher.findParent event) event

instance (s : System FileSystem) (label : Label FsAct) : Decidable (CoverageStep s label) :=
  decidable_of_iff (TruthfulStep s label ∧ NewWatch s label ∧ ActFits s label ∧
      ∀ event ∈ takenEvent s.watcher label, MovesKnown (s.watcher.findParent event) event)
    ⟨fun ⟨htruthful, hnew, hact, hmoves⟩ ↦ ⟨htruthful, hnew, hact, hmoves⟩,
      fun ⟨htruthful, hnew, hact, hmoves⟩ ↦ ⟨htruthful, hnew, hact, hmoves⟩⟩

/-- What holds in all states of a run in which no directory is lost. -/
structure Complete (cfg : Config) (s : System FileSystem) : Prop where
  truthful : Truthful s
  places : Places s
  found : Found cfg s
  tops : Tops s
  settled : ∀ row, ¬ Inserting s.watcher row

theorem complete_start (cfg : Config) (tree : DirTree) :
    Complete cfg (System.start cfg (.start tree)) where
  truthful := truthful_start cfg tree
  places := places_start cfg tree
  found := by
    intro row hsound
    exact absurd hsound.mem (by simp [System.start, Watcher.start])
  tops := by
    constructor <;> simp [System.start, Watcher.start]
  settled := by simp [Inserting, System.start, Watcher.start]

theorem not_inserting_of_resume {w next : Watcher} {answer : Answer}
    (hnew : ∀ wd, answer = .watch wd → ∀ row ∈ w.table, row.wd ≠ wd)
    (hsettled : ∀ row, ¬ Inserting w row) (hstep : ResumeStep w answer next) (row : Row) :
    ¬ Inserting next row := by
  intro hinserting
  cases hstep with
  | reuses _ hexists =>
    obtain ⟨old, hold, hwd⟩ := wdDirectoryExists_iff.mp hexists
    exact hnew _ rfl old hold hwd
  | adds _ _ hinsert => exact not_inserting_of_insert hinsert row hinserting
  | removes _ hplace => exact hsettled row (inserting_of_removes hplace hinserting)
  | _ => simp [Inserting, Watcher.startBatch, Watcher.exit] at hinserting

theorem Complete.act {kernel : FileSystem} {news : List Event} (hcomplete : Complete cfg s)
    (hregular : Regular s.inotify)
    (hafter : Regular ({ s with kernel } : System FileSystem).inotify)
    (hchanges : Changes s.kernel news kernel)
    (hroots : ∀ row ∈ s.watcher.table, row.parentWd = nullWd →
      kernel.tree.resolve row.path = s.kernel.tree.resolve row.path ∧ row.wd ∈ kernel.live)
    (hvacant : Vacant s.watcher.table kernel) : Complete cfg { s with kernel } where
  truthful := hcomplete.truthful.act hregular.ordered.keys.keyed hchanges
    fun row hrow hnull ↦ (hroots row hrow hnull).1
  places := by
    have hdelivered := hafter.ordered.delivered
    change Delivered kernel.inotify (s.watcher.batch ++ kernel.queue) at hdelivered
    rw [hchanges.queue, ← List.append_assoc] at hdelivered
    exact hcomplete.places.act hregular.paired hdelivered hchanges hvacant
  found := hcomplete.found.act hchanges
  tops := ⟨hcomplete.tops.watched, hcomplete.tops.calls,
    fun row hrow hnull ↦ (hroots row hrow hnull).2⟩
  settled := hcomplete.settled

theorem Complete.step (hregular : Regular s.inotify)
    (hcomplete : Stopped s.watcher ∨ Complete cfg s)
    {label : Label FsAct} (hcondition : CoverageStep s label)
    (hstep : s.step cfg fileSystem label = some after) :
    Stopped after.watcher ∨ Complete cfg after := by
  have hafter := hregular.step_fileSystem hcondition.truthful.1 hstep
  refine or_iff_not_imp_left.mpr fun hruns ↦ ?_
  cases label with
  | act action =>
    obtain ⟨kernel, hact, rfl⟩ := System.exists_kernel hstep
    obtain ⟨news, hchanges⟩ := FileSystem.exists_changes hact
    obtain ⟨hvacant, hlive⟩ := hcondition.act kernel hact
    exact (hcomplete.resolve_left hruns).act hregular hafter hchanges
      (fun row hrow hnull ↦
        ⟨hcondition.truthful.2 kernel hact row hrow hnull, hlive row hrow hnull⟩)
      hvacant
  | internal =>
    obtain ⟨watcher, hinternal, rfl⟩ := System.exists_watcher hstep
    have hcomplete := hcomplete.resolve_left (not_stopped_of_internal hinternal)
    have hstep := internalStep hinternal
    have hrows : watcher.table ⊆ s.watcher.table := fun row hrow ↦
      (mem_table_of_internal hstep hrow).resolve_right (hcomplete.settled row)
    exact ⟨hcomplete.truthful.internal hregular hstep hruns, hcomplete.places.internal hstep hrows,
      hcomplete.found.internal hregular hcomplete.places hcondition.truthful.1 hcondition.moves
        hstep hrows hruns,
      hcomplete.tops.internal hregular hcondition.moves hrows hstep hruns,
      not_inserting_of_internal hstep⟩
  | answer answer =>
    obtain ⟨call, hcall, -, hresume⟩ := System.step_answer hstep
    have hcomplete := hcomplete.resolve_left (not_stopped_of_call hcall)
    have hnew := hcondition.newWatch
    refine ⟨?_, ?_, hcomplete.found.answer hcomplete.truthful hregular hnew hstep hruns,
      hcomplete.tops.answer hregular hnew hstep hruns,
      not_inserting_of_resume (by rintro wd rfl; exact hnew) hcomplete.settled (resumeStep hresume)⟩
    · exact (Truthful.step hregular (Or.inr hcomplete.truthful) hcondition.truthful.2
        hstep).resolve_left hruns
    · rcases answer_cases hregular.toSteady hstep with ⟨row, dir, -, hfresh⟩ | hshrinks
      · exact hcomplete.places.fresh hregular hfresh
      · exact hcomplete.places.shrink hregular.paired hafter.ordered.delivered hshrinks

theorem complete_of_reachesWhen {tree : DirTree}
    (hreaches : ReachesWhen (System.step cfg fileSystem) CoverageStep
      (System.start cfg (.start tree)) s) :
    Regular s.inotify ∧ (Stopped s.watcher ∨ Complete cfg s) := by
  refine hreaches.invariant (fun s ↦ Regular s.inotify ∧ (Stopped s.watcher ∨ Complete cfg s))
    ⟨regular_start cfg, Or.inr (complete_start cfg tree)⟩ ?_
  rintro s label next ⟨hregular, hcomplete⟩ hcondition hstep
  exact ⟨hregular.step_fileSystem hcondition.truthful.1 hstep,
    Complete.step hregular hcomplete hcondition hstep⟩

/-! ### At rest -/

/-- The directory is at the path, which begins with `top` and leads by readable
directories alone, none of them excluded or marked to be ignored. -/
inductive Visible (cfg : Config) (tree : DirTree) (top : Bytes) : Bytes → Dir → Prop
  | top {dir : Dir} (hresolve : tree.resolve top = some dir) : Visible cfg tree top top dir
  | child {path : Bytes} {entry : Entry} (hparent : Visible cfg tree top path entry.parent)
      (hentry : entry ∈ tree.entries) (hreadable : entry.dir ∉ tree.unreadable)
      (hpath : refusesPath cfg (joinPath path entry.name) = false) :
      Visible cfg tree top (joinPath path entry.name) entry.dir

theorem Visible.ne_nil {tree : DirTree} {top path : Bytes} {dir : Dir}
    (hvisible : Visible cfg tree top path dir) : path ≠ [] := by
  cases hvisible with
  | top hresolve =>
    rintro rfl
    simp [DirTree.resolve] at hresolve
  | child => simp [joinPath]

theorem Visible.resolve {tree : DirTree} {top path : Bytes} {dir : Dir}
    (hvisible : Visible cfg tree top path dir) : tree.resolve path = some dir := by
  induction hvisible with
  | top hresolve => exact hresolve
  | child hparent hentry _ _ ih =>
    rw [DirTree.resolve_joinPath hparent.ne_nil (tree.names _ hentry), ih, Option.bind_some]
    exact DirTree.child_eq_some_iff.mpr hentry

/-- When nothing is pending and the watcher waits, all that it has found has a row. -/
theorem AtRest.recorded (hrest : AtRest s) (hregular : Regular s.inotify) {name : Bytes}
    (hcovered : Covered s row name) :
    ∃ child ∈ s.watcher.table, child.path = joinPath row.path name := by
  have hplace := hrest.place
  cases hcovered with
  | announced hevent => exact absurd hevent (hrest.not_pending _)
  | recorded hchild hpath => exact ⟨_, hchild, hpath⟩
  | underway hunderway =>
    cases hunderway with
    | asked hother => simp [hplace] at hother
    | opens hother | reads hother | loops hother => simp [hplace] at hother
    | waits hframe =>
      have hfits : StackFits s.watcher.place s.watcher.stack := hregular.ordered.control.fits
      rw [hplace] at hfits
      rw [show s.watcher.stack = [] from hfits] at hframe
      cases hframe

theorem AtRest.accurate (hrest : AtRest s) (hregular : Regular s.inotify)
    (hcomplete : Complete cfg s) : ∀ row ∈ s.watcher.table, Accurate s row :=
  fun row hrow ↦ hcomplete.truthful row (hrest.sound hregular hrow)

theorem AtRest.covered (hrest : AtRest s) (hregular : Regular s.inotify)
    (hcomplete : Complete cfg s) {top path : Bytes} {dir : Dir} (htop : top ∈ s.watcher.watchedTops)
    (hvisible : Visible cfg s.kernel.tree top path dir) :
    ∃ row ∈ s.watcher.table, row.path = path ∧ ⟨row.wd, dir⟩ ∈ s.kernel.watches := by
  have haccurate := hrest.accurate hregular hcomplete
  have hwatched : ∀ row ∈ s.watcher.table, ∀ dir, s.kernel.tree.resolve row.path = some dir →
      ⟨row.wd, dir⟩ ∈ s.kernel.watches := by
    intro row hrow dir hresolve
    obtain ⟨other, hwatch, hother⟩ := haccurate row hrow
    rwa [Option.some_inj.mp (hresolve.symm.trans hother)]
  induction hvisible with
  | top hresolve =>
    obtain ⟨row, hrow, rfl, -⟩ := hcomplete.tops.watched top htop
    exact ⟨row, hrow, rfl, hwatched row hrow _ hresolve⟩
  | child hparent hentry hreadable hpath ih =>
    obtain ⟨row, hrow, rfl, hwatch⟩ := ih
    obtain ⟨child, hchild, hchildPath⟩ := hrest.recorded hregular
      (hcomplete.found row (hrest.sound hregular hrow) _ ⟨hentry, hwatch, hreadable, hpath⟩)
    refine ⟨child, hchild, hchildPath, hwatched child hchild _ ?_⟩
    rw [hchildPath]
    exact (haccurate row hrow).resolve_entry hwatch hentry

/-- In a run under the conditions above, each readable directory below a watched top level
path that is not excluded or ignored on the way has at rest a row with its path, whose
watch is on it. -/
theorem directories_covered (cfg : Config) (tree : DirTree) {s : System FileSystem}
    (hreaches : ReachesWhen (System.step cfg fileSystem) CoverageStep
      (System.start cfg (.start tree)) s)
    (hrest : AtRest s) :
    ∀ top ∈ s.watcher.watchedTops, ∀ path dir, Visible cfg s.kernel.tree top path dir →
      ∃ row ∈ s.watcher.table, row.path = path ∧ ⟨row.wd, dir⟩ ∈ s.kernel.watches := by
  intro top htop path dir hvisible
  obtain ⟨hregular, hcomplete⟩ := complete_of_reachesWhen hreaches
  exact hrest.covered hregular (hcomplete.resolve_left hrest.not_stopped) htop hvisible

/-- `/t/a` becomes `/t/b`, and is watched there. -/
theorem directories_covered_renamed :
    ∃ s, ReachesWhen (System.step ⟨[literal "/t"], [], by decide⟩ fileSystem) CoverageStep
        (System.start ⟨[literal "/t"], [], by decide⟩ (.start oneSubDir)) s ∧
      s.watcher.watchedTops = [literal "/t"] ∧
      Visible ⟨[literal "/t"], [], by decide⟩ s.kernel.tree (literal "/t") (literal "/t/b") 2 ∧
      ∃ row ∈ s.watcher.table, row.path = literal "/t/b" ∧ ⟨row.wd, 2⟩ ∈ s.kernel.watches := by
  have hrun : (runChecked (System.step ⟨[literal "/t"], [], by decide⟩ fileSystem)
      (fun s label ↦ decide (CoverageStep s label))
      (System.start ⟨[literal "/t"], [], by decide⟩ (.start oneSubDir))
      (startsOneSubDir ++ renamesSubDir)).map
      (fun s : System FileSystem ↦ (decide (AtRest s ∧ s.kernel.tree.unreadable = [] ∧
        s.kernel.tree.resolve (literal "/t") = some 1 ∧
        ⟨1, literal "b", 2⟩ ∈ s.kernel.tree.entries), s.watcher.watchedTops)) =
      some (true, [literal "/t"]) := by decide
  obtain ⟨s, hreaches, hseen⟩ := exists_reachesWhen_of_run hrun
  simp only [Prod.mk.injEq, decide_eq_true_eq] at hseen
  obtain ⟨⟨hrest, hreadable, hresolve, hentry⟩, htops⟩ := hseen
  have hvisible : Visible ⟨[literal "/t"], [], by decide⟩ s.kernel.tree (literal "/t")
      (literal "/t/b") 2 :=
    .child (.top hresolve) hentry (by simp [hreadable]) (by decide)
  exact ⟨s, hreaches, htops, hvisible, directories_covered _ _ hreaches hrest (literal "/t")
    (by simp [htops]) _ _ hvisible⟩

/-- A new directory `/t/y` is made and `/t/a` moved into it before the watcher reads the
event for `/t/y`. The watcher lists `/t/y/a` and asks for a watch, gets the one it has,
prunes that, and inserts a row with the dead watch descriptor, which is then removed. -/
theorem directories_covered_fails :
    ∃ s, Reaches (System.step ⟨[literal "/t"], [], by decide⟩ fileSystem)
        (System.start ⟨[literal "/t"], [], by decide⟩ (.start oneSubDir)) s ∧
      AtRest s ∧ literal "/t" ∈ s.watcher.watchedTops ∧
      Visible ⟨[literal "/t"], [], by decide⟩ s.kernel.tree (literal "/t") (literal "/t/y/a") 2 ∧
      ∀ row ∈ s.watcher.table, row.path ≠ literal "/t/y/a" := by
  have hrun : (run (System.step ⟨[literal "/t"], [], by decide⟩ fileSystem)
      (System.start ⟨[literal "/t"], [], by decide⟩ (.start oneSubDir))
      (startsOneSubDir ++ movesIntoNewDir ++ [.internal, .internal, .answer (.watch 3),
        .answer .done, .answer (.names [literal "a"]), .internal, .internal, .answer (.watch 2),
        .answer .done, .internal, .answer .done, .answer (.names []), .internal, .internal,
        .internal, .internal, .internal, .internal, .internal, .internal, .internal,
        .answer (.events [⟨2, inIgnored, 0, []⟩]), .internal, .internal])).map
      (fun s : System FileSystem ↦ decide (AtRest s ∧ s.kernel.tree.unreadable = [] ∧
        s.kernel.tree.resolve (literal "/t") = some 1 ∧
        ⟨1, literal "y", 3⟩ ∈ s.kernel.tree.entries ∧ ⟨3, literal "a", 2⟩ ∈ s.kernel.tree.entries ∧
        literal "/t" ∈ s.watcher.watchedTops ∧
        ∀ row ∈ s.watcher.table, row.path ≠ literal "/t/y/a")) = some true := by decide
  obtain ⟨s, hreaches, hseen⟩ := exists_reaches_of_run hrun
  obtain ⟨hrest, hreadable, hresolve, houter, hinner, htop, hnone⟩ := of_decide_eq_true hseen
  have hvisible : Visible ⟨[literal "/t"], [], by decide⟩ s.kernel.tree (literal "/t")
      (literal "/t/y") 3 :=
    .child (.top hresolve) houter (by simp [hreadable]) (by decide)
  exact ⟨s, hreaches, hrest, htop, .child hvisible hinner (by simp [hreadable]) (by decide), hnone⟩

end DirWatcher.Watching
