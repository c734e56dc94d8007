import DirWatcher.Watching.Promises
import DirWatcher.Watching.Scope

/-!
The calls of `add_watch` for an event. The paths they are about lie in the directory of the
event, also while directories are moved, and so a report of it includes them.
-/

set_option autoImplicit false
set_option relaxedAutoImplicit false

namespace DirWatcher.Watching

open Source Environment Foundation.SeparatedPaths Foundation.Runs

variable {cfg : Config} {s after : System FileSystem} {w next : Watcher} {event : Event}
  {row : Row} {directory path : Bytes}

/-! ### The calls of `add_watch` for an event -/

/-- The rows that the calls for an event are about lie in the directory of the event. -/
theorem Follows.exists_including {table : Table} {prevWd : Wd} {stack : List Frame}
    (hfollows : Follows table prevWd row.wd stack) (hrooted : Rooted table)
    (hnested : Nested stack) (hoff : ∀ top, .topLevel top ∉ stack) (hrow : row ∈ table) :
    ∃ parent ∈ table, parent.wd = prevWd ∧ Includes parent.path row.path ∧
      ∀ wd path names, .subDirs wd path names ∈ stack → Includes parent.path path := by
  induction stack generalizing row with
  | nil => exact absurd hnested id
  | cons frame rest ih =>
    cases frame with
    | subDirs frameWd path names =>
      obtain ⟨-, -, -, hrows⟩ := hfollows
      obtain ⟨hpath, hrest⟩ := hrows row hrow rfl
      have hrestOff : ∀ top, .topLevel top ∉ rest := fun top htop ↦
        hoff top (List.mem_cons_of_mem _ htop)
      rcases hrooted row hrow with hroot | ⟨above, habove, hof⟩
      · rw [hroot.link] at hrest
        cases rest with
        | nil => exact absurd hnested id
        | cons next later =>
          cases next with
          | subDirs => exact absurd rfl hrest.2.1
          | topLevel top => exact absurd List.mem_cons_self (hrestOff top)
          | created => exact absurd rfl hrest.2
          | movedTo => exact absurd rfl hrest.2
      · rw [hof.link] at hrest
        obtain ⟨parent, hparent, hwd, hincludes, hframes⟩ := ih hrest hnested hrestOff habove
        have hrowPath : Includes parent.path row.path := hincludes.trans (Or.inr hof.above)
        refine ⟨parent, hparent, hwd, hrowPath, fun wd other others hframe ↦ ?_⟩
        rcases List.mem_cons.mp hframe with hfirst | hlater
        · cases hfirst
          exact hpath ▸ hrowPath
        · exact hframes wd other others hlater
    | topLevel top => exact absurd List.mem_cons_self (hoff top)
    | created | movedTo =>
      obtain rfl : rest = [] := hnested
      exact ⟨row, hrow, hfollows.1, includes_self, by simp⟩

/-- The event that is being processed is about a directory that includes the path. -/
def EventIncludes (w : Watcher) (path : Bytes) : Prop :=
  ∃ directory, w.parentDir = some directory ∧ Includes directory path

theorem EventIncludes.trans (hevent : EventIncludes w directory)
    (hincludes : Includes directory path) : EventIncludes w path := by
  obtain ⟨above, hparent, habove⟩ := hevent
  exact ⟨above, hparent, habove.trans hincludes⟩

/-- The call for an event, before it has set its watch. -/
def AsksFirst (w : Watcher) (path : Bytes) : Prop :=
  (∃ parentWd, w.place = .addWatch parentWd path ∨ w.place = .inotifyAddWatch parentWd path) ∧
    (w.stack = [.created] ∨ w.stack = [.movedTo])

/-- Its path is the one that has been joined for the event. -/
def AsksJoined (w : Watcher) : Prop :=
  ∀ path, AsksFirst w path → ∃ name, path = joinPath (Watcher.printed w.parentDir) name

theorem asksJoined_of_place
    (hplace : ∀ parentWd path, w.place ≠ .addWatch parentWd path ∧
      w.place ≠ .inotifyAddWatch parentWd path) : AsksJoined w := by
  rintro path ⟨⟨parentWd, hasks⟩, -⟩
  rcases hasks with hasks | hasks
  · exact absurd hasks (hplace parentWd path).1
  · exact absurd hasks (hplace parentWd path).2

theorem asksJoined_of_dispatch (hwhole : Arrival event → (eventPath w event).length ≤ maxPathLen)
    (hstep : DispatchStep event w next) : AsksJoined next := by
  cases hstep with
  | watches cookie frame hframe hlength =>
    rintro path ⟨⟨parentWd, hasks⟩, -⟩
    have harrival : Arrival event := hframe.imp And.left And.left
    obtain ⟨-, rfl⟩ : event.wd = parentWd ∧ (eventPath w event).take (maxPathLen - 1) = path := by
      simpa using hasks
    exact ⟨event.name, take_eventPath (hwhole harrival) hlength⟩
  | prunes _ _ _ _ _ hprune => cases hprune <;> exact asksJoined_of_place (by simp)
  | _ => exact asksJoined_of_place (by simp)

theorem AsksJoined.internal (hasked : AsksJoined w)
    (hevents : ∀ event ∈ takenEvent w (.internal : Label FsAct),
      EventFits (w.findParent event) event)
    (hstep : InternalStep cfg w next) : AsksJoined next := by
  cases hstep with
  | readsLine | descends =>
    rintro path ⟨-, hstack⟩
    simp at hstack
  | takesEvent hplace hbatch hdispatch =>
    rw [findParent_withBatch] at hdispatch
    refine asksJoined_of_dispatch ?_ hdispatch
    exact (hevents _ (by simp [takenEvent, hplace, hbatch])).whole
  | requests hplace =>
    rintro path ⟨⟨parentWd, hasks⟩, hstack⟩
    refine hasked path ⟨⟨parentWd, Or.inl ?_⟩, hstack⟩
    simpa [hplace] using hasks
  | insertsPruned _ hinsert => cases hinsert <;> exact asksJoined_of_place (by simp)
  | @returns result frame =>
    refine asksJoined_of_place fun parentWd path ↦ ?_
    cases frame with
    | created =>
      simp only [Watcher.returnTo]
      split_ifs <;> simp
    | _ => simp [Watcher.returnTo]
  | reports =>
    rw [report_eq]
    exact asksJoined_of_place (by simp)
  | _ => exact asksJoined_of_place (by simp [Watcher.exit])

theorem asksJoined_of_resume {answer : Answer} (hstep : ResumeStep w answer next) :
    AsksJoined next := by
  cases hstep with
  | reuses _ _ hprune => cases hprune <;> exact asksJoined_of_place (by simp)
  | adds _ _ hinsert => cases hinsert <;> exact asksJoined_of_place (by simp)
  | _ => exact asksJoined_of_place (by simp [Watcher.exit, Watcher.startBatch])

theorem AsksJoined.step {label : Label FsAct} (hasked : AsksJoined s.watcher)
    (horderly : OrderlyStep s label) (hstep : s.step cfg fileSystem label = some after) :
    AsksJoined after.watcher := by
  cases label with
  | act action => exact (System.step_act hstep).2 ▸ hasked
  | internal =>
    exact hasked.internal horderly.events (internalStep (System.step_internal hstep).1)
  | answer answer =>
    obtain ⟨-, -, -, hresume⟩ := System.step_answer hstep
    exact asksJoined_of_resume (resumeStep hresume)

/-- What is asked for is not below a directory that is not recorded: its path would begin
with `(null)`. -/
theorem AsksJoined.including (hasked : AsksJoined w) (hfirst : AsksFirst w path)
    (habsolute : Absolute path) : EventIncludes w path := by
  obtain ⟨name, rfl⟩ := hasked path hfirst
  cases hparent : w.parentDir with
  | none =>
    rw [hparent] at habsolute
    exact absurd habsolute relative_null.not_absolute
  | some above => exact ⟨above, hparent, includes_join⟩

/-- The calls around a loop over sub-directories are about rows in the directory of the event. -/
theorem Regular.including_of_calls (hregular : Regular s.inotify) {wd frameWd : Wd}
    {frames : List Frame} {names : List Bytes}
    (hcalls : Calls s.watcher.table s.watcher.prevWd wd (.subDirs frameWd path names :: frames))
    (hnested : Nested frames) (hoff : ∀ top, .topLevel top ∉ frames) :
    (∃ row ∈ s.watcher.table, row.wd = wd ∧ EventIncludes s.watcher row.path) ∧
      ∀ other below left, .subDirs other below left ∈ Frame.subDirs frameWd path names :: frames →
        EventIncludes s.watcher below := by
  obtain ⟨row, hrow, rfl⟩ := hcalls.recorded
  obtain ⟨parent, hparent, hparentWd, hincludes, hframes⟩ :=
    hcalls.follows.exists_including hregular.agreeing.rooted hnested (by simpa using hoff) hrow
  have hparentDir : s.watcher.parentDir = some parent.path :=
    hregular.agreeing.memo.path parent hparent hparentWd
  exact ⟨⟨row, hrow, rfl, parent.path, hparentDir, hincludes⟩, fun other below left hframe ↦
    ⟨parent.path, hparentDir, hframes other below left hframe⟩⟩

/-- The paths that the calls for an event are about lie in its directory. -/
theorem Regular.including (hregular : Regular s.inotify) (hasked : AsksJoined s.watcher)
    (hloading : ¬ Loading s.watcher) (hruns : ¬ Stopped s.watcher)
    (hsettled : ∀ row, ¬ Inserting s.watcher row) (habsolute : Absolute path)
    (hvisited : Visited s.watcher path) : EventIncludes s.watcher path := by
  have htask : Task s.watcher.table s.watcher.prevWd s.watcher.stack s.watcher.place :=
    hregular.agreeing.task
  have hfits : StackFits s.watcher.place s.watcher.stack := hregular.ordered.control.fits
  have hoff := offConfig_of_not_loading hloading
  cases hplace : s.watcher.place with
  | addWatch parentWd other | inotifyAddWatch parentWd other =>
    rw [hplace] at htask hfits
    obtain ⟨hcalls, hextends⟩ := htask
    cases hstack : s.watcher.stack with
    | nil =>
      rw [hstack] at hfits
      exact absurd hfits id
    | cons frame frames =>
      rw [hstack] at hcalls hfits
      have hframesOff : ∀ top, .topLevel top ∉ frames := fun top htop ↦
        hoff top (hstack ▸ List.mem_cons_of_mem _ htop)
      cases frame with
      | subDirs frameWd above names =>
        obtain ⟨⟨row, hrow, hwd, hincludes⟩, hframes⟩ :=
          hregular.including_of_calls hcalls hfits hframesOff
        cases hvisited with
        | place hpath =>
          obtain rfl : other = path := by simpa [workPath, hplace] using hpath
          obtain ⟨name, -, rfl⟩ := hextends row hrow hwd
          exact hincludes.trans includes_join
        | frame hframe =>
          rw [hstack] at hframe
          exact hframes _ _ _ hframe
      | topLevel top => exact absurd (hstack ▸ List.mem_cons_self) (hoff top)
      | created | movedTo =>
        obtain rfl : frames = [] := hfits
        cases hvisited with
        | place hpath =>
          obtain rfl : other = path := by simpa [workPath, hplace] using hpath
          exact hasked.including ⟨⟨parentWd, by simp [hplace]⟩, by simp [hstack]⟩ habsolute
        | frame hframe => simp [hstack] at hframe
  | opendir wd other | readdir wd other | subDirs wd other names =>
    rw [hplace] at htask hfits
    obtain ⟨-, hframes⟩ := hregular.including_of_calls htask hfits hoff
    cases hvisited with
    | place hpath =>
      obtain rfl : other = path := by simpa [workPath, hplace] using hpath
      exact hframes _ _ _ List.mem_cons_self
    | frame hframe => exact hframes _ _ _ (List.mem_cons_of_mem _ hframe)
  | returned =>
    rw [hplace] at htask hfits
    obtain ⟨wd, hcalls⟩ := htask
    cases hvisited with
    | place hpath => simp [workPath, hplace] at hpath
    | frame hframe =>
      cases hstack : s.watcher.stack with
      | nil =>
        rw [hstack] at hframe
        cases hframe
      | cons frame frames =>
        rw [hstack] at hcalls hfits hframe
        have hframesOff : ∀ top, .topLevel top ∉ frames := fun top htop ↦
          hoff top (hstack ▸ List.mem_cons_of_mem _ htop)
        cases frame with
        | subDirs =>
          obtain ⟨-, hframes⟩ := hregular.including_of_calls hcalls hfits hframesOff
          exact hframes _ _ _ hframe
        | topLevel | created | movedTo =>
          obtain rfl : frames = [] := hfits
          simp at hframe
  | removePrunedWds wds new =>
    cases new with
    | some new => exact absurd ⟨wds, hplace⟩ (hsettled new)
    | none =>
      rw [hplace] at hfits
      cases hvisited with
      | place hpath => simp [workPath, hplace] at hpath
      | frame hframe => simp [show s.watcher.stack = [] from hfits] at hframe
  | stopped stop => exact absurd ⟨stop, hplace⟩ hruns
  | loadTopLevelPaths | poll | nextEvent | report =>
    rw [hplace] at hfits
    cases hvisited with
    | place hpath => simp [workPath, hplace] at hpath
    | frame hframe => simp [show s.watcher.stack = [] from hfits] at hframe

end DirWatcher.Watching
