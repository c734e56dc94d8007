import DirWatcher.Watching.WatchedTrees

/-!
A call of `add_watch` on its own, from any table and any state of the file system, with
nothing else happening until it returns. A call that is made in a run of the watcher does
the same, as `add_watch` does not look at its callers.
-/

set_option autoImplicit false
set_option relaxedAutoImplicit false

namespace DirWatcher.Watching

open Source Environment Foundation.Runs

variable {κ α : Type}

/-- The step is one of the watcher. -/
def Undisturbed : Label α → Prop
  | .act _ => False
  | _ => True

instance (label : Label α) : Decidable (Undisturbed label) :=
  match label with
  | .act _ => inferInstanceAs (Decidable False)
  | .internal | .answer _ => inferInstanceAs (Decidable True)

/-- The state in which `add_watch` is called, without a caller. -/
def addWatchCall (s : System κ) (parentWd : Wd) (path : Bytes) : System κ :=
  { s with watcher := { s.watcher with place := .addWatch parentWd path, stack := [] } }

structure Returns (s : System κ) (result : ℤ) : Prop where
  place : s.watcher.place = .returned result
  stack : s.watcher.stack = []

/-- The places in `add_watch`. -/
def InAddWatch : Place → Prop
  | .loadTopLevelPaths | .poll | .nextEvent | .report | .removePrunedWds _ none => False
  | _ => True

/-- The watcher is in a call of `add_watch`, and all calls around it are recursive ones. -/
structure Calling (w : Watcher) : Prop where
  place : InAddWatch w.place
  frames : ∀ frame ∈ w.stack, ∃ wd path names, frame = .subDirs wd path names

theorem calling_addWatchCall (s : System κ) (parentWd : Wd) (path : Bytes) :
    Calling (addWatchCall s parentWd path).watcher where
  place := trivial
  frames := by simp [addWatchCall]

/-! ### The steps of a call -/

/-- A successful `inotify_add_watch`: the directory has the watch already, or gets a new
one. -/
inductive WatchStep (fs : FileSystem) (wd : Wd) (dir : Dir) : FileSystem → Prop
  | again (hwatch : ⟨wd, dir⟩ ∈ fs.watches) : WatchStep fs wd dir fs
  | fresh (hwd : wd ∉ fs.used) (hdir : ∀ old ∈ fs.watches, old.dir ≠ dir)
      (hmade : dir < fs.tree.next) (hpositive : 0 < wd) :
      WatchStep fs wd dir (fs.watch wd dir hwd hdir hmade)

section WatchStep

variable {fs after : FileSystem} {wd : Wd} {dir : Dir}

theorem WatchStep.mem (hstep : WatchStep fs wd dir after) : ⟨wd, dir⟩ ∈ after.watches := by
  cases hstep with
  | again hwatch => exact hwatch
  | fresh => exact List.mem_cons_self

theorem WatchStep.tree (hstep : WatchStep fs wd dir after) : after.tree = fs.tree := by
  cases hstep <;> rfl

theorem WatchStep.watches (hstep : WatchStep fs wd dir after) : fs.watches ⊆ after.watches := by
  cases hstep with
  | again => exact List.Subset.refl _
  | fresh => exact List.subset_cons_self _ _

theorem WatchStep.used (hstep : WatchStep fs wd dir after) : wd ∈ after.used :=
  (after.known _ hstep.mem).1

end WatchStep

/-- The steps of a call of `add_watch` while nothing else happens. -/
inductive CallMove (cfg : Config) (s : System FileSystem) : Label FsAct → System FileSystem → Prop
  | stops {label : Label FsAct} {after : System FileSystem} (hstopped : Stopped after.watcher)
      (hstack : after.watcher.stack = s.watcher.stack) : CallMove cfg s label after
  | refuses {parentWd : Wd} {path : Bytes} (hplace : s.watcher.place = .addWatch parentWd path) :
      CallMove cfg s .internal { s with watcher := { s.watcher with place := .returned (-1) } }
  | requests {parentWd : Wd} {path : Bytes} (hplace : s.watcher.place = .addWatch parentWd path)
      (hrefuses : refusesPath cfg path = false)
      (hfind : findDirectoryWd s.watcher.table path = nullWd) :
      CallMove cfg s .internal
        { s with watcher := { s.watcher with place := .inotifyAddWatch parentWd path } }
  | missed {parentWd : Wd} {path : Bytes} (errno : Errno)
      (hplace : s.watcher.place = .inotifyAddWatch parentWd path) :
      CallMove cfg s (.answer (.error errno))
        { s with watcher := { s.watcher with place := .returned (-1) } }
  | reuses {parentWd wd : Wd} {path : Bytes} {dir : Dir} {wds : List Wd} {table : Table}
      {kernel : FileSystem} (hplace : s.watcher.place = .inotifyAddWatch parentWd path)
      (hresolve : s.kernel.tree.resolve path = some dir) (hwatch : WatchStep s.kernel wd dir kernel)
      (hexists : wdDirectoryExists s.watcher.table wd = true)
      (hprune : pruneWdDirectory s.watcher.table wd = some (wds, table)) :
      CallMove cfg s (.answer (.watch wd)) ⟨{ s.watcher with
        table, place := .removePrunedWds wds (some ⟨wd, parentWd, path⟩) }, kernel⟩
  | adds {parentWd wd : Wd} {path : Bytes} {dir : Dir} {kernel : FileSystem}
      (hplace : s.watcher.place = .inotifyAddWatch parentWd path)
      (hresolve : s.kernel.tree.resolve path = some dir)
      (hreadable : dir ∉ s.kernel.tree.unreadable) (hwatch : WatchStep s.kernel wd dir kernel)
      (hfree : Free s.watcher.table ⟨wd, parentWd, path⟩) :
      CallMove cfg s (.answer (.watch wd)) ⟨{ s.watcher with
        table := s.watcher.table ++ [⟨wd, parentWd, path⟩], place := .opendir wd path }, kernel⟩
  | removes (answer : Answer) {wd : Wd} {rest : List Wd} {row : Option Row} {kernel : FileSystem}
      (hplace : s.watcher.place = .removePrunedWds (wd :: rest) row)
      (hanswer : answer = .done ∨ answer = .error .einval)
      (hkernel : kernel = s.kernel.kill wd ∨ kernel = s.kernel ∧ wd ∉ s.kernel.live) :
      CallMove cfg s (.answer answer)
        ⟨{ s.watcher with place := .removePrunedWds rest row }, kernel⟩
  | inserts {row : Row} (hplace : s.watcher.place = .removePrunedWds [] (some row))
      (hfree : Free s.watcher.table row) :
      CallMove cfg s .internal { s with watcher := { s.watcher with
        table := s.watcher.table ++ [row], place := .opendir row.wd row.path } }
  | opens {wd : Wd} {path : Bytes} {dir : Dir} (hplace : s.watcher.place = .opendir wd path)
      (hresolve : s.kernel.tree.resolve path = some dir) :
      CallMove cfg s (.answer .done) ⟨{ s.watcher with place := .readdir wd path },
        { s.kernel with scan := some (Scan.start s.kernel.tree dir) }⟩
  | opensNothing {wd : Wd} {path : Bytes} (errno : Errno)
      (hplace : s.watcher.place = .opendir wd path) :
      CallMove cfg s (.answer (.error errno))
        { s with watcher := { s.watcher with place := .subDirs wd path [] } }
  | lists {wd : Wd} {path : Bytes} {names : List Bytes} {scan : Scan}
      (hplace : s.watcher.place = .readdir wd path) (hscan : s.kernel.scan = some scan)
      (hnames : names ⊆ scan.may) :
      CallMove cfg s (.answer (.names names)) ⟨{ s.watcher with place := .subDirs wd path names },
        { s.kernel with scan := none }⟩
  | descends {wd : Wd} {path name : Bytes} {rest : List Bytes}
      (hplace : s.watcher.place = .subDirs wd path (name :: rest)) :
      CallMove cfg s .internal { s with watcher := { s.watcher with
        place := .addWatch wd (joinPath path name)
        stack := .subDirs wd path rest :: s.watcher.stack } }
  | finishes {wd : Wd} {path : Bytes} (hplace : s.watcher.place = .subDirs wd path []) :
      CallMove cfg s .internal { s with watcher := { s.watcher with place := .returned 0 } }
  | returns {result : ℤ} {wd : Wd} {path : Bytes} {names : List Bytes} {rest : List Frame}
      (hplace : s.watcher.place = .returned result)
      (hstack : s.watcher.stack = .subDirs wd path names :: rest) :
      CallMove cfg s .internal { s with watcher := { s.watcher with
        place := .subDirs wd path names, stack := rest } }

variable {cfg : Config} {s after : System FileSystem}

theorem callMove_of_internal {watcher : Watcher} (hcalling : Calling s.watcher)
    (hstep : InternalStep cfg s.watcher watcher) : CallMove cfg s .internal { s with watcher } := by
  have hplace := hcalling.place
  cases hstep with
  | readsLine hother | takesEvent hother | finishesPrune hother | reports hother =>
    rw [hother] at hplace
    exact hplace.elim
  | startsPolling hother =>
    rcases hother with ⟨hother, -⟩ | ⟨hother, -⟩ <;> (rw [hother] at hplace; exact hplace.elim)
  | refuses hat => exact .refuses hat
  | requests hat hrefuses hfind => exact .requests hat hrefuses hfind
  | insertsPruned hat hinsert =>
    cases hinsert with
    | clashes => exact .stops ⟨_, rfl⟩ rfl
    | inserts hadd =>
      obtain ⟨hfree, rfl⟩ := addWdDirectory_eq_some_iff.mp hadd
      exact .inserts hat hfree
  | finishesSubDirs hat => exact .finishes hat
  | descends hat => exact .descends hat
  | overflows => exact .stops ⟨_, rfl⟩ rfl
  | @returns result frame rest hat hstack =>
    obtain ⟨wd, path, names, rfl⟩ :=
      hcalling.frames frame (by rw [hstack]; exact List.mem_cons_self)
    exact .returns hat hstack

theorem watchStep_of_serve {path : Bytes} {wd : Wd} {fs kernel : FileSystem}
    (hserve : fs.serve (.inotifyAddWatch path) (.watch wd) = some kernel) :
    ∃ dir, fs.tree.resolve path = some dir ∧ dir ∉ fs.tree.unreadable ∧
    WatchStep fs wd dir kernel := by
  obtain ⟨dir, hresolve, hreadable, ⟨hwatch, rfl⟩ | ⟨hwd, hdir, hmade, hpositive, rfl⟩⟩ :=
    FileSystem.inotifyAddWatch_spec hserve
  · exact ⟨dir, hresolve, hreadable, .again hwatch⟩
  · exact ⟨dir, hresolve, hreadable, .fresh hwd hdir hmade hpositive⟩

theorem callMove_of_answer {answer : Answer} (hcalling : Calling s.watcher)
    (hstep : s.step cfg fileSystem (.answer answer) = some after) :
    CallMove cfg s (.answer answer) after := by
  obtain ⟨call, hcall, hserve, hresume⟩ := System.step_answer hstep
  obtain ⟨watcher, kernel⟩ := after
  have hstep := resumeStep hresume
  have hplace := hcalling.place
  cases hstep with
  | reads _ hother =>
    rw [hother] at hplace
    exact hplace.elim
  | exits => exact .stops ⟨_, rfl⟩ rfl
  | @reuses parentWd path wd _ hat hexists hprune =>
    obtain rfl := call_eq_inotifyAddWatch hat hcall
    obtain ⟨dir, hresolve, -, hwatch⟩ := watchStep_of_serve hserve
    cases hprune with
    | loops => exact .stops ⟨_, rfl⟩ rfl
    | removes hprune => exact .reuses hat hresolve hwatch hexists hprune
  | @adds parentWd path wd _ hat _ hinsert =>
    obtain rfl := call_eq_inotifyAddWatch hat hcall
    obtain ⟨dir, hresolve, hreadable, hwatch⟩ := watchStep_of_serve hserve
    cases hinsert with
    | clashes => exact .stops ⟨_, rfl⟩ rfl
    | inserts hadd =>
      obtain ⟨hfree, rfl⟩ := addWdDirectory_eq_some_iff.mp hadd
      exact .adds hat hresolve hreadable hwatch hfree
  | @missed parentWd path errno hat =>
    obtain rfl := call_eq_inotifyAddWatch hat hcall
    obtain rfl : s.kernel = kernel := by
      by_contra hne
      simp [fileSystem, FileSystem.serve, hne] at hserve
    exact .missed errno hat
  | @removes wd rest row _ hat hanswer =>
    obtain rfl := call_eq_inotifyRmWatch hat hcall
    refine .removes _ hat hanswer ?_
    rcases hanswer with rfl | rfl
    · obtain ⟨-, hkilled⟩ : wd ∈ s.kernel.live ∧ s.kernel.kill wd = kernel := by
        simpa [fileSystem, FileSystem.serve] using hserve
      exact Or.inl hkilled.symm
    · obtain ⟨hdead, hsame⟩ : wd ∉ s.kernel.live ∧ s.kernel = kernel := by
        simpa [fileSystem, FileSystem.serve] using hserve
      exact Or.inr ⟨hsame.symm, hdead⟩
  | @opens wd path hat =>
    obtain rfl := call_eq_opendir hat hcall
    obtain ⟨dir, hresolve, rfl⟩ := FileSystem.opendir_spec hserve
    exact .opens hat hresolve
  | @opensNothing wd path errno hat =>
    obtain rfl := call_eq_opendir hat hcall
    obtain rfl : s.kernel = kernel := by
      by_contra hne
      simp [fileSystem, FileSystem.serve, hne] at hserve
    exact .opensNothing errno hat
  | @lists wd path names hat =>
    obtain rfl := call_eq_readdir hat hcall
    obtain ⟨scan, hscan, -, hmay, rfl⟩ := FileSystem.readdir_spec hserve
    exact .lists hat hscan hmay

theorem callMove {label : Label FsAct} (hcalling : Calling s.watcher)
    (hundisturbed : Undisturbed label)
    (hstep : s.step cfg fileSystem label = some after) : CallMove cfg s label after := by
  cases label with
  | act => exact hundisturbed.elim
  | internal =>
    obtain ⟨watcher, hinternal, rfl⟩ := System.exists_watcher hstep
    exact callMove_of_internal hcalling (internalStep hinternal)
  | answer => exact callMove_of_answer hcalling hstep

/-- A call stays in its code until it returns. -/
theorem CallMove.calling {label : Label FsAct} (hmove : CallMove cfg s label after)
    (hcalling : Calling s.watcher) : Calling after.watcher := by
  obtain ⟨hplace, hframes⟩ := hcalling
  cases hmove with
  | stops hstopped hstack =>
    obtain ⟨stop, hstop⟩ := hstopped
    exact ⟨by rw [hstop]; trivial, hstack ▸ hframes⟩
  | removes _ hat =>
    rw [hat] at hplace
    exact ⟨by cases ‹Option Row› <;> exact hplace, hframes⟩
  | descends =>
    refine ⟨trivial, fun frame hframe ↦ ?_⟩
    rcases List.mem_cons.mp hframe with rfl | hrest
    · exact ⟨_, _, _, rfl⟩
    · exact hframes frame hrest
  | returns hat hstack =>
    exact ⟨trivial, fun frame hframe ↦ hframes frame (hstack ▸ List.mem_cons_of_mem _ hframe)⟩
  | refuses | requests | missed | reuses | adds | inserts | opens | opensNothing | lists
  | finishes =>
    exact ⟨trivial, hframes⟩

/-! ### Whole calls -/

section Runs

variable {label : Label FsAct}

theorem Returns.not_stopped {result : ℤ} (hreturns : Returns s result) : ¬ Stopped s.watcher := by
  rintro ⟨stop, hstop⟩
  rw [hreturns.place] at hstop
  cases hstop

theorem not_stopped_of_step (hundisturbed : Undisturbed label)
    (hstep : s.step cfg fileSystem label = some after) : ¬ Stopped s.watcher := by
  cases label with
  | act => exact hundisturbed.elim
  | internal => exact not_stopped_of_internal (System.step_internal hstep).1
  | answer =>
    obtain ⟨_, hcall, -⟩ := System.step_answer hstep
    exact not_stopped_of_call hcall

/-- What each step of a call keeps as long as the watcher runs holds in the end. -/
theorem holds_of_call {condition : System FileSystem → Label FsAct → Prop}
    (holds : System FileSystem → Prop) (hcalling : Calling s.watcher) (hstart : holds s)
    (hmove : ∀ state label next, holds state → Undisturbed label → condition state label →
      state.step cfg fileSystem label = some next → CallMove cfg state label next →
      Stopped next.watcher ∨ holds next)
    (hreaches : ReachesWhen (System.step cfg fileSystem)
      (fun state label ↦ Undisturbed label ∧ condition state label) s after)
    (hruns : ¬ Stopped after.watcher) : Calling after.watcher ∧ holds after := by
  refine (hreaches.invariant (fun state ↦
    Stopped state.watcher ∨ Calling state.watcher ∧ holds state)
    (Or.inr ⟨hcalling, hstart⟩) ?_).resolve_left hruns
  rintro state label next hstate ⟨hundisturbed, hcondition⟩ hstep
  obtain ⟨hcalls, hholds⟩ := hstate.resolve_left (not_stopped_of_step hundisturbed hstep)
  have hmoved := callMove hcalls hundisturbed hstep
  exact (hmove state label next hholds hundisturbed hcondition hstep hmoved).imp_right fun hnext ↦
    ⟨hmoved.calling hcalls, hnext⟩

theorem not_stopped_of_reaches
    (hreaches : ReachesWhen (System.step cfg fileSystem)
      (fun _ label ↦ Undisturbed label ∧ True) s after) (hruns : ¬ Stopped after.watcher) :
    ¬ Stopped s.watcher := by
  rcases Relation.ReflTransGen.cases_head hreaches with rfl |
    ⟨next, ⟨label, hundisturbed, hstep⟩, -⟩
  · exact hruns
  · exact not_stopped_of_step hundisturbed.1 hstep

end Runs

/-! ### Calls in a run -/

def appendStack (callers : List Frame) (w : Watcher) : Watcher :=
  { w with stack := w.stack ++ callers }

/-- The same call with other frames under it. -/
def withCallers (callers : List Frame) (s : System κ) : System κ :=
  { s with watcher := appendStack callers s.watcher }

variable {callers : List Frame}

theorem prune_appendStack (w : Watcher) (wd : Wd) (row : Option Row) :
    (appendStack callers w).prune wd row = appendStack callers (w.prune wd row) := by
  unfold Watcher.prune
  dsimp only [appendStack]
  split <;> rfl

theorem insertRow_appendStack (w : Watcher) (row : Row) :
    (appendStack callers w).insertRow row = appendStack callers (w.insertRow row) := by
  unfold Watcher.insertRow
  dsimp only [appendStack]
  split <;> rfl

theorem resume_appendStack (w : Watcher) (answer : Answer) :
    (appendStack callers w).resume answer = (w.resume answer).map (appendStack callers) := by
  unfold Watcher.resume
  dsimp only [appendStack]
  split
  case h_3 =>
    refine congrArg some ?_
    unfold Watcher.watchAdded
    rw [apply_ite (appendStack callers), ← prune_appendStack, ← insertRow_appendStack]
    rfl
  case h_4 =>
    refine congrArg some ?_
    unfold Watcher.watchFailed
    split_ifs <;> rfl
  case h_6 => split_ifs <;> rfl
  case h_8 =>
    refine congrArg some ?_
    unfold Watcher.opendirFailed
    split_ifs <;> rfl
  all_goals rfl

theorem internal_appendStack {w : Watcher} (hcalling : Calling w)
    (hgoing : ∀ result, w.place = .returned result → w.stack ≠ []) :
    (appendStack callers w).internal cfg = (w.internal cfg).map (appendStack callers) := by
  have hplace := hcalling.place
  unfold Watcher.internal
  dsimp only [appendStack]
  split
  case h_1 hat | h_2 hat | h_4 hat | h_8 hat =>
    rw [hat] at hplace
    exact hplace.elim
  case h_3 =>
    refine congrArg some ?_
    unfold Watcher.addWatch
    split_ifs <;> rfl
  case h_5 => exact congrArg some (insertRow_appendStack _ _)
  case h_6 names hat =>
    refine congrArg some ?_
    unfold Watcher.watchSubDir
    cases names with
    | nil => rfl
    | cons name rest =>
      dsimp only
      split_ifs <;> rfl
  case h_7 result hat =>
    cases hstack : w.stack with
    | nil => exact absurd hstack (hgoing result hat)
    | cons frame rest =>
      obtain ⟨wd, path, names, rfl⟩ := hcalling.frames frame (by simp [hstack])
      rfl
  case h_9 => rfl

/-- `add_watch` does not look at its callers. -/
theorem step_withCallers {k : Kernel κ α} {s : System κ} (hcalling : Calling s.watcher)
    (hgoing : ∀ result, ¬ Returns s result) (label : Label α) :
    (withCallers callers s).step cfg k label = (s.step cfg k label).map (withCallers callers) := by
  cases label with
  | act action =>
    simp only [System.step, withCallers, Option.map_map]
    rfl
  | internal =>
    have hinternal : (appendStack callers s.watcher).internal cfg = _ :=
      internal_appendStack hcalling fun result hplace hstack ↦ hgoing result ⟨hplace, hstack⟩
    simp only [System.step, withCallers, hinternal, Option.map_map]
    rfl
  | answer answer =>
    have hcall : (appendStack callers s.watcher).call = s.watcher.call := rfl
    simp only [System.step, withCallers, hcall, resume_appendStack]
    cases s.watcher.call with
    | none => rfl
    | some call =>
      cases hserve : k.serve s.kernel call answer with
      | none => simp [hserve]
      | some kernel =>
        cases s.watcher.resume answer <;> simp [hserve, withCallers]

/-- Until it returns, a call in a run of the watcher does what it does on its own. -/
theorem exists_alone_of_reaches (hcalling : Calling s.watcher)
    (hreaches : ReachesWhen (System.step cfg fileSystem)
      (fun state label ↦ Undisturbed label ∧ ∀ result,
        ¬ (state.watcher.place = .returned result ∧ state.watcher.stack = callers))
      (withCallers callers s) after) :
    ∃ alone, ReachesWhen (System.step cfg fileSystem) (fun _ label ↦ Undisturbed label) s alone ∧
      after = withCallers callers alone := by
  suffices hboth : ∃ alone, Calling alone.watcher ∧
      ReachesWhen (System.step cfg fileSystem) (fun _ label ↦ Undisturbed label) s alone ∧
      after = withCallers callers alone from hboth.imp fun _ h ↦ h.2
  refine hreaches.invariant (fun state ↦ ∃ alone, Calling alone.watcher ∧
    ReachesWhen (System.step cfg fileSystem) (fun _ label ↦ Undisturbed label) s alone ∧
    state = withCallers callers alone) ⟨s, hcalling, Relation.ReflTransGen.refl, rfl⟩ ?_
  rintro _ label next ⟨alone, halone, hreached, rfl⟩ ⟨hundisturbed, hgoing⟩ hstep
  have hunreturned : ∀ result, ¬ Returns alone result := fun result hreturns ↦
    hgoing result ⟨hreturns.place, by simp [withCallers, appendStack, hreturns.stack]⟩
  rw [step_withCallers halone hunreturned] at hstep
  obtain ⟨later, hlater, rfl⟩ := Option.map_eq_some_iff.mp hstep
  exact ⟨later, (callMove halone hundisturbed hlater).calling halone,
    hreached.tail ⟨label, hundisturbed, hlater⟩, rfl⟩

end DirWatcher.Watching
