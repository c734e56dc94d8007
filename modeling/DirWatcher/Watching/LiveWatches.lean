import DirWatcher.Watching.Accuracy
import DirWatcher.Watching.Acyclic
import DirWatcher.Watching.Calls

/-!
The watch a successful call of `add_watch` leaves. When `inotify_add_watch` answers with a
watch descriptor that has a row, the row is pruned with all below it, and each watch of
the pruned rows is removed: the one just returned too, if it is the one of the call. The
watch for the path is live in the end exactly when no such prune is made before the row of
the path is there, and none takes that row away.
-/

set_option autoImplicit false
set_option relaxedAutoImplicit false

namespace DirWatcher.Watching

open Source Environment Foundation.Runs

/-- A row with the path, and a live watch for it on the directory the path leads to. -/
def LiveWatchAt (s : System FileSystem) (path : Bytes) : Prop :=
  ∃ row ∈ s.watcher.table, row.path = path ∧ Accurate s row

/-- When `inotify_add_watch` answers with a watch descriptor that has a row, the prune of
that row leaves a row with the path. -/
def keepsPath (path : Bytes) (s : System FileSystem) : Label FsAct → Bool
  | .answer (.watch wd) => !wdDirectoryExists s.watcher.table wd ||
      (pruneWdDirectory s.watcher.table wd).all fun pruned ↦ pruned.2.any (·.path == path)
  | _ => true

variable {cfg : Config} {s after : System FileSystem} {path : Bytes} {label : Label FsAct}

theorem exists_of_keepsPath {wd : Wd} {wds : List Wd} {table : Table}
    (hkeeps : keepsPath path s (.answer (.watch wd)) = true)
    (hexists : wdDirectoryExists s.watcher.table wd = true)
    (hprune : pruneWdDirectory s.watcher.table wd = some (wds, table)) :
    ∃ row ∈ table, row.path = path := by
  simpa [keepsPath, hexists, hprune] using hkeeps

/-! ### Calls that keep the row of the path -/

/-- The call has not got to its row, and will not get there, or the row is there with a
live watch, which no prune that is under way removes. -/
inductive Watched (path : Bytes) (s : System FileSystem) : Prop
  | asks {parentWd : Wd} (hplace : s.watcher.place = .addWatch parentWd path ∨
      s.watcher.place = .inotifyAddWatch parentWd path) (hstack : s.watcher.stack = [])
  | refused (hplace : s.watcher.place = .returned (-1)) (hstack : s.watcher.stack = [])
  | clashes {wds : List Wd} {row : Row} (hplace : s.watcher.place = .removePrunedWds wds (some row))
      (hclash : ∃ old ∈ s.watcher.table, old.path = row.path)
  | held {row : Row} (hrow : row ∈ s.watcher.table) (hpath : row.path = path)
      (honly : ∀ other ∈ s.watcher.table, other.path = path → other = row)
      (haccurate : Accurate s row)
      (hspared : ∀ wds new, s.watcher.place = .removePrunedWds wds new → row.wd ∉ wds)

section Asking

variable {w : Watcher} {parentWd wd : Wd} {below : Bytes}

theorem asked_of_addWatch
    (hasks : w.place = .addWatch parentWd path ∨ w.place = .inotifyAddWatch parentWd path)
    (hat : w.place = .addWatch wd below) : parentWd = wd ∧ path = below := by
  rw [hat] at hasks
  rcases hasks with hasks | hasks
  · exact (Place.addWatch.inj hasks).imp Eq.symm Eq.symm
  · simp at hasks

theorem asked_of_inotifyAddWatch
    (hasks : w.place = .addWatch parentWd path ∨ w.place = .inotifyAddWatch parentWd path)
    (hat : w.place = .inotifyAddWatch wd below) : parentWd = wd ∧ path = below := by
  rw [hat] at hasks
  rcases hasks with hasks | hasks
  · simp at hasks
  · exact (Place.inotifyAddWatch.inj hasks).imp Eq.symm Eq.symm

end Asking

/-- A new row has a path that no other row has. -/
theorem Watched.insert {table : Table} {row new : Row} (hrow : row ∈ table)
    (hpath : row.path = path)
    (honly : ∀ other ∈ table, other.path = path → other = row) (hfree : Free table new) :
    ∀ other ∈ table ++ [new], other.path = path → other = row := by
  intro other hother hsame
  rcases List.mem_append.mp hother with hold | hnew
  · exact honly other hold hsame
  · obtain rfl := List.mem_singleton.mp hnew
    exact absurd (hpath.trans hsame.symm) (hfree row hrow).2

/-- A row of the path with a live watch keeps both. -/
theorem Watched.move_of_held {row : Row} (hrow : row ∈ s.watcher.table) (hpath : row.path = path)
    (honly : ∀ other ∈ s.watcher.table, other.path = path → other = row)
    (haccurate : Accurate s row)
    (hspared : ∀ wds new, s.watcher.place = .removePrunedWds wds new → row.wd ∉ wds)
    (hkeeps : keepsPath path s label = true) (hmove : CallMove cfg s label after)
    (hruns : ¬ Stopped after.watcher) : Watched path after := by
  cases hmove with
  | stops hstopped => exact absurd hstopped hruns
  | reuses hat hresolve hwatch hexists hprune =>
    obtain ⟨-, hafter, hsub⟩ := pruneWdDirectory_spec hprune
    obtain ⟨kept, hkept, hsame⟩ := exists_of_keepsPath hkeeps hexists hprune
    obtain rfl := honly kept ((hafter kept).mp hkept).1 hsame
    obtain ⟨dir, hlive, hleads⟩ := haccurate
    refine .held hkept hpath (fun other hother ↦ honly other (hsub.subset hother))
      ⟨dir, hwatch.watches hlive, hwatch.tree ▸ hleads⟩ fun others new hother ↦ ?_
    rw [Place.removePrunedWds.injEq] at hother
    exact hother.1 ▸ ((hafter _).mp hkept).2
  | adds hat hresolve hreadable hwatch hfree =>
    obtain ⟨dir, hlive, hleads⟩ := haccurate
    exact .held (List.mem_append_left _ hrow) hpath (Watched.insert hrow hpath honly hfree)
      ⟨dir, hwatch.watches hlive, hwatch.tree ▸ hleads⟩ (by simp)
  | removes _ hat _ hkernel =>
    have hout := hspared _ _ hat
    obtain ⟨dir, hlive, hleads⟩ := haccurate
    refine .held hrow hpath honly ?_ fun others new hother ↦ ?_
    · rcases hkernel with rfl | ⟨rfl, -⟩
      · refine ⟨dir, List.mem_filter.mpr ⟨hlive, ?_⟩, hleads⟩
        simpa using List.ne_of_not_mem_cons hout
      · exact ⟨dir, hlive, hleads⟩
    · rw [Place.removePrunedWds.injEq] at hother
      exact hother.1 ▸ List.not_mem_of_not_mem_cons hout
  | inserts hat hfree =>
    exact .held (List.mem_append_left _ hrow) hpath (Watched.insert hrow hpath honly hfree)
      haccurate (by simp)
  | refuses | requests | missed | opens | opensNothing | lists | descends | finishes | returns =>
    exact .held hrow hpath honly haccurate (by simp)

theorem Watched.move (hwatched : Watched path s) (hkeeps : keepsPath path s label = true)
    (hmove : CallMove cfg s label after) : Stopped after.watcher ∨ Watched path after := by
  cases hwatched with
  | asks hplace hstack =>
    cases hmove with
    | stops hstopped => exact Or.inl hstopped
    | refuses | missed => exact Or.inr (.refused rfl hstack)
    | requests hat =>
      obtain ⟨rfl, rfl⟩ := asked_of_addWatch hplace hat
      exact Or.inr (.asks (Or.inr rfl) hstack)
    | reuses hat _ _ hexists hprune =>
      obtain ⟨rfl, rfl⟩ := asked_of_inotifyAddWatch hplace hat
      exact Or.inr (.clashes rfl (exists_of_keepsPath hkeeps hexists hprune))
    | adds hat hresolve _ hwatch hfree =>
      obtain ⟨rfl, rfl⟩ := asked_of_inotifyAddWatch hplace hat
      refine Or.inr (.held (List.mem_append_right _ (List.mem_singleton.mpr rfl)) rfl ?_
        ⟨_, hwatch.mem, hwatch.tree ▸ hresolve⟩ (by simp))
      intro other hother hsame
      rcases List.mem_append.mp hother with hold | hnew
      · exact absurd hsame (hfree other hold).2
      · exact List.mem_singleton.mp hnew
    | removes _ hat | inserts hat | opens hat | opensNothing _ hat | lists hat | descends hat
    | finishes hat | returns hat => rcases hplace with hplace | hplace <;> simp [hat] at hplace
  | refused hplace hstack =>
    cases hmove with
    | stops hstopped => exact Or.inl hstopped
    | returns _ hother => simp [hstack] at hother
    | refuses hat | requests hat | missed _ hat | reuses hat | adds hat | removes _ hat
    | inserts hat | opens hat | opensNothing _ hat | lists hat | descends hat | finishes hat =>
      simp [hat] at hplace
  | clashes hplace hclash =>
    cases hmove with
    | stops hstopped => exact Or.inl hstopped
    | removes _ hat =>
      rw [hat, Place.removePrunedWds.injEq] at hplace
      obtain ⟨rfl, rfl⟩ := hplace
      exact Or.inr (.clashes rfl hclash)
    | inserts hat hfree =>
      rw [hat, Place.removePrunedWds.injEq] at hplace
      obtain ⟨rfl, hrow⟩ := hplace
      obtain rfl := Option.some_inj.mp hrow
      obtain ⟨old, hold, hsame⟩ := hclash
      exact absurd hsame (hfree old hold).2
    | refuses hat | requests hat | missed _ hat | reuses hat | adds hat | opens hat
    | opensNothing _ hat | lists hat | descends hat | finishes hat | returns hat =>
      simp [hat] at hplace
  | held hrow hpath honly haccurate hspared =>
    exact or_iff_not_imp_left.mpr
      (Watched.move_of_held hrow hpath honly haccurate hspared hkeeps hmove)

/-! ### Calls that lose it -/

/-- The watch descriptor has been used, and will not be used again. -/
def Dead (fs : FileSystem) (wd : Wd) : Prop := wd ∈ fs.used ∧ wd ∉ fs.live

theorem Dead.watchStep {fs kernel : FileSystem} {wd other : Wd} {dir : Dir} (hdead : Dead fs other)
    (hwatch : WatchStep fs wd dir kernel) : Dead kernel other := by
  cases hwatch with
  | again => exact hdead
  | fresh hwd =>
    refine ⟨List.mem_cons_of_mem _ hdead.1, fun hlive ↦ ?_⟩
    rcases List.mem_cons.mp hlive with hsame | hold
    · obtain rfl : other = wd := hsame
      exact hwd hdead.1
    · exact hdead.2 hold

/-- The place is in the call for the path, after the answer of `inotify_add_watch`, or in one
that it makes for a longer path. -/
def PlaceWithin (path : Bytes) : Place → Prop
  | .addWatch _ below | .inotifyAddWatch _ below => path.length < below.length
  | .removePrunedWds _ (some row) => path.length ≤ row.path.length
  | .opendir _ below | .readdir _ below | .subDirs _ below _ => path.length ≤ below.length
  | _ => True

structure Within (path : Bytes) (w : Watcher) : Prop where
  place : PlaceWithin path w.place
  frames : ∀ wd below names, .subDirs wd below names ∈ w.stack → path.length ≤ below.length

/-- The call has not come to the answer of `inotify_add_watch`. -/
def Entering (path : Bytes) (w : Watcher) : Prop :=
  (∃ parentWd, w.place = .addWatch parentWd path ∨ w.place = .inotifyAddWatch parentWd path) ∧
    w.stack = []

theorem Entering.move (hentering : Entering path s.watcher) (hmove : CallMove cfg s label after) :
    Stopped after.watcher ∨ Entering path after.watcher ∨ Within path after.watcher := by
  obtain ⟨⟨parentWd, hplace⟩, hstack⟩ := hentering
  have hframes : ∀ wd below names, .subDirs wd below names ∈ s.watcher.stack →
      path.length ≤ below.length := by simp [hstack]
  cases hmove with
  | stops hstopped => exact Or.inl hstopped
  | refuses | missed => exact Or.inr (Or.inr ⟨trivial, hframes⟩)
  | requests hat =>
    obtain ⟨rfl, rfl⟩ := asked_of_addWatch hplace hat
    exact Or.inr (Or.inl ⟨⟨_, Or.inr rfl⟩, hstack⟩)
  | reuses hat | adds hat =>
    obtain ⟨rfl, rfl⟩ := asked_of_inotifyAddWatch hplace hat
    exact Or.inr (Or.inr ⟨le_rfl, hframes⟩)
  | removes _ hat | inserts hat | opens hat | opensNothing _ hat | lists hat | descends hat
  | finishes hat | returns hat => rcases hplace with hplace | hplace <;> simp [hat] at hplace

theorem Within.move (hwithin : Within path s.watcher) (hmove : CallMove cfg s label after) :
    Stopped after.watcher ∨ Within path after.watcher := by
  obtain ⟨hplace, hframes⟩ := hwithin
  cases hmove with
  | stops hstopped => exact Or.inl hstopped
  | refuses | missed | finishes => exact Or.inr ⟨trivial, hframes⟩
  | requests hat => exact Or.inr ⟨by rwa [hat] at hplace, hframes⟩
  | reuses hat | adds hat =>
    rw [hat] at hplace
    exact Or.inr ⟨le_of_lt hplace, hframes⟩
  | removes _ hat =>
    rw [hat] at hplace
    exact Or.inr ⟨by cases ‹Option Row› <;> exact hplace, hframes⟩
  | inserts hat | opens hat | opensNothing _ hat | lists hat =>
    exact Or.inr ⟨by rwa [hat] at hplace, hframes⟩
  | @descends wd below name rest hat =>
    rw [hat] at hplace
    change path.length ≤ below.length at hplace
    refine Or.inr ⟨?_, fun other above names hframe ↦ ?_⟩
    · change path.length < (joinPath below name).length
      rw [length_joinPath]
      omega
    · rcases List.mem_cons.mp hframe with hfirst | hrest
      · cases hfirst
        exact hplace
      · exact hframes _ _ _ hrest
  | returns hat hstack =>
    refine Or.inr ⟨hframes _ _ _ (hstack ▸ List.mem_cons_self), fun other above names hframe ↦ ?_⟩
    exact hframes _ _ _ (hstack ▸ List.mem_cons_of_mem _ hframe)

/-- No row with the path has a live watch, and none will be inserted. -/
structure Lost (path : Bytes) (s : System FileSystem) : Prop where
  within : Within path s.watcher
  rows : ∀ row ∈ s.watcher.table, row.path = path → Dead s.kernel row.wd
  inserting : ∀ wds row, s.watcher.place = .removePrunedWds wds (some row) → row.path = path →
    row.wd ∈ s.kernel.used ∧ (row.wd ∈ wds ∨ row.wd ∉ s.kernel.live)

theorem lost_of_not_keepsPath (hcall : Entering path s.watcher ∨ Within path s.watcher)
    (hloses : keepsPath path s label = false) (hmove : CallMove cfg s label after) :
    Stopped after.watcher ∨ Lost path after := by
  have hwithin : Stopped after.watcher ∨ Entering path after.watcher ∨ Within path after.watcher :=
    hcall.elim (fun hentering ↦ hentering.move hmove) fun hwithin ↦
      (hwithin.move hmove).imp_right Or.inr
  cases hmove with
  | stops hstopped => exact Or.inl hstopped
  | @reuses parentWd wd asked dir wds table kernel hat _ hwatch hexists hprune =>
    obtain ⟨hwds, -, -⟩ := pruneWdDirectory_spec hprune
    have hnone : ∀ row ∈ table, row.path ≠ path := by
      simpa [keepsPath, hexists, hprune] using hloses
    refine Or.inr ⟨?_, fun row hrow hpath ↦ absurd hpath (hnone row hrow),
      fun others new hplace _ ↦ ?_⟩
    · refine (hwithin.resolve_left (by simp [Stopped])).resolve_left ?_
      rintro ⟨⟨other, hplace | hplace⟩, -⟩ <;> cases hplace
    · rw [Place.removePrunedWds.injEq, Option.some_inj] at hplace
      obtain ⟨rfl, rfl⟩ := hplace
      exact ⟨hwatch.used, Or.inl ((hwds wd).mpr Relation.ReflTransGen.refl)⟩
  | adds _ _ _ _ hfree =>
    have hexists := wdDirectoryExists_eq_false_iff.mpr fun row hrow ↦ (hfree row hrow).1
    simp [keepsPath, hexists] at hloses
  | removes _ _ hanswer => rcases hanswer with rfl | rfl <;> simp [keepsPath] at hloses
  | refuses | requests | missed | inserts | opens | opensNothing | lists | descends | finishes
  | returns => simp [keepsPath] at hloses

theorem mem_live_kill {fs : FileSystem} {wd other : Wd} :
    other ∈ (fs.kill wd).live ↔ other ∈ fs.live ∧ other ≠ wd := by
  simp [FileSystem.mem_live, FileSystem.kill]

theorem Dead.kill {fs : FileSystem} {wd other : Wd} (hdead : Dead fs other) :
    Dead (fs.kill wd) other := ⟨hdead.1, fun hlive ↦ hdead.2 (mem_live_kill.mp hlive).1⟩

theorem Lost.move (hlost : Lost path s) (hmove : CallMove cfg s label after) :
    Stopped after.watcher ∨ Lost path after := by
  have hwithin := hlost.within.move hmove
  have hplace := hlost.within.place
  refine or_iff_not_imp_left.mpr fun hruns ↦ ⟨hwithin.resolve_left hruns, ?_, ?_⟩
  · cases hmove with
    | stops hstopped => exact absurd hstopped hruns
    | reuses _ _ hwatch _ hprune =>
      obtain ⟨-, -, hsub⟩ := pruneWdDirectory_spec hprune
      exact fun row hrow hpath ↦ (hlost.rows row (hsub.subset hrow) hpath).watchStep hwatch
    | adds hat _ _ hwatch =>
      rw [hat] at hplace
      intro row hrow hpath
      rcases List.mem_append.mp hrow with hold | hnew
      · exact (hlost.rows row hold hpath).watchStep hwatch
      · obtain rfl := List.mem_singleton.mp hnew
        exact absurd (congrArg List.length hpath) (ne_of_gt hplace)
    | removes _ _ _ hkernel =>
      intro row hrow hpath
      rcases hkernel with rfl | ⟨rfl, -⟩
      · exact (hlost.rows row hrow hpath).kill
      · exact hlost.rows row hrow hpath
    | inserts hat =>
      intro row hrow hpath
      rcases List.mem_append.mp hrow with hold | hnew
      · exact hlost.rows row hold hpath
      · obtain rfl := List.mem_singleton.mp hnew
        obtain ⟨hused, hdead⟩ := hlost.inserting _ _ hat hpath
        exact ⟨hused, hdead.resolve_left List.not_mem_nil⟩
    | refuses | requests | missed | opens | opensNothing | lists | descends | finishes | returns =>
      exact hlost.rows
  · intro wds row hafter hpath
    cases hmove with
    | stops hstopped => exact absurd hstopped hruns
    | reuses hat =>
      rw [hat] at hplace
      rw [Place.removePrunedWds.injEq, Option.some_inj] at hafter
      obtain ⟨-, rfl⟩ := hafter
      exact absurd (congrArg List.length hpath) (ne_of_gt hplace)
    | @removes _ wd rest new kernel hat _ hkernel =>
      rw [Place.removePrunedWds.injEq] at hafter
      obtain ⟨rfl, rfl⟩ := hafter
      obtain ⟨hused, hdead⟩ := hlost.inserting _ _ hat hpath
      have hkilled : wd ∉ kernel.live ∧ kernel.live ⊆ s.kernel.live ∧
          kernel.used = s.kernel.used := by
        rcases hkernel with rfl | ⟨rfl, hgone⟩
        · exact ⟨fun hlive ↦ (mem_live_kill.mp hlive).2 rfl, fun _ hlive ↦
            (mem_live_kill.mp hlive).1, rfl⟩
        · exact ⟨hgone, List.Subset.refl _, rfl⟩
      refine ⟨hkilled.2.2 ▸ hused, ?_⟩
      rcases hdead with hmem | hdead
      · rcases List.mem_cons.mp hmem with hsame | hrest
        · exact Or.inr (hsame ▸ hkilled.1)
        · exact Or.inl hrest
      · exact Or.inr fun hlive ↦ hdead (hkilled.2.1 hlive)
    | refuses | requests | missed | adds | inserts | opens | opensNothing | lists | descends
    | finishes | returns => cases hafter

theorem Lost.not_liveWatchAt (hlost : Lost path s) : ¬ LiveWatchAt s path := by
  rintro ⟨row, hrow, hpath, dir, hwatch, -⟩
  exact (hlost.rows row hrow hpath).2 (FileSystem.mem_live.mpr ⟨dir, hwatch⟩)

/-! ### Whole calls -/

/-- Any call of `add_watch` that returns zero, from any table and any file system that is at
rest during the call: there is a row with the path and a live watch on the directory exactly
if each prune for a watch descriptor that `inotify_add_watch` has answered with leaves a row
with the path. -/
theorem liveWatchAt_iff_keepsPath (cfg : Config) (s : System FileSystem) (parentWd : Wd)
    (path : Bytes) (labels : List (Label FsAct)) {after : System FileSystem}
    (hrun : runChecked (System.step cfg fileSystem) (fun _ label ↦ decide (Undisturbed label))
      (addWatchCall s parentWd path) labels = some after)
    (hreturns : Returns after 0) :
    LiveWatchAt after path ↔
      runChecked (System.step cfg fileSystem)
        (fun state label ↦ decide (Undisturbed label) && keepsPath path state label)
        (addWatchCall s parentWd path) labels = some after := by
  have hcalling := calling_addWatchCall s parentWd path
  constructor
  · intro hlive
    refine (runChecked_or_fails (keepsPath path) hrun).resolve_right ?_
    rintro ⟨middle, label, next, hbefore, hundisturbed, hloses, hstep, hlater⟩
    replace hundisturbed : Undisturbed label := of_decide_eq_true hundisturbed
    have hquiet : ∀ (_ : System FileSystem) (label : Label FsAct),
        decide (Undisturbed label) = true → Undisturbed label ∧ True :=
      fun _ _ hlabel ↦ ⟨of_decide_eq_true hlabel, trivial⟩
    obtain ⟨hcalls, hwithin⟩ := holds_of_call
      (fun state ↦ Entering path state.watcher ∨ Within path state.watcher) hcalling
      (Or.inl ⟨⟨_, Or.inl rfl⟩, rfl⟩) (fun _ _ _ hstate _ _ _ hmove ↦ hstate.elim
        (fun hentering ↦ hentering.move hmove) fun hwithin ↦ (hwithin.move hmove).imp_right Or.inr)
      (hbefore.mono hquiet) (not_stopped_of_step hundisturbed hstep)
    have hmoved := callMove hcalls hundisturbed hstep
    have hlost := (lost_of_not_keepsPath hwithin hloses hmoved).resolve_left
      (not_stopped_of_reaches (hlater.mono hquiet) hreturns.not_stopped)
    obtain ⟨-, hend⟩ := holds_of_call (Lost path) (hmoved.calling hcalls) hlost
      (fun _ _ _ hstate _ _ _ hmove ↦ hstate.move hmove) (hlater.mono hquiet) hreturns.not_stopped
    exact hend.not_liveWatchAt hlive
  · intro hkeeps
    have hreaches : ReachesWhen (System.step cfg fileSystem) (fun state label ↦
        Undisturbed label ∧ keepsPath path state label = true) (addWatchCall s parentWd path)
          after :=
      reachesWhen_of_runChecked _ (by simp) hkeeps
    obtain ⟨-, hwatched⟩ := holds_of_call (Watched path) hcalling
      (.asks (Or.inl rfl) rfl) (fun _ _ _ hwatched _ hkept _ hmove ↦ hwatched.move hkept hmove)
      hreaches hreturns.not_stopped
    cases hwatched with
    | asks hplace => rcases hplace with hplace | hplace <;> simp [hreturns.place] at hplace
    | refused hplace => simp [hreturns.place] at hplace
    | clashes hplace => simp [hreturns.place] at hplace
    | held hrow hpath _ haccurate => exact ⟨_, hrow, hpath, haccurate⟩

/-- `/t/a` has been moved into the new directory `/t/y`. The call for `/t/y` makes one for
`/t/y/a`, which prunes the row of `/t/a`, but not that of `/t/y`. -/
theorem liveWatchAt_iff_keepsPath_moved :
    ∃ s after, Reaches (System.step ⟨[literal "/t"], [], by decide⟩ fileSystem)
        (System.start ⟨[literal "/t"], [], by decide⟩ (.start oneSubDir)) s ∧
      s.watcher.place = .addWatch 1 (literal "/t/y") ∧
      ReachesWhen (System.step ⟨[literal "/t"], [], by decide⟩ fileSystem)
        (fun _ label ↦ Undisturbed label) (addWatchCall s 1 (literal "/t/y")) after ∧
      Returns after 0 ∧ LiveWatchAt after (literal "/t/y") := by
  have hrun : ((run (System.step ⟨[literal "/t"], [], by decide⟩ fileSystem)
      (System.start ⟨[literal "/t"], [], by decide⟩ (.start oneSubDir))
      (startsOneSubDir ++ movesIntoNewDir ++ [.internal])).bind fun s ↦
      (runChecked (System.step ⟨[literal "/t"], [], by decide⟩ fileSystem)
        (fun state label ↦ decide (Undisturbed label) && keepsPath (literal "/t/y") state label)
        (addWatchCall s 1 (literal "/t/y"))
        [.internal, .answer (.watch 3), .answer .done, .answer (.names [literal "a"]),
          .internal, .internal, .answer (.watch 2), .answer .done, .internal, .answer .done,
          .answer (.names []), .internal, .internal, .internal]).map fun after ↦
        (s.watcher.place, after.watcher.place, after.watcher.stack)) =
      some (.addWatch 1 (literal "/t/y"), .returned 0, []) := by decide
  obtain ⟨s, hs, hcall⟩ := Option.bind_eq_some_iff.mp hrun
  obtain ⟨after, hkeeps, hseen⟩ := Option.map_eq_some_iff.mp hcall
  simp only [Prod.mk.injEq] at hseen
  obtain ⟨hplace, hreturned, hstack⟩ := hseen
  have hquiet := runChecked_mono (fun _ _ hcheck ↦ (Bool.and_eq_true_iff.mp hcheck).1) hkeeps
  exact ⟨s, after, reachesWhen_of_runChecked _ (fun _ _ _ ↦ trivial) hs, hplace,
    reachesWhen_of_runChecked _ (fun _ _ ↦ of_decide_eq_true) hquiet, ⟨hreturned, hstack⟩,
    (liveWatchAt_iff_keepsPath _ s 1 _ _ hquiet ⟨hreturned, hstack⟩).mpr hkeeps⟩

/-- The call for `/t/y/a` in that run: `inotify_add_watch` answers with the watch of `/t/a`,
which is removed again before the row for `/t/y/a` is inserted. -/
theorem liveWatchAt_iff_keepsPath_fails :
    ∃ s after, Reaches (System.step ⟨[literal "/t"], [], by decide⟩ fileSystem)
        (System.start ⟨[literal "/t"], [], by decide⟩ (.start oneSubDir)) s ∧
      s.watcher.place = .addWatch 3 (literal "/t/y/a") ∧
      ReachesWhen (System.step ⟨[literal "/t"], [], by decide⟩ fileSystem)
        (fun _ label ↦ Undisturbed label) (addWatchCall s 3 (literal "/t/y/a")) after ∧
      Returns after 0 ∧ ⟨2, 3, literal "/t/y/a"⟩ ∈ after.watcher.table ∧ 2 ∉ after.kernel.live ∧
      ¬ LiveWatchAt after (literal "/t/y/a") := by
  have hrun : ((run (System.step ⟨[literal "/t"], [], by decide⟩ fileSystem)
      (System.start ⟨[literal "/t"], [], by decide⟩ (.start oneSubDir))
      (startsOneSubDir ++ movesIntoNewDir ++ [.internal, .internal, .answer (.watch 3),
        .answer .done, .answer (.names [literal "a"]), .internal])).bind fun s ↦
      (runChecked (System.step ⟨[literal "/t"], [], by decide⟩ fileSystem)
        (fun _ label ↦ decide (Undisturbed label)) (addWatchCall s 3 (literal "/t/y/a"))
        [.internal, .answer (.watch 2), .answer .done, .internal, .answer .done,
          .answer (.names []), .internal]).map fun after ↦
        (s.watcher.place, after.watcher.place, after.watcher.stack,
          decide (after.watcher.table = [⟨1, 0, literal "/t"⟩, ⟨3, 1, literal "/t/y"⟩,
            ⟨2, 3, literal "/t/y/a"⟩] ∧ after.kernel.live = [3, 1]))) =
      some (.addWatch 3 (literal "/t/y/a"), .returned 0, [], true) := by decide
  obtain ⟨s, hs, hcall⟩ := Option.bind_eq_some_iff.mp hrun
  obtain ⟨after, hafter, hseen⟩ := Option.map_eq_some_iff.mp hcall
  simp only [Prod.mk.injEq, decide_eq_true_eq] at hseen
  obtain ⟨hplace, hreturned, hstack, htable, hlive⟩ := hseen
  refine ⟨s, after, reachesWhen_of_runChecked _ (fun _ _ _ ↦ trivial) hs, hplace,
    reachesWhen_of_runChecked _ (fun _ _ ↦ of_decide_eq_true) hafter, ⟨hreturned, hstack⟩,
    by simp [htable], by simp [hlive], ?_⟩
  rintro ⟨row, hrow, hpath, dir, hwatch, -⟩
  have hnone : ∀ row ∈ after.watcher.table, row.path = literal "/t/y/a" →
      row.wd ∉ after.kernel.live := by
    rw [htable, hlive]
    decide
  exact hnone row hrow hpath (FileSystem.mem_live.mpr ⟨dir, hwatch⟩)

end DirWatcher.Watching
