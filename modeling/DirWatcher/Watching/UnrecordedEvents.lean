import DirWatcher.Environment.Refinement
import DirWatcher.Watching.Acyclic

/-!
Events of a watch that has no row. They come as the queued events of a subtree that has
been pruned, and the test for a missing directory stands at the end of the loop, after
the branches that join a path from it.
-/

set_option autoImplicit false
set_option relaxedAutoImplicit false

namespace DirWatcher.Watching

open Source Environment Foundation.Runs

variable {κ α : Type} {cfg : Config} {k : Kernel κ α} {s : System κ} {event : Event}
  {rest : List Event}

/-! ### The processing of one event -/

/-- The path that the branch of an event joins from the directory of the event. -/
def joinedPath (w : Watcher) (event : Event) : Option Bytes :=
  match event.branch with
  | .createDir => some (eventPath w event)
  | .movedFrom =>
    if event.cookie ≠ w.prevCookie ∧ event.has inIsdir then some (eventPath w event) else none
  | .movedTo => if event.has inIsdir then some (eventPath w event) else none
  | _ => none

/-- The branch of the next event, and the end of the loop if the branch leads to it. -/
def finishEvent (cfg : Config) (k : Kernel κ α) (s : System κ) : Option (System κ) :=
  (s.step cfg k .internal).bind fun next ↦
    if next.watcher.place = .report then next.step cfg k .internal else some next

/-- No path is joined for the event, and without a system call the watcher has stopped for
the cookie or goes on with the other events, with the same table and nothing reported. -/
structure Harmless (cfg : Config) (k : Kernel κ α) (s : System κ) (event : Event)
    (rest : List Event) : Prop where
  joins : joinedPath (s.watcher.findParent event) event = none
  ends : ∃ after, finishEvent cfg k s = some after ∧
    (after.watcher.place = .stopped (.exited 17) ∨
      after.watcher.place = .nextEvent ∧ after.watcher.batch = rest) ∧
    after.watcher.table = s.watcher.table ∧ after.kernel = s.kernel ∧
    after.watcher.reports = s.watcher.reports

/-- The lookup for an earlier event of the same watch has not left a directory behind. -/
def NoMemo (w : Watcher) (event : Event) : Prop := event.wd = w.prevWd → w.parentDir = none

/-- The event is not about a directory that has come or gone, unless its cookie stops the
watcher, and its end of the loop finds no directory to report. -/
def Inert (w : Watcher) (event : Event) : Prop :=
  match event.branch with
  | .qOverflow => False
  | .createDir => False
  | .movedFrom => event.cookie = w.prevCookie ∨ event.has inIsdir = false ∧ NoMemo w event
  | .movedTo => event.has inIsdir = false ∧ NoMemo w event
  | .other => NoMemo w event
  | _ => True

theorem findParent_parentDir_eq_none_iff {w : Watcher}
    (hrow : wdDirectoryExists w.table event.wd = false) :
    (w.findParent event).parentDir = none ↔ NoMemo w event := by
  unfold Watcher.findParent NoMemo
  split_ifs with hwd
  · simp [hwd]
  · simpa [hwd] using findWdDirectory_eq_none_iff.mpr (wdDirectoryExists_eq_false_iff.mp hrow)

/-! ### The branches -/

/-- The watcher when the body of the loop is left. -/
def afterReport (next : Watcher) : Watcher := if next.place = .report then next.report else next

theorem step_internal_report (hplace : s.watcher.place = .report) :
    s.step cfg k .internal = some { s with watcher := s.watcher.report } := by
  simp [System.step, Watcher.internal, hplace]

theorem finishEvent_eq (hplace : s.watcher.place = .nextEvent)
    (hbatch : s.watcher.batch = event :: rest) :
    finishEvent cfg k s = some { s with
      watcher := afterReport
        (({ s.watcher with batch := rest }.findParent event).dispatch event) } := by
  have hfirst : s.step cfg k .internal = some { s with
      watcher := ({ s.watcher with batch := rest }.findParent event).dispatch event } := by
    simp [System.step, Watcher.internal, hplace, hbatch]
  rw [finishEvent, hfirst, Option.bind_some, afterReport]
  split_ifs with hreport
  · exact step_internal_report hreport
  · rfl

theorem removeWdDirectory_eq_self {table : Table} {wd : Wd}
    (hrow : wdDirectoryExists table wd = false) : removeWdDirectory table wd = table := by
  simpa [removeWdDirectory, wdDirectoryExists] using hrow

/-- The watcher has stopped for the cookie or has left the body of the loop, and has
changed and reported nothing. -/
def Idles (before after : Watcher) : Prop :=
  (after.place = .stopped (.exited 17) ∨
    after.place = .nextEvent ∧ after.batch = before.batch) ∧
  after.table = before.table ∧ after.reports = before.reports

/-- The end of the loop reports nothing exactly when it has found no directory. -/
theorem idles_afterReport_iff {w next : Watcher} (hplace : next.place = .report)
    (hbatch : next.batch = w.batch) (htable : next.table = w.table)
    (hreports : next.reports = w.reports) :
    Idles w (afterReport next) ↔ next.parentDir = none := by
  rw [afterReport, if_pos hplace, Idles, report_eq]
  simp [hbatch, htable, hreports]

theorem idles_dispatch_iff {w : Watcher} (hrow : wdDirectoryExists w.table event.wd = false) :
    joinedPath w event = none ∧ Idles w (afterReport (w.dispatch event)) ↔
      match event.branch with
      | .qOverflow => False
      | .createDir => False
      | .movedFrom =>
        event.cookie = w.prevCookie ∨ event.has inIsdir = false ∧ w.parentDir = none
      | .movedTo => event.has inIsdir = false ∧ w.parentDir = none
      | .other => w.parentDir = none
      | _ => True := by
  unfold joinedPath Watcher.dispatch
  cases hbranch : event.branch with
  | qOverflow => simp [Watcher.exit, afterReport, Idles]
  | createDir => simp
  | deleteSelf => simp [afterReport, Idles]
  | moveSelf => simp [afterReport, Idles]
  | createFile => simp [afterReport, Idles]
  | ignored => simp [afterReport, Idles, removeWdDirectory_eq_self hrow]
  | other =>
    have hidles : Idles w (afterReport { w with place := .report }) ↔ w.parentDir = none :=
      idles_afterReport_iff rfl rfl rfl rfl
    simpa using hidles
  | movedFrom =>
    by_cases hcookie : event.cookie = w.prevCookie
    · simp [Watcher.movedFrom, hcookie, Watcher.exit, afterReport, Idles]
    · cases hisdir : event.has inIsdir with
      | true => simp [hcookie]
      | false =>
        have hnext : w.movedFrom event =
            { w with prevCookie := event.cookie, place := .report } := by
          simp [Watcher.movedFrom, hcookie, hisdir]
        have hidles : Idles w (afterReport (w.movedFrom event)) ↔ w.parentDir = none := by
          rw [hnext]
          exact idles_afterReport_iff rfl rfl rfl rfl
        simpa [hcookie] using hidles
  | movedTo =>
    cases hisdir : event.has inIsdir with
    | true => simp
    | false =>
      have hnext : w.movedTo event = { w with prevCookie := event.cookie, place := .report } := by
        simp [Watcher.movedTo, hisdir]
      have hidles : Idles w (afterReport (w.movedTo event)) ↔ w.parentDir = none := by
        rw [hnext]
        exact idles_afterReport_iff rfl rfl rfl rfl
      simpa using hidles

/-! ### The condition -/

/-- An event of a watch without a row is harmless exactly if it is not about a directory
that has come or gone and no directory is left from the event before. -/
theorem unrecorded_events_harmless (cfg : Config) (k : Kernel κ α) (s : System κ) (event : Event)
    (rest : List Event) (hplace : s.watcher.place = .nextEvent)
    (hbatch : s.watcher.batch = event :: rest)
    (hrow : wdDirectoryExists s.watcher.table event.wd = false) :
    Harmless cfg k s event rest ↔ Inert s.watcher event := by
  have hlookup : wdDirectoryExists ({ s.watcher with batch := rest }.findParent event).table
      event.wd = false := by simpa using hrow
  have hidles := idles_dispatch_iff hlookup
  have hparent : ({ s.watcher with batch := rest }.findParent event).parentDir = none ↔
      NoMemo s.watcher event := findParent_parentDir_eq_none_iff hrow
  rw [findParent_prevCookie, hparent] at hidles
  unfold Inert
  refine Iff.trans ?_ hidles
  constructor
  · rintro ⟨hjoins, after, hafter, hends, htable, -, hreports⟩
    rw [finishEvent_eq hplace hbatch, Option.some_inj] at hafter
    subst hafter
    exact ⟨by simpa [joinedPath, eventPath, findParent_withBatch] using hjoins,
      by simpa using hends,
      by simpa using htable, by simpa using hreports⟩
  · rintro ⟨hjoins, hends, htable, hreports⟩
    exact ⟨by simpa [joinedPath, eventPath, findParent_withBatch] using hjoins, _,
      finishEvent_eq hplace hbatch, by simpa using hends, by simpa using htable, rfl,
      by simpa using hreports⟩

/-- A file of a removed directory has been closed. -/
theorem unrecorded_events_harmless_close :
    Harmless ⟨[], [], by decide⟩ anyAnswer
      ⟨{ Watcher.start ⟨[], [], by decide⟩ with
        place := .nextEvent, batch := [⟨7, inCloseWrite, 0, literal "f"⟩] }, ()⟩
      ⟨7, inCloseWrite, 0, literal "f"⟩ [] := by
  refine (unrecorded_events_harmless _ _ _ _ _ rfl rfl (by decide)).mpr ?_
  rw [Inert, show Event.branch ⟨7, inCloseWrite, 0, literal "f"⟩ = .other by decide]
  exact fun _ ↦ rfl

/-- `/t/a` is moved to `/t/b`, and a directory `x` is made in it before the watcher has read
the events of the move. The creation is announced with the watch descriptor of the old watch,
whose row has been pruned: the watcher asks for a watch on `(null)/x`. -/
theorem unrecorded_events_harmless_fails :
    ∃ s : System FileSystem, Reaches (System.step ⟨[literal "/t"], [], by decide⟩ fileSystem)
        (System.start ⟨[literal "/t"], [], by decide⟩ (.start oneSubDir)) s ∧
      s.watcher.place = .nextEvent ∧
      s.watcher.batch = [⟨2, createDirMask, 0, literal "x"⟩] ∧
      wdDirectoryExists s.watcher.table 2 = false ∧
      Event.has ⟨2, createDirMask, 0, literal "x"⟩ inQOverflow = false ∧
      ¬ Harmless ⟨[literal "/t"], [], by decide⟩ fileSystem s
        ⟨2, createDirMask, 0, literal "x"⟩ [] ∧
      ∃ asking, run (System.step ⟨[literal "/t"], [], by decide⟩ fileSystem) s
          [.internal, .internal] = some asking ∧
        asking.watcher.call = some (.inotifyAddWatch (literal "(null)/x")) := by
  have hrun : (run (System.step ⟨[literal "/t"], [], by decide⟩ fileSystem)
      (System.start ⟨[literal "/t"], [], by decide⟩ (.start oneSubDir))
      (startsOneSubDir ++ [.act (.rename ⟨1, literal "a", 2⟩ 1 (literal "b") 5),
        .act (.mkdir true 2 (literal "x")),
        .answer (.events [⟨1, FileSystem.movedFromDirMask, 5, literal "a"⟩,
          ⟨1, FileSystem.movedToDirMask, 5, literal "b"⟩, ⟨2, inMoveSelf, 0, []⟩,
          ⟨2, createDirMask, 0, literal "x"⟩]), .internal, .answer .done, .internal, .internal,
        .internal, .internal, .answer (.watch 3), .answer .done, .answer (.names [literal "x"]),
        .internal, .internal, .answer (.watch 4), .answer .done, .answer (.names []), .internal,
        .internal, .internal, .internal, .internal, .internal])).map
      (fun s ↦ (s.watcher.place, s.watcher.batch, wdDirectoryExists s.watcher.table 2,
        (run (System.step ⟨[literal "/t"], [], by decide⟩ fileSystem) s
          [.internal, .internal]).map fun asking ↦ asking.watcher.call)) =
      some (.nextEvent, [⟨2, createDirMask, 0, literal "x"⟩], false,
        some (some (.inotifyAddWatch (literal "(null)/x")))) := by decide
  obtain ⟨s, hreaches, hseen⟩ := exists_reaches_of_run hrun
  simp only [Prod.mk.injEq] at hseen
  obtain ⟨hplace, hbatch, hrow, hasks⟩ := hseen
  refine ⟨s, hreaches, hplace, hbatch, hrow, by decide, fun hharmless ↦ ?_,
    Option.map_eq_some_iff.mp hasks⟩
  have hjoins := hharmless.joins
  rw [joinedPath, show Event.branch ⟨2, createDirMask, 0, literal "x"⟩ = .createDir by decide]
    at hjoins
  cases hjoins

end DirWatcher.Watching
