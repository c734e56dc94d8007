import DirWatcher.Source.Watcher

/-!
Everything a step of the watcher can do. The relations below are the functions of
the watcher read backwards: one case for each way a step can go, with what has been
tested on the way.
-/

set_option autoImplicit false
set_option relaxedAutoImplicit false

namespace DirWatcher.Watching

open Source Watcher

/-- `prune_wd_directory` with the table it leaves. -/
inductive PruneStep (w : Watcher) (wd : Wd) (row : Option Row) : Watcher → Prop
  | loops (hprune : pruneWdDirectory w.table wd = none) :
      PruneStep w wd row { w with place := .stopped .loops }
  | removes {wds : List Wd} {table : Table}
      (hprune : pruneWdDirectory w.table wd = some (wds, table)) :
      PruneStep w wd row { w with table, place := .removePrunedWds wds row }

/-- The `INSERT` of `add_wd_directory`. -/
inductive InsertStep (w : Watcher) (row : Row) : Watcher → Prop
  | clashes (hadd : addWdDirectory w.table row = none) :
      InsertStep w row { w with place := .stopped .sqlError }
  | inserts {table : Table} (hadd : addWdDirectory w.table row = some table) :
      InsertStep w row { w with table, place := .opendir row.wd row.path }

/-- The path `watch_new_directory` and `prune_moved_directory` join. -/
def eventPath (w : Watcher) (event : Event) : Bytes := joinPath (printed w.parentDir) event.name

/-- The branches of `process_inotify_events`. -/
inductive DispatchStep (event : Event) (w : Watcher) : Watcher → Prop
  | exits (cookie : UInt32) (code : ℤ) (hbranch : event.branch ≠ .ignored) :
      DispatchStep event w { w with prevCookie := cookie, place := .stopped (.exited code) }
  | skips (hbranch : event.branch ∉ [.ignored, .createDir, .movedTo, .movedFrom]) :
      DispatchStep event w { w with place := .nextEvent }
  | forgets (hbranch : event.branch = .ignored) :
      DispatchStep event w
        { w with table := removeWdDirectory w.table event.wd, place := .nextEvent }
  | reports (cookie : UInt32) (hbranch : event.branch ∉ [.ignored, .createDir])
      (hmoved : event.branch ∈ [.movedTo, .movedFrom] → event.has inIsdir = false) :
      DispatchStep event w { w with prevCookie := cookie, place := .report }
  | watches (cookie : UInt32) (frame : Frame)
      (hframe : event.branch = .createDir ∧ frame = .created ∨
        (event.branch = .movedTo ∧ event.has inIsdir = true) ∧ frame = .movedTo)
      (hlength : (eventPath w event).length ≠ maxPathLen) :
      DispatchStep event w { w with
        prevCookie := cookie
        place := .addWatch event.wd ((eventPath w event).take (maxPathLen - 1))
        stack := frame :: w.stack }
  | movesUnrecorded (cookie : UInt32) (hbranch : event.branch = .movedFrom)
      (hisdir : event.has inIsdir = true) (hlength : (eventPath w event).length < maxPathLen)
      (hfind : findDirectoryWd w.table (eventPath w event) = nullWd) :
      DispatchStep event w { w with prevCookie := cookie, place := .report }
  | prunes (cookie : UInt32) {after : Watcher} (hbranch : event.branch = .movedFrom)
      (hisdir : event.has inIsdir = true) (hlength : (eventPath w event).length < maxPathLen)
      (hfind : findDirectoryWd w.table (eventPath w event) ≠ nullWd)
      (hprune : PruneStep { w with prevCookie := cookie }
        (findDirectoryWd w.table (eventPath w event)) none after) :
      DispatchStep event w after

/-- The steps without a system call. -/
inductive InternalStep (cfg : Config) (w : Watcher) : Watcher → Prop
  | readsLine {line : Bytes} {rest : List Bytes} (hplace : w.place = .loadTopLevelPaths)
      (hlines : w.lines = line :: rest) :
      InternalStep cfg w { w with
        lines := rest, place := .addWatch nullWd line, stack := .topLevel line :: w.stack }
  | startsPolling
      (hplace : w.place = .loadTopLevelPaths ∧ w.lines = [] ∨
        w.place = .nextEvent ∧ w.batch = []) :
      InternalStep cfg w { w with place := .poll }
  | takesEvent {event : Event} {rest : List Event} {after : Watcher}
      (hplace : w.place = .nextEvent) (hbatch : w.batch = event :: rest)
      (hdispatch : DispatchStep event ({ w with batch := rest }.findParent event) after) :
      InternalStep cfg w after
  | refuses {parentWd : Wd} {path : Bytes} (hplace : w.place = .addWatch parentWd path)
      (hrefused : refusesPath cfg path = true ∨ findDirectoryWd w.table path ≠ nullWd) :
      InternalStep cfg w { w with place := .returned (-1) }
  | requests {parentWd : Wd} {path : Bytes} (hplace : w.place = .addWatch parentWd path)
      (hrefuses : refusesPath cfg path = false) (hfind : findDirectoryWd w.table path = nullWd) :
      InternalStep cfg w { w with place := .inotifyAddWatch parentWd path }
  | finishesPrune (hplace : w.place = .removePrunedWds [] none) :
      InternalStep cfg w { w with place := .report }
  | insertsPruned {row : Row} {after : Watcher} (hplace : w.place = .removePrunedWds [] (some row))
      (hinsert : InsertStep w row after) : InternalStep cfg w after
  | finishesSubDirs {wd : Wd} {path : Bytes} (hplace : w.place = .subDirs wd path []) :
      InternalStep cfg w { w with place := .returned 0 }
  | descends {wd : Wd} {path name : Bytes} {rest : List Bytes}
      (hplace : w.place = .subDirs wd path (name :: rest))
      (hlength : (joinPath path name).length < maxPathLen) :
      InternalStep cfg w { w with
        place := .addWatch wd (joinPath path name), stack := .subDirs wd path rest :: w.stack }
  | overflows {wd : Wd} {path name : Bytes} {rest : List Bytes}
      (hplace : w.place = .subDirs wd path (name :: rest)) : InternalStep cfg w (w.exit 4)
  | returns {result : ℤ} {frame : Frame} {rest : List Frame} (hplace : w.place = .returned result)
      (hstack : w.stack = frame :: rest) :
      InternalStep cfg w ({ w with stack := rest }.returnTo result frame)
  | reports (hplace : w.place = .report) : InternalStep cfg w w.report

/-- The steps that go on after an answer. -/
inductive ResumeStep (w : Watcher) : Answer → Watcher → Prop
  | reads (events : List Event) (hplace : w.place = .poll) :
      ResumeStep w (.events events) (w.startBatch events)
  | exits (errno : Errno) (code : ℤ) : ResumeStep w (.error errno) (w.exit code)
  | reuses {parentWd : Wd} {path : Bytes} {wd : Wd} {after : Watcher}
      (hplace : w.place = .inotifyAddWatch parentWd path)
      (hexists : wdDirectoryExists w.table wd = true)
      (hprune : PruneStep w wd (some ⟨wd, parentWd, path⟩) after) : ResumeStep w (.watch wd) after
  | adds {parentWd : Wd} {path : Bytes} {wd : Wd} {after : Watcher}
      (hplace : w.place = .inotifyAddWatch parentWd path)
      (hexists : wdDirectoryExists w.table wd = false)
      (hinsert : InsertStep w ⟨wd, parentWd, path⟩ after) : ResumeStep w (.watch wd) after
  | missed {parentWd : Wd} {path : Bytes} (errno : Errno)
      (hplace : w.place = .inotifyAddWatch parentWd path)
      (herrno : errno = .enoent ∨ errno = .eacces) :
      ResumeStep w (.error errno) { w with place := .returned (-1) }
  | removes {wd : Wd} {rest : List Wd} {row : Option Row} (answer : Answer)
      (hplace : w.place = .removePrunedWds (wd :: rest) row)
      (hanswer : answer = .done ∨ answer = .error .einval) :
      ResumeStep w answer { w with place := .removePrunedWds rest row }
  | opens {wd : Wd} {path : Bytes} (hplace : w.place = .opendir wd path) :
      ResumeStep w .done { w with place := .readdir wd path }
  | opensNothing {wd : Wd} {path : Bytes} (errno : Errno) (hplace : w.place = .opendir wd path)
      (herrno : errno = .enoent ∨ errno = .enotdir) :
      ResumeStep w (.error errno) { w with place := .subDirs wd path [] }
  | lists {wd : Wd} {path : Bytes} (names : List Bytes) (hplace : w.place = .readdir wd path) :
      ResumeStep w (.names names) { w with place := .subDirs wd path names }

/-! ### The functions take just these steps -/

theorem pruneStep (w : Watcher) (wd : Wd) (row : Option Row) :
    PruneStep w wd row (w.prune wd row) := by
  unfold Watcher.prune
  split
  · next hprune => exact .loops hprune
  · next hprune => exact .removes hprune

theorem insertStep (w : Watcher) (row : Row) : InsertStep w row (w.insertRow row) := by
  unfold Watcher.insertRow
  split
  · next hadd => exact .clashes hadd
  · next hadd => exact .inserts hadd

theorem watchNewDirectory_step {event : Event} {w : Watcher} (cookie : UInt32) {frame : Frame}
    (hframe : event.branch = .createDir ∧ frame = .created ∨
      (event.branch = .movedTo ∧ event.has inIsdir = true) ∧ frame = .movedTo) :
    DispatchStep event w ({ w with prevCookie := cookie }.watchNewDirectory frame event) := by
  unfold Watcher.watchNewDirectory
  dsimp only [snprintf]
  split_ifs with hlength
  · refine .exits cookie 14 ?_
    rcases hframe with ⟨hbranch, -⟩ | ⟨⟨hbranch, -⟩, -⟩ <;> simp [hbranch]
  · exact .watches cookie frame hframe hlength

theorem pruneMovedDirectory_step {event : Event} {w : Watcher} (cookie : UInt32)
    (hbranch : event.branch = .movedFrom) (hisdir : event.has inIsdir = true) :
    DispatchStep event w ({ w with prevCookie := cookie }.pruneMovedDirectory event) := by
  unfold Watcher.pruneMovedDirectory
  dsimp only [snprintf]
  split_ifs with hlength hfind
  · exact .exits cookie 4 (by simp [hbranch])
  all_goals
    have htake : (joinPath (printed w.parentDir) event.name).take (maxPathLen - 1) =
        eventPath w event := List.take_of_length_le (by omega)
    rw [htake] at hfind
  · exact .movesUnrecorded cookie hbranch hisdir (not_le.mp hlength) hfind
  · rw [htake]
    exact .prunes cookie hbranch hisdir (not_le.mp hlength) hfind (pruneStep _ _ _)

theorem dispatchStep (event : Event) (w : Watcher) : DispatchStep event w (w.dispatch event) := by
  unfold Watcher.dispatch
  split
  case h_1 hbranch => exact .exits w.prevCookie 16 (by simp [hbranch])
  case h_2 hbranch => exact watchNewDirectory_step w.prevCookie (Or.inl ⟨hbranch, rfl⟩)
  case h_3 hbranch => exact .skips (by simp [hbranch])
  case h_4 hbranch => exact .skips (by simp [hbranch])
  case h_5 hbranch =>
    unfold Watcher.movedFrom
    split_ifs with hcookie hisdir
    · exact .exits w.prevCookie 17 (by simp [hbranch])
    · exact pruneMovedDirectory_step event.cookie hbranch hisdir
    · exact .reports event.cookie (by simp [hbranch]) fun _ ↦ by simpa using hisdir
  case h_6 hbranch =>
    unfold Watcher.movedTo
    split_ifs with hisdir
    · exact watchNewDirectory_step event.cookie (Or.inr ⟨⟨hbranch, hisdir⟩, rfl⟩)
    · exact .reports event.cookie (by simp [hbranch]) fun _ ↦ by simpa using hisdir
  case h_7 hbranch => exact .forgets hbranch
  case h_8 hbranch => exact .skips (by simp [hbranch])
  case h_9 hbranch => exact .reports w.prevCookie (by simp [hbranch]) (by simp [hbranch])

theorem internalStep {cfg : Config} {w after : Watcher} (hinternal : w.internal cfg = some after) :
    InternalStep cfg w after := by
  unfold Watcher.internal at hinternal
  split at hinternal
  case h_1 hplace =>
    split at hinternal <;> cases hinternal
    · next hlines => exact .startsPolling (Or.inl ⟨hplace, hlines⟩)
    · next hlines => exact .readsLine hplace hlines
  case h_2 hplace =>
    split at hinternal <;> cases hinternal
    · next hbatch => exact .startsPolling (Or.inr ⟨hplace, hbatch⟩)
    · next hbatch => exact .takesEvent hplace hbatch (dispatchStep _ _)
  case h_3 hplace =>
    cases hinternal
    unfold Watcher.addWatch
    split_ifs with hrefuses hfind
    · exact .refuses hplace (Or.inl hrefuses)
    · exact .refuses hplace (Or.inr hfind)
    · exact .requests hplace (by simpa using hrefuses) (by simpa using hfind)
  case h_4 hplace =>
    cases hinternal
    exact .finishesPrune hplace
  case h_5 hplace =>
    cases hinternal
    exact .insertsPruned hplace (insertStep _ _)
  case h_6 names hplace =>
    cases hinternal
    cases names with
    | nil => exact .finishesSubDirs hplace
    | cons name rest =>
      unfold Watcher.watchSubDir
      dsimp only [snprintf]
      split_ifs with hlength
      · exact .overflows hplace
      · rw [List.take_of_length_le (by omega)]
        exact .descends hplace (not_le.mp hlength)
  case h_7 hplace =>
    split at hinternal <;> cases hinternal
    next hstack => exact .returns hplace hstack
  case h_8 hplace =>
    cases hinternal
    exact .reports hplace
  case h_9 => cases hinternal

theorem resumeStep {w after : Watcher} {answer : Answer} (hresume : w.resume answer = some after) :
    ResumeStep w answer after := by
  unfold Watcher.resume at hresume
  split at hresume
  case h_1 hplace =>
    cases hresume
    exact .reads _ hplace
  case h_2 => cases hresume; exact .exits _ _
  case h_3 hplace =>
    cases hresume
    unfold Watcher.watchAdded
    split_ifs with hexists
    · exact .reuses hplace hexists (pruneStep _ _ _)
    · exact .adds hplace (by simpa using hexists) (insertStep _ _)
  case h_4 hplace =>
    cases hresume
    unfold Watcher.watchFailed
    split_ifs with herrno
    · exact .missed _ hplace herrno
    · exact .exits _ _
  case h_5 hplace =>
    cases hresume
    exact .removes _ hplace (Or.inl rfl)
  case h_6 hplace =>
    split_ifs at hresume with herrno <;> cases hresume
    · exact .removes _ hplace (Or.inr (by rw [herrno]))
    · exact .exits _ _
  case h_7 hplace =>
    cases hresume
    exact .opens hplace
  case h_8 hplace =>
    cases hresume
    unfold Watcher.opendirFailed
    split_ifs with herrno
    · exact .opensNothing _ hplace herrno
    · exact .exits _ _
  case h_9 hplace =>
    cases hresume
    exact .lists _ hplace
  case h_10 => cases hresume; exact .exits _ _
  case h_11 => cases hresume

/-! ### The system call at a place -/

section Calls

variable {w : Watcher} {call : Call} {path : Bytes} {wd : Wd}

theorem call_eq_inotifyAddWatch {parentWd : Wd}
    (hplace : w.place = .inotifyAddWatch parentWd path) (hcall : w.call = some call) :
    call = .inotifyAddWatch path := by
  simpa [Watcher.call, hplace, eq_comm] using hcall

theorem call_eq_inotifyRmWatch {rest : List Wd} {row : Option Row}
    (hplace : w.place = .removePrunedWds (wd :: rest) row) (hcall : w.call = some call) :
    call = .inotifyRmWatch wd := by
  simpa [Watcher.call, hplace, eq_comm] using hcall

theorem call_eq_opendir (hplace : w.place = .opendir wd path) (hcall : w.call = some call) :
    call = .opendir path := by
  simpa [Watcher.call, hplace, eq_comm] using hcall

theorem call_eq_readdir (hplace : w.place = .readdir wd path) (hcall : w.call = some call) :
    call = .readdir := by
  simpa [Watcher.call, hplace, eq_comm] using hcall

end Calls

/-! ### What the lookup of a directory leaves alone -/

@[simp] theorem findParent_table (w : Watcher) (event : Event) :
    (w.findParent event).table = w.table := by
  unfold Watcher.findParent
  split_ifs <;> rfl

@[simp] theorem findParent_batch (w : Watcher) (event : Event) :
    (w.findParent event).batch = w.batch := by
  unfold Watcher.findParent
  split_ifs <;> rfl

@[simp] theorem findParent_place (w : Watcher) (event : Event) :
    (w.findParent event).place = w.place := by
  unfold Watcher.findParent
  split_ifs <;> rfl

@[simp] theorem findParent_stack (w : Watcher) (event : Event) :
    (w.findParent event).stack = w.stack := by
  unfold Watcher.findParent
  split_ifs <;> rfl

@[simp] theorem findParent_prevCookie (w : Watcher) (event : Event) :
    (w.findParent event).prevCookie = w.prevCookie := by
  unfold Watcher.findParent
  split_ifs <;> rfl

@[simp] theorem findParent_watchedTops (w : Watcher) (event : Event) :
    (w.findParent event).watchedTops = w.watchedTops := by
  unfold Watcher.findParent
  split_ifs <;> rfl

@[simp] theorem findParent_reports (w : Watcher) (event : Event) :
    (w.findParent event).reports = w.reports := by
  unfold Watcher.findParent
  split_ifs <;> rfl

theorem report_eq (w : Watcher) :
    w.report = { w with
      place := .nextEvent
      reports := w.reports ++ w.parentDir.toList } := by
  unfold Watcher.report
  split <;> next hparent => simp [hparent]

theorem findParent_withBatch (w : Watcher) (event : Event) (batch : List Event) :
    { w with batch }.findParent event = { w.findParent event with batch } := by
  unfold Watcher.findParent
  split_ifs <;> rfl

/-! ### What is reported -/

section Reported

variable {cfg : Config} {w next : Watcher}

theorem reports_of_dispatch {event : Event} (hstep : DispatchStep event w next) :
    next.reports = w.reports := by
  cases hstep with
  | prunes _ _ _ _ _ hprune => cases hprune <;> rfl
  | _ => rfl

theorem reports_of_resume {answer : Answer} (hstep : ResumeStep w answer next) :
    next.reports = w.reports := by
  cases hstep with
  | reuses _ _ hprune => cases hprune <;> rfl
  | adds _ _ hinsert => cases hinsert <;> rfl
  | _ => rfl

/-- The directory that is reported by the next step. -/
def reportNow (w : Watcher) : List Bytes := if w.place = .report then w.parentDir.toList else []

theorem reportNow_eq_nil (hplace : w.place ≠ .report) : reportNow w = [] := if_neg hplace

theorem reports_eq_of_internal (hstep : InternalStep cfg w next) :
    next.reports = w.reports ++ reportNow w := by
  cases hstep with
  | takesEvent hplace _ hdispatch =>
    rw [reports_of_dispatch hdispatch, findParent_reports, reportNow_eq_nil (by simp [hplace]),
      List.append_nil]
  | insertsPruned hplace hinsert =>
    rw [reportNow_eq_nil (by simp [hplace]), List.append_nil]
    cases hinsert <;> rfl
  | @returns _ frame _ hplace =>
    rw [reportNow_eq_nil (by simp [hplace]), List.append_nil]
    cases frame <;> rfl
  | reports hplace => rw [report_eq, reportNow, if_pos hplace]
  | startsPolling hplace =>
    rw [reportNow_eq_nil, List.append_nil]
    rcases hplace with ⟨hplace, -⟩ | ⟨hplace, -⟩ <;> simp [hplace]
  | overflows hplace =>
    rw [reportNow_eq_nil (by simp [hplace]), List.append_nil]
    rfl
  | readsLine hplace | refuses hplace | requests hplace | finishesPrune hplace
  | finishesSubDirs hplace | descends hplace =>
    rw [reportNow_eq_nil (by simp [hplace]), List.append_nil]

end Reported

end DirWatcher.Watching
