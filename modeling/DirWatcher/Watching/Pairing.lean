import DirWatcher.Environment.Contract
import DirWatcher.Watching.Control
import DirWatcher.Watching.Keys

/-!
The live watches of the kernel and the rows of the table belong to each other. A
watch without a row is on its way through `remove_pruned_wds`, and a row without a
watch has its `IN_IGNORED` among the events that are pending.
-/

set_option autoImplicit false
set_option relaxedAutoImplicit false

namespace DirWatcher.Watching

open Source Environment Foundation.Runs

/-- The events that have not been processed: those of the batch that has been read,
then those of the queue. -/
def pending (s : System Inotify) : List Event := s.watcher.batch ++ s.kernel.queue

theorem pending_emit (w : Watcher) (k : Inotify) (event : Event) :
    pending ⟨w, k.emit event⟩ = pending ⟨w, k⟩ ++ [event] :=
  (List.append_assoc _ _ _).symm

theorem pending_kill (w : Watcher) (k : Inotify) (wd : Wd) :
    pending ⟨w, k.kill wd⟩ = pending ⟨w, k⟩ ++ [ignoredEvent wd] :=
  (List.append_assoc _ _ _).symm

/-- The steps that go on after an answer, together with what the answer has done to
the kernel. -/
inductive AnswerStep (w : Watcher) (k : Inotify) : Answer → Watcher → Inotify → Prop
  | reads {events rest : List Event} (hplace : w.place = .poll)
      (hqueue : k.queue = events ++ rest) :
      AnswerStep w k (.events events) (w.startBatch events) { k with queue := rest }
  | exits (errno : Errno) (code : ℤ) : AnswerStep w k (.error errno) (w.exit code) k
  | reuses {parentWd : Wd} {path : Bytes} {wd : Wd} {after : Watcher}
      (hplace : w.place = .inotifyAddWatch parentWd path) (hlive : wd ∈ k.live)
      (hexists : ∃ row ∈ w.table, row.wd = wd)
      (hprune : PruneStep w wd (some ⟨wd, parentWd, path⟩) after) :
      AnswerStep w k (.watch wd) after k
  | addsAgain {parentWd : Wd} {path : Bytes} {wd : Wd} {after : Watcher}
      (hplace : w.place = .inotifyAddWatch parentWd path) (hlive : wd ∈ k.live)
      (hnew : ∀ row ∈ w.table, row.wd ≠ wd)
      (hinsert : InsertStep w ⟨wd, parentWd, path⟩ after) : AnswerStep w k (.watch wd) after k
  | adds {parentWd : Wd} {path : Bytes} {wd : Wd} {after : Watcher}
      (hplace : w.place = .inotifyAddWatch parentWd path) (hpositive : 0 < wd)
      (hfresh : wd ∉ k.used) (hinsert : InsertStep w ⟨wd, parentWd, path⟩ after) :
      AnswerStep w k (.watch wd) after (k.watch wd)
  | missed {parentWd : Wd} {path : Bytes} (errno : Errno)
      (hplace : w.place = .inotifyAddWatch parentWd path) :
      AnswerStep w k (.error errno) { w with place := .returned (-1) } k
  | kills {wd : Wd} {rest : List Wd} {row : Option Row}
      (hplace : w.place = .removePrunedWds (wd :: rest) row) (hlive : wd ∈ k.live) :
      AnswerStep w k .done { w with place := .removePrunedWds rest row } (k.kill wd)
  | killed {wd : Wd} {rest : List Wd} {row : Option Row}
      (hplace : w.place = .removePrunedWds (wd :: rest) row) (hdead : wd ∉ k.live) :
      AnswerStep w k (.error .einval) { w with place := .removePrunedWds rest row } k
  | opens {wd : Wd} {path : Bytes} (hplace : w.place = .opendir wd path) :
      AnswerStep w k .done { w with place := .readdir wd path } k
  | opensNothing {wd : Wd} {path : Bytes} (errno : Errno)
      (hplace : w.place = .opendir wd path) :
      AnswerStep w k (.error errno) { w with place := .subDirs wd path [] } k
  | lists {wd : Wd} {path : Bytes} {names : List Bytes} (hplace : w.place = .readdir wd path)
      (hnames : ∀ name ∈ names, ValidName name) :
      AnswerStep w k (.names names) { w with place := .subDirs wd path names } k

/-- The row that `add_watch` has asked a watch for and is yet to insert. -/
def Inserting (w : Watcher) (row : Row) : Prop := ∃ wds, w.place = .removePrunedWds wds (some row)

/-- Rows have watch descriptors that the kernel has given out. -/
structure RowsUsed (s : System Inotify) : Prop where
  table : ∀ row ∈ s.watcher.table, row.wd ∈ s.kernel.used
  inserting : ∀ row, Inserting s.watcher row → row.wd ∈ s.kernel.used

/-- A watch descriptor that can stand in the column `parent_wd`, or be remembered. -/
def Known (k : Inotify) (wd : Wd) : Prop := wd = nullWd ∨ wd ∈ k.used

theorem answerStep {w after : Watcher} {k kernel : Inotify} {call : Call} {answer : Answer}
    (hused : ∀ row ∈ w.table, row.wd ∈ k.used) (hcall : w.call = some call)
    (hserve : ServeStep k call answer kernel) (hresume : ResumeStep w answer after) :
    AnswerStep w k answer after kernel := by
  cases hserve with
  | watchesAgain path hlive =>
    cases hresume with
    | reuses hplace hexists hprune =>
      exact .reuses hplace hlive (wdDirectoryExists_iff.mp hexists) hprune
    | adds hplace hexists hinsert =>
      exact .addsAgain hplace hlive (wdDirectoryExists_eq_false_iff.mp hexists) hinsert
    | removes _ _ hanswer => simp at hanswer
  | watches path hpositive hfresh =>
    cases hresume with
    | reuses hplace hexists =>
      obtain ⟨row, hrow, rfl⟩ := wdDirectoryExists_iff.mp hexists
      exact absurd (hused row hrow) hfresh
    | adds hplace hexists hinsert => exact .adds hplace hpositive hfresh hinsert
    | removes _ _ hanswer => simp at hanswer
  | kills hlive =>
    cases hresume with
    | removes _ hplace =>
      simp only [Watcher.call, hplace, Option.some.injEq, Call.inotifyRmWatch.injEq] at hcall
      cases hcall
      exact .kills hplace hlive
    | opens hplace => simp [Watcher.call, hplace] at hcall
  | killed hdead =>
    cases hresume with
    | exits => exact .exits _ _
    | missed _ hplace => simp [Watcher.call, hplace] at hcall
    | removes _ hplace =>
      simp only [Watcher.call, hplace, Option.some.injEq, Call.inotifyRmWatch.injEq] at hcall
      cases hcall
      exact .killed hplace hdead
    | opensNothing _ hplace => simp [Watcher.call, hplace] at hcall
  | reads hqueue =>
    cases hresume with
    | reads _ hplace => exact .reads hplace hqueue
    | removes _ _ hanswer => simp at hanswer
  | lists hnames =>
    cases hresume with
    | removes _ _ hanswer => simp at hanswer
    | lists _ hplace => exact .lists hplace hnames
  | opens path =>
    cases hresume with
    | removes _ hplace => simp [Watcher.call, hplace] at hcall
    | opens hplace => exact .opens hplace
  | fails errno hrm =>
    cases hresume with
    | exits => exact .exits _ _
    | missed _ hplace => exact .missed _ hplace
    | removes _ hplace =>
      simp only [Watcher.call, hplace, Option.some.injEq] at hcall
      exact absurd hcall.symm (hrm _)
    | opensNothing _ hplace => exact .opensNothing _ hplace

/-! ### The facts every run keeps -/

/-- Control, keys and the queue are in order, and rows are about used watch
descriptors. -/
structure Ordered (s : System Inotify) : Prop where
  control : Control s.watcher
  keys : KeysKept s.watcher
  delivered : Delivered s.kernel (pending s)
  rowsUsed : RowsUsed s

theorem ordered_start (cfg : Config) : Ordered (System.start cfg .start) :=
  ⟨control_start cfg, keysKept_start cfg, delivered_start,
    by simp [System.start, Watcher.start], by simp [Inserting, System.start, Watcher.start]⟩

/-- Where the rows of a table come from in a step: they were there before, or have
the watch descriptor the kernel has given out. -/
theorem mem_table_of_insert {w after : Watcher} {row new : Row} (hstep : InsertStep w new after)
    (hrow : row ∈ after.table) : row ∈ w.table ∨ row = new := by
  cases hstep with
  | clashes => exact Or.inl hrow
  | inserts hadd =>
    obtain ⟨-, rfl⟩ := addWdDirectory_eq_some_iff.mp hadd
    simpa using hrow

theorem mem_table_of_prune {w after : Watcher} {row : Row} {new : Option Row} {wd : Wd}
    (hstep : PruneStep w wd new after) (hrow : row ∈ after.table) : row ∈ w.table := by
  cases hstep with
  | loops => exact hrow
  | removes hprune => exact (pruneWdDirectory_spec hprune).2.2.subset hrow

theorem mem_table_of_dispatch {w after : Watcher} {event : Event} {row : Row}
    (hstep : DispatchStep event w after) (hrow : row ∈ after.table) : row ∈ w.table := by
  cases hstep with
  | forgets => exact (mem_removeWdDirectory.mp hrow).1
  | prunes _ _ _ _ _ hprune =>
    have hold := mem_table_of_prune hprune hrow
    exact hold
  | _ => exact hrow

theorem batch_of_prune {w after : Watcher} {new : Option Row} {wd : Wd}
    (hstep : PruneStep w wd new after) : after.batch = w.batch := by
  cases hstep <;> rfl

theorem batch_of_dispatch {w after : Watcher} {event : Event}
    (hstep : DispatchStep event w after) : after.batch = w.batch := by
  cases hstep with
  | prunes _ _ _ _ _ hprune => exact (batch_of_prune hprune).trans rfl
  | _ => rfl

/-- The event that is processed is the first of those not processed before. -/
theorem pending_of_dispatch {s : System Inotify} {event : Event} {rest : List Event}
    {after : Watcher} (hbatch : s.watcher.batch = event :: rest)
    (hstep : DispatchStep event ({ s.watcher with batch := rest }.findParent event) after) :
    pending s = event :: pending { s with watcher := after } := by
  have hafter : after.batch = rest := (batch_of_dispatch hstep).trans (findParent_batch _ _)
  rw [pending, pending, hafter, hbatch, List.cons_append]

/-- A step without a system call leaves the batch alone or takes the first event. -/
theorem batch_of_internal {cfg : Config} {w after : Watcher} (hstep : InternalStep cfg w after) :
    after.batch = w.batch ∨ ∃ event, w.batch = event :: after.batch := by
  cases hstep with
  | takesEvent _ hbatch hdispatch =>
    refine Or.inr ⟨_, hbatch.trans (congrArg _ ?_)⟩
    rw [batch_of_dispatch hdispatch, findParent_batch]
  | insertsPruned _ hinsert => cases hinsert <;> exact Or.inl rfl
  | @returns _ frame => cases frame <;> exact Or.inl rfl
  | reports =>
    rw [report_eq]
    exact Or.inl rfl
  | _ => exact Or.inl rfl

theorem mem_table_of_internal {cfg : Config} {w after : Watcher} {row : Row}
    (hstep : InternalStep cfg w after) (hrow : row ∈ after.table) :
    row ∈ w.table ∨ Inserting w row := by
  cases hstep with
  | takesEvent _ _ hdispatch =>
    have hold := mem_table_of_dispatch hdispatch hrow
    exact Or.inl (by simpa using hold)
  | insertsPruned hplace hinsert =>
    rcases mem_table_of_insert hinsert hrow with hold | rfl
    · exact Or.inl hold
    · exact Or.inr ⟨_, hplace⟩
  | @returns _ frame => cases frame <;> exact Or.inl hrow
  | reports =>
    rw [report_eq] at hrow
    exact Or.inl hrow
  | _ => exact Or.inl hrow

/-- Only a successful `inotify_add_watch` makes a row to be inserted. -/
theorem not_inserting_of_internal {cfg : Config} {w after : Watcher}
    (hstep : InternalStep cfg w after) (row : Row) : ¬ Inserting after row := by
  rintro ⟨wds, hplace⟩
  cases hstep with
  | takesEvent _ _ hdispatch =>
    cases hdispatch with
    | prunes _ _ _ _ _ hprune => cases hprune <;> simp at hplace
    | _ => simp at hplace
  | insertsPruned _ hinsert => cases hinsert <;> simp at hplace
  | @returns result frame =>
    cases frame with
    | created =>
      simp only [Watcher.returnTo] at hplace
      split_ifs at hplace
    | _ => simp [Watcher.returnTo] at hplace
  | reports =>
    rw [report_eq] at hplace
    simp at hplace
  | overflows => simp [Watcher.exit] at hplace
  | _ => simp at hplace

theorem Ordered.internal {cfg : Config} {s : System Inotify} {after : Watcher}
    (hordered : Ordered s)
    (hstep : InternalStep cfg s.watcher after) : Ordered { s with watcher := after } := by
  refine ⟨hordered.control.internal hstep, hordered.keys.internal hstep, ?_, ?_, ?_⟩
  · have hdelivered := hordered.delivered
    unfold pending at hdelivered ⊢
    rcases batch_of_internal hstep with hsame | ⟨event, htaken⟩
    · rwa [hsame]
    · rw [htaken] at hdelivered
      exact hdelivered.tail
  · intro row hrow
    rcases mem_table_of_internal hstep hrow with hold | hnew
    · exact hordered.rowsUsed.table row hold
    · exact hordered.rowsUsed.inserting row hnew
  · exact fun row hnew ↦ absurd hnew (not_inserting_of_internal hstep row)

theorem Ordered.act {s : System Inotify} {action : InotifyAct} {kernel : Inotify}
    (hordered : Ordered s) (hact : inotify.act s.kernel action = some kernel) :
    Ordered { s with kernel } := by
  cases action with
  | emit event =>
    simp only [inotify] at hact
    split_ifs at hact with hemit
    cases hact
    refine ⟨hordered.control, hordered.keys, ?_,
      hordered.rowsUsed.table, hordered.rowsUsed.inserting⟩
    rw [pending_emit]
    exact hordered.delivered.emit hemit.1 hemit.2
  | die wd =>
    simp only [inotify] at hact
    split_ifs at hact with hlive
    cases hact
    refine ⟨hordered.control, hordered.keys, ?_,
      hordered.rowsUsed.table, hordered.rowsUsed.inserting⟩
    rw [pending_kill]
    exact hordered.delivered.kill hlive

theorem answer_positive {k after : Inotify} {call : Call} {answer : Answer}
    {events : List Event} (hdelivered : Delivered k events) (hserve : ServeStep k call answer after)
    (wd : Wd) (hanswer : answer = .watch wd) : 0 < wd := by
  cases hserve with
  | watchesAgain _ hlive =>
    cases hanswer
    exact hdelivered.positive wd (hdelivered.liveUsed wd hlive)
  | watches _ hpositive =>
    cases hanswer
    exact hpositive
  | _ => cases hanswer

theorem batch_of_insert {w after : Watcher} {row : Row} (hstep : InsertStep w row after) :
    after.batch = w.batch := by
  cases hstep <;> rfl

theorem not_inserting_of_insert {w after : Watcher} {new : Row} (hstep : InsertStep w new after)
    (row : Row) : ¬ Inserting after row := by
  rintro ⟨wds, hplace⟩
  cases hstep <;> simp at hplace

theorem inserting_of_prune {w after : Watcher} {new : Option Row} {wd : Wd} {row : Row}
    (hstep : PruneStep w wd new after) (hinserting : Inserting after row) : new = some row := by
  obtain ⟨wds, hplace⟩ := hinserting
  cases hstep with
  | loops => simp at hplace
  | removes =>
    simp only [Place.removePrunedWds.injEq] at hplace
    exact hplace.2

theorem inserting_of_removes {w : Watcher} {wds rest : List Wd} {new : Option Row} {row : Row}
    (hplace : w.place = .removePrunedWds wds new)
    (hinserting : Inserting { w with place := .removePrunedWds rest new } row) :
    Inserting w row := by
  obtain ⟨left, hleft⟩ := hinserting
  obtain ⟨rfl, rfl⟩ := Place.removePrunedWds.inj hleft
  exact ⟨wds, hplace⟩

theorem Ordered.delivered_answer {s after : System Inotify} (hordered : Ordered s)
    {answer : Answer}
    (hstep : AnswerStep s.watcher s.kernel answer after.watcher after.kernel) :
    Delivered after.kernel (pending after) := by
  obtain ⟨watcher, kernel⟩ := after
  have hdelivered := hordered.delivered
  cases hstep with
  | @reads events rest hplace hqueue =>
    have hpending : pending s = events ++ rest := by
      rw [pending, hordered.control.idle (Or.inl hplace), hqueue, List.nil_append]
    rw [hpending] at hdelivered
    exact hdelivered.congr_queue rest
  | reuses _ _ _ hprune => rwa [pending, batch_of_prune hprune]
  | addsAgain _ _ _ hinsert => rwa [pending, batch_of_insert hinsert]
  | adds _ hpositive hfresh hinsert =>
    rw [pending, batch_of_insert hinsert]
    exact hdelivered.watch hpositive hfresh
  | kills _ hlive =>
    have hkill := hdelivered.kill hlive
    rw [pending, List.append_assoc] at hkill
    exact hkill
  | _ => exact hdelivered

theorem RowsUsed.answer {s after : System Inotify} (hordered : Ordered s)
    {answer : Answer}
    (hstep : AnswerStep s.watcher s.kernel answer after.watcher after.kernel) : RowsUsed after := by
  obtain ⟨watcher, kernel⟩ := after
  have hused := hordered.rowsUsed
  have hliveUsed := hordered.delivered.liveUsed
  cases hstep with
  | @reads events rest hplace =>
    exact ⟨hused.table, by simp [Inserting]⟩
  | exits => exact ⟨hused.table, by simp [Inserting]⟩
  | reuses _ hlive _ hprune =>
    refine ⟨fun row hrow ↦ hused.table row (mem_table_of_prune hprune hrow), fun row hrow ↦ ?_⟩
    cases inserting_of_prune hprune hrow
    exact hliveUsed _ hlive
  | addsAgain _ hlive _ hinsert =>
    refine ⟨fun row hrow ↦ ?_, fun row hrow ↦ absurd hrow (not_inserting_of_insert hinsert row)⟩
    rcases mem_table_of_insert hinsert hrow with hold | rfl
    · exact hused.table row hold
    · exact hliveUsed _ hlive
  | adds _ _ _ hinsert =>
    refine ⟨fun row hrow ↦ ?_, fun row hrow ↦ absurd hrow (not_inserting_of_insert hinsert row)⟩
    rcases mem_table_of_insert hinsert hrow with hold | rfl
    · exact List.mem_cons_of_mem _ (hused.table row hold)
    · exact List.mem_cons_self
  | kills hplace =>
    exact ⟨hused.table, fun row hinserting ↦
      hused.inserting row (inserting_of_removes hplace hinserting)⟩
  | killed hplace =>
    exact ⟨hused.table, fun row hinserting ↦
      hused.inserting row (inserting_of_removes hplace hinserting)⟩
  | _ => exact ⟨hused.table, by simp [Inserting]⟩

theorem Ordered.answer {s after : System Inotify} (hordered : Ordered s) {call : Call}
    {answer : Answer} (hcall : s.watcher.call = some call)
    (hserve : ServeStep s.kernel call answer after.kernel)
    (hresume : ResumeStep s.watcher answer after.watcher) : Ordered after := by
  have hstep := answerStep hordered.rowsUsed.table hcall hserve hresume
  exact ⟨hordered.control.resume hresume,
    hordered.keys.resume hresume (answer_positive hordered.delivered hserve),
    hordered.delivered_answer hstep, RowsUsed.answer hordered hstep⟩

theorem Ordered.step {cfg : Config} {s after : System Inotify} {label : Label InotifyAct}
    (hordered : Ordered s) (hstep : s.step cfg inotify label = some after) : Ordered after := by
  cases label with
  | act action =>
    obtain ⟨kernel, hact, rfl⟩ := System.exists_kernel hstep
    exact hordered.act hact
  | internal =>
    obtain ⟨watcher, hinternal, rfl⟩ := System.exists_watcher hstep
    exact hordered.internal (internalStep hinternal)
  | answer answer =>
    obtain ⟨call, hcall, hserve, hresume⟩ := System.step_answer hstep
    exact hordered.answer hcall (serveStep hserve) (resumeStep hresume)

/-! ### Watches and rows -/

/-- The watch is live, or its `IN_IGNORED` has not been processed. -/
def Announced (s : System Inotify) (wd : Wd) : Prop :=
  wd ∈ s.kernel.live ∨ ignoredEvent wd ∈ pending s

/-- The watch descriptors that `remove_pruned_wds` has not reached. -/
def removing : Place → List Wd
  | .removePrunedWds wds _ => wds
  | _ => []

/-- The process has stopped in the middle of its work. -/
def Stopped (w : Watcher) : Prop := ∃ stop, w.place = .stopped stop

structure Paired (s : System Inotify) : Prop where
  recorded : ¬ Stopped s.watcher → ∀ wd ∈ s.kernel.live,
    wd ∈ removing s.watcher.place ∨ ∃ row ∈ s.watcher.table, row.wd = wd
  announced : ∀ row ∈ s.watcher.table, Announced s row.wd
  inserting : ∀ row, Inserting s.watcher row → Announced s row.wd

theorem paired_start (cfg : Config) : Paired (System.start cfg .start) := by
  constructor <;> simp [System.start, Watcher.start, Inotify.start, Inserting]

theorem branch_ignoredEvent (wd : Wd) : (ignoredEvent wd).branch = .ignored := by
  simp [ignoredEvent, Event.branch, Event.has]
  decide

theorem has_inIgnored_of_branch {event : Event} (hbranch : event.branch = .ignored) :
    event.has inIgnored = true := by
  unfold Event.branch at hbranch
  split_ifs at hbranch
  assumption

theorem Announced.emit {w : Watcher} {k : Inotify} {wd : Wd} (hannounced : Announced ⟨w, k⟩ wd)
    (event : Event) : Announced ⟨w, k.emit event⟩ wd := by
  rw [Announced, pending_emit]
  exact hannounced.imp id (List.mem_append_left _)

/-- The watch that dies is announced by the event that is queued for it. -/
theorem Announced.kill {w : Watcher} {k : Inotify} {wd : Wd} (hannounced : Announced ⟨w, k⟩ wd)
    (dead : Wd) : Announced ⟨w, k.kill dead⟩ wd := by
  rw [Announced, pending_kill]
  by_cases hdead : wd = dead
  · subst hdead
    exact Or.inr (by simp)
  · rcases hannounced with hlive | hpending
    · exact Or.inl (List.mem_filter.mpr ⟨hlive, by simpa using hdead⟩)
    · exact Or.inr (List.mem_append_left _ hpending)

theorem Paired.act {s : System Inotify} {action : InotifyAct} {kernel : Inotify}
    (hpaired : Paired s) (hact : inotify.act s.kernel action = some kernel) :
    Paired { s with kernel } := by
  cases action with
  | emit event =>
    simp only [inotify] at hact
    split_ifs at hact
    cases hact
    exact ⟨hpaired.recorded, fun row hrow ↦ (hpaired.announced row hrow).emit event,
      fun row hrow ↦ (hpaired.inserting row hrow).emit event⟩
  | die wd =>
    simp only [inotify] at hact
    split_ifs at hact
    cases hact
    exact ⟨fun hruns other hother ↦ hpaired.recorded hruns other (List.mem_of_mem_filter hother),
      fun row hrow ↦ (hpaired.announced row hrow).kill wd,
      fun row hrow ↦ (hpaired.inserting row hrow).kill wd⟩

/-- A row that a prune has taken from the table is on the list that goes to
`remove_pruned_wds`. -/
theorem removing_of_prune {w after : Watcher} {wd : Wd} {new : Option Row}
    (hstep : PruneStep w wd new after) (hruns : ¬ Stopped after) {row : Row}
    (hrow : row ∈ w.table) : row.wd ∈ removing after.place ∨ row ∈ after.table := by
  cases hstep with
  | loops => exact absurd ⟨_, rfl⟩ hruns
  | @removes wds table hprune =>
    obtain ⟨-, hmem, -⟩ := pruneWdDirectory_spec hprune
    by_cases hremoved : row.wd ∈ wds
    · exact Or.inl hremoved
    · exact Or.inr ((hmem row).mpr ⟨hrow, hremoved⟩)

/-- When an event has been processed, a row that is left is announced by the events
after it: an `IN_IGNORED` takes its own row with it. -/
theorem Paired.takesEvent (cfg : Config) {s : System Inotify} (hpaired : Paired s)
    (hordered : Ordered s)
    {event : Event} {rest : List Event} {after : Watcher} (hplace : s.watcher.place = .nextEvent)
    (hbatch : s.watcher.batch = event :: rest)
    (hstep : DispatchStep event ({ s.watcher with batch := rest }.findParent event) after) :
    Paired { s with watcher := after } := by
  have hpending := pending_of_dispatch hbatch hstep
  have hrows : ∀ row ∈ after.table, row ∈ s.watcher.table := fun row hrow ↦ by
    simpa using mem_table_of_dispatch hstep hrow
  have hrecorded : ∀ wd ∈ s.kernel.live, ∃ row ∈ s.watcher.table, row.wd = wd := by
    intro wd hwd
    simpa [hplace, removing] using hpaired.recorded (by simp [Stopped, hplace]) wd hwd
  have hdelivered := hordered.delivered
  rw [hpending] at hdelivered
  refine ⟨fun hruns wd hlive ↦ ?_, fun row hrow ↦ ?_, fun row hinserting ↦ ?_⟩
  · obtain ⟨row, hrow, rfl⟩ := hrecorded wd hlive
    cases hstep with
    | forgets hbranch =>
      have hignored := hdelivered.ignored event List.mem_cons_self (has_inIgnored_of_branch hbranch)
      refine Or.inr ⟨row, mem_removeWdDirectory.mpr ⟨by simpa using hrow, ?_⟩, rfl⟩
      rintro heq
      exact hignored.2 (heq ▸ hlive)
    | prunes _ _ _ _ _ hprune =>
      rcases removing_of_prune hprune hruns (by simpa using hrow) with hremoved | hleft
      · exact Or.inl hremoved
      · exact Or.inr ⟨row, hleft, rfl⟩
    | _ => exact Or.inr ⟨row, by simpa using hrow, rfl⟩
  · rcases hpaired.announced row (hrows row hrow) with hlive | hevent
    · exact Or.inl hlive
    · rw [hpending] at hevent
      rcases List.mem_cons.mp hevent with heq | hlater
      · exfalso
        have hbranch : event.branch = .ignored := by rw [← heq, branch_ignoredEvent]
        have hwd : row.wd = event.wd := congrArg Event.wd heq
        cases hstep with
        | forgets => exact (mem_removeWdDirectory.mp hrow).2 hwd
        | exits _ _ hother => exact hother hbranch
        | skips hother => exact hother (by simp [hbranch])
        | reports _ hother => exact hother (by simp [hbranch])
        | watches _ _ hframe => simp [hbranch] at hframe
        | movesUnrecorded _ hother => simp [hbranch] at hother
        | prunes _ hother => simp [hbranch] at hother
      · exact Or.inr hlater
  · have hinternal : InternalStep cfg s.watcher after := .takesEvent hplace hbatch hstep
    exact absurd hinserting (not_inserting_of_internal hinternal row)

/-- Outside of `remove_pruned_wds` each live watch has its row. -/
theorem Paired.exists_row {s : System Inotify} (hpaired : Paired s)
    (hremoving : removing s.watcher.place = []) (hruns : ¬ Stopped s.watcher) {wd : Wd}
    (hlive : wd ∈ s.kernel.live) : ∃ row ∈ s.watcher.table, row.wd = wd := by
  simpa [hremoving] using hpaired.recorded hruns wd hlive

/-- A live watch has a row when `inotify_add_watch` answers with it. -/
theorem Paired.not_new {s : System Inotify} (hpaired : Paired s) {parentWd wd : Wd} {path : Bytes}
    (hplace : s.watcher.place = .inotifyAddWatch parentWd path) (hlive : wd ∈ s.kernel.live) :
    ¬ ∀ row ∈ s.watcher.table, row.wd ≠ wd := by
  intro hnew
  obtain ⟨row, hrow, hwd⟩ :=
    hpaired.exists_row (by rw [hplace]; rfl) (by simp [Stopped, hplace]) hlive
  exact hnew row hrow hwd

/-- A step that moves on to another place and does nothing to the table. -/
theorem Paired.stay {s : System Inotify} (hpaired : Paired s) {after : Watcher}
    (htable : after.table = s.watcher.table) (hbatch : after.batch = s.watcher.batch)
    (hrecorded : Stopped after ∨ removing s.watcher.place = [] ∧ ¬ Stopped s.watcher)
    (hinserting : ∀ row, ¬ Inserting after row) : Paired { s with watcher := after } := by
  have hannounced : ∀ wd, Announced s wd → Announced { s with watcher := after } wd := by
    intro wd
    rw [Announced, Announced, pending, pending, hbatch]
    exact id
  refine ⟨fun hruns wd hlive ↦ ?_, fun row hrow ↦ ?_, fun row hrow ↦ absurd hrow (hinserting row)⟩
  · rcases hrecorded with hstopped | ⟨hremoving, hruns⟩
    · exact absurd hstopped hruns
    · rw [htable]
      exact Or.inr (hpaired.exists_row hremoving hruns hlive)
  · exact hannounced _ (hpaired.announced row (htable ▸ hrow))

/-- A row that is inserted for a watch that is announced. -/
theorem paired_of_insert {s : System Inotify} {kernel : Inotify} {after : Watcher} {row : Row}
    (hstep : InsertStep s.watcher row after)
    (htable : ∀ old ∈ s.watcher.table, Announced { s with kernel } old.wd)
    (hrow : Announced { s with kernel } row.wd)
    (hrecorded : ∀ wd ∈ kernel.live, wd = row.wd ∨ ∃ old ∈ s.watcher.table, old.wd = wd) :
    Paired ⟨after, kernel⟩ := by
  have hannounced : ∀ wd, Announced { s with kernel } wd → Announced ⟨after, kernel⟩ wd := by
    intro wd
    rw [Announced, Announced, pending, pending, batch_of_insert hstep]
    exact id
  refine ⟨fun hruns wd hlive ↦ ?_, fun old hold ↦ ?_,
    fun row hrow ↦ absurd hrow (not_inserting_of_insert hstep row)⟩
  · cases hstep with
    | clashes => exact absurd ⟨_, rfl⟩ hruns
    | inserts hadd =>
      obtain ⟨-, rfl⟩ := addWdDirectory_eq_some_iff.mp hadd
      rcases hrecorded wd hlive with rfl | ⟨old, hold, rfl⟩
      · exact Or.inr ⟨row, by simp, rfl⟩
      · exact Or.inr ⟨old, List.mem_append_left _ hold, rfl⟩
  · rcases mem_table_of_insert hstep hold with hmem | rfl
    · exact hannounced _ (htable old hmem)
    · exact hannounced _ hrow

theorem Paired.internal {cfg : Config} {s : System Inotify} {after : Watcher} (hordered : Ordered s)
    (hpaired : Paired s) (hstep : InternalStep cfg s.watcher after) :
    Paired { s with watcher := after } := by
  have hinserting := not_inserting_of_internal hstep
  cases hstep with
  | takesEvent hplace hbatch hdispatch =>
    exact hpaired.takesEvent cfg hordered hplace hbatch hdispatch
  | insertsPruned hplace hinsert =>
    refine paired_of_insert hinsert hpaired.announced (hpaired.inserting _ ⟨_, hplace⟩)
      fun wd hlive ↦ Or.inr ?_
    exact hpaired.exists_row (by rw [hplace]; rfl) (by simp [Stopped, hplace]) hlive
  | startsPolling hplace =>
    refine hpaired.stay rfl rfl (Or.inr ?_) hinserting
    rcases hplace with ⟨hplace, -⟩ | ⟨hplace, -⟩ <;> simp [Stopped, hplace, removing]
  | @returns _ frame _ hplace =>
    refine hpaired.stay ?_ ?_ (Or.inr (by simp [Stopped, hplace, removing])) hinserting <;>
      cases frame <;> rfl
  | reports hplace =>
    rw [report_eq] at hinserting ⊢
    exact hpaired.stay rfl rfl (Or.inr (by simp [Stopped, hplace, removing])) hinserting
  | overflows => exact hpaired.stay rfl rfl (Or.inl ⟨_, rfl⟩) hinserting
  | readsLine hplace | refuses hplace | requests hplace | finishesPrune hplace
  | finishesSubDirs hplace | descends hplace =>
    exact hpaired.stay rfl rfl (Or.inr (by simp [Stopped, hplace, removing])) hinserting

theorem Paired.prune {s : System Inotify} (hpaired : Paired s)
    (hremoving : removing s.watcher.place = []) (hruns : ¬ Stopped s.watcher) {wd : Wd} {new : Row}
    {after : Watcher} (hnew : new.wd ∈ s.kernel.live)
    (hstep : PruneStep s.watcher wd (some new) after) : Paired { s with watcher := after } := by
  refine ⟨fun hruns' other hlive ↦ ?_, fun row hrow ↦ ?_, fun row hrow ↦ ?_⟩
  · obtain ⟨row, hrow, rfl⟩ := hpaired.exists_row hremoving hruns hlive
    exact (removing_of_prune hstep hruns' hrow).imp id fun hleft ↦ ⟨row, hleft, rfl⟩
  · have hannounced := hpaired.announced row (mem_table_of_prune hstep hrow)
    rwa [Announced, pending, ← batch_of_prune hstep] at hannounced
  · cases inserting_of_prune hstep hrow
    exact Or.inl hnew

/-- One turn of `remove_pruned_wds`, after which its watch is dead. -/
theorem Paired.removes {s : System Inotify} (hpaired : Paired s) {kernel : Inotify} {wd : Wd}
    {rest : List Wd} {row : Option Row}
    (hplace : s.watcher.place = .removePrunedWds (wd :: rest) row)
    (hlive : ∀ other ∈ kernel.live, other ∈ s.kernel.live ∧ other ≠ wd)
    (hannounced : ∀ other, Announced s other → Announced { s with kernel } other) :
    Paired ⟨{ s.watcher with place := .removePrunedWds rest row }, kernel⟩ := by
  refine ⟨fun _ other hother ↦ ?_, fun old hold ↦ hannounced _ (hpaired.announced old hold), ?_⟩
  · obtain ⟨hbefore, hne⟩ := hlive other hother
    rcases hpaired.recorded (by simp [Stopped, hplace]) other hbefore with hmem | hrow
    · rw [hplace, removing] at hmem
      exact Or.inl ((List.mem_cons.mp hmem).resolve_left hne)
    · exact Or.inr hrow
  · intro new hinserting
    exact hannounced _ (hpaired.inserting new (inserting_of_removes hplace hinserting))

theorem Paired.answer {s after : System Inotify} (hpaired : Paired s) (hordered : Ordered s)
    {answer : Answer}
    (hstep : AnswerStep s.watcher s.kernel answer after.watcher after.kernel) : Paired after := by
  obtain ⟨watcher, kernel⟩ := after
  cases hstep with
  | @reads events rest hplace hqueue =>
    have hbatch := hordered.control.idle (Or.inl hplace)
    have hpending : pending s = events ++ rest := by
      rw [pending, hbatch, hqueue, List.nil_append]
    have hannounced : ∀ wd, Announced s wd →
        Announced ⟨s.watcher.startBatch events, { s.kernel with queue := rest }⟩ wd := by
      intro wd
      rw [Announced, Announced, hpending]
      exact id
    refine ⟨fun _ wd hlive ↦ Or.inr ?_, fun row hrow ↦ hannounced _ (hpaired.announced row hrow),
      by simp [Inserting]⟩
    exact hpaired.exists_row (by rw [hplace]; rfl) (by simp [Stopped, hplace]) hlive
  | exits => exact hpaired.stay rfl rfl (Or.inl ⟨_, rfl⟩) (by simp [Inserting])
  | reuses hplace hlive _ hprune =>
    exact hpaired.prune (by rw [hplace]; rfl) (by simp [Stopped, hplace]) hlive hprune
  | addsAgain hplace hlive hnew => exact absurd hnew (hpaired.not_new hplace hlive)
  | @adds parentWd path wd _ hplace hpositive hfresh hinsert =>
    refine paired_of_insert hinsert (fun row hrow ↦ ?_) (Or.inl List.mem_cons_self)
      fun other hother ↦ (List.mem_cons.mp hother).imp id fun hold ↦ ?_
    · exact (hpaired.announced row hrow).imp (List.mem_cons_of_mem _) id
    exact hpaired.exists_row (by rw [hplace]; rfl) (by simp [Stopped, hplace]) hold
  | missed _ hplace =>
    exact hpaired.stay rfl rfl (Or.inr (by simp [Stopped, hplace, removing])) (by simp [Inserting])
  | kills hplace hlive =>
    refine hpaired.removes hplace (fun other hother ↦ ?_) fun other hother ↦ hother.kill _
    simpa [Inotify.kill] using hother
  | killed hplace hdead =>
    exact hpaired.removes hplace (fun other hother ↦ ⟨hother, fun heq ↦ hdead (heq ▸ hother)⟩)
      fun other hother ↦ hother
  | opens hplace | opensNothing _ hplace | lists hplace =>
    exact hpaired.stay rfl rfl (Or.inr (by simp [Stopped, hplace, removing])) (by simp [Inserting])

theorem Paired.step {cfg : Config} {s after : System Inotify} {label : Label InotifyAct}
    (hpaired : Paired s) (hordered : Ordered s) (hstep : s.step cfg inotify label = some after) :
    Paired after := by
  cases label with
  | act action =>
    obtain ⟨kernel, hact, rfl⟩ := System.exists_kernel hstep
    exact hpaired.act hact
  | internal =>
    obtain ⟨watcher, hinternal, rfl⟩ := System.exists_watcher hstep
    exact hpaired.internal hordered (internalStep hinternal)
  | answer answer =>
    obtain ⟨call, hcall, hserve, hresume⟩ := System.step_answer hstep
    exact hpaired.answer hordered
      (answerStep hordered.rowsUsed.table hcall (serveStep hserve) (resumeStep hresume))

theorem ordered_paired_of_reaches {cfg : Config} {s : System Inotify}
    (hreaches : Reaches (System.step cfg inotify) (System.start cfg .start) s) :
    Ordered s ∧ Paired s :=
  hreaches.invariant (fun s ↦ Ordered s ∧ Paired s) ⟨ordered_start cfg, paired_start cfg⟩
    fun _ _ _ ⟨hordered, hpaired⟩ _ hstep ↦ ⟨hordered.step hstep, hpaired.step hordered hstep⟩

/-- The places between two events, or between two lines of the config file. -/
def AtBoundary (w : Watcher) : Prop :=
  w.place = .loadTopLevelPaths ∨ w.place = .poll ∨ w.place = .nextEvent

/-- With any events and any answers that inotify may give, at every boundary each
live watch has a row, and each row has a live watch or an `IN_IGNORED` that has not
been processed. -/
theorem watches_and_rows_paired (cfg : Config) {s : System Inotify}
    (hreaches : Reaches (System.step cfg inotify) (System.start cfg .start) s)
    (hboundary : AtBoundary s.watcher) :
    (∀ wd ∈ s.kernel.live, ∃ row ∈ s.watcher.table, row.wd = wd) ∧
      ∀ row ∈ s.watcher.table, row.wd ∈ s.kernel.live ∨ ignoredEvent row.wd ∈ pending s := by
  obtain ⟨-, hpaired⟩ := ordered_paired_of_reaches hreaches
  refine ⟨fun wd hlive ↦ ?_, hpaired.announced⟩
  rcases hboundary with hplace | hplace | hplace <;>
    exact hpaired.exists_row (by rw [hplace]; rfl) (by simp [Stopped, hplace]) hlive

/-- After the start-up scan of `/t` with a sub-directory `a`, `a` is removed: the row
of its dead watch waits for the event. -/
theorem watches_and_rows_paired_removed :
    ∃ s, Reaches (System.step ⟨[[47, 116]], [], by decide⟩ inotify)
        (System.start ⟨[[47, 116]], [], by decide⟩ .start) s ∧
      s.kernel.live = [1] ∧ s.watcher.table.map Row.wd = [1, 2] ∧
      ∀ row ∈ s.watcher.table, row.wd ∈ s.kernel.live ∨ ignoredEvent row.wd ∈ pending s := by
  have hrun : (run (System.step ⟨[[47, 116]], [], by decide⟩ inotify)
      (System.start ⟨[[47, 116]], [], by decide⟩ .start)
      [.internal, .internal, .answer (.watch 1), .answer .done, .answer (.names [[97]]),
        .internal, .internal, .answer (.watch 2), .answer .done, .answer (.names []),
        .act (.die 2), .internal, .internal, .internal, .internal]).map
      (fun s : System Inotify ↦ (s.watcher.place, s.kernel.live, s.watcher.table.map Row.wd)) =
      some (.loadTopLevelPaths, [1], [1, 2]) := by decide
  obtain ⟨s, hreaches, hseen⟩ := exists_reaches_of_run hrun
  simp only [Prod.mk.injEq] at hseen
  exact ⟨s, hreaches, hseen.2.1, hseen.2.2,
    (watches_and_rows_paired _ hreaches (Or.inl hseen.1)).2⟩

end DirWatcher.Watching
