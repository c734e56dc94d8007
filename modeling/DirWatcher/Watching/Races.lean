import DirWatcher.Environment.Racing
import DirWatcher.Foundation.Inevitable
import DirWatcher.Watching.Calls
import Mathlib.Logic.Hydra

/-!
A call of `add_watch` among directories that vanish, become unreadable or are replaced at
any time. What is left of the call is a multiset of tasks, and each step puts smaller ones
in the place of one of them: the paths grow with every call, and cannot outgrow the buffer.
-/

set_option autoImplicit false
set_option relaxedAutoImplicit false

namespace DirWatcher.Watching

open Source Environment Foundation.Runs Foundation.ParentLinks Relation

/-! ### What is left to do -/

/-- How far a path can still grow. -/
def room (path : Bytes) : ℕ := 8 * (maxPathLen - path.length)

/-- The loop over the sub-directories: itself, and a call for each name. -/
def loopTasks (path : Bytes) (names : List Bytes) : Multiset ℕ :=
  {room path + 2} + Multiset.replicate names.length (room path)

def placeTasks : Place → Multiset ℕ
  | .addWatch _ path => {room path + 7}
  | .inotifyAddWatch _ path => {room path + 6}
  | .removePrunedWds wds (some row) => {room row.path + 5} + Multiset.replicate wds.length 0
  | .opendir _ path => {room path + 4}
  | .readdir _ path => {room path + 3}
  | .subDirs _ path names => loopTasks path names
  | .returned _ => {1}
  | _ => 0

def frameTasks : Frame → Multiset ℕ
  | .subDirs _ path names => loopTasks path names
  | _ => 0

/-- All tasks of a call. -/
def tasks (w : Watcher) : Multiset ℕ := placeTasks w.place + (w.stack.map frameTasks).sum

/-- One task is taken, and smaller ones may come of it. -/
abbrev Fewer : Multiset ℕ → Multiset ℕ → Prop := CutExpand fun small large : ℕ ↦ small < large

theorem wellFounded_fewer : WellFounded Fewer := Nat.lt_wfRel.wf.cutExpand

variable {w after : Watcher} {path name : Bytes} {names rest : List Bytes}

theorem fewer_of_lt {task : ℕ} {others : Multiset ℕ} (hless : ∀ other ∈ others, other < task) :
    Fewer others {task} := cutExpand_singleton hless

theorem mem_loopTasks_lt {other : ℕ} (hother : other ∈ loopTasks path names) :
    other < room path + 3 := by
  rcases Multiset.mem_add.mp hother with hloop | hname
  · have hloop := Multiset.mem_singleton.mp hloop
    omega
  · have hname := Multiset.eq_of_mem_replicate hname
    omega

/-- A step that leaves the callers alone. -/
theorem fewer_of_place (hstack : after.stack = w.stack)
    (hfewer : Fewer (placeTasks after.place) (placeTasks w.place)) :
    Fewer (tasks after) (tasks w) := by
  rw [tasks, tasks, hstack]
  exact (cutExpand_add_right _).mpr hfewer

theorem room_joinPath_lt (hfits : (joinPath path name).length < maxPathLen) :
    room (joinPath path name) + 7 < room path := by
  rw [length_joinPath] at hfits
  rw [room, room, length_joinPath]
  omega

/-- The call for a sub-directory takes the place of its name. -/
theorem fewer_of_descent (stack : List Frame) (parentWd : Wd)
    (hfits : (joinPath path name).length < maxPathLen) :
    Fewer
      (placeTasks (.addWatch parentWd (joinPath path name)) +
        ((Frame.subDirs parentWd path rest :: stack).map frameTasks).sum)
      (placeTasks (.subDirs parentWd path (name :: rest)) + (stack.map frameTasks).sum) := by
  refine ⟨{room (joinPath path name) + 7}, room path, fun other hother ↦ ?_, ?_⟩
  · rw [Multiset.mem_singleton.mp hother]
    exact room_joinPath_lt hfits
  · simp only [placeTasks, frameTasks, loopTasks, List.map_cons, List.sum_cons, List.length_cons,
      Multiset.replicate_succ, ← Multiset.singleton_add]
    ac_rfl

theorem mem_pruneTasks_lt {wds : List Wd} {row : Row} {other : ℕ}
    (hother : other ∈ placeTasks (.removePrunedWds wds (some row))) :
    other < room row.path + 6 := by
  rcases Multiset.mem_add.mp hother with hinsert | hremove
  · rw [Multiset.mem_singleton.mp hinsert]
    exact Nat.lt_succ_self _
  · rw [Multiset.eq_of_mem_replicate hremove]
    exact Nat.succ_pos _

/-- One watch less to remove. -/
theorem fewer_of_removal (wd : Wd) (wds : List Wd) (row : Row) :
    Fewer (placeTasks (.removePrunedWds wds (some row)))
      (placeTasks (.removePrunedWds (wd :: wds) (some row))) := by
  refine (cutExpand_add_left _).mpr ?_
  rw [List.length_cons, Multiset.replicate_succ, ← Multiset.singleton_add]
  exact ⟨0, 0, by simp, by ac_rfl⟩

/-- A call that has returned is no task any longer. -/
theorem fewer_of_return (parentWd : Wd) (path : Bytes) (names : List Bytes) (stack : List Frame)
    (result : ℤ) :
    Fewer (placeTasks (.subDirs parentWd path names) + (stack.map frameTasks).sum)
      (placeTasks (.returned result) +
        ((Frame.subDirs parentWd path names :: stack).map frameTasks).sum) := by
  refine ⟨0, 1, by simp, ?_⟩
  simp only [placeTasks, frameTasks, List.map_cons, List.sum_cons]
  ac_rfl

/-! ### What the code gets along with -/

/-- The error is one that stops the process at the place in the code. -/
def Fatal : Place → Errno → Prop
  | .inotifyAddWatch _ _, errno => errno ≠ .enoent ∧ errno ≠ .eacces
  | .opendir _ _, errno => errno ≠ .enoent ∧ errno ≠ .enotdir
  | .removePrunedWds _ _, errno => errno ≠ .einval
  | _, _ => True

instance (place : Place) (errno : Errno) : Decidable (Fatal place errno) :=
  match place with
  | .inotifyAddWatch _ _ => inferInstanceAs (Decidable (errno ≠ .enoent ∧ errno ≠ .eacces))
  | .opendir _ _ => inferInstanceAs (Decidable (errno ≠ .enoent ∧ errno ≠ .enotdir))
  | .removePrunedWds _ _ => inferInstanceAs (Decidable (errno ≠ .einval))
  | .loadTopLevelPaths | .poll | .nextEvent | .addWatch _ _ | .readdir _ _ | .subDirs _ _ _
  | .returned _ | .report | .stopped _ => isTrue trivial

/-- A failed call stops the process just if the error is fatal. -/
theorem stopped_iff_fatal {errno : Errno} (hresume : w.resume (.error errno) = some after) :
    Stopped after ↔ Fatal w.place errno := by
  unfold Watcher.resume at hresume
  split at hresume
  case h_2 hplace herror =>
    cases herror
    cases hresume
    simp [hplace, Fatal, Stopped, Watcher.exit]
  case h_4 hplace herror =>
    cases herror
    cases hresume
    rw [hplace, Watcher.watchFailed]
    split_ifs with herrno
    · simp [Fatal, Stopped, ← not_or, herrno]
    · simp [Fatal, Stopped, Watcher.exit, ← not_or, herrno]
  case h_6 hplace herror =>
    cases herror
    split_ifs at hresume with herrno <;> cases hresume
    · simp [hplace, Fatal, Stopped, herrno]
    · simp [hplace, Fatal, Stopped, Watcher.exit, herrno]
  case h_8 hplace herror =>
    cases herror
    cases hresume
    rw [hplace, Watcher.opendirFailed]
    split_ifs with herrno
    · simp [Fatal, Stopped, ← not_or, herrno]
    · simp [Fatal, Stopped, Watcher.exit, ← not_or, herrno]
  case h_10 hplace herror =>
    cases herror
    cases hresume
    simp [hplace, Fatal, Stopped, Watcher.exit]
  all_goals simp_all

/-- The turn of a name stops the process just if its full path does not fit in the buffer. -/
theorem stopped_watchSubDir_iff (w : Watcher) (wd : Wd) (path name : Bytes) (rest : List Bytes) :
    Stopped (w.watchSubDir wd path (name :: rest)) ↔ maxPathLen ≤ (joinPath path name).length := by
  unfold Watcher.watchSubDir
  dsimp only [snprintf]
  split_ifs with hlength
  · exact iff_of_true ⟨_, rfl⟩ hlength
  · refine iff_of_false ?_ hlength
    rintro ⟨stop, hstop⟩
    cases hstop

/-- The full paths of the names fit in the buffer. -/
def NamesFit (path : Bytes) (names : List Bytes) : Prop :=
  ∀ name ∈ names, (joinPath path name).length < maxPathLen

/-- The kernel does not answer with a fatal error or with a name that is too long, and when
it answers with a watch descriptor that has a row, that row is by the `parent_wd` links not
above itself, and neither above a directory that has been added by the call nor its own. -/
def Tolerated (s : System (List Granted)) : Label Empty → Prop
  | .answer (.error errno) => ¬ Fatal s.watcher.place errno
  | .answer (.names names) => ∀ wd path, s.watcher.place = .readdir wd path → NamesFit path names
  | .answer (.watch wd) => wdDirectoryExists s.watcher.table wd = true →
    ¬ OnWdCycle s.watcher.table wd ∧
      ∀ granted ∈ s.kernel, ¬ BelowWd s.watcher.table wd granted.wd
  | _ => True

/-- The table has the row that belongs to an answer of `inotify_add_watch`. -/
def Recorded (table : Table) (granted : Granted) : Prop :=
  ∃ row ∈ table, row.wd = granted.wd ∧ row.path = granted.path

/-- The call has returned, and each directory that was granted a watch has its row. -/
structure Finished (s : System (List Granted)) : Prop where
  returns : ∃ result, Returns s result
  recorded : ∀ granted ∈ s.kernel, Recorded s.watcher.table granted

/-- A prune that ends does not start on a cycle. -/
theorem not_onWdCycle_of_prune {table pruned : Table} {wd : Wd} {wds : List Wd}
    (hprune : pruneWdDirectory table wd = some (wds, pruned)) : ¬ OnWdCycle table wd := by
  obtain ⟨walked, hwalk, -⟩ := Option.map_eq_some_iff.mp hprune
  exact not_onCycle_of_traverse hwalk

/-- An answer that is not tolerated, other than a long name, stops the process or takes the
row of a directory that has been added. -/
theorem fails_of_not_tolerated {cfg : Config} {s next : System (List Granted)} {answer : Answer}
    (hstep : s.step cfg racing (.answer answer) = some next)
    (hnot : ¬ Tolerated s (.answer answer)) (hnames : ∀ names, answer ≠ .names names) :
    Stopped next.watcher ∨ ∃ granted ∈ s.kernel, ¬ Recorded next.watcher.table granted := by
  obtain ⟨_, -, -, hresume⟩ := System.step_answer hstep
  obtain ⟨watcher, kernel⟩ := next
  cases answer with
  | done | events => exact absurd trivial hnot
  | names names => exact absurd rfl (hnames names)
  | error errno => exact Or.inl ((stopped_iff_fatal hresume).mpr (not_not.mp hnot))
  | watch wd =>
    obtain ⟨hexists, hnot⟩ := Classical.not_imp.mp hnot
    cases resumeStep hresume with
    | adds _ hmissing => cases hexists.symm.trans hmissing
    | removes _ _ hanswer => rcases hanswer with hdone | herror <;> contradiction
    | reuses _ _ hprune =>
      cases hprune with
      | loops => exact Or.inl ⟨_, rfl⟩
      | removes hprune =>
        rw [not_and, not_forall] at hnot
        obtain ⟨granted, hgranted⟩ := hnot (not_onWdCycle_of_prune hprune)
        obtain ⟨hmem, hbelow⟩ := Classical.not_imp.mp hgranted
        obtain ⟨hwds, hkept, -⟩ := pruneWdDirectory_spec hprune
        refine Or.inr ⟨granted, hmem, ?_⟩
        rintro ⟨row, hrow, hwd, -⟩
        exact ((hkept row).mp hrow).2 ((hwds row.wd).mpr (hwd ▸ not_not.mp hbelow))

/-! ### The call under way -/

/-- What the call has made sure of at a place in the code. -/
def Ensured (table : Table) : Place → Prop
  | .addWatch _ _ | .opendir _ _ | .readdir _ _ | .returned _ => True
  | .inotifyAddWatch _ path => ∀ row ∈ table, row.path ≠ path
  | .removePrunedWds _ (some row) => 0 < row.wd ∧ Free table row
  | .subDirs _ path names => NamesFit path names
  | _ => False

/-- The row is about to be inserted. -/
def Awaited : Place → Granted → Prop
  | .removePrunedWds _ (some row), granted => row.wd = granted.wd ∧ row.path = granted.path
  | _, _ => False

structure Surviving (s : System (List Granted)) : Prop where
  keyed : Keyed s.watcher.table
  ensured : Ensured s.watcher.table s.watcher.place
  frames : ∀ frame ∈ s.watcher.stack, ∃ wd path names,
    frame = .subDirs wd path names ∧ NamesFit path names
  granted : ∀ granted ∈ s.kernel,
    Recorded s.watcher.table granted ∨ Awaited s.watcher.place granted

variable {cfg : Config} {s next : System (List Granted)}

theorem surviving_addWatchCall (hkeyed : Keyed w.table) (parentWd : Wd) (path : Bytes) :
    Surviving (addWatchCall ⟨w, []⟩ parentWd path) where
  keyed := hkeyed
  ensured := trivial
  frames := fun _ hframe ↦ absurd hframe List.not_mem_nil
  granted := fun _ hgranted ↦ absurd hgranted List.not_mem_nil

theorem Surviving.recorded (hsurviving : Surviving s)
    (hawaits : ∀ granted, ¬ Awaited s.watcher.place granted) :
    ∀ granted ∈ s.kernel, Recorded s.watcher.table granted := fun granted hgranted ↦
  (hsurviving.granted granted hgranted).resolve_right (hawaits granted)

/-- A step that leaves the table, the callers and what has been granted alone. -/
theorem Surviving.stay (hsurviving : Surviving s) {here place : Place}
    (hplace : s.watcher.place = here) (hensured : Ensured s.watcher.table place)
    (hawaits : ∀ granted, Awaited here granted → Awaited place granted)
    (hfewer : Fewer (placeTasks place) (placeTasks here)) :
    Surviving { s with watcher := { s.watcher with place } } ∧
      Fewer (tasks { s.watcher with place }) (tasks s.watcher) := by
  subst hplace
  refine ⟨⟨hsurviving.keyed, hensured, hsurviving.frames, fun granted hgranted ↦ ?_⟩,
    fewer_of_place rfl hfewer⟩
  exact (hsurviving.granted granted hgranted).imp_right (hawaits granted)

theorem Recorded.append {table : Table} {granted : Granted} (hrecorded : Recorded table granted)
    (row : Row) : Recorded (table ++ [row]) granted :=
  hrecorded.imp fun _ hrow ↦ ⟨List.mem_append_left _ hrow.1, hrow.2⟩

theorem recorded_append_self {table : Table} {row : Row} {granted : Granted}
    (hwd : row.wd = granted.wd) (hpath : row.path = granted.path) :
    Recorded (table ++ [row]) granted :=
  ⟨row, List.mem_append_right _ List.mem_cons_self, hwd, hpath⟩

/-- The insertion of a row that the table has room for. -/
theorem Surviving.insert (hsurviving : Surviving s) {row : Row} {kernel : List Granted}
    (hpositive : 0 < row.wd) (hfree : Free s.watcher.table row)
    (hgranted : ∀ granted ∈ kernel, Recorded s.watcher.table granted ∨
      row.wd = granted.wd ∧ row.path = granted.path) :
    Surviving ⟨{ s.watcher with
      table := s.watcher.table ++ [row], place := .opendir row.wd row.path }, kernel⟩ where
  keyed := hsurviving.keyed.insert hfree hpositive
  ensured := trivial
  frames := hsurviving.frames
  granted := fun granted hmem ↦ Or.inl <| (hgranted granted hmem).elim
    (fun hrecorded ↦ hrecorded.append row) fun hrow ↦ recorded_append_self hrow.1 hrow.2

/-- A step without a system call. -/
theorem Surviving.internal {watcher : Watcher} (hsurviving : Surviving s)
    (hinternal : s.watcher.internal cfg = some watcher) :
    Surviving { s with watcher } ∧ Fewer (tasks watcher) (tasks s.watcher) := by
  have hensured := hsurviving.ensured
  cases internalStep hinternal with
  | readsLine hplace | takesEvent hplace | finishesPrune hplace | reports hplace =>
    rw [hplace] at hensured
    exact hensured.elim
  | startsPolling hplace =>
    rcases hplace with ⟨hplace, -⟩ | ⟨hplace, -⟩ <;> (rw [hplace] at hensured; exact hensured.elim)
  | @refuses _ path hplace =>
    exact hsurviving.stay hplace trivial (fun _ ↦ False.elim)
      (cutExpand_singleton_singleton (by omega))
  | @requests _ path hplace _ hfind =>
    refine hsurviving.stay hplace (fun row hrow ↦ ?_) (fun _ ↦ False.elim)
      (cutExpand_singleton_singleton (by omega))
    exact hsurviving.keyed.not_recorded_of_findDirectoryWd hfind hrow
  | @insertsPruned row _ hplace hinsert =>
    rw [hplace] at hensured
    obtain rfl := hinsert.eq_of_free hensured.2
    refine ⟨hsurviving.insert hensured.1 hensured.2 ?_, fewer_of_place rfl ?_⟩
    · simpa only [hplace, Awaited] using hsurviving.granted
    · rw [hplace]
      exact cutExpand_singleton_singleton (by omega)
  | @finishesSubDirs wd path hplace =>
    exact hsurviving.stay hplace trivial (fun _ ↦ False.elim)
      (cutExpand_singleton_singleton (by omega))
  | @descends wd path name rest hplace hlength =>
    rw [hplace] at hensured
    refine ⟨⟨hsurviving.keyed, trivial, ?_, fun granted hgranted ↦ Or.inl ?_⟩, ?_⟩
    · rintro frame (_ | ⟨_, hframe⟩)
      · exact ⟨wd, path, rest, rfl, fun name hname ↦ hensured name (List.mem_cons_of_mem _ hname)⟩
      · exact hsurviving.frames frame hframe
    · exact hsurviving.recorded (by simp [hplace, Awaited]) granted hgranted
    · rw [tasks, tasks, hplace]
      exact fewer_of_descent s.watcher.stack wd hlength
  | @overflows wd path name rest hplace =>
    rw [hplace] at hensured
    have hturn : s.watcher.internal cfg = some (s.watcher.watchSubDir wd path (name :: rest)) := by
      rw [Watcher.internal, hplace]
    have hstopped : Stopped (s.watcher.watchSubDir wd path (name :: rest)) :=
      ⟨_, congrArg Watcher.place (Option.some_inj.mp (hturn.symm.trans hinternal))⟩
    have hlong := (stopped_watchSubDir_iff _ _ _ _ _).mp hstopped
    exact absurd (hensured name List.mem_cons_self) (not_lt.mpr hlong)
  | @returns result frame rest hplace hstack =>
    obtain ⟨wd, path, names, rfl, hfit⟩ :=
      hsurviving.frames frame (by rw [hstack]; exact List.mem_cons_self)
    refine ⟨⟨hsurviving.keyed, hfit, fun frame hframe ↦ ?_, fun granted hgranted ↦ Or.inl ?_⟩, ?_⟩
    · exact hsurviving.frames frame (by rw [hstack]; exact List.mem_cons_of_mem _ hframe)
    · exact hsurviving.recorded (by simp [hplace, Awaited]) granted hgranted
    · rw [tasks, tasks, hplace, hstack]
      exact fewer_of_return wd path names rest result

/-- The prune of the row that has the watch descriptor of an answer. -/
theorem Surviving.prune (hsurviving : Surviving s) {parentWd wd : Wd} {path : Bytes}
    {wds : List Wd} {table : Table} (hplace : s.watcher.place = .inotifyAddWatch parentWd path)
    (hpositive : 0 < wd) (hprune : pruneWdDirectory s.watcher.table wd = some (wds, table))
    (hapart : ∀ granted ∈ s.kernel, ¬ BelowWd s.watcher.table wd granted.wd) :
    Surviving ⟨{ s.watcher with table, place := .removePrunedWds wds (some ⟨wd, parentWd, path⟩) },
      ⟨wd, path⟩ :: s.kernel⟩ := by
  obtain ⟨hwds, hmem, hsub⟩ := pruneWdDirectory_spec hprune
  have hensured := hsurviving.ensured
  rw [hplace] at hensured
  refine ⟨hsurviving.keyed.sublist hsub, ⟨hpositive, fun old hold ↦ ?_⟩, hsurviving.frames, ?_⟩
  · obtain ⟨hold, hkept⟩ := (hmem old).mp hold
    refine ⟨fun hwd ↦ hkept ((hwds _).mpr ?_), hensured old hold⟩
    exact hwd ▸ Relation.ReflTransGen.refl
  · rintro granted (_ | ⟨_, hgranted⟩)
    · exact Or.inr ⟨rfl, rfl⟩
    · obtain ⟨row, hrow, hwd, hpath⟩ :=
        hsurviving.recorded (by simp [hplace, Awaited]) granted hgranted
      refine Or.inl ⟨row, (hmem row).mpr ⟨hrow, fun hpruned ↦ ?_⟩, hwd, hpath⟩
      exact hapart granted hgranted (hwd ▸ (hwds row.wd).mp hpruned)

/-- The answer to a system call. -/
theorem Surviving.answer {answer : Answer} (hsurviving : Surviving s)
    (htolerated : Tolerated s (.answer answer))
    (hstep : s.step cfg racing (.answer answer) = some next) :
    Surviving next ∧ Fewer (tasks next.watcher) (tasks s.watcher) := by
  obtain ⟨call, hcall, hserve, hresume⟩ := System.step_answer hstep
  obtain ⟨watcher, kernel⟩ := next
  have hserved := racingStep hserve
  have hensured := hsurviving.ensured
  cases resumeStep hresume with
  | reads _ hplace =>
    rw [hplace] at hensured
    exact hensured.elim
  | exits errno code => exact absurd ((stopped_iff_fatal hresume).mp ⟨_, rfl⟩) htolerated
  | @reuses parentWd path wd _ hplace hexists hprune =>
    obtain rfl := call_eq_inotifyAddWatch hplace hcall
    cases hserved with | grants _ _ hpositive =>
    obtain ⟨hcycle, hapart⟩ := htolerated hexists
    obtain ⟨wds, table, hends⟩ := hsurviving.keyed.exists_prune hcycle
    cases hprune with
    | loops hloops => cases hloops.symm.trans hends
    | removes hremoves =>
      refine ⟨hsurviving.prune hplace hpositive hremoves hapart, fewer_of_place rfl ?_⟩
      rw [hplace]
      exact fewer_of_lt fun other hother ↦ mem_pruneTasks_lt hother
  | @adds parentWd path wd _ hplace hexists hinsert =>
    obtain rfl := call_eq_inotifyAddWatch hplace hcall
    cases hserved with | grants _ _ hpositive =>
    rw [hplace] at hensured
    have hfree : Free s.watcher.table ⟨wd, parentWd, path⟩ := fun old hold ↦
      ⟨wdDirectoryExists_eq_false_iff.mp hexists old hold, hensured old hold⟩
    obtain rfl := hinsert.eq_of_free hfree
    refine ⟨hsurviving.insert hpositive hfree ?_, fewer_of_place rfl ?_⟩
    · rintro granted (_ | ⟨_, hgranted⟩)
      · exact Or.inr ⟨rfl, rfl⟩
      · exact Or.inl (hsurviving.recorded (by simp [hplace, Awaited]) granted hgranted)
    · rw [hplace]
      exact cutExpand_singleton_singleton (by dsimp only; omega)
  | @missed parentWd path errno hplace =>
    obtain rfl := call_eq_inotifyAddWatch hplace hcall
    cases hserved
    exact hsurviving.stay hplace trivial (fun _ ↦ False.elim)
      (cutExpand_singleton_singleton (by omega))
  | @removes wd rest row _ hplace =>
    obtain rfl := call_eq_inotifyRmWatch hplace hcall
    cases hserved
    rw [hplace] at hensured
    cases row with
    | none => exact hensured.elim
    | some row =>
      exact hsurviving.stay hplace hensured (fun _ ↦ id) (fewer_of_removal wd rest row)
  | @opens wd path hplace =>
    obtain rfl := call_eq_opendir hplace hcall
    cases hserved
    exact hsurviving.stay hplace trivial (fun _ ↦ False.elim)
      (cutExpand_singleton_singleton (by omega))
  | @opensNothing wd path errno hplace =>
    obtain rfl := call_eq_opendir hplace hcall
    cases hserved
    refine hsurviving.stay hplace (fun name hname ↦ absurd hname List.not_mem_nil)
      (fun _ ↦ False.elim) (fewer_of_lt fun other hother ↦ ?_)
    exact (mem_loopTasks_lt hother).trans (Nat.lt_succ_self _)
  | @lists wd path names hplace =>
    obtain rfl := call_eq_readdir hplace hcall
    cases hserved
    exact hsurviving.stay hplace (htolerated wd path hplace) (fun _ ↦ False.elim)
      (fewer_of_lt fun other hother ↦ mem_loopTasks_lt hother)

/-! ### A step that can be taken -/

theorem exists_internal {watcher : Watcher} (hinternal : s.watcher.internal cfg = some watcher) :
    ∃ label next, Tolerated s label ∧ s.step cfg racing label = some next :=
  ⟨.internal, { s with watcher }, trivial, by rw [System.step, hinternal]; rfl⟩

theorem exists_answer {call : Call} {kernel : List Granted} (answer : Answer)
    (htolerated : Tolerated s (.answer answer)) (hcall : s.watcher.call = some call)
    (hserve : racing.serve s.kernel call answer = some kernel)
    (hresume : (s.watcher.resume answer).isSome) :
    ∃ label next, Tolerated s label ∧ s.step cfg racing label = some next := by
  obtain ⟨watcher, hresume⟩ := Option.isSome_iff_exists.mp hresume
  exact ⟨.answer answer, ⟨watcher, kernel⟩, htolerated,
    by simp [System.step, hcall, hserve, hresume]⟩

/-- Until it has returned, the call can go on. -/
theorem Surviving.exists_step (hsurviving : Surviving s) (hunfinished : ¬ Finished s) :
    ∃ label next, Tolerated s label ∧ s.step cfg racing label = some next := by
  have hensured := hsurviving.ensured
  cases hplace : s.watcher.place with
  | loadTopLevelPaths | poll | nextEvent | report | stopped =>
    rw [hplace] at hensured
    exact hensured.elim
  | addWatch parentWd path => exact exists_internal (by rw [Watcher.internal, hplace])
  | inotifyAddWatch parentWd path =>
    exact exists_answer (.error .enoent) (by simp [Tolerated, hplace, Fatal])
      (by rw [Watcher.call, hplace]) rfl (by simp [Watcher.resume, hplace])
  | removePrunedWds wds row =>
    cases wds with
    | cons wd rest =>
      exact exists_answer .done trivial (by rw [Watcher.call, hplace]) rfl
        (by simp [Watcher.resume, hplace])
    | nil =>
      cases row with
      | none =>
        rw [hplace] at hensured
        exact hensured.elim
      | some row => exact exists_internal (by rw [Watcher.internal, hplace])
  | opendir wd path =>
    exact exists_answer .done trivial (by rw [Watcher.call, hplace]) rfl
      (by simp [Watcher.resume, hplace])
  | readdir wd path =>
    exact exists_answer (.names []) (fun _ _ _ name hname ↦ absurd hname List.not_mem_nil)
      (by rw [Watcher.call, hplace]) rfl (by simp [Watcher.resume, hplace])
  | subDirs wd path names => exact exists_internal (by rw [Watcher.internal, hplace])
  | returned result =>
    cases hstack : s.watcher.stack with
    | nil =>
      have hrecorded := hsurviving.recorded (by simp [hplace, Awaited])
      exact absurd ⟨⟨result, hplace, hstack⟩, hrecorded⟩ hunfinished
    | cons frame rest => exact exists_internal (by rw [Watcher.internal, hplace, hstack])

/-! ### Whole calls -/

/-- A call of `add_watch`, from any table, among directories that vanish, become unreadable
or are replaced at any time. As long as the kernel answers as the code gets along with, the
call returns after finitely many steps, whatever the answers are, and every directory for
which `inotify_add_watch` has succeeded has its row then. -/
theorem addWatch_survives (cfg : Config) (w : Watcher) (parentWd : Wd) (path : Bytes)
    (hkeyed : Keyed w.table) :
    Inevitable (System.step cfg racing) Tolerated Finished
      (addWatchCall ⟨w, []⟩ parentWd path) := by
  refine inevitable_of_wellFounded wellFounded_fewer (fun s ↦ tasks s.watcher) Surviving
    (surviving_addWatchCall hkeyed parentWd path) (fun _ hsurviving ↦ hsurviving.exists_step) ?_
  intro state label next hsurviving htolerated hstep
  cases label with
  | act action => cases action
  | internal =>
    obtain ⟨watcher, hinternal, rfl⟩ := System.exists_watcher hstep
    exact hsurviving.internal hinternal
  | answer answer => exact hsurviving.answer htolerated hstep

def onlyTop : Config := ⟨[literal "/t"], [], by decide⟩

/-- The call for `/t`, with the rows of the table before it. -/
def callForTop (table : Table) : System (List Granted) :=
  addWatchCall ⟨{ Watcher.start onlyTop with table }, []⟩ nullWd (literal "/t")

/-- A call with another directory recorded before. -/
theorem addWatch_survives_recorded :
    Inevitable (System.step onlyTop racing) Tolerated Finished
      (callForTop [⟨1, nullWd, literal "/s"⟩]) :=
  addWatch_survives _ _ _ _ ⟨by decide, by decide, by decide⟩

theorem step_eq_none_of_stopped (hstopped : Stopped s.watcher) (label : Label Empty) :
    s.step cfg racing label = none := by
  cases hstep : s.step cfg racing label with
  | none => rfl
  | some next =>
    cases label with
    | act action => cases action
    | internal => exact absurd hstopped (not_stopped_of_internal (System.step_internal hstep).1)
    | answer answer =>
      obtain ⟨_, hcall, -⟩ := System.step_answer hstep
      exact absurd hstopped (not_stopped_of_call hcall)

theorem Finished.step_eq_none (hfinished : Finished s) (label : Label Empty) :
    s.step cfg racing label = none := by
  obtain ⟨result, hplace, hstack⟩ := hfinished.returns
  cases label with
  | act action => cases action
  | internal => simp [System.step, Watcher.internal, hplace, hstack]
  | answer answer => simp [System.step, Watcher.call, hplace]

/-- `/t` has the sub-directory `a`. When `/t` is replaced by a file before the watch on
`/t/a` is asked for, the process ends with `exit(2)`, and when `/t/a` becomes unreadable
before it is opened, with `exit(-1)`. -/
theorem addWatch_survives_fails :
    (∃ s, Reaches (System.step onlyTop racing) (callForTop []) s ∧
      s.watcher.place = .stopped (.exited 2)) ∧
    (∃ s, Reaches (System.step onlyTop racing) (callForTop []) s ∧
      s.watcher.place = .stopped (.exited (-1))) ∧
    ¬ Inevitable (System.step onlyTop racing) (fun _ _ ↦ True) Finished (callForTop []) := by
  have hreplaced : (run (System.step onlyTop racing) (callForTop [])
      [.internal, .answer (.watch 1), .answer .done, .answer (.names [literal "a"]), .internal,
        .internal, .answer (.error .enotdir)]).map (fun s ↦ s.watcher.place) =
      some (.stopped (.exited 2)) := by decide
  have hunreadable : (run (System.step onlyTop racing) (callForTop [])
      [.internal, .answer (.watch 1), .answer .done, .answer (.names [literal "a"]), .internal,
        .internal, .answer (.watch 2), .answer (.error .eacces)]).map (fun s ↦ s.watcher.place) =
      some (.stopped (.exited (-1))) := by decide
  obtain ⟨s, hreaches, hstopped⟩ := exists_reaches_of_run hreplaced
  refine ⟨⟨s, hreaches, hstopped⟩, exists_reaches_of_run hunreadable, fun hsurvives ↦ ?_⟩
  have hfinished : Finished s :=
    hsurvives.finished_of_stuck (fun _ label hlast ↦ hlast.step_eq_none label) hreaches
      (step_eq_none_of_stopped ⟨_, hstopped⟩)
  obtain ⟨result, hreturns⟩ := hfinished.returns
  cases hreturns.place.symm.trans hstopped

end DirWatcher.Watching
