import DirWatcher.Environment.Interface
import DirWatcher.Watching.Steps

/-!
What the steps of the watcher carry along. The frames of the calls that go on, and the events
that are left, can be mapped before a step or after it.
-/

set_option autoImplicit false
set_option relaxedAutoImplicit false

namespace DirWatcher.Watching

open Source Environment

/-- The watcher with other frames and another rest of the batch. -/
def mapped (frames : Frame → Frame) (batches : List Event → List Event) (w : Watcher) : Watcher :=
  { w with stack := w.stack.map frames, batch := batches w.batch }

variable {frames : Frame → Frame} {batches : List Event → List Event} {cfg : Config} {w : Watcher}

section Fields

variable (frames : Frame → Frame) (batches : List Event → List Event) (w : Watcher)

@[simp] theorem mapped_place : (mapped frames batches w).place = w.place := rfl

@[simp] theorem mapped_stack : (mapped frames batches w).stack = w.stack.map frames := rfl

@[simp] theorem mapped_table : (mapped frames batches w).table = w.table := rfl

@[simp] theorem mapped_lines : (mapped frames batches w).lines = w.lines := rfl

@[simp] theorem mapped_batch : (mapped frames batches w).batch = batches w.batch := rfl

@[simp] theorem mapped_parentDir : (mapped frames batches w).parentDir = w.parentDir := rfl

@[simp] theorem mapped_call : (mapped frames batches w).call = w.call := rfl

theorem prune_mapped (wd : Wd) (row : Option Row) :
    (mapped frames batches w).prune wd row = mapped frames batches (w.prune wd row) := by
  unfold Watcher.prune
  rw [mapped_table]
  split <;> rfl

theorem insertRow_mapped (row : Row) :
    (mapped frames batches w).insertRow row = mapped frames batches (w.insertRow row) := by
  unfold Watcher.insertRow
  rw [mapped_table]
  split <;> rfl

theorem addWatch_mapped (parentWd : Wd) (path : Bytes) :
    (mapped frames batches w).addWatch cfg parentWd path =
      mapped frames batches (w.addWatch cfg parentWd path) := by
  unfold Watcher.addWatch
  rw [mapped_table]
  split_ifs <;> rfl

theorem report_mapped : (mapped frames batches w).report = mapped frames batches w.report := by
  simp only [report_eq]
  rfl

theorem findParent_mapped (event : Event) :
    (mapped frames batches w).findParent event = mapped frames batches (w.findParent event) := by
  unfold Watcher.findParent
  by_cases hwd : event.wd = w.prevWd
  · rw [if_pos hwd]
    exact if_pos hwd
  · rw [if_neg hwd]
    exact if_neg hwd

theorem pruneMovedDirectory_mapped (event : Event) :
    (mapped frames batches w).pruneMovedDirectory event =
      mapped frames batches (w.pruneMovedDirectory event) := by
  unfold Watcher.pruneMovedDirectory
  dsimp only [snprintf]
  by_cases hlength : maxPathLen ≤ (joinPath (Watcher.printed w.parentDir) event.name).length
  · rw [if_pos hlength]
    exact if_pos hlength
  · rw [if_neg hlength]
    refine (if_neg hlength).trans ?_
    rw [mapped_table, mapped_parentDir]
    split_ifs
    · rfl
    · exact prune_mapped frames batches w _ _

end Fields

/-! ### The branches -/

/-- The frames of the calls from outside stay as they are. -/
def KeepsCalls (frames : Frame → Frame) : Prop :=
  ∀ frame, (∀ wd path names, frame ≠ .subDirs wd path names) → frames frame = frame

theorem watchNewDirectory_mapped (w : Watcher) {frame : Frame} (hframe : frames frame = frame)
    (event : Event) :
    (mapped frames batches w).watchNewDirectory frame event =
      mapped frames batches (w.watchNewDirectory frame event) := by
  unfold Watcher.watchNewDirectory
  dsimp only [snprintf]
  by_cases hlength : (joinPath (Watcher.printed w.parentDir) event.name).length = maxPathLen
  · rw [if_pos hlength]
    exact if_pos hlength
  · rw [if_neg hlength]
    refine (if_neg hlength).trans ?_
    simp [mapped, hframe]

theorem dispatch_mapped (hframes : KeepsCalls frames) (w : Watcher) (event : Event) :
    (mapped frames batches w).dispatch event = mapped frames batches (w.dispatch event) := by
  unfold Watcher.dispatch
  split
  case h_2 => exact watchNewDirectory_mapped w (hframes _ (by simp)) event
  case h_5 =>
    unfold Watcher.movedFrom
    by_cases hcookie : event.cookie = w.prevCookie
    · rw [if_pos hcookie]
      exact if_pos hcookie
    · rw [if_neg hcookie]
      refine (if_neg hcookie).trans ?_
      split_ifs
      · exact pruneMovedDirectory_mapped frames batches { w with prevCookie := event.cookie } event
      · rfl
  case h_6 =>
    unfold Watcher.movedTo
    split_ifs
    · exact watchNewDirectory_mapped { w with prevCookie := event.cookie }
        (hframes _ (by simp)) event
    · rfl
  all_goals rfl

/-! ### The steps -/

theorem watchSubDir_mapped (w : Watcher) (wd : Wd) (path : Bytes) (names : List Bytes) :
    (mapped id batches w).watchSubDir wd path names =
      mapped id batches (w.watchSubDir wd path names) := by
  cases names with
  | nil => rfl
  | cons name rest =>
    unfold Watcher.watchSubDir
    dsimp only
    split_ifs
    · rfl
    · simp [mapped]

theorem returnTo_mapped (w : Watcher) (result : ℤ) (frame : Frame) :
    (mapped frames batches w).returnTo result frame =
      mapped frames batches (w.returnTo result frame) := by
  cases frame <;> rfl

/-- The loop over the sub-directories and the return into it are left out, unless the frames
stay as they are, and so is the test for the end of a batch, unless the batch does. -/
theorem internal_mapped (hframes : KeepsCalls frames)
    (hloop : frames = id ∨ ∀ result, w.place ≠ .returned result)
    (hsubDirs : frames = id ∨ ∀ wd path names, w.place ≠ .subDirs wd path names)
    (hbatch : batches = id ∨ w.place ≠ .nextEvent) :
    (mapped frames batches w).internal cfg = (w.internal cfg).map (mapped frames batches) := by
  unfold Watcher.internal
  rw [mapped_place]
  split
  case h_1 =>
    rw [mapped_lines]
    split
    · rfl
    · rw [Option.map_some]
      simp [mapped, hframes (.topLevel _)]
  case h_2 hplace =>
    obtain rfl : batches = id := hbatch.resolve_right (absurd hplace)
    rw [mapped_batch, id]
    split
    · rfl
    · rw [Option.map_some, ← dispatch_mapped hframes, ← findParent_mapped]
      rfl
  case h_3 => rw [Option.map_some, addWatch_mapped]
  case h_4 => rfl
  case h_5 => rw [Option.map_some, insertRow_mapped]
  case h_6 hplace =>
    obtain rfl : frames = id := hsubDirs.resolve_right fun hother ↦ hother _ _ _ hplace
    rw [Option.map_some, watchSubDir_mapped]
  case h_7 hplace =>
    obtain rfl : frames = id := hloop.resolve_right fun hother ↦ hother _ hplace
    rw [mapped_stack, List.map_id]
    split
    · rfl
    · rw [Option.map_some, ← returnTo_mapped]
      simp [mapped]
  case h_8 => rw [Option.map_some, report_mapped]
  case h_9 => rfl

theorem resume_mapped {answer : Answer}
    (hbatch : batches = id ∨ ∀ events, answer ≠ .events events) :
    (mapped frames batches w).resume answer = (w.resume answer).map (mapped frames batches) := by
  unfold Watcher.resume
  rw [mapped_place]
  split
  case h_1 =>
    obtain rfl : batches = id := hbatch.resolve_right fun hother ↦ hother _ rfl
    rfl
  case h_3 =>
    unfold Watcher.watchAdded
    rw [mapped_table]
    split_ifs
    · rw [Option.map_some, prune_mapped]
    · rw [Option.map_some, insertRow_mapped]
  case h_4 =>
    unfold Watcher.watchFailed
    split_ifs <;> rfl
  case h_6 => split_ifs <;> rfl
  case h_8 =>
    unfold Watcher.opendirFailed
    split_ifs <;> rfl
  all_goals rfl

theorem step_answer_mapped {κ α : Type} {k : Kernel κ α} {kernel : κ} {answer : Answer}
    (hbatch : batches = id ∨ ∀ events, answer ≠ .events events) :
    System.step cfg k ⟨mapped frames batches w, kernel⟩ (.answer answer) =
      (System.step cfg k ⟨w, kernel⟩ (.answer answer)).map fun next ↦
        ⟨mapped frames batches next.watcher, next.kernel⟩ := by
  unfold System.step
  dsimp only
  rw [mapped_call, resume_mapped hbatch]
  cases w.call with
  | none => rfl
  | some call =>
    cases hserve : k.serve kernel call answer with
    | none => simp [hserve]
    | some kernel => cases w.resume answer <;> simp [hserve]

end DirWatcher.Watching
