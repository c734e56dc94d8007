import DirWatcher.Watching.Control
import DirWatcher.Watching.Races
import Mathlib.Data.Multiset.DershowitzManna
import Mathlib.Tactic.Abel

/-!
What is left to do until the watcher asks for events again. The lines of the config file,
the events of the batch and the calls that have not returned are a multiset of chores, and
each step of the watcher puts smaller ones in the place of some of them.
-/

set_option autoImplicit false
set_option relaxedAutoImplicit false

namespace DirWatcher.Watching

open Source Multiset

/-! ### Fewer chores -/

/-- Some chores are taken, and only smaller ones come of them. -/
abbrev Easier : Multiset ℕ → Multiset ℕ → Prop := IsDershowitzMannaLT

variable {few many others : Multiset ℕ} {chore : ℕ}

theorem easier_singleton (hless : ∀ other ∈ others, other < chore) : Easier others {chore} :=
  ⟨0, others, {chore}, by simp, (zero_add _).symm, (zero_add _).symm,
    fun other hother ↦ ⟨chore, mem_singleton_self chore, hless other hother⟩⟩

theorem Easier.add_left (heasier : Easier few many) (kept : Multiset ℕ) :
    Easier (kept + few) (kept + many) := by
  obtain ⟨common, small, large, hlarge, rfl, rfl, hless⟩ := heasier
  exact ⟨kept + common, small, large, hlarge, (add_assoc _ _ _).symm, (add_assoc _ _ _).symm,
    hless⟩

theorem Easier.add_right (heasier : Easier few many) (kept : Multiset ℕ) :
    Easier (few + kept) (many + kept) := by
  rw [add_comm few, add_comm many]
  exact heasier.add_left kept

theorem easier_add {taken : Multiset ℕ} (htaken : taken ≠ 0) (kept : Multiset ℕ) :
    Easier kept (kept + taken) :=
  ⟨kept, 0, taken, htaken, (add_zero _).symm, rfl, fun _ hother ↦ absurd hother (notMem_zero _)⟩

theorem easier_replicate (kept : Multiset ℕ) (count : ℕ) :
    Easier (kept + replicate count chore) (kept + replicate (count + 1) chore) := by
  rw [replicate_add, replicate_one, ← add_assoc]
  exact easier_add (singleton_ne_zero chore) _

/-! ### The chores of the watcher -/

/-- More than a call of `add_watch` begins with. -/
def longest : ℕ := 8 * maxPathLen + 8

def placeChores : Place → Multiset ℕ
  | .loadTopLevelPaths => {1}
  | .nextEvent => {1}
  | .report => {1} + {9}
  | .removePrunedWds wds none => {1} + {9} + replicate (wds.length + 1) 0
  | place => placeTasks place

def frameChores : Frame → Multiset ℕ
  | .subDirs _ path names => loopTasks path names
  | .topLevel _ => {1}
  | .created => {1} + {9}
  | .movedTo => {1} + {9}

/-- The lines and the events wait for their turn. -/
def waiting (w : Watcher) : Multiset ℕ := replicate (w.lines.length + w.batch.length) longest

def chores (w : Watcher) : Multiset ℕ :=
  placeChores w.place + (w.stack.map frameChores).sum + waiting w

theorem room_lt_longest (path : Bytes) : room path + 7 < longest := by
  rw [room, longest]
  omega

variable {cfg : Config} {w after : Watcher}

/-- A step that leaves all but the place alone. -/
theorem easier_of_place (hstack : after.stack = w.stack) (hwaiting : waiting after = waiting w)
    (heasier : Easier (placeChores after.place) (placeChores w.place)) :
    Easier (chores after) (chores w) := by
  rw [chores, chores, hstack, hwaiting]
  exact (heasier.add_right _).add_right _

theorem waiting_eq_add (hlength : w.lines.length + w.batch.length =
      after.lines.length + after.batch.length + 1) : waiting w = waiting after + {longest} := by
  rw [waiting, waiting, hlength, replicate_succ, ← singleton_add, add_comm]

/-- A line or an event has its turn. -/
theorem easier_of_turn (call : Multiset ℕ) (hwaiting : waiting w = waiting after + {longest})
    (hchores : placeChores after.place + (after.stack.map frameChores).sum =
      placeChores w.place + (w.stack.map frameChores).sum + call)
    (hless : ∀ other ∈ call, other < longest) : Easier (chores after) (chores w) := by
  have hbefore : chores w = placeChores w.place + (w.stack.map frameChores).sum +
      waiting after + {longest} := by rw [chores, hwaiting, add_assoc, add_assoc, add_assoc]
  have hafter : chores after = placeChores w.place + (w.stack.map frameChores).sum +
      waiting after + call := by
    rw [chores, hchores]
    abel
  rw [hbefore, hafter]
  exact (easier_singleton hless).add_left _

theorem easier_of_prune {wd : Wd} {row : Option Row} (hstep : PruneStep w wd row after)
    (heasier : ∀ wds, Easier (placeChores (.removePrunedWds wds row)) (placeChores w.place)) :
    Stopped after ∨ Easier (chores after) (chores w) := by
  cases hstep with
  | loops => exact Or.inl ⟨_, rfl⟩
  | removes => exact Or.inr (easier_of_place rfl rfl (heasier _))

theorem easier_of_insert {row : Row} (hstep : InsertStep w row after)
    (heasier : Easier (placeChores (.opendir row.wd row.path)) (placeChores w.place)) :
    Stopped after ∨ Easier (chores after) (chores w) := by
  cases hstep with
  | clashes => exact Or.inl ⟨_, rfl⟩
  | inserts => exact Or.inr (easier_of_place rfl rfl heasier)

/-! ### One step -/

@[simp] theorem findParent_lines (w : Watcher) (event : Event) :
    (w.findParent event).lines = w.lines := by
  unfold Watcher.findParent
  split_ifs <;> rfl

theorem waiting_eq_of_dispatch {event : Event} (hstep : DispatchStep event w after) :
    waiting after = waiting w := by
  cases hstep with
  | prunes _ _ _ _ _ hprune => cases hprune <;> rfl
  | _ => rfl

theorem chores_of_dispatch {event : Event} (hplace : w.place = .nextEvent)
    (hstep : DispatchStep event w after) : Stopped after ∨
      ∃ call, (placeChores after.place + (after.stack.map frameChores).sum =
        placeChores w.place + (w.stack.map frameChores).sum + call) ∧
        ∀ other ∈ call, other < longest := by
  have hsmall : 9 < longest := by rw [longest, maxPathLen]; omega
  have hreport : ∀ other ∈ ({9} : Multiset ℕ), other < longest := by simpa using hsmall
  cases hstep with
  | exits => exact Or.inl ⟨_, rfl⟩
  | skips | forgets => exact Or.inr ⟨0, by simp [hplace], by simp⟩
  | reports | movesUnrecorded =>
    refine Or.inr ⟨{9}, ?_, hreport⟩
    simp only [hplace, placeChores]
    abel
  | watches _ frame hframe =>
    refine Or.inr ⟨{room ((eventPath w event).take (maxPathLen - 1)) + 7} + {9}, ?_,
      fun other hother ↦ ?_⟩
    · have hchores : frameChores frame = {1} + {9} := by
        rcases hframe with ⟨-, rfl⟩ | ⟨-, rfl⟩ <;> rfl
      simp only [hplace, placeChores, placeTasks, List.map_cons, List.sum_cons, hchores]
      abel
    · rcases mem_add.mp hother with hroom | hnine
      · exact mem_singleton.mp hroom ▸ room_lt_longest _
      · exact hreport other hnine
  | prunes _ _ _ _ _ hprune =>
    cases hprune with
    | loops => exact Or.inl ⟨_, rfl⟩
    | @removes wds =>
      refine Or.inr ⟨{9} + replicate (wds.length + 1) 0, ?_, fun other hother ↦ ?_⟩
      · simp only [hplace, placeChores]
        abel
      · rcases mem_add.mp hother with hnine | hzero
        · exact hreport other hnine
        · rw [eq_of_mem_replicate hzero]
          omega

theorem easier_of_return {result : ℤ} {frame : Frame} {rest : List Frame}
    (hplace : w.place = .returned result) (hstack : w.stack = frame :: rest) :
    Easier (chores ({ w with stack := rest }.returnTo result frame)) (chores w) := by
  have hless : ∀ {place : Place} {tops : List Bytes},
      (∃ gone, placeChores place + gone = frameChores frame) →
      Easier (chores { w with place, stack := rest, watchedTops := tops }) (chores w) := by
    rintro place tops ⟨gone, hgone⟩
    have hbefore : chores w = chores { w with place, stack := rest, watchedTops := tops } +
        (gone + {1}) := by
      simp only [chores, hplace, hstack, placeChores, placeTasks, List.map_cons, List.sum_cons,
        ← hgone, waiting]
      abel
    rw [hbefore]
    exact easier_add (by simp) _
  cases frame with
  | subDirs => exact hless ⟨0, add_zero _⟩
  | topLevel => exact hless ⟨0, add_zero _⟩
  | created =>
    refine hless ?_
    split_ifs
    · exact ⟨{9}, rfl⟩
    · exact ⟨0, add_zero _⟩
  | movedTo => exact hless ⟨0, add_zero _⟩

/-- A step without a system call, other than a report. -/
theorem easier_of_internal (hstep : InternalStep cfg w after) (hreport : w.place ≠ .report) :
    Stopped after ∨ Easier (chores after) (chores w) := by
  cases hstep with
  | @readsLine line rest hplace hlines =>
    refine Or.inr (easier_of_turn {room line + 7} ?_ ?_ ?_)
    · refine waiting_eq_add ?_
      rw [hlines, List.length_cons, Nat.add_right_comm]
    · simp only [hplace, placeChores, placeTasks, List.map_cons, List.sum_cons, frameChores]
      abel
    · exact fun other hother ↦ mem_singleton.mp hother ▸ room_lt_longest line
  | startsPolling hplace =>
    refine Or.inr (easier_of_place rfl rfl ?_)
    rcases hplace with ⟨hplace, -⟩ | ⟨hplace, -⟩ <;>
      exact hplace ▸ easier_singleton (by simp [placeChores, placeTasks])
  | @takesEvent event rest _ hplace hbatch hdispatch =>
    have htaken : waiting w = waiting ({ w with batch := rest }.findParent event) + {longest} := by
      refine waiting_eq_add ?_
      rw [findParent_lines, findParent_batch, hbatch, List.length_cons, Nat.add_assoc]
    rcases chores_of_dispatch (by simpa using hplace) hdispatch with hstopped | ⟨call, hcall, hless⟩
    · exact Or.inl hstopped
    · refine Or.inr (easier_of_turn call ?_ (by simpa using hcall) hless)
      rw [waiting_eq_of_dispatch hdispatch, htaken]
  | refuses hplace | requests hplace | finishesSubDirs hplace =>
    refine Or.inr (easier_of_place rfl rfl ?_)
    rw [hplace]
    exact easier_singleton (by simp [placeChores, placeTasks])
  | finishesPrune hplace =>
    refine Or.inr (easier_of_place rfl rfl ?_)
    rw [hplace]
    exact easier_add (by simp) _
  | insertsPruned hplace hinsert =>
    refine easier_of_insert hinsert ?_
    rw [hplace]
    simpa [placeChores, placeTasks] using easier_singleton (by simp)
  | @descends wd path name rest hplace hlength =>
    have hbefore : chores w = loopTasks path rest + (w.stack.map frameChores).sum + waiting w +
        {room path} := by
      simp only [chores, hplace, placeChores, placeTasks, loopTasks, List.length_cons,
        replicate_succ, ← singleton_add]
      abel
    have hafter : chores { w with
          place := .addWatch wd (joinPath path name), stack := .subDirs wd path rest :: w.stack } =
        loopTasks path rest + (w.stack.map frameChores).sum + waiting w +
          {room (joinPath path name) + 7} := by
      simp only [chores, placeChores, placeTasks, List.map_cons, List.sum_cons, frameChores,
        waiting]
      abel
    rw [hbefore, hafter]
    refine Or.inr ((easier_singleton ?_).add_left _)
    simpa using room_joinPath_lt hlength
  | overflows => exact Or.inl ⟨_, rfl⟩
  | returns hplace hstack => exact Or.inr (easier_of_return hplace hstack)
  | reports hplace => exact absurd hplace hreport

/-- What comes before the watcher asks for events. -/
theorem before_poll (hstep : InternalStep cfg w after) (hafter : after.place = .poll) :
    w.place = .loadTopLevelPaths ∨ w.place = .nextEvent ∧ w.batch = [] := by
  cases hstep with
  | startsPolling hplace => exact hplace.imp And.left id
  | takesEvent _ _ hdispatch =>
    cases hdispatch with
    | prunes _ _ _ _ _ hprune => cases hprune <;> cases hafter
    | _ => cases hafter
  | insertsPruned _ hinsert => cases hinsert <;> cases hafter
  | @returns result frame =>
    cases frame with
    | created =>
      simp only [Watcher.returnTo] at hafter
      split_ifs at hafter
    | _ => cases hafter
  | reports =>
    rw [report_eq] at hafter
    cases hafter
  | _ => cases hafter

theorem place_ne_poll_of_resume {answer : Answer} (hstep : ResumeStep w answer after) :
    after.place ≠ .poll := by
  cases hstep with
  | reuses _ _ hprune => cases hprune <;> simp
  | adds _ _ hinsert => cases hinsert <;> simp
  | _ => simp [Watcher.startBatch, Watcher.exit]

theorem chores_report (hplace : w.place = .report) : chores w = chores w.report + {9} := by
  rw [report_eq]
  simp only [chores, hplace, placeChores, waiting]
  abel

/-- The answer to a call other than `read`. -/
theorem easier_of_resume {answer : Answer} (hstep : ResumeStep w answer after)
    (hpoll : w.place ≠ .poll) : Stopped after ∨ Easier (chores after) (chores w) := by
  cases hstep with
  | reads _ hplace => exact absurd hplace hpoll
  | exits => exact Or.inl ⟨_, rfl⟩
  | reuses hplace _ hprune =>
    refine easier_of_prune hprune fun wds ↦ ?_
    rw [hplace]
    exact easier_singleton fun _ ↦ mem_pruneTasks_lt
  | adds hplace _ hinsert =>
    refine easier_of_insert hinsert ?_
    rw [hplace]
    exact easier_singleton (by simp [placeChores, placeTasks])
  | missed _ hplace | opens hplace =>
    refine Or.inr (easier_of_place rfl rfl ?_)
    rw [hplace]
    exact easier_singleton (by simp [placeChores, placeTasks])
  | @removes wd rest row _ hplace =>
    refine Or.inr (easier_of_place rfl rfl ?_)
    rw [hplace]
    cases row <;> exact easier_replicate _ _
  | opensNothing _ hplace =>
    refine Or.inr (easier_of_place rfl rfl ?_)
    rw [hplace]
    exact easier_singleton fun _ hother ↦ (mem_loopTasks_lt hother).trans (Nat.lt_succ_self _)
  | lists names hplace =>
    refine Or.inr (easier_of_place rfl rfl ?_)
    rw [hplace]
    exact easier_singleton fun _ ↦ mem_loopTasks_lt

/-- The events of a batch come from the chore of reading it. -/
theorem easier_of_read (hplace : w.place = .poll) (hbatch : w.batch = []) (events : List Event) :
    Easier (chores (w.startBatch events)) (chores w + {longest + 1}) := by
  have hafter : chores (w.startBatch events) =
      chores w + ({1} + replicate events.length longest) := by
    simp only [chores, Watcher.startBatch, placeChores, placeTasks, waiting, hplace, hbatch,
      List.length_nil, Nat.add_zero, replicate_add]
    abel
  rw [hafter]
  refine (easier_singleton fun other hother ↦ ?_).add_left _
  rcases mem_add.mp hother with hone | hevent
  · rw [mem_singleton.mp hone, longest, maxPathLen]
    omega
  · exact eq_of_mem_replicate hevent ▸ Nat.lt_succ_self longest

end DirWatcher.Watching
