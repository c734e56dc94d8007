import DirWatcher.Watching.Steps

/-!
The shape of the stack. Calls of `add_watch` nest in each other, and the outermost
one is made by `load_top_level_paths` or by `process_inotify_events`. The events of a
batch are all processed before the next one is read.
-/

set_option autoImplicit false
set_option relaxedAutoImplicit false

namespace DirWatcher.Watching

open Source

/-- Recursive calls of `add_watch` down to one that is made from outside. -/
def Nested : List Frame → Prop
  | [] => False
  | .subDirs _ _ _ :: rest => Nested rest
  | _ :: rest => rest = []

/-- Outside of `add_watch` the stack is empty. -/
def StackFits : Place → List Frame → Prop
  | .loadTopLevelPaths, stack => stack = []
  | .poll, stack => stack = []
  | .nextEvent, stack => stack = []
  | .report, stack => stack = []
  | .removePrunedWds _ none, stack => stack = []
  | .stopped _, _ => True
  | _, stack => Nested stack

/-- The watcher is at work on the config file. -/
def Loading (w : Watcher) : Prop :=
  w.place = .loadTopLevelPaths ∨ ∃ path, .topLevel path ∈ w.stack

instance : DecidablePred Loading := fun w ↦
  decidable_of_iff (w.place = .loadTopLevelPaths ∨ ∃ frame ∈ w.stack,
      frame matches .topLevel _) <| by
    refine or_congr_right ⟨?_, fun ⟨path, hpath⟩ ↦ ⟨_, hpath, rfl⟩⟩
    rintro ⟨frame, hframe, hmatch⟩
    cases frame with
    | topLevel path => exact ⟨path, hframe⟩
    | _ => cases hmatch

structure Control (w : Watcher) : Prop where
  fits : StackFits w.place w.stack
  idle : w.place = .poll ∨ Loading w → w.batch = []

theorem control_start (cfg : Config) : Control (Watcher.start cfg) := ⟨rfl, fun _ ↦ rfl⟩

variable {cfg : Config} {w after : Watcher}

/-- The same stack fits a place of the same kind, and the batch is not touched. -/
theorem Control.stay (hcontrol : Control w) {place : Place} {cookie : UInt32} {table : Table}
    (hfits : StackFits place w.stack) (hplace : place ≠ .poll ∧ place ≠ .loadTopLevelPaths) :
    Control { w with place, table, prevCookie := cookie } := by
  refine ⟨hfits, ?_⟩
  rintro (hpoll | hload | htop)
  · exact absurd hpoll hplace.1
  · exact absurd hload hplace.2
  · exact hcontrol.idle (Or.inr (Or.inr htop))

theorem Control.exit (hcontrol : Control w) (stop : Stop) (cookie : UInt32) :
    Control { w with place := .stopped stop, prevCookie := cookie } :=
  hcontrol.stay trivial (by simp)

theorem Control.prune (hcontrol : Control w) {wd : Wd} {row : Option Row}
    (hfits : ∀ wds, StackFits (.removePrunedWds wds row) w.stack)
    (hstep : PruneStep w wd row after) : Control after := by
  cases hstep with
  | loops => exact hcontrol.exit _ _
  | removes => exact hcontrol.stay (hfits _) (by simp)

theorem Control.insert (hcontrol : Control w) {row : Row} (hnested : Nested w.stack)
    (hstep : InsertStep w row after) : Control after := by
  cases hstep with
  | clashes => exact hcontrol.exit _ _
  | inserts => exact hcontrol.stay hnested (by simp)

theorem Control.dispatch (hcontrol : Control w) (hstack : w.stack = []) {event : Event}
    (hstep : DispatchStep event w after) : Control after := by
  cases hstep with
  | exits => exact hcontrol.exit _ _
  | skips => exact hcontrol.stay hstack (by simp)
  | forgets => exact hcontrol.stay hstack (by simp)
  | reports => exact hcontrol.stay hstack (by simp)
  | watches cookie frame hframe =>
    have hcases : frame = .created ∨ frame = .movedTo := by
      rcases hframe with ⟨-, rfl⟩ | ⟨-, rfl⟩ <;> simp
    rcases hcases with rfl | rfl <;>
      exact ⟨hstack, by simp [Loading, hstack]⟩
  | movesUnrecorded => exact hcontrol.stay hstack (by simp)
  | prunes cookie _ _ _ _ hprune =>
    have hcookie : Control { w with prevCookie := cookie } := ⟨hcontrol.fits, hcontrol.idle⟩
    refine hcookie.prune ?_ hprune
    exact fun _ ↦ hstack

theorem Control.internal (hcontrol : Control w) (hstep : InternalStep cfg w after) :
    Control after := by
  have hfits := hcontrol.fits
  cases hstep with
  | readsLine hplace =>
    rw [hplace] at hfits
    have hbatch := hcontrol.idle (Or.inr (Or.inl hplace))
    exact ⟨hfits, fun _ ↦ hbatch⟩
  | startsPolling hplace =>
    rcases hplace with ⟨hplace, -⟩ | ⟨hplace, hbatch⟩
    · have hbatch := hcontrol.idle (Or.inr (Or.inl hplace))
      rw [hplace] at hfits
      exact ⟨hfits, fun _ ↦ hbatch⟩
    · rw [hplace] at hfits
      exact ⟨hfits, fun _ ↦ hbatch⟩
  | @takesEvent event rest _ hplace hbatch hdispatch =>
    rw [hplace] at hfits
    have htaken : Control ({ w with batch := rest }.findParent event) := by
      unfold Watcher.findParent
      split_ifs <;>
        exact ⟨by rw [hplace]; exact hfits, by simp [Loading, hplace, show w.stack = [] from hfits]⟩
    refine htaken.dispatch ?_ hdispatch
    unfold Watcher.findParent
    split_ifs <;> exact hfits
  | refuses hplace =>
    rw [hplace] at hfits
    exact hcontrol.stay hfits (by simp)
  | requests hplace =>
    rw [hplace] at hfits
    exact hcontrol.stay hfits (by simp)
  | finishesPrune hplace =>
    rw [hplace] at hfits
    exact hcontrol.stay hfits (by simp)
  | insertsPruned hplace hinsert =>
    rw [hplace] at hfits
    exact hcontrol.insert hfits hinsert
  | finishesSubDirs hplace =>
    rw [hplace] at hfits
    exact hcontrol.stay hfits (by simp)
  | descends hplace =>
    rw [hplace] at hfits
    refine ⟨hfits, ?_⟩
    rintro (⟨⟨⟩⟩ | ⟨⟨⟩⟩ | ⟨path, htop⟩)
    refine hcontrol.idle (Or.inr (Or.inr ⟨path, ?_⟩))
    simpa using htop
  | overflows => exact hcontrol.exit _ _
  | @returns result frame rest hplace hstack =>
    rw [hplace, hstack] at hfits
    have hidle : ∀ path, .topLevel path ∈ w.stack → w.batch = [] :=
      fun path hmem ↦ hcontrol.idle (Or.inr (Or.inr ⟨path, hmem⟩))
    rw [hstack] at hidle
    cases frame with
    | subDirs =>
      refine ⟨hfits, ?_⟩
      rintro (⟨⟨⟩⟩ | ⟨⟨⟩⟩ | ⟨path, htop⟩)
      exact hidle path (List.mem_cons_of_mem _ htop)
    | topLevel path => exact ⟨hfits, fun _ ↦ hidle path List.mem_cons_self⟩
    | created =>
      obtain rfl : rest = [] := hfits
      by_cases hzero : result = 0 <;>
        exact ⟨by simp [Watcher.returnTo, hzero, StackFits],
          by simp [Watcher.returnTo, hzero, Loading]⟩
    | movedTo =>
      obtain rfl : rest = [] := hfits
      exact ⟨rfl, by simp [Watcher.returnTo, Loading]⟩
  | reports hplace =>
    rw [hplace] at hfits
    rw [report_eq]
    exact ⟨hfits, by simp [Loading, show w.stack = [] from hfits]⟩

theorem Control.resume (hcontrol : Control w) {answer : Answer}
    (hstep : ResumeStep w answer after) : Control after := by
  have hfits := hcontrol.fits
  cases hstep with
  | reads events hplace =>
    rw [hplace] at hfits
    exact ⟨hfits, by simp [Watcher.startBatch, Loading, show w.stack = [] from hfits]⟩
  | exits => exact hcontrol.exit _ _
  | reuses hplace _ hprune =>
    rw [hplace] at hfits
    refine hcontrol.prune ?_ hprune
    exact fun _ ↦ hfits
  | adds hplace _ hinsert =>
    rw [hplace] at hfits
    exact hcontrol.insert hfits hinsert
  | missed _ hplace =>
    rw [hplace] at hfits
    exact hcontrol.stay hfits (by simp)
  | @removes _ _ row _ hplace _ =>
    rw [hplace] at hfits
    refine hcontrol.stay ?_ (by simp)
    cases row <;> exact hfits
  | opens hplace =>
    rw [hplace] at hfits
    exact hcontrol.stay hfits (by simp)
  | opensNothing _ hplace =>
    rw [hplace] at hfits
    exact hcontrol.stay hfits (by simp)
  | lists _ hplace =>
    rw [hplace] at hfits
    exact hcontrol.stay hfits (by simp)

/-! ### The stack in a step -/

theorem call_of_internal {w next : Watcher} (hstep : InternalStep cfg w next) : w.call = none := by
  cases hstep with
  | startsPolling hplace => rcases hplace with ⟨hplace, -⟩ | ⟨hplace, -⟩ <;>
    simp [Watcher.call, hplace]
  | readsLine hplace | takesEvent hplace | refuses hplace | requests hplace | insertsPruned hplace
  | finishesPrune hplace | finishesSubDirs hplace | descends hplace | overflows hplace
  | returns hplace | reports hplace => simp [Watcher.call, hplace]

theorem stack_of_dispatch {w next : Watcher} {event : Event} (hstep : DispatchStep event w next) :
    w.stack ⊆ next.stack := by
  cases hstep with
  | watches => exact List.subset_cons_self _ _
  | prunes _ _ _ _ _ hprune => cases hprune <;> exact List.Subset.refl _
  | _ => exact List.Subset.refl _

/-- A frame stays on the stack, or the innermost call returns to it. -/
theorem frame_of_internal {w next : Watcher} {frame : Frame} (hstep : InternalStep cfg w next)
    (hframe : frame ∈ w.stack) : frame ∈ next.stack ∨
      ∃ result rest, next = { w with stack := rest }.returnTo result frame := by
  cases hstep with
  | readsLine | descends => exact Or.inl (List.mem_cons_of_mem _ hframe)
  | takesEvent _ _ hdispatch => exact Or.inl (stack_of_dispatch hdispatch (by simpa using hframe))
  | insertsPruned _ hinsert => cases hinsert <;> exact Or.inl hframe
  | @returns result first rest _ hstack =>
    rw [hstack] at hframe
    rcases List.mem_cons.mp hframe with rfl | hrest
    · exact Or.inr ⟨result, rest, rfl⟩
    · cases first <;> exact Or.inl hrest
  | reports =>
    rw [report_eq]
    exact Or.inl hframe
  | _ => exact Or.inl hframe

theorem topLevel_of_dispatch {w next : Watcher} {event : Event} {top : Bytes}
    (hstep : DispatchStep event w next) (htop : .topLevel top ∈ next.stack) :
    .topLevel top ∈ w.stack := by
  cases hstep with
  | watches _ frame hframe =>
    refine (List.mem_cons.mp htop).resolve_left ?_
    rcases hframe with ⟨-, rfl⟩ | ⟨-, rfl⟩ <;> simp
  | prunes _ _ _ _ _ hprune => cases hprune <;> exact htop
  | _ => exact htop

/-! ### The config file -/

section Loading

variable {w next : Watcher}

/-- The config file is being read when it was before, if no new line is taken. -/
theorem loading_of_stack (hplace : next.place ≠ .loadTopLevelPaths)
    (hstack : ∀ path, .topLevel path ∈ next.stack → .topLevel path ∈ w.stack)
    (hloading : Loading next) : Loading w := by
  rcases hloading with hload | ⟨path, htop⟩
  · exact absurd hload hplace
  · exact Or.inr ⟨path, hstack path htop⟩

theorem loading_of_stack_eq (hloading : Loading next) (hplace : next.place ≠ .loadTopLevelPaths)
    (hstack : next.stack = w.stack) : Loading w :=
  loading_of_stack hplace (fun _ ↦ hstack ▸ id) hloading

theorem stack_of_resume {answer : Answer} (hstep : ResumeStep w answer next) :
    next.stack = w.stack := by
  cases hstep with
  | reuses _ _ hprune => cases hprune <;> rfl
  | adds _ _ hinsert => cases hinsert <;> rfl
  | _ => rfl

theorem place_ne_of_resume {answer : Answer} (hstep : ResumeStep w answer next) :
    next.place ≠ .loadTopLevelPaths := by
  cases hstep with
  | reuses _ _ hprune => cases hprune <;> simp
  | adds _ _ hinsert => cases hinsert <;> simp
  | _ => simp [Watcher.startBatch, Watcher.exit]

theorem place_ne_of_dispatch {event : Event} (hstep : DispatchStep event w next) :
    next.place ≠ .loadTopLevelPaths := by
  cases hstep with
  | prunes _ _ _ _ _ hprune => cases hprune <;> simp
  | _ => simp

/-- What `load_top_level_paths` has not begun does not go on with it. -/
theorem loading_of_internal (hstep : InternalStep cfg w next) (hnext : Loading next) :
    Loading w := by
  cases hstep with
  | readsLine hplace => exact Or.inl hplace
  | takesEvent _ _ hdispatch =>
    refine loading_of_stack (place_ne_of_dispatch hdispatch) (fun path htop ↦ ?_) hnext
    simpa using topLevel_of_dispatch hdispatch htop
  | insertsPruned _ hinsert =>
    cases hinsert <;> exact loading_of_stack_eq hnext (by simp) rfl
  | descends => exact loading_of_stack (by simp) (fun _ ↦ by simp) hnext
  | @returns result frame rest _ hstack =>
    have hrest : ∀ path, .topLevel path ∈ rest → .topLevel path ∈ w.stack := fun path hmem ↦
      hstack ▸ List.mem_cons_of_mem _ hmem
    cases frame with
    | topLevel path => exact Or.inr ⟨path, hstack ▸ List.mem_cons_self⟩
    | created =>
      refine loading_of_stack ?_ hrest hnext
      simp only [Watcher.returnTo]
      split_ifs <;> simp
    | _ => exact loading_of_stack (by simp [Watcher.returnTo]) hrest hnext
  | reports =>
    rw [report_eq] at hnext
    exact loading_of_stack_eq hnext (by simp) rfl
  | overflows => exact loading_of_stack_eq hnext (by simp [Watcher.exit]) rfl
  | _ => exact loading_of_stack_eq hnext (by simp) rfl

/-- `load_top_level_paths` goes on until it returns. -/
theorem loading_goes_on (hstep : InternalStep cfg w next) (hloading : Loading w) :
    next.place = .poll ∨ Loading next := by
  rcases hloading with hplace | ⟨path, htop⟩
  · cases hstep with
    | readsLine => exact Or.inr (Or.inr ⟨_, List.mem_cons_self⟩)
    | startsPolling => exact Or.inl rfl
    | takesEvent hother | refuses hother | requests hother | finishesPrune hother
    | insertsPruned hother | finishesSubDirs hother | descends hother | overflows hother
    | returns hother | reports hother => cases hplace.symm.trans hother
  · rcases frame_of_internal hstep htop with hmem | ⟨result, rest, rfl⟩
    · exact Or.inr (Or.inr ⟨path, hmem⟩)
    · exact Or.inr (Or.inl rfl)

end Loading

end DirWatcher.Watching
