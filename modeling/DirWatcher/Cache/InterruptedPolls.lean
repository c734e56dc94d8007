import DirWatcher.Cache.LoopSteps
import DirWatcher.Foundation.Runs

/-!
What the main loop makes of a `poll` that a signal has interrupted. The variable `errno` is
read after the test on the parent process and after the flush that the same signal has
asked for, and the calls made there may have changed it.
-/

set_option autoImplicit false
set_option relaxedAutoImplicit false

namespace DirWatcher.Cache

open Source Foundation.Runs

variable {s after : MainLoop}

/-- When the loop reads `errno` after an interrupted `poll`, it is `EINTR`. -/
def ErrnoKept (s : MainLoop) : LoopLabel → Prop
  | .next => s.place = .switch (.failed eintr) → s.errno = eintr
  | _ => True

instance (s : MainLoop) (label : LoopLabel) : Decidable (ErrnoKept s label) :=
  match label with
  | .next => inferInstanceAs (Decidable (s.place = .switch (.failed eintr) → s.errno = eintr))
  | .sigterm => isTrue trivial
  | .sigalrm => isTrue trivial
  | .poll _ => isTrue trivial
  | .errno _ => isTrue trivial
  | .parent _ => isTrue trivial
  | .flush _ => isTrue trivial
  | .report _ => isTrue trivial
  | .endBatch => isTrue trivial
  | .abort _ => isTrue trivial

/-- The process has come to its `exit(24)` only after another failure of `poll`, and has not
stopped at the `switch` after an interrupted one. -/
structure PollHandled (s : MainLoop) : Prop where
  failed : s.stop = some (.exited 24) →
    ∃ errno, errno ≠ eintr ∧ s.place = .switch (.failed errno)
  interrupted : s.place = .switch (.failed eintr) → s.stop = none

theorem pollHandled_of_runs (hruns : s.stop = none) : PollHandled s :=
  ⟨fun hstop ↦ absurd (hruns.symm.trans hstop) (Option.some_ne_none _).symm, fun _ ↦ hruns⟩

/-- What a step of the loop keeps, if `errno` has been kept. -/
theorem pollHandled_of_move {label : LoopLabel} (hruns : s.stop = none)
    (hkept : ErrnoKept s label) (hmove : LoopMove s label after) : PollHandled after := by
  cases hmove with
  | fails hplace herrno =>
    have hother : ∀ value, s.place = .switch (.failed value) → value ≠ eintr := by
      rintro value hat rfl
      exact herrno (hkept hat)
    exact ⟨fun _ ↦ ⟨_, hother _ hplace, hplace⟩, fun hat ↦ absurd rfl (hother _ hat)⟩
  | stops _ stop hcalls hstop =>
    refine ⟨fun hexit ↦ absurd (Option.some.inj hexit) hstop, fun hat ↦ ?_⟩
    have hat' : s.place = .switch (.failed eintr) := hat
    rw [hat'] at hcalls
    cases hcalls
  | hangs directory hplace =>
    refine ⟨fun hexit ↦ (nomatch hexit), fun hat ↦ ?_⟩
    cases hplace.symm.trans hat
  | terminates | ticks | polls | ends | polled | setsErrno | checks | sees | passes | resets
  | flushesTimer | flushesEvent | switches | endsBatch | puts | refuses =>
    exact pollHandled_of_runs hruns

/-- The `switch` after an interrupted `poll` goes on exactly if `errno` is `EINTR`. -/
theorem step_switch_interrupted (hruns : s.stop = none)
    (hplace : s.place = .switch (.failed eintr)) :
    s.step .next = some (if s.errno = eintr then { s with place := .aliveTest }
      else { s with stop := some (.exited 24) }) := by
  have hover : ¬ (s.stop.isSome ∨ s.place = .ended) := by simp [hruns, hplace]
  rw [MainLoop.step, if_neg hover, MainLoop.advance.eq_def]
  simp only [hplace, MainLoop.switch]
  split_ifs <;> simp_all

/-- In every run of the main loop, with the signals between any two steps, and whatever the
calls leave in `errno`: as long as it is `EINTR` when it is read after an interrupted
`poll`, the loop goes on after it, and has stopped with `exit(24)` only where `poll` failed
in another way. -/
theorem interrupted_poll_goes_on (notifier : Notifier) {s : MainLoop}
    (hreaches : ReachesWhen MainLoop.step ErrnoKept (.start notifier) s) :
    (s.stop = some (.exited 24) → ∃ errno, errno ≠ eintr ∧ s.place = .switch (.failed errno)) ∧
      (s.place = .switch (.failed eintr) → s.stop = none ∧
        (ErrnoKept s .next → s.step .next = some { s with place := .aliveTest })) := by
  have hhandled : PollHandled s := hreaches.invariant PollHandled (pollHandled_of_runs rfl)
    fun _ _ _ _ hkept hstep ↦ pollHandled_of_move (loopMove hstep).1 hkept (loopMove hstep).2
  refine ⟨hhandled.failed, fun hplace ↦ ⟨hhandled.interrupted hplace, fun hkept ↦ ?_⟩⟩
  rw [step_switch_interrupted (hhandled.interrupted hplace) hplace, if_pos (hkept hplace)]

/-- A directory is reported, a tick interrupts the next `poll`, and the flush that it asks for
opens a temporary file, which leaves `ENOTTY` in `errno`. -/
def interruptedFlush : List LoopLabel :=
  [.next, .poll (.ready true), .parent false, .next, .next, .report ⟨[47, 97], by decide⟩,
    .endBatch, .next, .sigalrm, .poll (.failed eintr), .parent false, .next, .next,
    .flush .faultless, .flush .faultless, .errno 25, .flush .faultless, .flush .faultless]

/-- The rename at the end of the flush leaves `EINTR` in `errno`. -/
theorem interrupted_poll_goes_on_after_flush :
    ∃ s : MainLoop, s.errno = eintr ∧ s.notifier.published.length = 1 ∧ s.stop = none ∧
      s.step .next = some { s with place := .aliveTest } := by
  have hrun : (runChecked MainLoop.step (fun s label ↦ decide (ErrnoKept s label))
      (.start (newNotifier [47, 110] (newHashCache 2 4 (fun _ ↦ ⟨0, 0, 0, 0, 0⟩) fun _ ↦ 0)))
      (interruptedFlush ++ [.errno eintr, .flush .faultless])).map
        (fun s ↦ (s.errno, s.place, s.notifier.published.length)) =
      some (eintr, .switch (.failed eintr), 1) := by decide
  obtain ⟨s, hreaches, hseen⟩ := exists_reachesWhen_of_run hrun
  simp only [Prod.mk.injEq] at hseen
  obtain ⟨herrno, hplace, hpublished⟩ := hseen
  obtain ⟨hruns, hgoes⟩ := (interrupted_poll_goes_on _ hreaches).2 hplace
  exact ⟨s, herrno, hpublished, hruns, hgoes fun _ ↦ herrno⟩

/-- The flush succeeds, and the loop ends with `exit(24)` after it. -/
theorem interrupted_poll_exits_after_flush :
    ∃ s : MainLoop, Reaches MainLoop.step
      (.start (newNotifier [47, 110] (newHashCache 2 4 (fun _ ↦ ⟨0, 0, 0, 0, 0⟩) fun _ ↦ 0))) s ∧
      s.notifier.published.length = 1 ∧ s.place = .switch (.failed eintr) ∧
      s.stop = some (.exited 24) := by
  have hrun : (run MainLoop.step
      (.start (newNotifier [47, 110] (newHashCache 2 4 (fun _ ↦ ⟨0, 0, 0, 0, 0⟩) fun _ ↦ 0)))
      (interruptedFlush ++ [.flush .faultless, .next])).map
        (fun s ↦ (s.notifier.published.length, s.place, s.stop)) =
      some (1, .switch (.failed eintr), some (.exited 24)) := by decide
  obtain ⟨s, hreaches, hseen⟩ := exists_reaches_of_run hrun
  simp only [Prod.mk.injEq] at hseen
  exact ⟨s, hreaches, hseen.1, hseen.2.1, hseen.2.2⟩

/-! ### Calls that leave `errno` alone -/

/-- The result of `poll` that the loop still has to look at. -/
def carried : LoopPlace → Option PollResult
  | .parentTest result => some result
  | .flushTest result => some result
  | .flushReset result => some result
  | .timerFlush result _ => some result
  | .switch result => some result
  | _ => none

/-- No call after an interrupted `poll` leaves another value in `errno`. -/
def Quiet (s : MainLoop) : LoopLabel → Prop
  | .errno value => carried s.place = some (.failed eintr) → value = eintr
  | _ => True

/-- After an interrupted `poll`, and up to the `switch`, `errno` is `EINTR`. -/
def Remembers (s : MainLoop) : Prop := carried s.place = some (.failed eintr) → s.errno = eintr

theorem Remembers.of_carried_none (hnone : carried s.place = none) : Remembers s := by
  intro hcarried
  cases hnone.symm.trans hcarried

theorem Remembers.move {label : LoopLabel} (hremembers : Remembers s) (hquiet : Quiet s label)
    (hmove : LoopMove s label after) : Remembers after := by
  cases hmove with
  | terminates | ticks | hangs | stops | puts => exact hremembers
  | polls | ends | endsBatch | refuses => exact .of_carried_none rfl
  | polled result errno hplace herrno =>
    intro hcarried
    exact herrno eintr (Option.some.inj hcarried)
  | setsErrno value hcalls => exact hquiet
  | checks gone hplace | sees hplace | passes hplace | resets hplace =>
    intro hcarried
    exact hremembers (by rw [hplace]; exact hcarried)
  | @flushesTimer _ io _ _ next hplace hmove =>
    intro hcarried
    refine hremembers ?_
    rw [hplace]
    cases next with
    | none => exact hcarried
    | some place => exact hcarried
  | @flushesEvent io _ _ next hplace hmove =>
    cases next with
    | none => exact .of_carried_none rfl
    | some place => exact .of_carried_none rfl
  | switches place hplace hnext =>
    rcases hnext with rfl | rfl
    · exact .of_carried_none rfl
    · exact .of_carried_none rfl
  | fails hplace herrno => exact hremembers

/-- As long as no call after an interrupted `poll` leaves another value in `errno`, it is
`EINTR` whenever the loop reads it after one. -/
theorem errnoKept_of_quiet (notifier : Notifier) {s : MainLoop}
    (hreaches : ReachesWhen MainLoop.step Quiet (.start notifier) s) :
    ReachesWhen MainLoop.step ErrnoKept (.start notifier) s := by
  have hboth : Remembers s ∧ ReachesWhen MainLoop.step ErrnoKept (.start notifier) s := by
    refine hreaches.invariant
      (fun s ↦ Remembers s ∧ ReachesWhen MainLoop.step ErrnoKept (.start notifier) s)
      ⟨.of_carried_none rfl, .refl⟩ ?_
    rintro state label next ⟨hremembers, hkept⟩ hquiet hstep
    refine ⟨hremembers.move hquiet (loopMove hstep).2, hkept.tail ⟨label, ?_, hstep⟩⟩
    cases label with
    | next => exact fun hplace ↦ hremembers (by rw [hplace]; rfl)
    | _ => trivial
  exact hboth.2

end DirWatcher.Cache
