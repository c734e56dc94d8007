import DirWatcher.Environment.Interface
import DirWatcher.Source.MainLoop
import Mathlib.Data.List.TakeWhile

/-!
The whole process: the watcher and the loop of `main` in one thread. The functions of the
watcher run before the loop, as `load_top_level_paths`, and in it, as
`process_inotify_events`; the loop runs while they do not. A report of the watcher and the
end of a batch are steps of both. A signal can be handled between any two steps.
-/

set_option autoImplicit false
set_option relaxedAutoImplicit false

namespace DirWatcher.Program

open Source Environment Foundation.Runs

/-- The string in a buffer, as `strlen` and `"%s"` see it. -/
def cString (buffer : Bytes) : CString where
  bytes := stringAt buffer
  nonzero := fun hmem ↦ by simpa using List.mem_takeWhile_imp hmem

structure Process (κ : Type) where
  system : System κ
  loop : MainLoop

/-- A step of the watcher or its kernel, or one of the loop. -/
inductive ProcessLabel (α : Type)
  | system (label : Label α)
  | loop (label : LoopLabel)

/-- The part that the loop has in the next step of the watcher. -/
def shared (w : Watcher) : Option LoopLabel :=
  match w.place with
  | .nextEvent => if w.batch = [] then some .endBatch else none
  | .report => w.parentDir.map fun directory ↦ .report (cString directory)
  | _ => none

variable {κ α : Type}

namespace Process

def start (cfg : Config) (kernel : κ) (notifier : Notifier) : Process κ :=
  ⟨System.start cfg kernel, MainLoop.start notifier⟩

/-- The functions of the watcher are running. -/
def watching (p : Process κ) : Bool :=
  match p.loop.place with
  | .events => true
  | .aliveTest => p.system.watcher.place != .poll
  | _ => false

/-- The process has come to its end. -/
def finished (p : Process κ) : Bool :=
  p.system.watcher.place matches .stopped _ || p.loop.stop.isSome || p.loop.place == .ended

/-- The steps that the loop takes without the watcher. -/
def allows (p : Process κ) : LoopLabel → Bool
  | .sigterm | .sigalrm | .errno _ => true
  | .report _ | .endBatch | .abort _ => false
  | .next | .poll _ | .parent _ | .flush _ => !p.watching

/-- The part of the loop in a step. -/
def loopPart (p : Process κ) : ProcessLabel α → Option LoopLabel
  | .system (.act _) => none
  | .system .internal => shared p.system.watcher
  | .system (.answer _) => none
  | .loop label => some label

/-- A step in which the loop need not have a part. -/
def loopStep (loop : MainLoop) : Option LoopLabel → Option MainLoop
  | none => some loop
  | some label => loop.step label

/-- What is outside of the process goes on when the process is over. -/
def step (cfg : Config) (k : Kernel κ α) (p : Process κ) (label : ProcessLabel α) :
    Option (Process κ) :=
  match label with
  | .system (.act action) => (p.system.step cfg k (.act action)).map fun system ↦ { p with system }
  | .system work =>
    if p.watching && !p.finished then do
      let system ← p.system.step cfg k work
      let loop ← loopStep p.loop (p.loopPart label)
      return ⟨system, loop⟩
    else none
  | .loop part =>
    if p.allows part && !p.finished then (p.loop.step part).map fun loop ↦ { p with loop } else none

end Process

/-! ### Conditions on the parts of a step -/

/-- The condition on the watcher and its kernel. -/
def OnSystem (condition : System κ → Label α → Prop) (p : Process κ) : ProcessLabel α → Prop
  | .system label => condition p.system label
  | .loop _ => True

/-- The condition on the loop. -/
def OnLoop (condition : MainLoop → LoopLabel → Prop) (p : Process κ) (label : ProcessLabel α) :
    Prop := ∀ part ∈ p.loopPart label, condition p.loop part

instance (condition : System κ → Label α → Prop) [∀ s label, Decidable (condition s label)]
    (p : Process κ) (label : ProcessLabel α) : Decidable (OnSystem condition p label) := by
  cases label <;> unfold OnSystem <;> infer_instance

instance (condition : MainLoop → LoopLabel → Prop) [∀ s label, Decidable (condition s label)]
    (p : Process κ) (label : ProcessLabel α) : Decidable (OnLoop condition p label) := by
  unfold OnLoop
  infer_instance

/-! ### The parts of a step -/

variable {cfg : Config} {k : Kernel κ α} {p after : Process κ}

/-- Everything a step of the process can be. -/
inductive ProcessMove (cfg : Config) (k : Kernel κ α) (p : Process κ) :
    ProcessLabel α → Process κ → Prop
  | acts {action : α} {system : System κ}
      (hsystem : p.system.step cfg k (.act action) = some system) :
      ProcessMove cfg k p (.system (.act action)) { p with system }
  | watches {label : Label α} {system : System κ} (hwatching : p.watching = true)
      (hrunning : p.finished = false) (hwork : ∀ action, label ≠ .act action)
      (hpart : p.loopPart (.system label) = none)
      (hsystem : p.system.step cfg k label = some system) :
      ProcessMove cfg k p (.system label) { p with system }
  | shares {system : System κ} {part : LoopLabel} {loop : MainLoop}
      (hwatching : p.watching = true) (hrunning : p.finished = false)
      (hpart : shared p.system.watcher = some part)
      (hsystem : p.system.step cfg k .internal = some system)
      (hloop : p.loop.step part = some loop) :
      ProcessMove cfg k p (.system .internal) ⟨system, loop⟩
  | loops {part : LoopLabel} {loop : MainLoop} (hallows : p.allows part = true)
      (hrunning : p.finished = false) (hloop : p.loop.step part = some loop) :
      ProcessMove cfg k p (.loop part) { p with loop }

theorem processMove_of_work {label : Label α} (hwork : ∀ action, label ≠ .act action)
    (hwatching : p.watching = true) (hrunning : p.finished = false) {system : System κ}
    {loop : MainLoop} (hsystem : p.system.step cfg k label = some system)
    (hloop : Process.loopStep p.loop (p.loopPart (.system label)) = some loop) :
    ProcessMove cfg k p (.system label) ⟨system, loop⟩ := by
  cases hpart : p.loopPart (.system label) with
  | none =>
    rw [hpart] at hloop
    cases hloop
    exact .watches hwatching hrunning hwork hpart hsystem
  | some part =>
    rw [hpart] at hloop
    cases label with
    | act action => exact absurd rfl (hwork action)
    | internal => exact .shares hwatching hrunning hpart hsystem hloop
    | answer answer => cases hpart

theorem processMove {label : ProcessLabel α} (hstep : p.step cfg k label = some after) :
    ProcessMove cfg k p label after := by
  unfold Process.step at hstep
  split at hstep
  case h_1 action =>
    obtain ⟨system, hsystem, rfl⟩ := Option.map_eq_some_iff.mp hstep
    exact .acts hsystem
  case h_2 work hwork =>
    split_ifs at hstep with hturn
    rw [Bool.and_eq_true, Bool.not_eq_true'] at hturn
    obtain ⟨system, hsystem, hrest⟩ := Option.bind_eq_some_iff.mp hstep
    obtain ⟨loop, hloop, hresult⟩ := Option.bind_eq_some_iff.mp hrest
    cases hresult
    exact processMove_of_work hwork hturn.1 hturn.2 hsystem hloop
  case h_3 part =>
    split_ifs at hstep with hturn
    rw [Bool.and_eq_true, Bool.not_eq_true'] at hturn
    obtain ⟨loop, hloop, rfl⟩ := Option.map_eq_some_iff.mp hstep
    exact .loops hturn.1 hturn.2 hloop

end DirWatcher.Program
