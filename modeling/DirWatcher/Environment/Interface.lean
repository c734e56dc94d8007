import DirWatcher.Foundation.Runs
import DirWatcher.Source.Watcher

/-!
The watcher together with a kernel. A kernel says which answers it may give to a
system call and what else can happen to its state; the watcher and the kernel
move one step at a time, in any order.
-/

set_option autoImplicit false
set_option relaxedAutoImplicit false

namespace DirWatcher.Environment

open Source

/-- `serve` is the state after an answer to a call, if the kernel may answer so, and
`act` the state after something that happens outside of the watcher. -/
structure Kernel (κ α : Type) where
  serve : κ → Call → Answer → Option κ
  act : κ → α → Option κ

structure System (κ : Type) where
  watcher : Watcher
  kernel : κ

/-- What can happen next: something outside of the watcher, a step of the watcher
without a system call, or the answer to its system call. -/
inductive Label (α : Type)
  | act (action : α)
  | internal
  | answer (answer : Answer)
deriving DecidableEq, Repr

variable {κ α : Type}

def System.start (cfg : Config) (kernel : κ) : System κ := ⟨Watcher.start cfg, kernel⟩

def System.step (cfg : Config) (k : Kernel κ α) (s : System κ) : Label α → Option (System κ)
  | .act action => (k.act s.kernel action).map fun kernel ↦ { s with kernel }
  | .internal => (s.watcher.internal cfg).map fun watcher ↦ { s with watcher }
  | .answer answer => do
    let call ← s.watcher.call
    let kernel ← k.serve s.kernel call answer
    let watcher ← s.watcher.resume answer
    return ⟨watcher, kernel⟩

variable {cfg : Config} {k : Kernel κ α} {s after : System κ}

theorem System.step_act {action : α} (hstep : s.step cfg k (.act action) = some after) :
    k.act s.kernel action = some after.kernel ∧ after.watcher = s.watcher := by
  obtain ⟨kernel, hact, rfl⟩ := Option.map_eq_some_iff.mp hstep
  exact ⟨hact, rfl⟩

theorem System.step_internal (hstep : s.step cfg k .internal = some after) :
    s.watcher.internal cfg = some after.watcher ∧ after.kernel = s.kernel := by
  obtain ⟨watcher, hinternal, rfl⟩ := Option.map_eq_some_iff.mp hstep
  exact ⟨hinternal, rfl⟩

theorem System.exists_kernel {action : α} (hstep : s.step cfg k (.act action) = some after) :
    ∃ kernel, k.act s.kernel action = some kernel ∧ after = { s with kernel } := by
  obtain ⟨kernel, hact, rfl⟩ := Option.map_eq_some_iff.mp hstep
  exact ⟨kernel, hact, rfl⟩

theorem System.exists_watcher (hstep : s.step cfg k .internal = some after) :
    ∃ watcher, s.watcher.internal cfg = some watcher ∧ after = { s with watcher } := by
  obtain ⟨watcher, hinternal, rfl⟩ := Option.map_eq_some_iff.mp hstep
  exact ⟨watcher, hinternal, rfl⟩

theorem System.step_answer {answer : Answer} (hstep : s.step cfg k (.answer answer) = some after) :
    ∃ call, s.watcher.call = some call ∧ k.serve s.kernel call answer = some after.kernel ∧
      s.watcher.resume answer = some after.watcher := by
  obtain ⟨call, hcall, hrest⟩ := Option.bind_eq_some_iff.mp hstep
  obtain ⟨kernel, hserve, hrest⟩ := Option.bind_eq_some_iff.mp hrest
  obtain ⟨watcher, hresume, heq⟩ := Option.bind_eq_some_iff.mp hrest
  cases heq
  exact ⟨call, hcall, hserve, hresume⟩

/-- A kernel that answers anything, as long as a watch descriptor is positive. -/
def anyAnswer : Kernel Unit Empty where
  serve := fun _ _ answer ↦
    match answer with
    | .watch wd => if 0 < wd then some () else none
    | _ => some ()
  act := fun _ action ↦ nomatch action

theorem anyAnswer_watch {call : Call} {wd : Wd}
    (hserve : anyAnswer.serve () call (.watch wd) = some ()) : 0 < wd := by
  by_contra hneg
  simp [anyAnswer, hneg] at hserve

end DirWatcher.Environment
