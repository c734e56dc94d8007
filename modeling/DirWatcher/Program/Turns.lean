import DirWatcher.Cache.Provenance
import DirWatcher.Program.Process
import DirWatcher.Watching.Steps

/-!
The two halves of the process. A run of the whole is a run of the watcher and one of the
loop, the loop is told of each report of the watcher, and at most one of the two is in the
middle of its work.
-/

set_option autoImplicit false
set_option relaxedAutoImplicit false

namespace DirWatcher.Program

open Source Environment Foundation.Runs Cache Watching

variable {κ α : Type} {cfg : Config} {k : Kernel κ α} {p after : Process κ}

/-! ### The halves of a run -/

theorem reaches_system {condition : Process κ → ProcessLabel α → Prop}
    {allowed : System κ → Label α → Prop}
    (hruns : ReachesWhen (Process.step cfg k) condition p after)
    (hallowed : ∀ p label, condition p label → OnSystem allowed p label) :
    ReachesWhen (System.step cfg k) allowed p.system after.system := by
  refine hruns.map Process.system fun p label next hcondition hstep ↦ ?_
  have hlabel := hallowed p label hcondition
  cases processMove hstep with
  | acts hsystem | watches _ _ _ _ hsystem | shares _ _ _ hsystem =>
    exact Relation.ReflTransGen.single ⟨_, hlabel, hsystem⟩
  | loops => exact Relation.ReflTransGen.refl

theorem reaches_loop {condition : Process κ → ProcessLabel α → Prop}
    {allowed : MainLoop → LoopLabel → Prop}
    (hruns : ReachesWhen (Process.step cfg k) condition p after)
    (hallowed : ∀ p label, condition p label → OnLoop allowed p label) :
    ReachesWhen MainLoop.step allowed p.loop after.loop := by
  refine hruns.map Process.loop fun p label next hcondition hstep ↦ ?_
  have hlabel := hallowed p label hcondition
  cases processMove hstep with
  | acts | watches => exact Relation.ReflTransGen.refl
  | shares _ _ hpart _ hloop =>
    exact Relation.ReflTransGen.single ⟨_, hlabel _ hpart, hloop⟩
  | loops _ _ hloop => exact Relation.ReflTransGen.single ⟨_, hlabel _ rfl, hloop⟩

/-! ### What is reported -/

/-- What the watcher is about to report is what the loop is told. -/
theorem map_reportNow (w : Watcher) : (reportNow w).map cString = reportOf (shared w) := by
  cases hplace : w.place with
  | report =>
    rw [reportNow, if_pos hplace, shared, hplace]
    cases w.parentDir <;> rfl
  | nextEvent =>
    rw [reportNow_eq_nil (by simp [hplace]), shared, hplace]
    dsimp only
    split_ifs <;> rfl
  | _ =>
    rw [reportNow_eq_nil (by simp [hplace]), shared, hplace]
    rfl

/-- The loop has been told just what the watcher has reported. -/
def Agrees (p : Process κ) : Prop := reportedIn p.loop.log = p.system.watcher.reports.map cString

theorem agrees_start (cfg : Config) (kernel : κ) (notifier : Notifier) :
    Agrees (Process.start cfg kernel notifier) := rfl

theorem Agrees.step {label : ProcessLabel α} (hagrees : Agrees p)
    (hstep : p.step cfg k label = some after) : Agrees after := by
  have hreported : ∀ {system : System κ}, p.system.step cfg k .internal = some system →
      system.watcher.reports.map cString =
        p.system.watcher.reports.map cString ++ reportOf (shared p.system.watcher) := by
    intro system hsystem
    rw [reports_eq_of_internal (internalStep (System.step_internal hsystem).1), List.map_append,
      map_reportNow]
  unfold Agrees at hagrees ⊢
  cases processMove hstep with
  | acts hsystem => rw [(System.step_act hsystem).2, hagrees]
  | @watches label system _ _ hwork hpart hsystem =>
    cases label with
    | act action => exact absurd rfl (hwork action)
    | internal =>
      change shared p.system.watcher = none at hpart
      rw [hreported hsystem, hpart, hagrees]
      exact (List.append_nil _).symm
    | answer answer =>
      obtain ⟨-, -, -, hresume⟩ := System.step_answer hsystem
      rw [reports_of_resume (resumeStep hresume), hagrees]
  | shares _ _ hpart hsystem hloop =>
    rw [hreported hsystem, reportedIn_of_step hloop, hagrees, hpart]
  | @loops part loop hallows _ hloop =>
    have hnone : reportOf (some part) = [] := by
      cases part with
      | report directory => cases hallows
      | _ => rfl
    rw [reportedIn_of_step hloop, hnone, List.append_nil, hagrees]

theorem agrees_of_reaches {condition : Process κ → ProcessLabel α → Prop} (cfg : Config)
    (kernel : κ) (notifier : Notifier)
    (hruns : ReachesWhen (Process.step cfg k) condition (.start cfg kernel notifier) p) :
    Agrees p :=
  hruns.invariant Agrees (agrees_start cfg kernel notifier) fun _ _ _ hagrees _ hstep ↦
    hagrees.step hstep

end DirWatcher.Program
