import DirWatcher.Cache.LoopSteps
import DirWatcher.Foundation.FairRuns
import DirWatcher.Program.Delivery
import DirWatcher.Program.Hangs
import DirWatcher.Watching.Chores

/-!
The turns of the loop come to their end. Whatever happens between the steps of the process,
it comes to the test of `alive` again, as long as nothing keeps it from running and no prune
hangs. So the process ends when it is told to.
-/

set_option autoImplicit false
set_option relaxedAutoImplicit false

namespace DirWatcher.Program

open Source Environment Foundation.Runs Cache Watching Multiset

variable {κ α : Type} {cfg : Config} {k : Kernel κ α} {p after : Process κ}

/-! ### The two halves in a turn -/

/-- Where the watcher can be while the loop is at a place. -/
def WatcherFits (w : Watcher) : LoopPlace → Prop
  | .aliveTest => Stopped w ∨ w.place = .poll ∨ Loading w
  | .events => ¬ Loading w
  | .eventFlush _ => w.place = .nextEvent
  | _ => w.place = .poll

structure InTurn (p : Process κ) : Prop where
  control : Control p.system.watcher
  fits : WatcherFits p.system.watcher p.loop.place

theorem inTurn_start (cfg : Config) (kernel : κ) (notifier : Notifier) :
    InTurn (Process.start cfg kernel notifier) :=
  ⟨control_start cfg, Or.inr (Or.inr (Or.inl rfl))⟩

theorem not_loading {w : Watcher} (hcontrol : Control w)
    (hplace : w.place = .poll ∨ w.place = .nextEvent ∨ w.place = .report) : ¬ Loading w := by
  have hstack : w.stack = [] ∧ w.place ≠ .loadTopLevelPaths := by
    have hfits := hcontrol.fits
    rcases hplace with hplace | hplace | hplace <;>
      (rw [hplace] at hfits; exact ⟨hfits, by simp [hplace]⟩)
  rintro (hload | ⟨path, htop⟩)
  · exact hstack.2 hload
  · simp [hstack.1] at htop

/-- A process that has not come to its end. -/
theorem running (hrunning : p.finished = false) :
    ¬ Stopped p.system.watcher ∧ p.loop.stop = none ∧ p.loop.place ≠ .ended := by
  simp only [Process.finished, Bool.or_eq_false_iff, Option.isSome_eq_false_iff,
    Option.isNone_iff_eq_none, beq_eq_false_iff_ne] at hrunning
  refine ⟨?_, hrunning.1.2, hrunning.2⟩
  rintro ⟨stop, hstop⟩
  simp [hstop] at hrunning

theorem finished_of_stopped (hstopped : Stopped p.system.watcher) : p.finished = true := by
  obtain ⟨stop, hstop⟩ := hstopped
  simp [Process.finished, hstop]

/-- The watcher runs before the loop, or in it for the events. -/
theorem place_of_watching (hwatching : p.watching = true) :
    p.loop.place = .events ∨ p.loop.place = .aliveTest ∧ p.system.watcher.place ≠ .poll := by
  unfold Process.watching at hwatching
  split at hwatching
  · next hplace => exact Or.inl hplace
  · next hplace => exact Or.inr ⟨hplace, by simpa using hwatching⟩
  · cases hwatching

theorem InTurn.loading (hturn : InTurn p) (hrunning : p.finished = false)
    (hplace : p.loop.place = .aliveTest) (hpoll : p.system.watcher.place ≠ .poll) :
    Loading p.system.watcher := by
  have hfits := hturn.fits
  rw [hplace] at hfits
  exact (hfits.resolve_left (running hrunning).1).resolve_left hpoll

theorem InTurn.not_loading (hturn : InTurn p) (hplace : p.loop.place = .events) :
    ¬ Loading p.system.watcher := by
  have hfits := hturn.fits
  rwa [hplace] at hfits

/-- A step of the watcher in which the loop has no part. -/
theorem InTurn.watches (hturn : InTurn p) (hrunning : p.finished = false)
    (hwatching : p.watching = true) {label : Label α} (hwork : ∀ action, label ≠ .act action)
    {system : System κ} (hsystem : p.system.step cfg k label = some system) :
    InTurn { p with system } := by
  cases label with
  | act action => exact absurd rfl (hwork action)
  | internal =>
    have hstep := internalStep (System.step_internal hsystem).1
    refine ⟨hturn.control.internal hstep, ?_⟩
    rcases place_of_watching hwatching with hplace | ⟨hplace, hpoll⟩
    · change WatcherFits _ p.loop.place
      rw [hplace]
      exact fun hnext ↦ hturn.not_loading hplace (loading_of_internal hstep hnext)
    · change WatcherFits _ p.loop.place
      rw [hplace]
      exact Or.inr (loading_goes_on hstep (hturn.loading hrunning hplace hpoll))
  | answer answer =>
    obtain ⟨call, hcall, -, hresume⟩ := System.step_answer hsystem
    have hstep := resumeStep hresume
    refine ⟨hturn.control.resume hstep, ?_⟩
    rcases place_of_watching hwatching with hplace | ⟨hplace, hpoll⟩
    · change WatcherFits _ p.loop.place
      rw [hplace]
      exact fun hnext ↦ hturn.not_loading hplace
        (loading_of_stack_eq hnext (place_ne_of_resume hstep) (stack_of_resume hstep))
    · change WatcherFits _ p.loop.place
      rw [hplace]
      rcases hturn.loading hrunning hplace hpoll with hload | ⟨path, htop⟩
      · simp [Watcher.call, hload] at hcall
      · exact Or.inr (Or.inr (Or.inr ⟨path, stack_of_resume hstep ▸ htop⟩))

/-- A step of the loop alone. -/
theorem InTurn.loops (hturn : InTurn p) {part : LoopLabel} {loop : MainLoop}
    (hallows : p.allows part = true) (hloop : p.loop.step part = some loop) :
    InTurn { p with loop } := by
  have hfits := hturn.fits
  refine ⟨hturn.control, ?_⟩
  change WatcherFits p.system.watcher loop.place
  cases (loopMove hloop).2 with
  | terminates | ticks | setsErrno | fails | stops => exact hfits
  | polls hplace | ends hplace =>
    have hidle : p.watching = false := by simpa [Process.allows] using hallows
    simpa [Process.watching, hplace, WatcherFits] using hidle
  | polled _ _ hplace | checks _ hplace | sees hplace | passes hplace | resets hplace =>
    rw [hplace] at hfits
    exact hfits
  | @flushesTimer _ _ _ _ next hplace =>
    rw [hplace] at hfits
    cases next <;> exact hfits
  | @flushesEvent _ _ _ next hplace =>
    rw [hplace] at hfits
    cases next with
    | none => exact Program.not_loading hturn.control (Or.inr (Or.inl hfits))
    | some next => exact hfits
  | switches place hplace hnext =>
    rw [hplace] at hfits
    rcases hnext with rfl | rfl
    · exact Or.inr (Or.inl hfits)
    · exact Program.not_loading hturn.control (Or.inl hfits)
  | endsBatch | puts | refuses | hangs => cases hallows

/-! ### What is left of a turn -/

def flushChores (hc : HashCache) : FlushPlace → Multiset ℕ
  | .opening _ => {4}
  | .printing pos _ => {3} + replicate (hc.hashPos - pos) 0
  | .clearing _ => {2}
  | .closing _ => {1}

/-- Before the events are read, reading them is a chore of the loop. -/
def loopChores (w : Watcher) (s : MainLoop) : Multiset ℕ :=
  match s.place with
  | .aliveTest => 0
  | .poll => {longest + 9}
  | .parentTest _ => {longest + 8}
  | .flushTest _ => {longest + 7}
  | .flushReset _ => {longest + 6}
  | .timerFlush _ place => {longest + 2} + flushChores s.notifier.hc place
  | .switch _ => {longest + 2}
  | .events => if w.place = .poll then {longest + 1} else 0
  | .eventFlush place => flushChores s.notifier.hc place
  | .ended => 0

def turnChores (p : Process κ) : Multiset ℕ :=
  chores p.system.watcher + loopChores p.system.watcher p.loop

theorem easier_of_flush {io : FlushIo} {notifier flushed : Notifier} {place : FlushPlace}
    {next : Option FlushPlace} (hmove : FlushMove io notifier place flushed next) :
    Easier (next.elim 0 (flushChores flushed.hc)) (flushChores notifier.hc place) := by
  cases hmove with
  | opens =>
    refine easier_singleton fun other hother ↦ ?_
    rcases mem_add.mp hother with hthree | hzero
    · rw [mem_singleton.mp hthree]
      omega
    · rw [eq_of_mem_replicate hzero]
      omega
  | @finishes pos _ hiter =>
    have hend : notifier.hc.hashPos - pos = 0 := by
      unfold hashCacheIter at hiter
      split_ifs at hiter with hend
      exact Nat.sub_eq_zero_of_le hend
    simpa [flushChores, hend] using easier_singleton (by simp)
  | @prints pos _ _ _ _ hiter =>
    unfold hashCacheIter at hiter
    split_ifs at hiter with hend
    cases hiter
    have hleft : notifier.hc.hashPos - pos = notifier.hc.hashPos - (pos + 1) + 1 := by omega
    simp only [flushChores, hleft, Option.elim_some]
    exact easier_replicate _ _
  | clears => exact easier_singleton (by simp [flushChores])
  | closes => exact easier_singleton (by simp)

/-! ### One step of the process -/

/-- The step goes on with the turn: the process ends, or less is left of the turn. -/
def Advances (p after : Process κ) : Prop :=
  after.finished = true ∨ Easier (turnChores after) (turnChores p)

theorem advances_of_place {loop : MainLoop}
    (heasier : Easier (loopChores p.system.watcher loop) (loopChores p.system.watcher p.loop)) :
    Advances p { p with loop } := Or.inr (heasier.add_left _)

theorem advances_of_watcher {system : System κ}
    (hloop : loopChores system.watcher p.loop = loopChores p.system.watcher p.loop)
    (heasier : Stopped system.watcher ∨
      Easier (chores system.watcher) (chores p.system.watcher)) : Advances p { p with system } := by
  refine heasier.imp (fun hstopped ↦ finished_of_stopped hstopped) fun hless ↦ ?_
  change Easier (chores system.watcher + loopChores system.watcher p.loop) _
  rw [hloop]
  exact hless.add_right _

/-- The shares of a step are the end of a batch and a report. -/
theorem shared_cases {w : Watcher} {part : LoopLabel} (hpart : shared w = some part) :
    w.place = .nextEvent ∧ w.batch = [] ∧ part = .endBatch ∨
      w.place = .report ∧ ∃ directory, part = .report directory := by
  unfold shared at hpart
  split at hpart
  · next hplace =>
    split_ifs at hpart with hbatch
    cases hpart
    exact Or.inl ⟨hplace, hbatch, rfl⟩
  · next hplace =>
    obtain ⟨directory, -, rfl⟩ := Option.map_eq_some_iff.mp hpart
    exact Or.inr ⟨hplace, _, rfl⟩
  · cases hpart

/-- Outside of `load_top_level_paths` the watcher runs for the events. -/
theorem InTurn.events (hturn : InTurn p) (hrunning : p.finished = false)
    (hwatching : p.watching = true) (hplace : p.system.watcher.place = .poll ∨
      p.system.watcher.place = .nextEvent ∨ p.system.watcher.place = .report) :
    p.loop.place = .events := by
  rcases place_of_watching hwatching with hevents | ⟨htest, hpoll⟩
  · exact hevents
  · exact absurd (hturn.loading hrunning htest hpoll) (Program.not_loading hturn.control hplace)

/-- The end of a batch. -/
theorem InTurn.endsBatch (hturn : InTurn p) (hevents : p.loop.place = .events)
    (hplace : p.system.watcher.place = .nextEvent) (hbatch : p.system.watcher.batch = [])
    {system : System κ} (hsystem : p.system.step cfg k .internal = some system) {loop : MainLoop}
    (hloop : p.loop.step .endBatch = some loop) :
    InTurn ⟨system, loop⟩ ∧ Advances p ⟨system, loop⟩ := by
  obtain ⟨watcher, hinternal, rfl⟩ := System.exists_watcher hsystem
  have hcontrol := hturn.control.internal (internalStep hinternal)
  have hnext : watcher = { p.system.watcher with place := .poll } := by
    simpa [Watcher.internal, hplace, hbatch, eq_comm] using hinternal
  cases (loopMove hloop).2 with
  | endsBatch =>
    refine ⟨⟨hcontrol, Or.inr (Or.inl (by rw [hnext]))⟩, Or.inr ?_⟩
    have hbefore : turnChores p = chores p.system.watcher := by
      simp [turnChores, loopChores, hevents, hplace]
    rw [hbefore, hnext]
    change Easier (chores _ + 0) _
    rw [add_zero]
    exact easier_of_place rfl rfl (hplace ▸ easier_singleton (by simp [placeChores, placeTasks]))
  | stops =>
    refine ⟨⟨hcontrol, ?_⟩, Or.inl (by simp [Process.finished])⟩
    change WatcherFits _ p.loop.place
    rw [hevents]
    exact Program.not_loading hcontrol (Or.inl (by rw [hnext]))

/-- A report. -/
theorem InTurn.reports (hturn : InTurn p) (hevents : p.loop.place = .events)
    (hplace : p.system.watcher.place = .report) {system : System κ}
    (hsystem : p.system.step cfg k .internal = some system) {directory : CString}
    {loop : MainLoop} (hloop : p.loop.step (.report directory) = some loop) :
    InTurn ⟨system, loop⟩ ∧ Advances p ⟨system, loop⟩ := by
  obtain ⟨watcher, hinternal, rfl⟩ := System.exists_watcher hsystem
  have hcontrol := hturn.control.internal (internalStep hinternal)
  have hnext : watcher = p.system.watcher.report := by
    simpa [Watcher.internal, hplace, eq_comm] using hinternal
  have hafter : watcher.place = .nextEvent := by rw [hnext, report_eq]
  have hfits : WatcherFits watcher .events :=
    Program.not_loading hcontrol (Or.inr (Or.inl hafter))
  have hbefore : turnChores p = chores watcher + {9} := by
    simp [turnChores, loopChores, hevents, hplace, chores_report hplace, hnext]
  cases (loopMove hloop).2 with
  | puts =>
    refine ⟨⟨hcontrol, ?_⟩, Or.inr ?_⟩
    · change WatcherFits _ p.loop.place
      rwa [hevents]
    · rw [hbefore]
      simpa [turnChores, loopChores, hevents, hafter] using
        easier_add (singleton_ne_zero 9) (chores watcher)
  | refuses =>
    refine ⟨⟨hcontrol, hafter⟩, Or.inr ?_⟩
    rw [hbefore]
    exact (easier_singleton (by simp [loopChores, flushChores])).add_left _
  | hangs | stops =>
    refine ⟨⟨hcontrol, ?_⟩, Or.inl (by simp [Process.finished])⟩
    change WatcherFits _ p.loop.place
    rwa [hevents]

/-- What the loop has to do stays the same when the watcher does not begin or end its wait
for events. -/
theorem loopChores_congr {w next : Watcher} {s : MainLoop}
    (hsame : s.place = .events → (w.place = .poll ↔ next.place = .poll)) :
    loopChores next s = loopChores w s := by
  cases hplace : s.place with
  | events => simp [loopChores, hplace, hsame hplace]
  | _ => simp [loopChores, hplace]

theorem InTurn.advances_internal (hturn : InTurn p)
    (hpart : shared p.system.watcher = none) {system : System κ}
    (hsystem : p.system.step cfg k .internal = some system) : Advances p { p with system } := by
  obtain ⟨watcher, hinternal, rfl⟩ := System.exists_watcher hsystem
  have hstep := internalStep hinternal
  have hcall : p.system.watcher.place ≠ .poll := fun hplace ↦ by
    simp [Watcher.internal, hplace] at hinternal
  have hloop : loopChores watcher p.loop = loopChores p.system.watcher p.loop := by
    refine loopChores_congr fun hevents ↦ iff_of_false hcall fun hpoll ↦ ?_
    rcases before_poll hstep hpoll with hload | ⟨hplace, hbatch⟩
    · exact hturn.not_loading hevents (Or.inl hload)
    · simp [shared, hplace, hbatch] at hpart
  refine advances_of_watcher hloop ?_
  by_cases hreport : p.system.watcher.place = .report
  · have hnext : watcher = p.system.watcher.report := by
      simpa [Watcher.internal, hreport, eq_comm] using hinternal
    right
    rw [chores_report hreport, hnext]
    exact easier_add (singleton_ne_zero 9) _
  · exact easier_of_internal hstep hreport

theorem InTurn.advances_answer (hturn : InTurn p) (hrunning : p.finished = false)
    (hwatching : p.watching = true) {answer : Answer} {system : System κ}
    (hsystem : p.system.step cfg k (.answer answer) = some system) :
    Advances p { p with system } := by
  obtain ⟨watcher, kernel⟩ := system
  obtain ⟨call, -, -, hresume⟩ := System.step_answer hsystem
  have hstep := resumeStep hresume
  have hnext := place_ne_poll_of_resume hstep
  by_cases hpoll : p.system.watcher.place = .poll
  · have hevents := hturn.events hrunning hwatching (Or.inl hpoll)
    have hbefore : turnChores p = chores p.system.watcher + {longest + 1} := by
      simp [turnChores, loopChores, hevents, hpoll]
    have hafter : turnChores { p with system := ⟨watcher, kernel⟩ } = chores watcher := by
      simp [turnChores, loopChores, hevents, hnext]
    rw [Advances, hbefore, hafter]
    unfold Watcher.resume at hresume
    split at hresume
    case h_1 events _ =>
      cases hresume
      exact Or.inr (easier_of_read hpoll (hturn.control.idle (Or.inl hpoll)) events)
    case h_2 =>
      cases hresume
      exact Or.inl (finished_of_stopped ⟨_, rfl⟩)
    all_goals simp_all
  · exact advances_of_watcher (loopChores_congr fun _ ↦ iff_of_false hpoll hnext)
      (easier_of_resume hstep hpoll)

/-- The test of `alive`. -/
def TestsAlive (p : Process κ) : ProcessLabel α → Prop
  | .loop .next => p.loop.place = .aliveTest
  | _ => False

/-- The loop can also be told of a signal, or `errno` can change. -/
def OwnPart : LoopLabel → Prop
  | .sigterm => False
  | .sigalrm => False
  | .errno _ => False
  | _ => True

/-- A step of the process itself. -/
def Own : ProcessLabel α → Prop
  | .system (.act _) => False
  | .system _ => True
  | .loop part => OwnPart part

theorem InTurn.advances_loop (hturn : InTurn p) {part : LoopLabel} {loop : MainLoop}
    (hallows : p.allows part = true) (hown : OwnPart part)
    (hloop : p.loop.step part = some loop) :
    TestsAlive p (.loop part : ProcessLabel α) ∨ Advances p { p with loop } := by
  have hfits := hturn.fits
  cases (loopMove hloop).2 with
  | terminates | ticks | setsErrno => exact hown.elim
  | polls hplace | ends hplace => exact Or.inl hplace
  | polled _ _ hplace | checks _ hplace | sees hplace | passes hplace =>
    refine Or.inr (advances_of_place ?_)
    simp only [loopChores, hplace]
    exact easier_singleton (by simp)
  | resets hplace =>
    refine Or.inr (advances_of_place ?_)
    simp only [loopChores, hplace]
    refine easier_singleton fun other hother ↦ ?_
    rcases mem_add.mp hother with hswitch | hflush
    · rw [mem_singleton.mp hswitch]
      omega
    · rw [mem_singleton.mp hflush]
      omega
  | @flushesTimer _ _ _ _ next hplace hmove =>
    refine Or.inr (advances_of_place ?_)
    have hless := (easier_of_flush hmove).add_left {longest + 2}
    cases next <;> simpa [loopChores, hplace] using hless
  | @flushesEvent _ _ _ next hplace hmove =>
    rw [hplace] at hfits
    refine Or.inr (advances_of_place ?_)
    have hless := easier_of_flush hmove
    have hevent : p.system.watcher.place ≠ .poll := fun hpoll ↦ by cases hfits.symm.trans hpoll
    cases next <;> simpa [loopChores, hplace, hevent] using hless
  | switches place hplace hnext =>
    rw [hplace] at hfits
    have hpoll : p.system.watcher.place = .poll := hfits
    refine Or.inr (advances_of_place ?_)
    rcases hnext with rfl | rfl <;>
      (simp only [loopChores, hplace, hpoll]; exact easier_singleton (by simp))
  | fails | stops => exact Or.inr (Or.inl (by simp [Process.finished]))
  | endsBatch | puts | refuses | hangs => cases hallows

theorem InTurn.step {label : ProcessLabel α} (hturn : InTurn p)
    (hstep : p.step cfg k label = some after) :
    InTurn after ∧ (Own label → TestsAlive p label ∨ Advances p after) := by
  cases processMove hstep with
  | acts hsystem =>
    have hwatcher := (System.step_act hsystem).2
    exact ⟨⟨hwatcher ▸ hturn.control, hwatcher ▸ hturn.fits⟩, False.elim⟩
  | @watches label system hwatching hrunning hwork hpart hsystem =>
    refine ⟨hturn.watches hrunning hwatching hwork hsystem, fun hown ↦ Or.inr ?_⟩
    cases label with
    | act action => exact absurd rfl (hwork action)
    | internal => exact hturn.advances_internal hpart hsystem
    | answer answer => exact hturn.advances_answer hrunning hwatching hsystem
  | @shares system part loop hwatching hrunning hpart hsystem hloop =>
    have hboth : InTurn ⟨system, loop⟩ ∧ Advances p ⟨system, loop⟩ := by
      rcases shared_cases hpart with ⟨hplace, hbatch, rfl⟩ | ⟨hplace, directory, rfl⟩
      · have hevents := hturn.events hrunning hwatching (Or.inr (Or.inl hplace))
        exact hturn.endsBatch hevents hplace hbatch hsystem hloop
      · have hevents := hturn.events hrunning hwatching (Or.inr (Or.inr hplace))
        exact hturn.reports hevents hplace hsystem hloop
    exact ⟨hboth.1, fun _ ↦ Or.inr hboth.2⟩
  | loops hallows hrunning hloop =>
    exact ⟨hturn.loops hallows hloop, fun hown ↦ hturn.advances_loop hallows hown hloop⟩

/-! ### The process can go on -/

/-- Each call of the watcher returns. -/
def Answers (k : Kernel κ α) : Prop :=
  ∀ kernel (w : Watcher) call, w.call = some call →
    ∃ answer served next, k.serve kernel call answer = some served ∧ w.resume answer = some next

/-- Between two system calls the watcher can take a step. -/
theorem internal_or_call (cfg : Config) {w : Watcher} (hcontrol : Control w)
    (hgoing : ¬ Stopped w) : (∃ next, w.internal cfg = some next) ∨ ∃ call, w.call = some call := by
  have hfits := hcontrol.fits
  cases hplace : w.place with
  | poll | inotifyAddWatch | opendir | readdir => exact Or.inr (by simp [Watcher.call, hplace])
  | loadTopLevelPaths =>
    left
    cases hlines : w.lines <;> simp [Watcher.internal, hplace, hlines]
  | nextEvent =>
    left
    cases hbatch : w.batch <;> simp [Watcher.internal, hplace, hbatch]
  | removePrunedWds wds row =>
    cases wds with
    | nil => cases row <;> exact Or.inl (by simp [Watcher.internal, hplace])
    | cons wd rest => exact Or.inr (by simp [Watcher.call, hplace])
  | returned result =>
    rw [hplace] at hfits
    cases hstack : w.stack with
    | nil =>
      rw [hstack] at hfits
      exact hfits.elim
    | cons frame rest => exact Or.inl (by simp [Watcher.internal, hplace, hstack])
  | stopped stop => exact absurd ⟨stop, hplace⟩ hgoing
  | addWatch | subDirs | report => exact Or.inl (by simp [Watcher.internal, hplace])

theorem MainLoop.step_eq_advance {s : MainLoop} (hstop : s.stop = none) (hplace : s.place ≠ .ended)
    (label : LoopLabel) : s.step label = s.advance label := by
  simp [MainLoop.step, hstop, hplace]

/-- The loop can take its part in a step of the watcher. -/
theorem InTurn.exists_loopStep (hturn : InTurn p) (hrunning : p.finished = false)
    (hwatching : p.watching = true) :
    ∃ loop, Process.loopStep p.loop (shared p.system.watcher) = some loop := by
  cases hpart : shared p.system.watcher with
  | none => exact ⟨p.loop, rfl⟩
  | some part =>
    obtain ⟨-, hstop, hended⟩ := running hrunning
    change ∃ loop, p.loop.step part = some loop
    rw [MainLoop.step_eq_advance hstop hended]
    rcases shared_cases hpart with ⟨hplace, -, rfl⟩ | ⟨hplace, directory, rfl⟩
    · have hevents := hturn.events hrunning hwatching (Or.inr (Or.inl hplace))
      simp [MainLoop.advance, hevents]
    · have hevents := hturn.events hrunning hwatching (Or.inr (Or.inr hplace))
      simp [MainLoop.advance, hevents]

theorem InTurn.ready_watcher (hanswers : Answers k) (hturn : InTurn p)
    (hrunning : p.finished = false) (hwatching : p.watching = true) :
    Ready (Process.step cfg k) Own p := by
  rcases internal_or_call cfg hturn.control (running hrunning).1 with ⟨next, hnext⟩ | ⟨call, hcall⟩
  · obtain ⟨loop, hloop⟩ := hturn.exists_loopStep hrunning hwatching
    refine ⟨.system .internal, ⟨{ p.system with watcher := next }, loop⟩, trivial, ?_⟩
    simp [Process.step, hwatching, hrunning, System.step, hnext, Process.loopPart, hloop]
  · obtain ⟨answer, served, next, hserve, hresume⟩ := hanswers p.system.kernel _ call hcall
    refine ⟨.system (.answer answer), { p with system := ⟨next, served⟩ }, trivial, ?_⟩
    simp [Process.step, hwatching, hrunning, System.step, hcall, hserve, hresume,
      Process.loopPart, Process.loopStep]

theorem ready_loop (hrunning : p.finished = false) (part : LoopLabel) (hown : OwnPart part)
    (hallows : p.allows part = true) (hadvance : ∃ loop, p.loop.advance part = some loop) :
    Ready (Process.step cfg k) Own p := by
  obtain ⟨-, hstop, hended⟩ := running hrunning
  obtain ⟨loop, hadvance⟩ := hadvance
  refine ⟨.loop part, { p with loop }, hown, ?_⟩
  simp [Process.step, hallows, hrunning, MainLoop.step_eq_advance hstop hended, hadvance]

theorem InTurn.ready (hanswers : Answers k) (hturn : InTurn p) (hrunning : p.finished = false) :
    Ready (Process.step cfg k) Own p := by
  cases hwatching : p.watching with
  | true => exact hturn.ready_watcher hanswers hrunning hwatching
  | false =>
    cases hplace : p.loop.place with
    | aliveTest | flushTest | flushReset | switch =>
      exact ready_loop hrunning .next trivial (by simp [Process.allows, hwatching])
        (by simp [MainLoop.advance, hplace])
    | poll =>
      exact ready_loop hrunning (.poll .timeout) trivial
        (by simp [Process.allows, hwatching]) (by simp [MainLoop.advance, hplace])
    | parentTest =>
      exact ready_loop hrunning (.parent false) trivial
        (by simp [Process.allows, hwatching]) (by simp [MainLoop.advance, hplace])
    | timerFlush | eventFlush =>
      exact ready_loop hrunning (.flush .faultless) trivial
        (by simp [Process.allows, hwatching]) (by simp [MainLoop.advance, hplace])
    | events => simp [Process.watching, hplace] at hwatching
    | ended => exact absurd hplace (running hrunning).2.2

/-! ### Whole runs -/

/-- `alive` is never set again. -/
theorem alive_of_step {label : ProcessLabel α} (hstep : p.step cfg k label = some after)
    (halive : p.loop.alive = false) : after.loop.alive = false := by
  have hloop : ∀ {part : LoopLabel} {loop : MainLoop}, p.loop.step part = some loop →
      loop.alive = false := by
    intro part loop hpart
    cases (loopMove hpart).2 <;> simp [halive]
  cases processMove hstep with
  | acts | watches => exact halive
  | shares _ _ _ _ hpart | loops _ _ hpart => exact hloop hpart

/-- The test of `alive` after it has been reset is the end. -/
theorem finished_of_test {label : ProcessLabel α} (hstep : p.step cfg k label = some after)
    (htest : TestsAlive p label) (halive : p.loop.alive = false) : after.finished = true := by
  cases processMove hstep with
  | acts | watches | shares => exact htest.elim
  | @loops part loop _ hrunning hloop =>
    cases part with
    | next =>
      have hplace : p.loop.place = .aliveTest := htest
      obtain ⟨-, hstop, hended⟩ := running hrunning
      rw [MainLoop.step_eq_advance hstop hended] at hloop
      have hnext : loop = { p.loop with place := .ended } := by
        simpa [MainLoop.advance, hplace, halive, eq_comm] using hloop
      simp [Process.finished, hnext]
    | _ => exact htest.elim

/-- What is outside of the process leaves what is left of its turn alone. -/
theorem turnChores_of_not_own {label : ProcessLabel α} (hown : ¬ Own label)
    (hstep : p.step cfg k label = some after) : turnChores after = turnChores p := by
  cases processMove hstep with
  | acts hsystem =>
    have hwatcher := (System.step_act hsystem).2
    simp [turnChores, hwatcher]
  | @watches label _ _ _ hwork =>
    cases label with
    | act action => exact absurd rfl (hwork action)
    | _ => exact absurd trivial hown
  | shares => exact absurd trivial hown
  | loops _ _ hloop =>
    cases (loopMove hloop).2 with
    | terminates | ticks | setsErrno | stops => rfl
    | _ => exact absurd trivial hown

/-- In an endless run over a kernel whose calls return, in which the process can run, it exits,
or hangs in a prune that follows a cycle of parent links, or tests `alive` again and again and
never finds it reset. So unless a prune hangs, `SIGTERM` and the loss of the parent end it, in
the middle of any scan and of any batch, whatever happens outside meanwhile. -/
theorem ends_or_turns (k : Kernel κ α) (hanswers : Answers k) (cfg : Config) (kernel : κ)
    (notifyDir : Bytes) (hashSize memSize : ℕ) (hsize : 1 ≤ hashSize)
    (entries : ℕ → HashCacheEntry) (memory : ℕ → UInt8) (run : EndlessRun (Process.step cfg k))
    (hstart : run.state 0 = .start cfg kernel
      (newNotifier notifyDir (newHashCache hashSize memSize entries memory)))
    (hfair : run.Fair Own) :
    (∃ n, (run.state n).exited = true) ∨ (∃ n, HangsInPrune (run.state n)) ∨
      (∀ n, (run.state n).loop.alive = true) ∧
        ∀ n, ∃ later ≥ n, TestsAlive (run.state later) (run.label later) := by
  have hturn : ∀ n, InTurn (run.state n) := fun n ↦
    (run.reaches n).invariant InTurn (hstart ▸ inTurn_start cfg kernel _)
      fun _ _ _ hturn _ hstep ↦ (hturn.step hstep).1
  by_cases hends : ∃ n, (run.state n).finished = true
  · obtain ⟨n, hfinished⟩ := hends
    exact (exited_or_hangs hsize (hstart ▸ run.reaches n) hfinished).imp
      (fun hexited ↦ ⟨n, hexited⟩) fun hhangs ↦ Or.inl ⟨n, hhangs⟩
  have htests : ∀ n, ∃ later ≥ n, TestsAlive (run.state later) (run.label later) := fun n ↦ by
    have hgoal := EndlessRun.exists_goal wellFounded_isDershowitzMannaLT turnChores InTurn
      TestsAlive (fun p ↦ p.finished = true) hfair hturn
      (fun p hturn hrunning ↦ hturn.ready hanswers (by simpa using hrunning))
      (fun _ _ _ hown hstep ↦ turnChores_of_not_own hown hstep)
      (fun _ _ _ hturn hown hstep ↦ (hturn.step hstep).2 hown) n
    rcases hgoal with ⟨later, -, hfinished⟩ | ⟨later, hlater, -, htest⟩
    · exact absurd ⟨later, hfinished⟩ hends
    · exact ⟨later, hlater, htest⟩
  refine Or.inr (Or.inr ⟨fun n ↦ ?_, htests⟩)
  by_contra hdead
  obtain ⟨later, hlater, htest⟩ := htests n
  have halive := EndlessRun.stays (fun p : Process κ ↦ p.loop.alive = false)
    (fun _ _ _ hdead hstep ↦ alive_of_step hstep hdead) hlater (by simpa using hdead)
  exact hends ⟨later + 1, finished_of_test (run.steps later) htest halive⟩

/-- A kernel that answers at once, while something else goes on. -/
def idleKernel : Kernel Unit Unit where
  serve := fun _ _ _ ↦ some ()
  act := fun _ _ ↦ some ()

theorem answers_idleKernel : Answers idleKernel := by
  intro kernel w call hcall
  have hresume : ∃ answer next, w.resume answer = some next := by
    unfold Watcher.call at hcall
    split at hcall
    case h_1 hplace => exact ⟨.events [], by simp [Watcher.resume, hplace]⟩
    case h_2 hplace => exact ⟨.watch 1, by simp [Watcher.resume, hplace]⟩
    case h_3 hplace => exact ⟨.done, by simp [Watcher.resume, hplace]⟩
    case h_4 hplace => exact ⟨.done, by simp [Watcher.resume, hplace]⟩
    case h_5 hplace => exact ⟨.names [], by simp [Watcher.resume, hplace]⟩
    case h_6 => cases hcall
  obtain ⟨answer, next, hnext⟩ := hresume
  exact ⟨answer, (), next, rfl, hnext⟩

theorem not_ready_of_finished (hfinished : p.finished = true) :
    ¬ Ready (Process.step cfg k) Own p := by
  rintro ⟨label, next, hown, hstep⟩
  cases processMove hstep with
  | acts => exact hown
  | watches _ hrunning | shares _ hrunning | loops _ hrunning =>
    cases hfinished.symm.trans hrunning

/-- Nothing is owed to a process that has come to its end. -/
theorem fair_of_finished {run : EndlessRun (Process.step cfg k)} (last : ℕ)
    (hfinished : ∀ n ≥ last, (run.state n).finished = true) : run.Fair Own := by
  intro n hready
  have hends := hfinished (max n last) (le_max_right _ _)
  exact absurd (hready (max n last) (le_max_left _ _)) (not_ready_of_finished hends)

theorem watcher_of_finished (hfinished : p.finished = true) {label : ProcessLabel α}
    (hstep : p.step cfg k label = some after) : after.system.watcher = p.system.watcher := by
  cases processMove hstep with
  | acts hsystem => exact (System.step_act hsystem).2
  | watches _ hrunning | shares _ hrunning | loops _ hrunning =>
    cases hfinished.symm.trans hrunning

/-- A process that hangs goes on hanging, so one that is elsewhere later does not. -/
theorem not_hangs_of_later {run : EndlessRun (Process.step cfg k)} {last : ℕ}
    (hlast : ∀ n ≥ last, (run.state n).system.watcher.place ≠ .stopped .loops) (n : ℕ) :
    ¬ HangsInPrune (run.state n) := by
  rintro ⟨hplace, -⟩
  refine hlast (max n last) (le_max_right _ _) ?_
  refine EndlessRun.stays (fun p : Process κ ↦ p.system.watcher.place = .stopped .loops)
    (fun _ _ _ hhangs hstep ↦ ?_) (le_max_left _ _) hplace
  rw [watcher_of_finished (finished_of_stopped ⟨_, hhangs⟩) hstep]
  exact hhangs

/-- `/t` and `/t/a` are scanned. In the batch after that, `SIGTERM` comes between the event of
`/t/a` and that of `/t`. -/
def terminatedLabels : List (ProcessLabel Unit) :=
  [.internal, .internal, .answer (.watch 1), .act (), .answer .done,
    .answer (.names [literal "a"]), .internal, .internal, .answer (.watch 2), .answer .done,
    .answer (.names []), .internal, .internal, .internal, .internal, .internal].map .system ++
  [.loop .next, .loop (.poll (.ready true)), .loop (.parent false), .loop .next, .loop .next] ++
  [.answer (.events [⟨2, inCloseWrite, 0, literal "f"⟩, ⟨1, inCloseWrite, 0, literal "f"⟩]),
    .internal, .internal].map .system ++ [.loop .sigterm] ++
  [.internal, .act (), .internal, .internal].map .system ++ [.loop .next]

/-- The process goes on to the end of the batch, and exits. -/
theorem ends_or_turns_terminated :
    ∃ run : EndlessRun (Process.step ⟨[literal "/t"], [], fits_t⟩ idleKernel),
      run.state 0 = watchStart () ∧ run.label 24 = .loop .sigterm ∧
      (run.state 24).system.watcher.batch = [⟨1, inCloseWrite, 0, literal "f"⟩] ∧
      ∃ n, (run.state n).exited = true := by
  have hall : (run (Process.step ⟨[literal "/t"], [], fits_t⟩ idleKernel) (watchStart ())
      terminatedLabels).map (fun p ↦ (p.system.watcher.place, p.finished, p.loop.alive)) =
      some (.poll, true, false) := by decide
  have hmiddle : (run (Process.step ⟨[literal "/t"], [], fits_t⟩ idleKernel) (watchStart ())
      (terminatedLabels.take 24)).map (fun p ↦ p.system.watcher.batch) =
      some [⟨1, inCloseWrite, 0, literal "f"⟩] := by decide
  obtain ⟨last, hlast, hseen⟩ := Option.map_eq_some_iff.mp hall
  obtain ⟨middle, hmiddle, hbatch⟩ := Option.map_eq_some_iff.mp hmiddle
  simp only [Prod.mk.injEq] at hseen
  obtain ⟨hplace, hfinished, halive⟩ := hseen
  have hidle : Process.step ⟨[literal "/t"], [], fits_t⟩ idleKernel last (.system (.act ())) =
      some last := rfl
  have hstate : ∀ n ≥ terminatedLabels.length,
      (EndlessRun.ofList hlast hidle).state n = last := fun n hn ↦
    EndlessRun.ofList_state_last hlast hidle hn
  have hfair : (EndlessRun.ofList hlast hidle).Fair Own := by
    refine fair_of_finished terminatedLabels.length fun n hn ↦ ?_
    rw [hstate n hn, hfinished]
  refine ⟨.ofList hlast hidle, rfl, rfl, ?_, ?_⟩
  · rw [EndlessRun.ofList_state hlast hidle hmiddle, hbatch]
  · have hends := ends_or_turns idleKernel answers_idleKernel _ () _ 4 16 (by decide) _ _
      (.ofList hlast hidle) rfl hfair
    have hgoes : ∀ n ≥ terminatedLabels.length,
        ((EndlessRun.ofList hlast hidle).state n).system.watcher.place ≠ .stopped .loops := by
      intro n hn
      rw [hstate n hn, hplace]
      simp
    have hnone : ¬ ∃ n, HangsInPrune _ := fun ⟨n, hhangs⟩ ↦ not_hangs_of_later hgoes n hhangs
    refine hends.resolve_right (not_or.mpr ⟨hnone, ?_⟩)
    intro hturns
    have hlives := hturns.1 terminatedLabels.length
    rw [hstate _ le_rfl, halive] at hlives
    cases hlives

end DirWatcher.Program
