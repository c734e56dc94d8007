import DirWatcher.Environment.FileSystem
import DirWatcher.Foundation.Runs

/-!
A file system keeps the promises of inotify: each of its steps is a run of the most
general kernel that does, so what holds in all runs with that kernel holds in all runs
with a file system.
-/

set_option autoImplicit false
set_option relaxedAutoImplicit false

namespace DirWatcher.Environment

open Source Foundation.Runs

namespace FileSystem

/-- What can be seen of a file system through inotify. -/
def inotify (fs : FileSystem) : Inotify := ⟨fs.live, fs.used, fs.queue⟩

variable {fs after : FileSystem} {dir : Dir} {wd : Wd}

theorem mem_live : wd ∈ fs.live ↔ ∃ dir, ⟨wd, dir⟩ ∈ fs.watches := by
  simp only [live, List.mem_map]
  constructor
  · rintro ⟨⟨wd, dir⟩, hwatch, rfl⟩
    exact ⟨dir, hwatch⟩
  · rintro ⟨dir, hwatch⟩
    exact ⟨_, hwatch, rfl⟩

theorem watchOn_eq_some_iff : fs.watchOn dir = some wd ↔ ⟨wd, dir⟩ ∈ fs.watches := by
  constructor
  · intro hwatch
    obtain ⟨⟨other, found⟩, hfind, rfl⟩ := Option.map_eq_some_iff.mp hwatch
    obtain rfl : found = dir := by simpa using List.find?_some hfind
    exact List.mem_of_find?_eq_some hfind
  · intro hmem
    cases hfind : fs.watches.find? (·.dir == dir) with
    | none => exact absurd (List.find?_eq_none.mp hfind _ hmem) (by simp)
    | some found =>
      have hdir : found.dir = dir := by simpa using List.find?_some hfind
      have hsame : found = ⟨wd, dir⟩ :=
        List.inj_on_of_nodup_map fs.dirs (List.mem_of_find?_eq_some hfind) hmem hdir
      rw [watchOn, hfind, hsame]
      rfl

/-! ### What happens to the directories -/

/-- The kernel can go from the first state to the second without the watcher. -/
def Acts : Inotify → Inotify → Prop :=
  Relation.ReflTransGen fun before after ↦
    ∃ action, Environment.inotify.act before action = some after

theorem acts_emit {k : Inotify} {event : Event} (hlive : event.wd ∈ k.live)
    (hordinary : OrdinaryEvent event) : Acts k (k.emit event) :=
  Relation.ReflTransGen.single ⟨.emit event, if_pos ⟨hlive, hordinary⟩⟩

theorem acts_kill {k : Inotify} (hlive : wd ∈ k.live) : Acts k (k.kill wd) :=
  Relation.ReflTransGen.single ⟨.die wd, if_pos hlive⟩

theorem inotify_kill : (fs.kill wd).inotify = fs.inotify.kill wd := by
  simp [inotify, live, kill, Inotify.kill, List.filter_map, Function.comp_def]

theorem acts_notify {k : Inotify} {mask cookie : UInt32} {name : Bytes} (hview : fs.inotify = k)
    (hordinary : ∀ wd, OrdinaryEvent ⟨wd, mask, cookie, name⟩) :
    Acts k (fs.notify dir mask cookie name).inotify := by
  subst hview
  unfold notify
  split
  · exact Relation.ReflTransGen.refl
  · next hwatch =>
    exact acts_emit (mem_live.mpr ⟨dir, watchOn_eq_some_iff.mp hwatch⟩) (hordinary _)

/-- An event that the bits of its mask make ordinary. -/
theorem ordinaryEvent_of_mask {mask cookie : UInt32} {name : Bytes}
    (hmask : mask &&& inIgnored = 0 ∧ mask &&& inQOverflow = 0)
    (hname : mask &&& inIsdir = 0 ∨ ValidName name) : OrdinaryEvent ⟨wd, mask, cookie, name⟩ := by
  refine ⟨by simp [Event.has, hmask.1], by simp [Event.has, hmask.2], fun hisdir ↦ ?_⟩
  refine hname.resolve_left fun hzero ↦ ?_
  simp [Event.has, hzero] at hisdir

theorem acts_of_act {action : FsAct} (hact : fs.act action = some after) :
    Acts fs.inotify after.inotify := by
  cases action with
  | mkdir readable parent name =>
    simp only [act, mkdir] at hact
    split_ifs at hact with h
    cases hact
    exact acts_notify rfl fun wd ↦ ordinaryEvent_of_mask (by decide) (Or.inr h.2.1)
  | rename entry parent name cookie =>
    simp only [act, rename] at hact
    split_ifs at hact with h
    cases hact
    refine Relation.ReflTransGen.trans ?_ (acts_notify rfl fun wd ↦
      ordinaryEvent_of_mask (by decide) (Or.inl (by decide)))
    refine Relation.ReflTransGen.trans ?_ (acts_notify rfl fun wd ↦
      ordinaryEvent_of_mask (by decide) (Or.inr h.2.2.1))
    exact acts_notify rfl fun wd ↦
      ordinaryEvent_of_mask (by decide) (Or.inr (fs.tree.names entry h.1))
  | rmdir entry =>
    simp only [act, rmdir] at hact
    split_ifs at hact with h
    cases hact
    exact acts_notify rfl fun wd ↦
      ordinaryEvent_of_mask (by decide) (Or.inr (fs.tree.names entry h.1))
  | free watch =>
    simp only [act, free] at hact
    split_ifs at hact with h
    cases hact
    rw [inotify_kill]
    have hlive : watch.wd ∈ fs.live := mem_live.mpr ⟨watch.dir, h.1⟩
    have hself : OrdinaryEvent ⟨watch.wd, inDeleteSelf, 0, []⟩ :=
      ordinaryEvent_of_mask (by decide) (Or.inl (by decide))
    exact (acts_emit hlive hself).trans (acts_kill hlive)
  | fileEvent event =>
    simp only [act, fileEvent] at hact
    split_ifs at hact with h
    cases hact
    exact acts_emit h.1 h.2.1

/-! ### System calls -/

theorem inotifyAddWatch_spec {path : Bytes} (hwatch : fs.inotifyAddWatch path wd = some after) :
    ∃ dir, fs.tree.resolve path = some dir ∧ dir ∉ fs.tree.unreadable ∧
      (⟨wd, dir⟩ ∈ fs.watches ∧ after = fs ∨
        ∃ (hwd : wd ∉ fs.used) (hdir : ∀ old ∈ fs.watches, old.dir ≠ dir)
          (hmade : dir < fs.tree.next), 0 < wd ∧ after = fs.watch wd dir hwd hdir hmade) := by
  unfold inotifyAddWatch at hwatch
  split at hwatch
  · cases hwatch
  · next dir hresolve =>
    split_ifs at hwatch with hreadable hlive hnew
    · cases hwatch
      exact ⟨dir, hresolve, hreadable, Or.inl ⟨hlive, rfl⟩⟩
    · cases hwatch
      exact ⟨dir, hresolve, hreadable, Or.inr ⟨hnew.2.2, hnew.1, _, hnew.2.1, rfl⟩⟩

theorem opendir_spec {path : Bytes} (hopen : fs.opendir path = some after) :
    ∃ dir, fs.tree.resolve path = some dir ∧
      after = { fs with scan := some (Scan.start fs.tree dir) } := by
  unfold opendir at hopen
  split at hopen
  · cases hopen
  · next dir hresolve =>
    split_ifs at hopen
    cases hopen
    exact ⟨dir, hresolve, rfl⟩

theorem readdir_spec {names : List Bytes} (hread : fs.readdir names = some after) :
    ∃ scan, fs.scan = some scan ∧ scan.must ⊆ names ∧ names ⊆ scan.may ∧
      after = { fs with scan := none } := by
  unfold readdir at hread
  split at hread
  · cases hread
  · next scan hscan =>
    split_ifs at hread with hnames
    cases hread
    exact ⟨scan, hscan, hnames.1, hnames.2, rfl⟩

theorem inotify_serve {call : Call} {answer : Answer} (hserve : fs.serve call answer = some after) :
    Environment.inotify.serve fs.inotify call answer = some after.inotify := by
  unfold serve at hserve
  split at hserve
  · obtain ⟨dir, -, -, ⟨hwatch, rfl⟩ | ⟨hwd, -, -, hpositive, rfl⟩⟩ := inotifyAddWatch_spec hserve
    · exact if_pos (mem_live.mpr ⟨dir, hwatch⟩)
    · have hdead : _ ∉ fs.inotify.live := fun hlive ↦ by
        obtain ⟨old, hold⟩ := mem_live.mp hlive
        exact hwd (fs.known _ hold).1
      simp only [Environment.inotify, if_neg hdead]
      exact if_pos ⟨hpositive, hwd⟩
  · split_ifs at hserve
    cases hserve
    rfl
  · split_ifs at hserve with hlive
    cases hserve
    rw [inotify_kill]
    exact if_pos hlive
  · split_ifs at hserve with hdead
    cases hserve
    exact if_pos hdead
  · obtain ⟨dir, -, rfl⟩ := opendir_spec hserve
    rfl
  · split_ifs at hserve
    cases hserve
    rfl
  · obtain ⟨scan, -, -, hmay, rfl⟩ := readdir_spec hserve
    exact if_pos fun name hname ↦ scan.valid name (hmay hname)
  · cases hserve
    rfl
  · split_ifs at hserve with hprefix
    cases hserve
    exact if_pos hprefix
  · cases hserve
    rfl
  · cases hserve

end FileSystem

/-! ### Runs -/

/-- The watcher with what it can see of the file system through inotify. -/
def System.inotify (s : System FileSystem) : System Inotify := ⟨s.watcher, s.kernel.inotify⟩

/-- A condition on the steps with a file system that says more than one on the steps
with inotify. What happens to the directories is to meet the latter anyway. -/
structure Implies (condition : System FileSystem → Label FsAct → Prop)
    (weaker : System Inotify → Label InotifyAct → Prop) : Prop where
  act : ∀ s action, weaker s (.act action)
  internal : ∀ s, condition s .internal → weaker s.inotify .internal
  answer : ∀ s answer, condition s (.answer answer) → weaker s.inotify (.answer answer)

variable {condition : System FileSystem → Label FsAct → Prop}
  {weaker : System Inotify → Label InotifyAct → Prop} {cfg : Config} {s after : System FileSystem}

theorem System.step_inotify (himplies : Implies condition weaker) {label : Label FsAct}
    (hlabel : condition s label) (hstep : s.step cfg fileSystem label = some after) :
    ReachesWhen (System.step cfg Environment.inotify) weaker s.inotify after.inotify := by
  obtain ⟨watcher, kernel⟩ := after
  cases label with
  | act action =>
    obtain ⟨hact, rfl⟩ := System.step_act hstep
    have hacts := FileSystem.acts_of_act hact
    refine Relation.ReflTransGen.lift (fun k ↦ (⟨s.watcher, k⟩ : System Inotify)) ?_ _ _ hacts
    rintro before next ⟨action, hnext⟩
    exact ⟨.act action, himplies.act _ action, by rw [System.step, hnext]; rfl⟩
  | internal =>
    obtain ⟨hinternal, rfl⟩ := System.step_internal hstep
    refine Relation.ReflTransGen.single ⟨.internal, himplies.internal s hlabel, ?_⟩
    rw [System.step, System.inotify, hinternal]
    rfl
  | answer answer =>
    obtain ⟨call, hcall, hserve, hresume⟩ := System.step_answer hstep
    refine Relation.ReflTransGen.single ⟨.answer answer, himplies.answer s answer hlabel, ?_⟩
    rw [System.step, System.inotify, hcall]
    have hview := FileSystem.inotify_serve hserve
    simp [hview, hresume, System.inotify]

/-- What the watcher sees of a run with a file system is a run with inotify. -/
theorem reaches_inotify (himplies : Implies condition weaker) {before : System FileSystem}
    (hruns : ReachesWhen (System.step cfg fileSystem) condition before after) :
    ReachesWhen (System.step cfg Environment.inotify) weaker before.inotify after.inotify :=
  hruns.map System.inotify fun _ _ _ hlabel hstep ↦ System.step_inotify himplies hlabel hstep

end DirWatcher.Environment
