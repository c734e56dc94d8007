import DirWatcher.Environment.DirTree
import DirWatcher.Environment.Interface

/-!
What inotify promises, whatever the file system does. `inotify_add_watch` returns a
live watch descriptor or one that has never been used. A watch descriptor dies by
`inotify_rm_watch` or with its directory, and either way one `IN_IGNORED` for it is
put at the end of the queue. All other events are about watch descriptors that are
live, and what they call a directory is a name that a directory can have.
-/

set_option autoImplicit false
set_option relaxedAutoImplicit false

namespace DirWatcher.Environment

open Source

/-- The live watch descriptors, those that have been in use, and the events that have
not been read. -/
structure Inotify where
  live : List Wd
  used : List Wd
  queue : List Event
deriving DecidableEq, Repr

def Inotify.start : Inotify := ⟨[], [], []⟩

def ignoredEvent (wd : Wd) : Event := ⟨wd, inIgnored, 0, []⟩

/-- An event that the kernel may send for a live watch. -/
def OrdinaryEvent (event : Event) : Prop :=
  event.has inIgnored = false ∧ event.has inQOverflow = false ∧
    (event.has inIsdir = true → ValidName event.name)

instance (event : Event) : Decidable (OrdinaryEvent event) := by
  unfold OrdinaryEvent
  infer_instance

/-! ### What events say -/

/-- The event says that a directory has come to be in the watched one. -/
def Arrival (event : Event) : Prop :=
  event.branch = .createDir ∨ event.branch = .movedTo ∧ event.has inIsdir = true

/-- The event says that a directory has left the watched one. -/
def Departure (event : Event) : Prop :=
  event.branch = .movedFrom ∧ event.has inIsdir = true

theorem has_inIsdir_of_createDir {event : Event} (hbranch : event.branch = .createDir) :
    event.has inIsdir = true := by
  have hmask : event.mask &&& createDirMask = createDirMask := by
    unfold Event.branch at hbranch
    split_ifs at hbranch
    assumption
  have hbit : event.mask &&& inIsdir = createDirMask &&& inIsdir := by
    rw [← hmask, UInt32.and_assoc]
    rfl
  simp only [Event.has, hbit]
  decide

theorem Arrival.isdir {event : Event} (harrival : Arrival event) : event.has inIsdir = true := by
  rcases harrival with hbranch | ⟨-, hisdir⟩
  · exact has_inIsdir_of_createDir hbranch
  · exact hisdir

instance (event : Event) : Decidable (Arrival event) := by unfold Arrival; infer_instance

instance (event : Event) : Decidable (Departure event) := by unfold Departure; infer_instance

/-- Only the mask of an event says what it is about. -/
theorem arrival_congr {first second : Event} (hmask : first.mask = second.mask) :
    Arrival first ↔ Arrival second := by
  cases first
  cases second
  cases hmask
  exact Iff.rfl

theorem departure_congr {first second : Event} (hmask : first.mask = second.mask) :
    Departure first ↔ Departure second := by
  cases first
  cases second
  cases hmask
  exact Iff.rfl

/-! ### The kernel -/

namespace Inotify

def emit (k : Inotify) (event : Event) : Inotify := { k with queue := k.queue ++ [event] }

/-- The watch descriptor dies, and its last event is queued. -/
def kill (k : Inotify) (wd : Wd) : Inotify :=
  { k with live := k.live.filter (· ≠ wd), queue := k.queue ++ [ignoredEvent wd] }

/-- A watch descriptor is used for the first time. -/
def watch (k : Inotify) (wd : Wd) : Inotify :=
  { k with live := wd :: k.live, used := wd :: k.used }

end Inotify

/-- What happens outside of the watcher, as far as it can be seen through inotify: an
event on a live watch, or the end of a watch with its directory. -/
inductive InotifyAct
  | emit (event : Event)
  | die (wd : Wd)
deriving DecidableEq, Repr

/-- The most general kernel that keeps the promises of inotify. -/
def inotify : Kernel Inotify InotifyAct where
  serve := fun k call answer ↦
    match call, answer with
    | .inotifyAddWatch _, .watch wd =>
      if wd ∈ k.live then some k
      else if 0 < wd ∧ wd ∉ k.used then some (k.watch wd) else none
    | .inotifyRmWatch wd, .done => if wd ∈ k.live then some (k.kill wd) else none
    | .inotifyRmWatch wd, .error errno => if errno = .einval ∧ wd ∉ k.live then some k else none
    | .readdir, .names names => if ∀ name ∈ names, ValidName name then some k else none
    | .read, .events events =>
      if events <+: k.queue then some { k with queue := k.queue.drop events.length } else none
    | .opendir _, .done => some k
    | _, .error _ => some k
    | _, _ => none
  act := fun k action ↦
    match action with
    | .emit event => if event.wd ∈ k.live ∧ OrdinaryEvent event then some (k.emit event) else none
    | .die wd => if wd ∈ k.live then some (k.kill wd) else none

/-- The answers of `inotify`, one case for each effect on its state. -/
inductive ServeStep (k : Inotify) : Call → Answer → Inotify → Prop
  | watchesAgain (path : Bytes) {wd : Wd} (hlive : wd ∈ k.live) :
      ServeStep k (.inotifyAddWatch path) (.watch wd) k
  | watches (path : Bytes) {wd : Wd} (hpositive : 0 < wd) (hfresh : wd ∉ k.used) :
      ServeStep k (.inotifyAddWatch path) (.watch wd) (k.watch wd)
  | kills {wd : Wd} (hlive : wd ∈ k.live) : ServeStep k (.inotifyRmWatch wd) .done (k.kill wd)
  | killed {wd : Wd} (hdead : wd ∉ k.live) :
      ServeStep k (.inotifyRmWatch wd) (.error .einval) k
  | reads {events rest : List Event} (hqueue : k.queue = events ++ rest) :
      ServeStep k .read (.events events) { k with queue := rest }
  | lists {names : List Bytes} (hnames : ∀ name ∈ names, ValidName name) :
      ServeStep k .readdir (.names names) k
  | opens (path : Bytes) : ServeStep k (.opendir path) .done k
  | fails {call : Call} (errno : Errno) (hcall : ∀ wd, call ≠ .inotifyRmWatch wd) :
      ServeStep k call (.error errno) k

theorem serveStep {k after : Inotify} {call : Call} {answer : Answer}
    (hserve : inotify.serve k call answer = some after) : ServeStep k call answer after := by
  simp only [inotify] at hserve
  split at hserve
  · split_ifs at hserve with hlive hfresh <;> cases hserve
    · exact .watchesAgain _ hlive
    · exact .watches _ hfresh.1 hfresh.2
  · split_ifs at hserve with hlive
    cases hserve
    exact .kills hlive
  · split_ifs at hserve with hdead
    cases hserve
    obtain ⟨rfl, hdead⟩ := hdead
    exact .killed hdead
  · split_ifs at hserve with hnames
    cases hserve
    exact .lists hnames
  · split_ifs at hserve with hprefix
    cases hserve
    exact .reads (by rw [← List.prefix_iff_eq_append.mp hprefix]; simp)
  · cases hserve
    exact .opens _
  · next errno hrm =>
    cases hserve
    exact .fails errno hrm
  · cases hserve

/-! ### What can be relied on about the events that are pending -/

/-- The events the watcher has not processed yet, in their order: those it has read,
then those in the queue. -/
structure Delivered (k : Inotify) (pending : List Event) : Prop where
  liveUsed : ∀ wd ∈ k.live, wd ∈ k.used
  positive : ∀ wd ∈ k.used, 0 < wd
  used : ∀ event ∈ pending, event.wd ∈ k.used
  names : ∀ event ∈ pending, event.has inIsdir = true → ValidName event.name
  ignored : ∀ event ∈ pending, event.has inIgnored = true →
    event = ignoredEvent event.wd ∧ event.wd ∉ k.live
  last : pending.Pairwise fun first second ↦
    first.has inIgnored = true → second.wd ≠ first.wd

theorem delivered_start : Delivered .start [] := by
  constructor <;> simp [Inotify.start]

@[simp] theorem ignoredEvent_has (wd : Wd) : (ignoredEvent wd).has inIgnored = true := by
  simp [ignoredEvent, Event.has]
  decide

variable {k : Inotify} {pending : List Event}

/-- No `IN_IGNORED` has come for a live watch descriptor. -/
theorem Delivered.last_append (hdelivered : Delivered k pending) {event : Event}
    (hlive : event.wd ∈ k.live) :
    (pending ++ [event]).Pairwise fun first second ↦
      first.has inIgnored = true → second.wd ≠ first.wd := by
  refine List.pairwise_append.mpr ⟨hdelivered.last, List.pairwise_singleton _ _, ?_⟩
  intro first hfirst second hsecond hignored heq
  rw [List.mem_singleton.mp hsecond] at heq
  exact (hdelivered.ignored first hfirst hignored).2 (heq ▸ hlive)

theorem Delivered.emit (hdelivered : Delivered k pending) {event : Event}
    (hlive : event.wd ∈ k.live) (hordinary : OrdinaryEvent event) :
    Delivered (k.emit event) (pending ++ [event]) where
  liveUsed := hdelivered.liveUsed
  positive := hdelivered.positive
  used := by
    simpa [or_imp, forall_and] using ⟨hdelivered.used, hdelivered.liveUsed _ hlive⟩
  names := by
    simpa [or_imp, forall_and] using ⟨hdelivered.names, hordinary.2.2⟩
  ignored := by
    intro other hother hignored
    rcases List.mem_append.mp hother with hold | hnew
    · exact hdelivered.ignored other hold hignored
    · rw [List.mem_singleton.mp hnew, hordinary.1] at hignored
      cases hignored
  last := hdelivered.last_append hlive

theorem Delivered.kill (hdelivered : Delivered k pending) {wd : Wd} (hlive : wd ∈ k.live) :
    Delivered (k.kill wd) (pending ++ [ignoredEvent wd]) where
  liveUsed := fun other hother ↦ hdelivered.liveUsed other (List.mem_of_mem_filter hother)
  positive := hdelivered.positive
  used := by
    simpa [or_imp, forall_and] using ⟨hdelivered.used, hdelivered.liveUsed _ hlive⟩
  names := by
    intro event hevent hisdir
    rcases List.mem_append.mp hevent with hold | hnew
    · exact hdelivered.names event hold hisdir
    · rw [List.mem_singleton.mp hnew] at hisdir
      exact absurd hisdir (by simp only [ignoredEvent, Event.has]; decide)
  ignored := by
    intro other hother hignored
    rcases List.mem_append.mp hother with hold | hnew
    · obtain ⟨hform, hdead⟩ := hdelivered.ignored other hold hignored
      exact ⟨hform, fun hmem ↦ hdead (List.mem_of_mem_filter hmem)⟩
    · rw [List.mem_singleton.mp hnew]
      exact ⟨rfl, by simp [Inotify.kill, ignoredEvent]⟩
  last := hdelivered.last_append hlive

theorem Delivered.watch (hdelivered : Delivered k pending) {wd : Wd} (hpositive : 0 < wd)
    (hfresh : wd ∉ k.used) : Delivered (k.watch wd) pending where
  liveUsed := by
    intro other hother
    rcases List.mem_cons.mp hother with rfl | hold
    · exact List.mem_cons_self
    · exact List.mem_cons_of_mem _ (hdelivered.liveUsed other hold)
  positive := by
    simpa [Inotify.watch, or_imp, forall_and] using ⟨hpositive, hdelivered.positive⟩
  used := fun event hevent ↦ List.mem_cons_of_mem _ (hdelivered.used event hevent)
  names := hdelivered.names
  ignored := by
    intro event hevent hignored
    obtain ⟨hform, hdead⟩ := hdelivered.ignored event hevent hignored
    refine ⟨hform, fun hmem ↦ ?_⟩
    rcases List.mem_cons.mp hmem with heq | hold
    · exact hfresh (heq ▸ hdelivered.used event hevent)
    · exact hdead hold
  last := hdelivered.last

theorem Delivered.tail {event : Event} (hdelivered : Delivered k (event :: pending)) :
    Delivered k pending where
  liveUsed := hdelivered.liveUsed
  positive := hdelivered.positive
  used := fun other hother ↦ hdelivered.used other (List.mem_cons_of_mem _ hother)
  names := fun other hother ↦ hdelivered.names other (List.mem_cons_of_mem _ hother)
  ignored := fun other hother ↦ hdelivered.ignored other (List.mem_cons_of_mem _ hother)
  last := (List.pairwise_cons.mp hdelivered.last).2

/-- The queue of a kernel may be read in part. -/
theorem Delivered.congr_queue (hdelivered : Delivered k pending) (queue : List Event) :
    Delivered { k with queue } pending :=
  ⟨hdelivered.liveUsed, hdelivered.positive, hdelivered.used, hdelivered.names,
    hdelivered.ignored, hdelivered.last⟩

end DirWatcher.Environment
