import DirWatcher.Watching.Acyclic
import DirWatcher.Watching.Orderly

/-!
`process_inotify_events` looks the directory of an event up only if the event before had
another watch descriptor. It works like the version that looks it up for every event, as
long as no prune takes the row of the event being processed while the next event has the
same watch descriptor.
-/

set_option autoImplicit false
set_option relaxedAutoImplicit false

namespace DirWatcher.Watching

open Source Environment Foundation.Runs

variable {κ α : Type} {cfg : Config} {w after : Watcher} {event : Event} {rest : List Event}

/-! ### The version without a memo -/

/-- The lookup of the directory of an event, for every event. -/
def lookupParent (w : Watcher) (event : Event) : Watcher :=
  { w with
    parentDir := findWdDirectory w.table event.wd maxPathLen
    prevWd := event.wd }

/-- A step without a system call of the version that looks up every directory. -/
def plainInternal (cfg : Config) (w : Watcher) : Option Watcher :=
  match w.place, w.batch with
  | .nextEvent, event :: rest => some ((lookupParent { w with batch := rest } event).dispatch event)
  | _, _ => w.internal cfg

def plainStep (cfg : Config) (k : Kernel κ α) (s : System κ) (label : Label α) :
    Option (System κ) :=
  match label with
  | .internal => (plainInternal cfg s.watcher).map fun watcher ↦ { s with watcher }
  | label => s.step cfg k label

/-! ### The condition -/

/-- The watch descriptor of the event that comes next. -/
def nextWd (batch : List Event) : Option Wd := batch.head?.map Event.wd

/-- The second watch descriptor is in the list of the prune of the first. -/
def pruneTakes (table : Table) (wd other : Wd) : Bool :=
  match pruneWdDirectory table wd with
  | none => false
  | some (wds, _) => wds.contains other

/-- The watch descriptor with a row that `inotify_add_watch` answers with. -/
def reusedWd (w : Watcher) : Label α → Option Wd
  | .answer (.watch wd) =>
    match w.place with
    | .inotifyAddWatch _ _ => if wdDirectoryExists w.table wd then some wd else none
    | _ => none
  | _ => none

/-- The watch descriptor that `prune_moved_directory` finds for an event whose directory has
been looked up. -/
def movedWd (w : Watcher) (event : Event) : Option Wd :=
  if Departure event ∧ event.cookie ≠ w.prevCookie ∧ (eventPath w event).length < maxPathLen ∧
      findDirectoryWd w.table (eventPath w event) ≠ nullWd then
    some (findDirectoryWd w.table (eventPath w event))
  else none

/-- No prune takes the row of the event being processed when the next event has the same
watch descriptor. -/
structure KeepsMemo (s : System κ) (label : Label α) : Prop where
  reuses : ∀ wd ∈ reusedWd s.watcher label, pruneTakes s.watcher.table wd s.watcher.prevWd = true →
    nextWd s.watcher.batch ≠ some s.watcher.prevWd
  moves : ∀ event ∈ takenEvent s.watcher label, ∀ wd ∈ movedWd (s.watcher.findParent event) event,
    pruneTakes s.watcher.table wd event.wd = true → nextWd s.watcher.batch.tail ≠ some event.wd

instance (s : System κ) (label : Label α) : Decidable (KeepsMemo s label) :=
  decidable_of_iff ((∀ wd ∈ reusedWd s.watcher label,
      pruneTakes s.watcher.table wd s.watcher.prevWd = true →
        nextWd s.watcher.batch ≠ some s.watcher.prevWd) ∧
      ∀ event ∈ takenEvent s.watcher label, ∀ wd ∈ movedWd (s.watcher.findParent event) event,
        pruneTakes s.watcher.table wd event.wd = true →
          nextWd s.watcher.batch.tail ≠ some event.wd)
    ⟨fun ⟨hreuses, hmoves⟩ ↦ ⟨hreuses, hmoves⟩, fun ⟨hreuses, hmoves⟩ ↦ ⟨hreuses, hmoves⟩⟩

/-! ### What the memo holds -/

/-- If the next event has the watch descriptor of the memo, the memo holds what a lookup
would find, and no row for that watch descriptor is about to be inserted. -/
structure MemoFresh (w : Watcher) : Prop where
  parent : nextWd w.batch = some w.prevWd →
    w.parentDir = findWdDirectory w.table w.prevWd maxPathLen
  inserting : nextWd w.batch = some w.prevWd → ∀ row, Inserting w row → row.wd ≠ w.prevWd

/-- With a fresh memo the test on the watch descriptor makes no difference. -/
theorem MemoFresh.findParent_eq (hfresh : MemoFresh w) (hbatch : w.batch = event :: rest) :
    { w with batch := rest }.findParent event = lookupParent { w with batch := rest } event := by
  unfold Watcher.findParent lookupParent
  split_ifs with hwd
  · have hparent := hfresh.parent (by rw [nextWd, hbatch]; exact congrArg some hwd)
    dsimp only at hwd ⊢
    rw [hwd, ← hparent]
  · rfl

theorem MemoFresh.plainStep_eq {k : Kernel κ α} {s : System κ} (hfresh : MemoFresh s.watcher)
    (label : Label α) : plainStep cfg k s label = s.step cfg k label := by
  cases label with
  | internal =>
    refine congrArg (Option.map _) ?_
    unfold plainInternal
    split
    · next event rest hplace hbatch =>
      rw [← hfresh.findParent_eq hbatch]
      simp [Watcher.internal, hplace, hbatch]
    · rfl
  | act action => rfl
  | answer answer => rfl

/-! ### Lookups in a changed table -/

theorem findWdDirectory_filter {table : Table} {keep : Row → Bool} {wd : Wd} (maxLen : ℕ)
    (hkeep : ∀ row ∈ table, row.wd = wd → keep row = true) :
    findWdDirectory (table.filter keep) wd maxLen = findWdDirectory table wd maxLen := by
  unfold findWdDirectory
  rw [List.find?_filter]
  congr 1
  induction table with
  | nil => rfl
  | cons row table ih =>
    obtain ⟨hrow, htable⟩ := List.forall_mem_cons.mp hkeep
    by_cases hwd : row.wd = wd
    · simp [hwd, hrow hwd]
    · simpa [hwd] using ih htable

theorem findWdDirectory_of_insert {row : Row} {wd : Wd} (hstep : InsertStep w row after)
    (hne : row.wd ≠ wd) (maxLen : ℕ) :
    findWdDirectory after.table wd maxLen = findWdDirectory w.table wd maxLen := by
  cases hstep with
  | clashes => rfl
  | inserts hadd =>
    obtain ⟨-, rfl⟩ := addWdDirectory_eq_some_iff.mp hadd
    simp [findWdDirectory, List.find?_append, hne]

theorem findWdDirectory_of_prune {new : Option Row} {wd other : Wd}
    (hstep : PruneStep w wd new after) (hkept : pruneTakes w.table wd other = false) (maxLen : ℕ) :
    findWdDirectory after.table other maxLen = findWdDirectory w.table other maxLen := by
  cases hstep with
  | loops => rfl
  | @removes wds table hprune =>
    obtain ⟨walked, hwalk, heq⟩ := Option.map_eq_some_iff.mp hprune
    obtain ⟨rfl, rfl⟩ := Prod.mk.inj heq
    have hout : other ∉ walked := by simpa [pruneTakes, hprune] using hkept
    dsimp only
    rw [foldl_removeWdDirectory_eq]
    exact findWdDirectory_filter maxLen fun row _ hwd ↦ by simpa [hwd] using hout

/-! ### Steps -/

/-- A step that changes nothing that the memo depends on. -/
theorem MemoFresh.stay (hfresh : MemoFresh w) (hbatch : after.batch = w.batch)
    (hprevWd : after.prevWd = w.prevWd) (hparentDir : after.parentDir = w.parentDir)
    (hlookup : nextWd w.batch = some w.prevWd →
      findWdDirectory after.table w.prevWd maxPathLen = findWdDirectory w.table w.prevWd maxPathLen)
    (hinserting : ∀ row, Inserting after row → Inserting w row) : MemoFresh after where
  parent := by
    rw [hbatch, hprevWd, hparentDir]
    exact fun hnext ↦ (hfresh.parent hnext).trans (hlookup hnext).symm
  inserting := by
    rw [hbatch, hprevWd]
    exact fun hnext row hrow ↦ hfresh.inserting hnext row (hinserting row hrow)

/-- The branches of an event whose directory has been looked up. -/
theorem memoFresh_of_dispatch {p : Watcher} (hprevWd : p.prevWd = event.wd)
    (hparent : p.parentDir = findWdDirectory p.table event.wd maxPathLen)
    (hplace : ∀ row, ¬ Inserting p row)
    (hlast : event.has inIgnored = true → nextWd p.batch ≠ some event.wd)
    (hmoves : ∀ wd ∈ movedWd p event, pruneTakes p.table wd event.wd = true →
      nextWd p.batch ≠ some event.wd) : MemoFresh (p.dispatch event) := by
  have hfresh : MemoFresh p := by
    refine ⟨fun _ ↦ ?_, fun _ row hrow ↦ absurd hrow (hplace row)⟩
    rw [hparent, hprevWd]
  by_cases hcookie : event.branch = .movedFrom ∧ event.cookie = p.prevCookie
  · have hexits : p.dispatch event = p.exit 17 := by
      simp [Watcher.dispatch, Watcher.movedFrom, hcookie.1, hcookie.2]
    rw [hexits]
    exact hfresh.stay rfl rfl rfl (fun _ ↦ rfl) (by simp [Inserting, Watcher.exit])
  · have hstep := dispatchStep event p
    generalize p.dispatch event = after at hstep
    cases hstep with
    | forgets hbranch =>
      refine hfresh.stay rfl rfl rfl (fun hnext ↦ ?_) (by simp [Inserting])
      rw [hprevWd] at hnext
      exact absurd hnext (hlast (has_inIgnored_of_branch hbranch))
    | prunes cookie hbranch hisdir hlength hfind hprune =>
      have hmoved : movedWd p event = some (findDirectoryWd p.table (eventPath p event)) :=
        if_pos ⟨⟨hbranch, hisdir⟩, fun hsame ↦ hcookie ⟨hbranch, hsame⟩, hlength, hfind⟩
      refine hfresh.stay ((batch_of_prune hprune).trans rfl) ?_ ?_ (fun hnext ↦ ?_)
        fun row hrow ↦ ?_
      · cases hprune <;> rfl
      · cases hprune <;> rfl
      · rw [hprevWd] at hnext ⊢
        refine findWdDirectory_of_prune hprune ?_ maxPathLen
        by_contra htakes
        exact hmoves _ hmoved (by simpa using htakes) hnext
      · cases inserting_of_prune hprune hrow
    | _ => exact hfresh.stay rfl rfl rfl (fun _ ↦ rfl) (by simp [Inserting])

theorem nextWd_ne_of_positive {events : List Event} (hpositive : ∀ event ∈ events, 0 < event.wd) :
    nextWd events ≠ some nullWd := by
  cases events with
  | nil => simp [nextWd]
  | cons event rest =>
    have hne : event.wd ≠ nullWd := (hpositive event List.mem_cons_self).ne'
    simpa [nextWd] using hne

theorem MemoFresh.internal {s : System Inotify} (hfresh : MemoFresh s.watcher)
    (hordered : Ordered s) (hkeeps : KeepsMemo s (.internal : Label InotifyAct))
    (hinternal : s.watcher.internal cfg = some after) : MemoFresh after := by
  have hinserting := not_inserting_of_internal (internalStep hinternal)
  have hnone : ∀ row, Inserting after row → Inserting s.watcher row :=
    fun row hrow ↦ absurd hrow (hinserting row)
  cases internalStep hinternal with
  | @takesEvent event rest _ hplace hbatch hdispatch =>
    have hlookup : { s.watcher.findParent event with batch := rest } =
        lookupParent { s.watcher with batch := rest } event :=
      (findParent_withBatch _ _ _).symm.trans (hfresh.findParent_eq hbatch)
    have hafter : after = (lookupParent { s.watcher with batch := rest } event).dispatch event := by
      rw [← hfresh.findParent_eq hbatch]
      simpa [Watcher.internal, hplace, hbatch] using hinternal.symm
    have htaken : takenEvent s.watcher (.internal : Label InotifyAct) = some event := by
      simp [takenEvent, hplace, hbatch]
    rw [hafter]
    refine memoFresh_of_dispatch rfl rfl (by simp [Inserting, lookupParent, hplace])
      (fun hignored hnext ↦ ?_) fun wd hmoved htakes ↦ ?_
    · obtain ⟨next, hhead, hwd⟩ := Option.map_eq_some_iff.mp hnext
      have hnextMem : next ∈ rest ++ s.kernel.queue :=
        List.mem_append_left _ (List.mem_of_mem_head? hhead)
      have hlast := hordered.delivered.last
      rw [pending, hbatch, List.cons_append] at hlast
      exact (List.pairwise_cons.mp hlast).1 next hnextMem hignored hwd
    · rw [← hlookup] at hmoved
      have hkept := hkeeps.moves event htaken wd hmoved htakes
      rwa [hbatch, List.tail_cons] at hkept
  | insertsPruned hplace hinsert =>
    refine hfresh.stay (batch_of_insert hinsert) ?_ ?_ (fun hnext ↦ ?_) hnone
    · cases hinsert <;> rfl
    · cases hinsert <;> rfl
    · exact findWdDirectory_of_insert hinsert (hfresh.inserting hnext _ ⟨_, hplace⟩) maxPathLen
  | @returns _ frame =>
    cases frame <;> exact hfresh.stay rfl rfl rfl (fun _ ↦ rfl) hnone
  | reports =>
    rw [report_eq]
    exact hfresh.stay rfl rfl rfl (fun _ ↦ rfl) (by simp [Inserting])
  | _ => exact hfresh.stay rfl rfl rfl (fun _ ↦ rfl) hnone

/-- The prune of a row for which a new one is to be inserted. -/
theorem MemoFresh.prune (hfresh : MemoFresh w) {wd parentWd : Wd} {path : Bytes}
    (hkept : pruneTakes w.table wd w.prevWd = true → nextWd w.batch ≠ some w.prevWd)
    (hstep : PruneStep w wd (some ⟨wd, parentWd, path⟩) after) : MemoFresh after := by
  have hprevWd : after.prevWd = w.prevWd := by cases hstep <;> rfl
  have hparentDir : after.parentDir = w.parentDir := by cases hstep <;> rfl
  refine ⟨fun hnext ↦ ?_, fun hnext row hrow hwd ↦ ?_⟩
  · rw [batch_of_prune hstep, hprevWd] at hnext
    rw [hprevWd, hparentDir, hfresh.parent hnext]
    refine (findWdDirectory_of_prune hstep ?_ maxPathLen).symm
    by_contra htakes
    exact hkept (by simpa using htakes) hnext
  · rw [batch_of_prune hstep, hprevWd] at hnext
    obtain rfl := Option.some_inj.mp (inserting_of_prune hstep hrow)
    refine hkept ?_ hnext
    rw [hprevWd] at hwd
    rw [← hwd]
    dsimp only
    obtain ⟨wds, hplace⟩ := hrow
    cases hstep with
    | loops => cases hplace
    | removes hprune =>
      have hself := ((pruneWdDirectory_spec hprune).1 wd).mpr .refl
      simpa [pruneTakes, hprune] using hself

theorem MemoFresh.act {s after : System Inotify} {action : InotifyAct}
    (hfresh : MemoFresh s.watcher)
    (hstep : s.step cfg inotify (.act action) = some after) : MemoFresh after.watcher := by
  rw [(System.step_act hstep).2]
  exact hfresh

/-- The next event is one of a watch descriptor that has been used. -/
theorem Ordered.used_of_nextWd {s : System Inotify} (hordered : Ordered s) {wd : Wd}
    (hnext : nextWd s.watcher.batch = some wd) : wd ∈ s.kernel.used := by
  obtain ⟨event, hhead, rfl⟩ := Option.map_eq_some_iff.mp hnext
  exact hordered.delivered.used event (List.mem_append_left _ (List.mem_of_mem_head? hhead))

theorem MemoFresh.answer {s after : System Inotify} {answer : Answer} (hfresh : MemoFresh s.watcher)
    (hordered : Ordered s) (hpaired : Paired s)
    (hkeeps : KeepsMemo s (.answer answer : Label InotifyAct))
    (hstep : s.step cfg inotify (.answer answer) = some after) : MemoFresh after.watcher := by
  obtain ⟨call, hcall, hserve, hresume⟩ := System.step_answer hstep
  have hanswer := answerStep hordered.rowsUsed.table hcall (serveStep hserve) (resumeStep hresume)
  obtain ⟨watcher, kernel⟩ := after
  have hinserted : ∀ row : Row, row.wd ∉ s.kernel.used → InsertStep s.watcher row watcher →
      MemoFresh watcher := by
    intro row hnew hinsert
    refine hfresh.stay (batch_of_insert hinsert) ?_ ?_ (fun hnext ↦ ?_)
      fun other hother ↦ absurd hother (not_inserting_of_insert hinsert other)
    · cases hinsert <;> rfl
    · cases hinsert <;> rfl
    · refine findWdDirectory_of_insert hinsert (fun hwd ↦ hnew ?_) maxPathLen
      exact hwd ▸ hordered.used_of_nextWd hnext
  cases hanswer with
  | @reads events rest hplace hqueue =>
    have hpositive : ∀ event ∈ events, 0 < event.wd := by
      intro event hevent
      refine hordered.delivered.positive _ (hordered.delivered.used event ?_)
      rw [pending, hqueue]
      exact List.mem_append_right _ (List.mem_append_left _ hevent)
    have hnever := nextWd_ne_of_positive hpositive
    exact ⟨fun hnext ↦ absurd hnext hnever, fun hnext ↦ absurd hnext hnever⟩
  | @reuses parentWd path wd _ hplace hlive hexists hprune =>
    have hreused : reusedWd s.watcher (.answer (.watch wd) : Label InotifyAct) = some wd := by
      simp [reusedWd, hplace, wdDirectoryExists_iff.mpr hexists]
    exact hfresh.prune (hkeeps.reuses wd hreused) hprune
  | addsAgain hplace hlive hnew hinsert =>
    obtain ⟨row, hrow, hwd⟩ := hpaired.exists_row (by rw [hplace]; rfl) (by simp [Stopped, hplace])
      hlive
    exact absurd hwd (hnew row hrow)
  | adds hplace hpositive hnew hinsert => exact hinserted _ hnew hinsert
  | kills hplace =>
    exact hfresh.stay rfl rfl rfl (fun _ ↦ rfl) fun row ↦ inserting_of_removes hplace
  | killed hplace =>
    exact hfresh.stay rfl rfl rfl (fun _ ↦ rfl) fun row ↦ inserting_of_removes hplace
  | _ => exact hfresh.stay rfl rfl rfl (fun _ ↦ rfl) (by simp [Inserting])

/-! ### Runs -/

/-- What holds in every state of a run in which the memo is kept. -/
structure Memoised (s : System Inotify) : Prop where
  ordered : Ordered s
  paired : Paired s
  fresh : MemoFresh s.watcher

theorem Memoised.step {s after : System Inotify} {label : Label InotifyAct} (hmemoised : Memoised s)
    (hkeeps : KeepsMemo s label) (hstep : s.step cfg inotify label = some after) :
    Memoised after := by
  refine ⟨hmemoised.ordered.step hstep, hmemoised.paired.step hmemoised.ordered hstep, ?_⟩
  cases label with
  | act action => exact hmemoised.fresh.act hstep
  | internal =>
    exact hmemoised.fresh.internal hmemoised.ordered hkeeps (System.step_internal hstep).1
  | answer answer => exact hmemoised.fresh.answer hmemoised.ordered hmemoised.paired hkeeps hstep

/-- From every state in which the watcher polls, the steps for any events and answers lead
to the same state with the memo as with a lookup for every event, if at each of them no prune
takes the row of the event being processed while the next event has the same watch
descriptor. -/
theorem memoised_lookups_agree (cfg : Config) {s : System Inotify}
    (hreaches : Reaches (System.step cfg inotify) (System.start cfg .start) s)
    (hplace : s.watcher.place = .poll) (labels : List (Label InotifyAct)) :
    runChecked (plainStep cfg inotify) (fun s label ↦ decide (KeepsMemo s label)) s labels =
      runChecked (System.step cfg inotify) (fun s label ↦ decide (KeepsMemo s label)) s labels := by
  obtain ⟨hordered, hpaired⟩ := ordered_paired_of_reaches hreaches
  have hbatch : s.watcher.batch = [] := hordered.control.idle (Or.inl hplace)
  have hfresh : MemoFresh s.watcher := by constructor <;> simp [hbatch, nextWd]
  refine runChecked_congr Memoised ⟨hordered, hpaired, hfresh⟩ ?_ ?_ labels
  · intro state label next hmemoised hpass hnext
    exact hmemoised.step (of_decide_eq_true hpass) hnext
  · intro state label hmemoised
    exact hmemoised.fresh.plainStep_eq label

/-- Two events of the directory `/t`, the second one without a lookup. -/
theorem memoised_lookups_agree_twice :
    ∃ s : System Inotify, Reaches (System.step ⟨[literal "/t"], [], by decide⟩ inotify)
        (System.start ⟨[literal "/t"], [], by decide⟩ .start) s ∧ s.watcher.place = .poll ∧
      (runChecked (plainStep ⟨[literal "/t"], [], by decide⟩ inotify)
        (fun s label ↦ decide (KeepsMemo s label)) s
        [.act (.emit ⟨1, inCloseWrite, 0, literal "f"⟩), .act (.emit ⟨1, inDelete, 0, literal "f"⟩),
          .answer (.events [⟨1, inCloseWrite, 0, literal "f"⟩, ⟨1, inDelete, 0, literal "f"⟩]),
          .internal, .internal, .internal, .internal]).map (fun s ↦ s.watcher.reports) =
        some [literal "/t", literal "/t"] := by
  have hrun : (run (System.step ⟨[literal "/t"], [], by decide⟩ inotify)
      (System.start ⟨[literal "/t"], [], by decide⟩ .start)
      [.internal, .internal, .answer (.watch 1), .answer .done, .answer (.names []), .internal,
        .internal, .internal]).map
      (fun s ↦ (s.watcher.place, (runChecked (System.step ⟨[literal "/t"], [], by decide⟩ inotify)
        (fun s label ↦ decide (KeepsMemo s label)) s
        [.act (.emit ⟨1, inCloseWrite, 0, literal "f"⟩), .act (.emit ⟨1, inDelete, 0, literal "f"⟩),
          .answer (.events [⟨1, inCloseWrite, 0, literal "f"⟩, ⟨1, inDelete, 0, literal "f"⟩]),
          .internal, .internal, .internal, .internal]).map fun s ↦ s.watcher.reports)) =
      some (.poll, some [literal "/t", literal "/t"]) := by decide
  obtain ⟨s, hreaches, hseen⟩ := exists_reaches_of_run hrun
  simp only [Prod.mk.injEq] at hseen
  refine ⟨s, hreaches, hseen.1, ?_⟩
  rw [memoised_lookups_agree _ hreaches hseen.1]
  exact hseen.2

/-- Before the watcher reads its events, `/t/a` has made a directory `x` and closed a file,
`x` has been moved out, and `/t/a` itself has been moved to the place of `x` in a new `/t/a`.
For the event of `x` the row of the watch of the event is pruned and inserted with the path
`/t/a/x`. The next event has the same watch descriptor and is reported under `/t/a`. -/
theorem memoised_lookups_agree_fails :
    ∃ s : System FileSystem, ∃ labels : List (Label FsAct),
      Reaches (System.step ⟨[literal "/t"], [], by decide⟩ fileSystem)
        (System.start ⟨[literal "/t"], [], by decide⟩ (.start oneSubDir)) s ∧
      s.watcher.place = .poll ∧
      (run (System.step ⟨[literal "/t"], [], by decide⟩ fileSystem) s labels).map
        (fun s ↦ s.watcher.reports) = some [literal "/t/a", literal "/t/a"] ∧
      (run (plainStep ⟨[literal "/t"], [], by decide⟩ fileSystem) s labels).map
        (fun s ↦ s.watcher.reports) = some [literal "/t/a", literal "/t/a/x"] := by
  have hrun : (run (System.step ⟨[literal "/t"], [], by decide⟩ fileSystem)
      (System.start ⟨[literal "/t"], [], by decide⟩ (.start oneSubDir))
      (startsOneSubDir ++ [.act (.mkdir true 2 (literal "x")),
        .act (.fileEvent ⟨2, inCloseWrite, 0, literal "f"⟩),
        .act (.rename ⟨2, literal "x", 3⟩ 1 (literal "b") 7),
        .act (.rename ⟨1, literal "a", 2⟩ 1 (literal "c") 8), .act (.mkdir true 1 (literal "a")),
        .act (.rename ⟨1, literal "c", 2⟩ 4 (literal "x") 9)])).map
      (fun s ↦ (s.watcher.place,
        (run (System.step ⟨[literal "/t"], [], by decide⟩ fileSystem) s
          [.answer (.events [⟨2, createDirMask, 0, literal "x"⟩,
            ⟨2, inCloseWrite, 0, literal "f"⟩]),
            .internal, .internal, .answer (.watch 2), .answer .done, .internal, .answer .done,
            .answer (.names []), .internal, .internal, .internal, .internal,
            .internal]).map fun s ↦ s.watcher.reports,
        (run (plainStep ⟨[literal "/t"], [], by decide⟩ fileSystem) s
          [.answer (.events [⟨2, createDirMask, 0, literal "x"⟩,
            ⟨2, inCloseWrite, 0, literal "f"⟩]),
            .internal, .internal, .answer (.watch 2), .answer .done, .internal, .answer .done,
            .answer (.names []), .internal, .internal, .internal, .internal,
            .internal]).map fun s ↦ s.watcher.reports)) =
      some (.poll, some [literal "/t/a", literal "/t/a"],
        some [literal "/t/a", literal "/t/a/x"]) := by decide
  obtain ⟨s, hreaches, hseen⟩ := exists_reaches_of_run hrun
  simp only [Prod.mk.injEq] at hseen
  exact ⟨s, _, hreaches, hseen.1, hseen.2.1, hseen.2.2⟩

end DirWatcher.Watching
