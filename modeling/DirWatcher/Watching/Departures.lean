import DirWatcher.Watching.Acyclic
import DirWatcher.Watching.Agreement

/-!
What is left of a directory that has been moved away. In an orderly run the rows that
lie below a directory by path are those that are linked below it, and so a prune takes
all of them.
-/

set_option autoImplicit false
set_option relaxedAutoImplicit false

namespace DirWatcher.Watching

open Source Environment Foundation.SeparatedPaths Foundation.Runs

/-- The steps with a file system are orderly. -/
def OrderlyStep {κ α : Type} (s : System κ) (label : Label α) : Prop := Orderly s.watcher label

instance {κ α : Type} (s : System κ) (label : Label α) : Decidable (OrderlyStep s label) := by
  unfold OrderlyStep
  infer_instance

theorem orderlyStep_implies : Implies OrderlyStep OrderlyStep where
  act := fun s action ↦ ⟨by simp [insertedRow], by simp [takenEvent]⟩
  internal := fun s horderly ↦ ⟨horderly.inserts, horderly.events⟩
  answer := by
    intro s answer horderly
    refine ⟨fun row hrow ↦ horderly.inserts row ?_, by simp [takenEvent]⟩
    cases answer <;> exact hrow

/-! ### Pruned watches -/

/-- The watches on the list of a prune have no rows, and one that a row is inserted for
again is dead when it comes off the list. -/
structure Pruning (s : System Inotify) : Prop where
  table : ∀ row ∈ s.watcher.table, row.wd ∉ removing s.watcher.place
  inserting : ∀ wds row, s.watcher.place = .removePrunedWds wds (some row) →
    row.wd ∈ wds ∨ row.wd ∉ s.kernel.live

theorem pruning_start (cfg : Config) : Pruning (System.start cfg .start) := by
  constructor <;> simp [System.start, Watcher.start]

theorem pruning_of_place {s : System Inotify} (hplace : removing s.watcher.place = [])
    (hinserting : ∀ row, ¬ Inserting s.watcher row) : Pruning s :=
  ⟨fun _ _ ↦ by simp [hplace], fun wds row hrow ↦ absurd ⟨wds, hrow⟩ (hinserting row)⟩

theorem Pruning.act {s : System Inotify} {action : InotifyAct} {kernel : Inotify}
    (hpruning : Pruning s) (hact : inotify.act s.kernel action = some kernel) :
    Pruning { s with kernel } := by
  refine ⟨hpruning.table, fun wds row hplace ↦ (hpruning.inserting wds row hplace).imp id ?_⟩
  cases action with
  | emit event =>
    simp only [inotify] at hact
    split_ifs at hact
    cases hact
    exact id
  | die wd =>
    simp only [inotify] at hact
    split_ifs at hact
    cases hact
    exact fun hdead hlive ↦ hdead (List.mem_of_mem_filter hlive)

theorem pruning_of_prune {w after : Watcher} {k : Inotify} {wd : Wd} {new : Option Row}
    (hnew : ∀ row ∈ new, row.wd = wd) (hstep : PruneStep w wd new after) : Pruning ⟨after, k⟩ := by
  cases hstep with
  | loops => exact pruning_of_place rfl (by simp [Inserting])
  | @removes wds table hprune =>
    obtain ⟨hwds, hmem, -⟩ := pruneWdDirectory_spec hprune
    refine ⟨fun row hrow ↦ ((hmem row).mp hrow).2, fun others row hplace ↦ Or.inl ?_⟩
    simp only [Place.removePrunedWds.injEq] at hplace
    obtain ⟨rfl, hrow⟩ := hplace
    rw [hnew row hrow]
    exact (hwds wd).mpr Relation.ReflTransGen.refl

theorem pruning_of_internal {cfg : Config} {s : System Inotify} {after : Watcher}
    (hstep : InternalStep cfg s.watcher after) : Pruning { s with watcher := after } := by
  have hinserting := not_inserting_of_internal hstep
  cases hstep with
  | takesEvent _ _ hdispatch =>
    cases hdispatch with
    | prunes _ _ _ _ _ hprune => exact pruning_of_prune (by simp) hprune
    | _ => exact pruning_of_place rfl hinserting
  | insertsPruned _ hinsert => cases hinsert <;> exact pruning_of_place rfl hinserting
  | @returns result frame =>
    refine pruning_of_place ?_ hinserting
    cases frame with
    | created =>
      simp only [Watcher.returnTo]
      split_ifs <;> rfl
    | _ => rfl
  | reports =>
    rw [report_eq] at hinserting ⊢
    exact pruning_of_place rfl hinserting
  | _ => exact pruning_of_place rfl hinserting

theorem Pruning.removes {s : System Inotify} (hpruning : Pruning s) {kernel : Inotify} {wd : Wd}
    {rest : List Wd} {row : Option Row}
    (hplace : s.watcher.place = .removePrunedWds (wd :: rest) row)
    (hlive : ∀ other ∈ kernel.live, other ∈ s.kernel.live ∧ other ≠ wd) :
    Pruning ⟨{ s.watcher with place := .removePrunedWds rest row }, kernel⟩ := by
  have htable := hpruning.table
  rw [hplace] at htable
  refine ⟨fun old hold hmem ↦ htable old hold (List.mem_cons_of_mem _ hmem), ?_⟩
  intro wds new hnew
  simp only [Place.removePrunedWds.injEq] at hnew
  obtain ⟨rfl, rfl⟩ := hnew
  rcases hpruning.inserting _ _ hplace with hmem | hdead
  · rcases List.mem_cons.mp hmem with rfl | hrest
    · exact Or.inr fun hnewLive ↦ (hlive _ hnewLive).2 rfl
    · exact Or.inl hrest
  · exact Or.inr fun hnewLive ↦ hdead (hlive _ hnewLive).1

theorem Pruning.answer {s after : System Inotify} (hpruning : Pruning s) {answer : Answer}
    (hstep : AnswerStep s.watcher s.kernel answer after.watcher after.kernel) : Pruning after := by
  obtain ⟨watcher, kernel⟩ := after
  cases hstep with
  | reuses _ _ _ hprune => exact pruning_of_prune (by rintro row ⟨⟩; rfl) hprune
  | addsAgain _ _ _ hinsert | adds _ _ _ hinsert =>
    cases hinsert <;> exact pruning_of_place rfl (by simp [Inserting])
  | kills hplace =>
    refine hpruning.removes hplace fun other hother ↦ ?_
    simpa [Inotify.kill] using hother
  | killed hplace hdead =>
    exact hpruning.removes hplace fun other hother ↦ ⟨hother, fun heq ↦ hdead (heq ▸ hother)⟩
  | _ => exact pruning_of_place rfl (by simp [Inserting])

theorem Pruning.step {cfg : Config} {s after : System Inotify} {label : Label InotifyAct}
    (hpruning : Pruning s) (hordered : Ordered s) (hstep : s.step cfg inotify label = some after) :
    Pruning after := by
  cases label with
  | act action =>
    obtain ⟨kernel, hact, rfl⟩ := System.exists_kernel hstep
    exact hpruning.act hact
  | internal =>
    obtain ⟨watcher, hinternal, rfl⟩ := System.exists_watcher hstep
    exact pruning_of_internal (internalStep hinternal)
  | answer answer =>
    obtain ⟨call, hcall, hserve, hresume⟩ := System.step_answer hstep
    exact hpruning.answer
      (answerStep hordered.rowsUsed.table hcall (serveStep hserve) (resumeStep hresume))

/-! ### All runs and orderly runs -/

/-- What is known of a state of any run. -/
structure Steady (s : System Inotify) : Prop where
  ordered : Ordered s
  paired : Paired s
  pruning : Pruning s

theorem Steady.step {cfg : Config} {s after : System Inotify} {label : Label InotifyAct}
    (hsteady : Steady s) (hstep : s.step cfg inotify label = some after) : Steady after :=
  ⟨hsteady.ordered.step hstep, hsteady.paired.step hsteady.ordered hstep,
    hsteady.pruning.step hsteady.ordered hstep⟩

theorem steady_start (cfg : Config) : Steady (System.start cfg .start) :=
  ⟨ordered_start cfg, paired_start cfg, pruning_start cfg⟩

/-- What is known of a state of an orderly run. -/
structure Regular (s : System Inotify) : Prop extends Steady s where
  agreeing : Agreeing s

theorem Regular.step {cfg : Config} {s after : System Inotify} {label : Label InotifyAct}
    (hregular : Regular s) (horderly : OrderlyStep s label)
    (hstep : s.step cfg inotify label = some after) : Regular after :=
  ⟨hregular.toSteady.step hstep,
    hregular.agreeing.step hregular.ordered hregular.paired horderly hstep⟩

theorem regular_start (cfg : Config) : Regular (System.start cfg .start) :=
  ⟨steady_start cfg, agreeing_start cfg⟩

theorem regular_of_reachesWhen {cfg : Config} {s : System Inotify}
    (hreaches : ReachesWhen (System.step cfg inotify) OrderlyStep (System.start cfg .start) s) :
    Regular s :=
  hreaches.invariant Regular (regular_start cfg) fun _ _ _ hregular horderly hstep ↦
    hregular.step horderly hstep

/-! ### The rest of the work on an event -/

/-- The pruned watches are removed, and then the event is reported. -/
def Finishing (w : Watcher) : Prop :=
  (∃ wds, w.place = .removePrunedWds wds none) ∨ w.place = .report

theorem not_stopped_of_finishing {w : Watcher} (hfinishing : Finishing w) : ¬ Stopped w := by
  rintro ⟨stop, hstop⟩
  rcases hfinishing with ⟨wds, hplace⟩ | hplace <;> rw [hplace] at hstop <;> cases hstop

theorem Finishing.internal {cfg : Config} {w after : Watcher} (hfinishing : Finishing w)
    (hstep : InternalStep cfg w after) : after.table = w.table ∧ after.parentDir = w.parentDir := by
  have hplace : (∃ wds, w.place = .removePrunedWds wds none) ∨ w.place = .report := hfinishing
  cases hstep with
  | finishesPrune => exact ⟨rfl, rfl⟩
  | reports =>
    rw [report_eq]
    exact ⟨rfl, rfl⟩
  | startsPolling hother => rcases hother with ⟨hother, -⟩ | ⟨hother, -⟩ <;> simp [hother] at hplace
  | readsLine hother | takesEvent hother | refuses hother | requests hother | insertsPruned hother
  | finishesSubDirs hother | descends hother | overflows hother | returns hother =>
    simp [hother] at hplace

theorem Finishing.resume {w after : Watcher} {answer : Answer} (hfinishing : Finishing w)
    (hstep : ResumeStep w answer after) :
    after.table = w.table ∧ after.parentDir = w.parentDir := by
  have hplace : (∃ wds, w.place = .removePrunedWds wds none) ∨ w.place = .report := hfinishing
  cases hstep with
  | exits => exact ⟨rfl, rfl⟩
  | removes => exact ⟨rfl, rfl⟩
  | reads _ hother => simp [hother] at hplace
  | reuses hother | adds hother | opens hother => simp [hother] at hplace
  | missed _ hother | opensNothing _ hother | lists _ hother => simp [hother] at hplace

theorem Finishing.step {κ α : Type} {k : Kernel κ α} {cfg : Config} {s after : System κ}
    {label : Label α} (hfinishing : Finishing s.watcher) (hstep : s.step cfg k label = some after) :
    after.watcher.table = s.watcher.table ∧ after.watcher.parentDir = s.watcher.parentDir := by
  cases label with
  | act action => simp [(System.step_act hstep).2]
  | internal => exact hfinishing.internal (internalStep (System.step_internal hstep).1)
  | answer answer =>
    obtain ⟨call, -, -, hresume⟩ := System.step_answer hstep
    exact hfinishing.resume (resumeStep hresume)

/-- Until the next event is taken, the table does not change. -/
theorem table_of_finishing {κ α : Type} {k : Kernel κ α} {cfg : Config} {s after : System κ}
    (hruns : ReachesWhen (System.step cfg k) (fun s _ ↦ Finishing s.watcher) s after) :
    after.watcher.table = s.watcher.table ∧ after.watcher.parentDir = s.watcher.parentDir ∧
      (Stopped s.watcher → Stopped after.watcher) := by
  refine hruns.invariant (fun x ↦ x.watcher.table = s.watcher.table ∧
    x.watcher.parentDir = s.watcher.parentDir ∧ (Stopped s.watcher → Stopped x.watcher))
    ⟨rfl, rfl, id⟩ ?_
  rintro x label next ⟨htable, hparentDir, hstopped⟩ hfinishing hstep
  obtain ⟨htable', hparentDir'⟩ := Finishing.step hfinishing hstep
  refine ⟨htable'.trans htable, hparentDir'.trans hparentDir, fun hstart ↦ ?_⟩
  exact absurd (hstopped hstart) (not_stopped_of_finishing hfinishing)

/-! ### The event of a move -/

theorem dispatch_of_takenEvent {α : Type} {cfg : Config} {w after : Watcher} {event : Event}
    (htaken : takenEvent w (.internal : Label α) = some event) (hstep : InternalStep cfg w after) :
    ∃ rest, w.place = .nextEvent ∧ w.batch = event :: rest ∧
      DispatchStep event ({ w with batch := rest }.findParent event) after := by
  obtain ⟨rest, hplace, hbatch⟩ := batch_of_takenEvent htaken
  refine ⟨rest, hplace, hbatch, ?_⟩
  cases hstep with
  | takesEvent _ hother hdispatch =>
    rw [hbatch, List.cons.injEq] at hother
    obtain ⟨rfl, rfl⟩ := hother
    exact hdispatch
  | startsPolling hother => simp [hplace, hbatch] at hother
  | readsLine hother | refuses hother | requests hother | insertsPruned hother
  | finishesPrune hother | reports hother | finishesSubDirs hother | descends hother
  | overflows hother | returns hother => simp [hplace] at hother

theorem table_subset_of_insert {w after : Watcher} {row : Row} (hstep : InsertStep w row after) :
    w.table ⊆ after.table := by
  cases hstep with
  | clashes => exact List.Subset.refl _
  | inserts hadd =>
    obtain ⟨-, rfl⟩ := addWdDirectory_eq_some_iff.mp hadd
    exact List.subset_append_left _ _

/-- A step without a system call leaves the batch alone and removes no row, or it
processes an event. -/
theorem batch_or_dispatch_of_internal {cfg : Config} {w after : Watcher}
    (hstep : InternalStep cfg w after) :
    after.batch = w.batch ∧ w.table ⊆ after.table ∨
      ∃ event rest, w.place = .nextEvent ∧ w.batch = event :: rest ∧
        DispatchStep event ({ w with batch := rest }.findParent event) after := by
  cases hstep with
  | takesEvent hplace hbatch hdispatch => exact Or.inr ⟨_, _, hplace, hbatch, hdispatch⟩
  | insertsPruned _ hinsert =>
    exact Or.inl ⟨batch_of_insert hinsert, table_subset_of_insert hinsert⟩
  | @returns _ frame => cases frame <;> exact Or.inl ⟨rfl, List.Subset.refl _⟩
  | reports =>
    rw [report_eq]
    exact Or.inl ⟨rfl, List.Subset.refl _⟩
  | _ => exact Or.inl ⟨rfl, List.Subset.refl _⟩

theorem parentDir_of_dispatch {w after : Watcher} {event : Event}
    (hstep : DispatchStep event w after) : after.parentDir = w.parentDir := by
  cases hstep with
  | prunes _ _ _ _ _ hprune => cases hprune <;> rfl
  | _ => rfl

theorem prevWd_of_dispatch {w after : Watcher} {event : Event}
    (hstep : DispatchStep event w after) : after.prevWd = w.prevWd := by
  cases hstep with
  | prunes _ _ _ _ _ hprune => cases hprune <;> rfl
  | _ => rfl

/-- A child that has the name of the event is pruned with it. -/
theorem Regular.not_left_of_departure {s : System Inotify} (hregular : Regular s) {event : Event}
    {rest : List Event} {after : Watcher} (hplace : s.watcher.place = .nextEvent)
    (hbatch : s.watcher.batch = event :: rest) (hdeparture : Departure event)
    (hstep : DispatchStep event ({ s.watcher with batch := rest }.findParent event) after)
    (hruns : ¬ Stopped after) {row : Row} (hrow : row ∈ s.watcher.table)
    (hwd : event.wd = row.parentWd) {path : Bytes} (hpath : row.path = joinPath path event.name) :
    row ∉ after.table := by
  intro hleft
  have hmem : event ∈ pending s := by
    rw [pending, hbatch]
    exact List.mem_append_left _ List.mem_cons_self
  have hdelivered := hregular.ordered.delivered
  have hlooked := hregular.agreeing.looked hregular.ordered hplace hbatch
  obtain ⟨parent, hparent, hof⟩ : ∃ parent ∈ s.watcher.table, ParentOf parent row := by
    refine (hregular.agreeing.rooted row hrow).resolve_left fun hroot ↦ ?_
    have hpositive := hdelivered.positive _ (hdelivered.used event hmem)
    rw [hwd, hroot.link] at hpositive
    exact lt_irrefl _ hpositive
  obtain ⟨name, hvalid, hjoin⟩ := hof.path
  have hname := hdelivered.names event hmem hdeparture.2
  obtain ⟨rfl, -⟩ := join_inj hname.slash hvalid.slash (hpath.symm.trans hjoin)
  have hparentDir := hlooked.path parent (by rw [findParent_table]; exact hparent)
    (hof.link.symm.trans hwd.symm)
  refine hlooked.departed ?_ ?_ hdeparture hparentDir hstep hruns row hleft (Or.inl hpath)
  · rw [findParent_table]
    exact hregular.agreeing.rooted
  · rw [findParent_table]
    exact hregular.ordered.keys.keyed

/-- In an orderly run the rows below a recorded directory by path are linked below its
row. So after the event that a directory has been moved from `path`, and until the
next event is taken, no recorded path is that of the directory or lies below it. -/
theorem subtree_moves_away (cfg : Config) (tree : DirTree) {s : System FileSystem}
    (hreaches : ReachesWhen (System.step cfg fileSystem) OrderlyStep
      (System.start cfg (.start tree)) s) :
    (∀ top ∈ s.watcher.table, ∀ row ∈ s.watcher.table, AbovePath top.path row.path →
      BelowWd s.watcher.table top.wd row.wd) ∧
    ∀ event next after path, takenEvent s.watcher (.internal : Label FsAct) = some event →
      Departure event → s.step cfg fileSystem .internal = some next →
      ReachesWhen (System.step cfg fileSystem) (fun s _ ↦ Finishing s.watcher) next after →
      ¬ Stopped after.watcher → after.watcher.parentDir = some path →
      ∀ row ∈ after.watcher.table, ¬ AtOrBelow (joinPath path event.name) row := by
  have hregular := regular_of_reachesWhen (reaches_inotify orderlyStep_implies hreaches)
  have hrooted : Rooted s.watcher.table := hregular.agreeing.rooted
  have hkeyed : Keyed s.watcher.table := hregular.ordered.keys.keyed
  refine ⟨fun top htop row hrow ↦ hrooted.belowWd_of_above hkeyed htop hrow, ?_⟩
  intro event next after path htaken hdeparture hstep hrest hruns hpath
  obtain ⟨htable, hparentDir, hstopped⟩ := table_of_finishing hrest
  obtain ⟨rest, hplace, hbatch, hdispatch⟩ :=
    dispatch_of_takenEvent htaken (internalStep (System.step_internal hstep).1)
  have hlooked := hregular.agreeing.looked hregular.ordered hplace hbatch
  rw [htable]
  refine hlooked.departed ?_ ?_ hdeparture ?_ hdispatch (fun hstop ↦ hruns (hstopped hstop))
  · rw [findParent_table]
    exact hrooted
  · rw [findParent_table]
    exact hkeyed
  · exact (parentDir_of_dispatch hdispatch).symm.trans (hparentDir.symm.trans hpath)

/-- `/t/a` is moved out of `/t`. -/
theorem subtree_moves_away_subDir :
    ∃ s next, ReachesWhen (System.step ⟨[literal "/t"], [], by decide⟩ fileSystem) OrderlyStep
        (System.start ⟨[literal "/t"], [], by decide⟩ (.start oneSubDir)) s ∧
      s.step ⟨[literal "/t"], [], by decide⟩ fileSystem .internal = some next ∧
      next.watcher.place = .removePrunedWds [2] none ∧
      ∀ row ∈ next.watcher.table, ¬ AtOrBelow (literal "/t/a") row := by
  have hrun : (runChecked (System.step ⟨[literal "/t"], [], by decide⟩ fileSystem)
      (fun s label ↦ decide (OrderlyStep s label))
      (System.start ⟨[literal "/t"], [], by decide⟩ (.start oneSubDir))
      (startsOneSubDir ++ [.act (.rename ⟨1, literal "a", 2⟩ 0 (literal "out") 5),
        .answer (.events [⟨1, FileSystem.movedFromDirMask, 5, literal "a"⟩])])).map
      (fun s : System FileSystem ↦ (takenEvent s.watcher (.internal : Label FsAct),
        (s.step ⟨[literal "/t"], [], by decide⟩ fileSystem .internal).map fun next ↦
          (next.watcher.place, next.watcher.parentDir))) =
      some (some ⟨1, FileSystem.movedFromDirMask, 5, literal "a"⟩,
        some (.removePrunedWds [2] none, some (literal "/t"))) := by decide
  obtain ⟨s, hreaches, hseen⟩ := exists_reachesWhen_of_run hrun
  simp only [Prod.mk.injEq] at hseen
  obtain ⟨next, hnext, hplace⟩ := Option.map_eq_some_iff.mp hseen.2
  simp only [Prod.mk.injEq] at hplace
  refine ⟨s, next, hreaches, hnext, hplace.1, ?_⟩
  exact (subtree_moves_away _ _ hreaches).2 _ next next (literal "/t") hseen.1 (by decide) hnext
    Relation.ReflTransGen.refl (by simp [Stopped, hplace.1]) hplace.2

/-- The directories `/t`, `/t/x` and `/t/x/z`. -/
def nestedDirs : DirTree where
  entries := [⟨rootDir, literal "t", 1⟩, ⟨1, literal "x", 2⟩, ⟨2, literal "z", 3⟩]
  next := 4
  cwd := rootDir
  unreadable := []
  slots := by decide
  dirs := by decide
  names := by decide
  made := by decide
  root := by decide
  cwdMade := by decide

/-- The steps in which `main` watches `/t/x/z`, and then `/t` with `/t/x`, up to `poll`. -/
def startsNestedDirs : List (Label FsAct) :=
  [.internal, .internal, .answer (.watch 1), .answer .done, .answer (.names []), .internal,
    .internal, .internal, .internal, .answer (.watch 2), .answer .done,
    .answer (.names [literal "x"]), .internal, .internal, .answer (.watch 3), .answer .done,
    .answer (.names [literal "z"]), .internal, .internal, .internal, .internal, .internal,
    .internal, .internal, .internal]

/-- The config file has `/t/x/z` before `/t`, so that the row of `/t/x/z` has no
parent. It stays when `/t/x` is moved away. -/
theorem subtree_moves_away_fails :
    ∃ s next, Reaches (System.step ⟨[literal "/t/x/z", literal "/t"], [], by decide⟩ fileSystem)
        (System.start ⟨[literal "/t/x/z", literal "/t"], [], by decide⟩ (.start nestedDirs)) s ∧
      takenEvent s.watcher (.internal : Label FsAct) =
        some ⟨2, FileSystem.movedFromDirMask, 5, literal "x"⟩ ∧
      Departure ⟨2, FileSystem.movedFromDirMask, 5, literal "x"⟩ ∧
      s.step ⟨[literal "/t/x/z", literal "/t"], [], by decide⟩ fileSystem .internal = some next ∧
      next.watcher.place = .removePrunedWds [3] none ∧
      next.watcher.parentDir = some (literal "/t") ∧
      next.watcher.table = [⟨1, 0, literal "/t/x/z"⟩, ⟨2, 0, literal "/t"⟩] ∧
      ∃ row ∈ next.watcher.table, AtOrBelow (joinPath (literal "/t") (literal "x")) row := by
  have hrun : (run (System.step ⟨[literal "/t/x/z", literal "/t"], [], by decide⟩ fileSystem)
      (System.start ⟨[literal "/t/x/z", literal "/t"], [], by decide⟩ (.start nestedDirs))
      (startsNestedDirs ++ [.act (.rename ⟨1, literal "x", 2⟩ 0 (literal "out") 5),
        .answer (.events [⟨2, FileSystem.movedFromDirMask, 5, literal "x"⟩])])).map
      (fun s : System FileSystem ↦ (decide (takenEvent s.watcher (.internal : Label FsAct) =
          some ⟨2, FileSystem.movedFromDirMask, 5, literal "x"⟩),
        (s.step ⟨[literal "/t/x/z", literal "/t"], [], by decide⟩ fileSystem .internal).map
          fun next ↦ decide (next.watcher.place = .removePrunedWds [3] none ∧
            next.watcher.parentDir = some (literal "/t") ∧
            next.watcher.table = [⟨1, 0, literal "/t/x/z"⟩, ⟨2, 0, literal "/t"⟩]))) =
      some (true, some true) := by decide
  obtain ⟨s, hreaches, hseen⟩ := exists_reaches_of_run hrun
  simp only [Prod.mk.injEq, decide_eq_true_eq] at hseen
  obtain ⟨next, hnext, hafter⟩ := Option.map_eq_some_iff.mp hseen.2
  obtain ⟨hplace, hparent, htable⟩ := of_decide_eq_true hafter
  refine ⟨s, next, hreaches, hseen.1, by decide, hnext, hplace, hparent, htable, ?_⟩
  rw [htable]
  exact ⟨⟨1, 0, literal "/t/x/z"⟩, List.mem_cons_self, Or.inr (by decide)⟩

end DirWatcher.Watching
