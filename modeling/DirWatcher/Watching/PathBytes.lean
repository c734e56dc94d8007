import DirWatcher.Environment.Interface
import DirWatcher.Watching.Prunes
import DirWatcher.Watching.Steps

/-!
The bytes of the paths that the watcher records and reports. They come from the config file
and from the names that the kernel gives, with slashes between them and, where a directory
is missing, the text for `NULL`. What is true of all these bytes is true of the paths.
-/

set_option autoImplicit false
set_option relaxedAutoImplicit false

namespace DirWatcher.Watching

open Source Environment Foundation.Runs

variable {good : UInt8 → Prop} {cfg : Config} {path name : Bytes} {w after : Watcher}

/-- All bytes of a text are good. -/
def Spelled (good : UInt8 → Prop) (text : Bytes) : Prop := ∀ byte ∈ text, good byte

instance [DecidablePred good] (text : Bytes) : Decidable (Spelled good text) :=
  List.decidableBAll good text

/-- The bytes that the program itself puts in a path are good. -/
structure Joins (good : UInt8 → Prop) : Prop where
  slash : good slash
  null : Spelled good (Watcher.printed none)

theorem Spelled.join (hjoins : Joins good) (hpath : Spelled good path) (hname : Spelled good name) :
    Spelled good (joinPath path name) := by
  intro byte hbyte
  rcases List.mem_append.mp hbyte with hpathByte | hrest
  · exact hpath byte hpathByte
  · rcases List.mem_cons.mp hrest with rfl | hnameByte
    · exact hjoins.slash
    · exact hname byte hnameByte

theorem Spelled.take (hpath : Spelled good path) (count : ℕ) : Spelled good (path.take count) :=
  fun byte hbyte ↦ hpath byte (List.mem_of_mem_take hbyte)

/-! ### The texts of a state -/

/-- The paths and names at a place in the code. -/
def placeTexts : Place → List Bytes
  | .addWatch _ path => [path]
  | .inotifyAddWatch _ path => [path]
  | .removePrunedWds _ (some row) => [row.path]
  | .opendir _ path => [path]
  | .readdir _ path => [path]
  | .subDirs _ path names => path :: names
  | _ => []

def frameTexts : Frame → List Bytes
  | .subDirs _ path names => path :: names
  | _ => []

/-- All bytes of the paths and names of the watcher are good. -/
structure WellSpelled (good : UInt8 → Prop) (w : Watcher) : Prop where
  lines : ∀ line ∈ w.lines, Spelled good line
  table : ∀ row ∈ w.table, Spelled good row.path
  batch : ∀ event ∈ w.batch, Spelled good event.name
  parentDir : ∀ directory ∈ w.parentDir, Spelled good directory
  reports : ∀ directory ∈ w.reports, Spelled good directory
  place : ∀ text ∈ placeTexts w.place, Spelled good text
  stack : ∀ frame ∈ w.stack, ∀ text ∈ frameTexts frame, Spelled good text

theorem wellSpelled_start (hlines : ∀ line ∈ cfg.topLevelPaths, Spelled good line) :
    WellSpelled good (Watcher.start cfg) where
  lines := hlines
  table := by simp [Watcher.start]
  batch := by simp [Watcher.start]
  parentDir := by simp [Watcher.start]
  reports := by simp [Watcher.start]
  place := by simp [Watcher.start, placeTexts]
  stack := by simp [Watcher.start]

/-! ### Steps -/

/-- A step that removes rows at most and goes to a place whose texts are known. -/
theorem WellSpelled.move (hspelled : WellSpelled good w) {table : Table} {place : Place}
    {cookie : UInt32} (htable : table ⊆ w.table)
    (hplace : ∀ text ∈ placeTexts place, Spelled good text) :
    WellSpelled good { w with table, place, prevCookie := cookie } :=
  ⟨hspelled.lines, fun row hrow ↦ hspelled.table row (htable hrow), hspelled.batch,
    hspelled.parentDir, hspelled.reports, hplace, hspelled.stack⟩

/-- A step to a place without a text. -/
theorem WellSpelled.rest (hspelled : WellSpelled good w) {place : Place} {cookie : UInt32}
    (hplace : placeTexts place = []) :
    WellSpelled good { w with place, prevCookie := cookie } :=
  hspelled.move (List.Subset.refl _) (by simp [hplace])

theorem WellSpelled.insert (hspelled : WellSpelled good w) {row : Row}
    (hrow : Spelled good row.path) (hstep : InsertStep w row after) : WellSpelled good after := by
  cases hstep with
  | clashes => exact hspelled.rest rfl
  | inserts hadd =>
    obtain ⟨-, rfl⟩ := addWdDirectory_eq_some_iff.mp hadd
    refine ⟨hspelled.lines, fun old hold ↦ ?_, hspelled.batch, hspelled.parentDir,
      hspelled.reports, by simpa [placeTexts] using hrow, hspelled.stack⟩
    rcases List.mem_append.mp hold with hmem | hnew
    · exact hspelled.table old hmem
    · rwa [List.mem_singleton.mp hnew]

theorem WellSpelled.prune (hspelled : WellSpelled good w) {wd : Wd} {row : Option Row}
    (hrow : ∀ new ∈ row, Spelled good new.path) (hstep : PruneStep w wd row after) :
    WellSpelled good after := by
  cases hstep with
  | loops => exact hspelled.rest rfl
  | removes hprune =>
    refine hspelled.move (pruneWdDirectory_spec hprune).2.2.subset ?_
    cases row with
    | none => simp [placeTexts]
    | some new => simpa [placeTexts] using hrow new rfl

theorem WellSpelled.findParent (hspelled : WellSpelled good w) (event : Event) :
    WellSpelled good (w.findParent event) := by
  unfold Watcher.findParent
  split_ifs
  · exact hspelled
  · refine ⟨hspelled.lines, hspelled.table, hspelled.batch, fun directory hdirectory ↦ ?_,
      hspelled.reports, hspelled.place, hspelled.stack⟩
    obtain ⟨row, hrow, -, rfl⟩ := exists_of_findWdDirectory_eq_some hdirectory
    exact (hspelled.table row hrow).take _

/-- The path that is joined for an event. -/
theorem WellSpelled.eventPath (hspelled : WellSpelled good w) (hjoins : Joins good) {event : Event}
    (hname : Spelled good event.name) : Spelled good (eventPath w event) := by
  refine Spelled.join hjoins ?_ hname
  cases hparent : w.parentDir with
  | none => exact hjoins.null
  | some directory => exact hspelled.parentDir directory hparent

theorem WellSpelled.dispatch (hspelled : WellSpelled good w) (hjoins : Joins good) {event : Event}
    (hname : Spelled good event.name) (hstep : DispatchStep event w after) :
    WellSpelled good after := by
  cases hstep with
  | forgets => exact hspelled.move removeWdDirectory_sublist.subset (by simp [placeTexts])
  | watches cookie frame hframe =>
    have hpath := (hspelled.eventPath hjoins hname).take (maxPathLen - 1)
    refine ⟨hspelled.lines, hspelled.table, hspelled.batch, hspelled.parentDir, hspelled.reports,
      by simpa [placeTexts] using hpath, fun other hother ↦ ?_⟩
    rcases List.mem_cons.mp hother with rfl | hold
    · rcases hframe with ⟨-, rfl⟩ | ⟨-, rfl⟩ <;> simp [frameTexts]
    · exact hspelled.stack other hold
  | prunes cookie _ _ _ _ hprune =>
    have hcookie : WellSpelled good { w with prevCookie := cookie } :=
      hspelled.move (List.Subset.refl _) hspelled.place
    exact hcookie.prune (by simp) hprune
  | _ => exact hspelled.rest rfl

theorem WellSpelled.internal (hspelled : WellSpelled good w) (hjoins : Joins good)
    (hstep : InternalStep cfg w after) : WellSpelled good after := by
  have hplaced := hspelled.place
  cases hstep with
  | @readsLine line rest _ hlines =>
    have hread := hspelled.lines
    rw [hlines] at hread
    refine ⟨fun other hother ↦ hread other (List.mem_cons_of_mem _ hother), hspelled.table,
      hspelled.batch, hspelled.parentDir, hspelled.reports,
      by simpa [placeTexts] using hread line List.mem_cons_self, fun frame hframe ↦ ?_⟩
    rcases List.mem_cons.mp hframe with rfl | hold
    · simp [frameTexts]
    · exact hspelled.stack frame hold
  | @takesEvent event rest _ _ hbatch hdispatch =>
    have hevents := hspelled.batch
    rw [hbatch] at hevents
    rw [findParent_withBatch] at hdispatch
    have hfound := hspelled.findParent event
    have htaken : WellSpelled good { w.findParent event with batch := rest } :=
      ⟨hfound.lines, hfound.table, fun other hother ↦ hevents other (List.mem_cons_of_mem _ hother),
        hfound.parentDir, hfound.reports, hfound.place, hfound.stack⟩
    exact htaken.dispatch hjoins (hevents event List.mem_cons_self) hdispatch
  | requests hplace =>
    rw [hplace] at hplaced
    exact hspelled.move (List.Subset.refl _) hplaced
  | insertsPruned hplace hinsert =>
    rw [hplace] at hplaced
    exact hspelled.insert (hplaced _ List.mem_cons_self) hinsert
  | @descends wd path name rest hplace =>
    rw [hplace] at hplaced
    have hpath := hplaced path List.mem_cons_self
    refine ⟨hspelled.lines, hspelled.table, hspelled.batch, hspelled.parentDir, hspelled.reports,
      ?_, fun frame hframe text htext ↦ ?_⟩
    · simpa [placeTexts] using hpath.join hjoins (hplaced name (by simp [placeTexts]))
    · rcases List.mem_cons.mp hframe with rfl | hold
      · rcases List.mem_cons.mp htext with rfl | hname
        · exact hpath
        · exact hplaced text (List.mem_cons_of_mem _ (List.mem_cons_of_mem _ hname))
      · exact hspelled.stack frame hold text htext
  | @returns result frame rest _ hstack =>
    have hframes := hspelled.stack
    rw [hstack] at hframes
    have hpopped : WellSpelled good { w with stack := rest } :=
      ⟨hspelled.lines, hspelled.table, hspelled.batch, hspelled.parentDir, hspelled.reports,
        hspelled.place, fun other hother ↦ hframes other (List.mem_cons_of_mem _ hother)⟩
    cases frame with
    | subDirs wd path names =>
      exact hpopped.move (List.Subset.refl _) (hframes _ List.mem_cons_self)
    | topLevel =>
      exact ⟨hpopped.lines, hpopped.table, hpopped.batch, hpopped.parentDir, hpopped.reports,
        by simp [Watcher.returnTo, placeTexts], hpopped.stack⟩
    | created =>
      refine hpopped.rest ?_
      split_ifs <;> rfl
    | movedTo => exact hpopped.rest rfl
  | reports =>
    rw [report_eq]
    refine ⟨hspelled.lines, hspelled.table, hspelled.batch, hspelled.parentDir,
      fun other hother ↦ ?_, by simp [placeTexts], hspelled.stack⟩
    rcases List.mem_append.mp hother with hold | hnew
    · exact hspelled.reports other hold
    · exact hspelled.parentDir other (Option.mem_toList.mp hnew)
  | _ => exact hspelled.rest rfl

/-- All bytes of the names in an answer of the kernel are good. -/
def NamesSpelled (good : UInt8 → Prop) : Answer → Prop
  | .names names => ∀ name ∈ names, Spelled good name
  | .events events => ∀ event ∈ events, Spelled good event.name
  | _ => True

instance [DecidablePred good] (answer : Answer) : Decidable (NamesSpelled good answer) :=
  match answer with
  | .names names => inferInstanceAs (Decidable (∀ name ∈ names, Spelled good name))
  | .events events => inferInstanceAs (Decidable (∀ event ∈ events, Spelled good event.name))
  | .done => .isTrue trivial
  | .watch _ => .isTrue trivial
  | .error _ => .isTrue trivial

theorem WellSpelled.resume (hspelled : WellSpelled good w) {answer : Answer}
    (hnames : NamesSpelled good answer) (hstep : ResumeStep w answer after) :
    WellSpelled good after := by
  have hplaced := hspelled.place
  cases hstep with
  | reads events =>
    exact ⟨hspelled.lines, hspelled.table, hnames, by simp [Watcher.startBatch], hspelled.reports,
      by simp [Watcher.startBatch, placeTexts], hspelled.stack⟩
  | reuses hplace _ hprune =>
    rw [hplace] at hplaced
    refine hspelled.prune (fun new hnew ↦ ?_) hprune
    rw [← Option.some_inj.mp hnew]
    exact hplaced _ List.mem_cons_self
  | adds hplace _ hinsert =>
    rw [hplace] at hplaced
    refine hspelled.insert ?_ hinsert
    exact hplaced _ List.mem_cons_self
  | @removes _ _ row _ hplace =>
    rw [hplace] at hplaced
    refine hspelled.move (List.Subset.refl _) ?_
    cases row with
    | none => simp [placeTexts]
    | some row => exact hplaced
  | opens hplace =>
    rw [hplace] at hplaced
    exact hspelled.move (List.Subset.refl _) hplaced
  | opensNothing _ hplace =>
    rw [hplace] at hplaced
    exact hspelled.move (List.Subset.refl _) hplaced
  | lists names hplace =>
    rw [hplace] at hplaced
    refine hspelled.move (List.Subset.refl _) fun text htext ↦ ?_
    rcases List.mem_cons.mp htext with rfl | hname
    · exact hplaced _ List.mem_cons_self
    · exact hnames text hname
  | _ => exact hspelled.rest rfl

/-! ### Runs -/

section Runs

variable {κ α : Type}

def LabelSpelled (good : UInt8 → Prop) : Label α → Prop
  | .act _ => True
  | .internal => True
  | .answer answer => NamesSpelled good answer

instance [DecidablePred good] (label : Label α) : Decidable (LabelSpelled good label) :=
  match label with
  | .act _ => .isTrue trivial
  | .internal => .isTrue trivial
  | .answer answer => inferInstanceAs (Decidable (NamesSpelled good answer))

theorem WellSpelled.step {k : Kernel κ α} {s next : System κ} {label : Label α}
    (hspelled : WellSpelled good s.watcher) (hjoins : Joins good)
    (hlabel : LabelSpelled good label) (hstep : s.step cfg k label = some next) :
    WellSpelled good next.watcher := by
  cases label with
  | act action => exact (System.step_act hstep).2 ▸ hspelled
  | internal => exact hspelled.internal hjoins (internalStep (System.step_internal hstep).1)
  | answer answer =>
    obtain ⟨-, -, -, hresume⟩ := System.step_answer hstep
    exact hspelled.resume hlabel (resumeStep hresume)

/-- In a run over a config file and names of a kernel that are made of good bytes, so are
the paths that are recorded or have been reported. -/
theorem wellSpelled_of_reaches (hjoins : Joins good)
    (hlines : ∀ line ∈ cfg.topLevelPaths, Spelled good line) {k : Kernel κ α} {kernel : κ}
    {s : System κ}
    (hreaches : ReachesWhen (System.step cfg k) (fun _ label ↦ LabelSpelled good label)
      (System.start cfg kernel) s) : WellSpelled good s.watcher :=
  hreaches.invariant (fun s ↦ WellSpelled good s.watcher) (wellSpelled_start hlines)
    fun _ _ _ hspelled hlabel hstep ↦ hspelled.step hjoins hlabel hstep

end Runs

end DirWatcher.Watching
