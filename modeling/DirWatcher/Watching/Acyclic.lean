import DirWatcher.Environment.Refinement
import DirWatcher.Watching.Pairing

/-!
The parent links stay acyclic, and every prune ends, as long as the kernel does not
answer `add_watch(parent_wd, path)` with `parent_wd` itself. A row is inserted for a
watch descriptor that no row names as its parent: it is new, or all that was below
it has just been pruned. So the row is a leaf, and the only cycle it can close is a
link to itself.
-/

set_option autoImplicit false
set_option relaxedAutoImplicit false

namespace DirWatcher.Watching

open Source Environment Foundation.ParentLinks Foundation.Runs

/-! ### Links of a table -/

variable {table : Table} {row : Row}

/-- No row names the row as its parent, itself included. -/
def Leaf (table : Table) (row : Row) : Prop :=
  row.wd ≠ row.parentWd ∧ ∀ old ∈ table, old.parentWd ≠ row.wd

theorem link_append_singleton {parent child : Wd}
    (hlink : Link (findChildren (table ++ [row])) parent child) :
    Link (findChildren table) parent child ∨ (parent = row.parentWd ∧ child = row.wd) := by
  obtain ⟨found, hfound, hwd, hparent⟩ := mem_findChildren.mp hlink
  rcases List.mem_append.mp hfound with hold | hnew
  · exact Or.inl (mem_findChildren.mpr ⟨found, hold, hwd, hparent⟩)
  · obtain rfl := List.mem_singleton.mp hnew
    exact Or.inr ⟨hparent.symm, hwd.symm⟩

theorem Leaf.not_link (hleaf : Leaf table row) (child : Wd) :
    ¬ Link (findChildren (table ++ [row])) row.wd child := by
  intro hlink
  rcases link_append_singleton hlink with hold | ⟨hself, -⟩
  · obtain ⟨old, hold, -, hparent⟩ := mem_findChildren.mp hold
    exact hleaf.2 old hold hparent
  · exact hleaf.1 hself

/-- A walk over the links with a new leaf is a walk over the old ones, unless it ends
in the leaf. -/
theorem Leaf.transGen (hleaf : Leaf table row) {first last : Wd}
    (hwalk : Relation.TransGen (Link (findChildren (table ++ [row]))) first last) :
    Relation.TransGen (Link (findChildren table)) first last ∨ last = row.wd := by
  induction hwalk with
  | single hlink =>
    rcases link_append_singleton hlink with hold | ⟨-, hnew⟩
    · exact Or.inl (.single hold)
    · exact Or.inr hnew
  | tail _ hlink ih =>
    rcases ih with hwalk | rfl
    · rcases link_append_singleton hlink with hold | ⟨-, hnew⟩
      · exact Or.inl (hwalk.tail hold)
      · exact Or.inr hnew
    · exact absurd hlink (hleaf.not_link _)

theorem Leaf.acyclic (hleaf : Leaf table row) (hacyclic : ∀ wd, ¬ OnWdCycle table wd) (wd : Wd) :
    ¬ OnWdCycle (table ++ [row]) wd := by
  intro hcycle
  rcases hleaf.transGen hcycle with hold | rfl
  · exact hacyclic wd hold
  · obtain ⟨child, hlink, -⟩ := Relation.TransGen.head'_iff.mp hcycle
    exact hleaf.not_link child hlink

theorem acyclic_of_subset {after : Table} (hsub : after ⊆ table)
    (hacyclic : ∀ wd, ¬ OnWdCycle table wd) (wd : Wd) : ¬ OnWdCycle after wd := by
  intro hcycle
  refine hacyclic wd (Relation.TransGen.mono ?_ _ _ hcycle)
  intro parent child hlink
  obtain ⟨row, hrow, hwd, hparent⟩ := mem_findChildren.mp hlink
  exact mem_findChildren.mpr ⟨row, hsub hrow, hwd, hparent⟩

/-! ### The invariant -/

/-- The watch descriptors at a place that rows will name as their parent. -/
def parentsAt : Place → List Wd
  | .addWatch parentWd _ => [parentWd]
  | .inotifyAddWatch parentWd _ => [parentWd]
  | .removePrunedWds _ (some row) => [row.parentWd, row.wd]
  | .opendir wd _ => [wd]
  | .readdir wd _ => [wd]
  | .subDirs wd _ _ => [wd]
  | _ => []

structure Linked (s : System Inotify) : Prop where
  acyclic : ∀ wd, ¬ OnWdCycle s.watcher.table wd
  rows : ∀ row ∈ s.watcher.table, Known s.kernel row.parentWd
  place : ∀ wd ∈ parentsAt s.watcher.place, Known s.kernel wd
  stack : ∀ wd path names, .subDirs wd path names ∈ s.watcher.stack → Known s.kernel wd
  inserting : ∀ row, Inserting s.watcher row → Leaf s.watcher.table row
  ends : s.watcher.place ≠ .stopped .loops

theorem linked_start (cfg : Config) : Linked (System.start cfg .start) where
  acyclic := by
    intro wd hcycle
    obtain ⟨child, hlink, -⟩ := Relation.TransGen.head'_iff.mp hcycle
    obtain ⟨row, hrow, -⟩ := mem_findChildren.mp hlink
    simp [System.start, Watcher.start] at hrow
  rows := by simp [System.start, Watcher.start]
  place := by simp [System.start, Watcher.start, parentsAt]
  stack := by simp [System.start, Watcher.start]
  inserting := by simp [Inserting, System.start, Watcher.start]
  ends := by simp [System.start, Watcher.start]

/-- A step that leaves the table alone or takes rows from it. -/
theorem Linked.stay {s : System Inotify} (hlinked : Linked s) {after : Watcher}
    (htable : after.table ⊆ s.watcher.table)
    (hplace : ∀ wd ∈ parentsAt after.place, Known s.kernel wd)
    (hstack : ∀ wd path names, .subDirs wd path names ∈ after.stack → Known s.kernel wd)
    (hinserting : ∀ row, Inserting after row → Leaf after.table row)
    (hends : after.place ≠ .stopped .loops) : Linked { s with watcher := after } where
  acyclic := acyclic_of_subset htable hlinked.acyclic
  rows := fun row hrow ↦ hlinked.rows row (htable hrow)
  place := hplace
  stack := hstack
  inserting := hinserting
  ends := hends

theorem Linked.prune {s : System Inotify} (hlinked : Linked s) (hkeyed : Keyed s.watcher.table)
    {w after : Watcher} (htable : w.table = s.watcher.table) (hstack : w.stack = s.watcher.stack)
    {wd : Wd} {new : Option Row}
    (hnew : ∀ row ∈ new, wd = row.wd ∧ row.wd ≠ row.parentWd ∧
      Known s.kernel row.parentWd ∧ Known s.kernel row.wd)
    (hstep : PruneStep w wd new after) : Linked { s with watcher := after } := by
  cases hstep with
  | loops hprune =>
    obtain ⟨wds, left, hends⟩ := hkeyed.exists_prune (hlinked.acyclic wd)
    rw [htable, hends] at hprune
    cases hprune
  | @removes wds left hprune =>
    rw [htable] at hprune
    obtain ⟨hwds, hmem, hsub⟩ := pruneWdDirectory_spec hprune
    refine hlinked.stay hsub.subset ?_ (by rw [hstack]; exact hlinked.stack) ?_ (by simp)
    · cases new with
      | none => simp [parentsAt]
      | some row =>
        obtain ⟨-, -, hparent, hwd⟩ := hnew row rfl
        simpa [parentsAt] using ⟨hparent, hwd⟩
    · rintro row ⟨_, hplace⟩
      simp only [Place.removePrunedWds.injEq] at hplace
      obtain ⟨rfl, hne, -⟩ := hnew row hplace.2
      refine ⟨hne, fun old hold hparent ↦ ?_⟩
      obtain ⟨hold, hleft⟩ := (hmem old).mp hold
      refine hleft ((hwds old.wd).mpr (Relation.ReflTransGen.single ?_))
      exact mem_findChildren.mpr ⟨old, hold, rfl, hparent⟩

theorem linked_of_insert {s : System Inotify} {kernel : Inotify} (hlinked : Linked s)
    (hused : ∀ wd, Known s.kernel wd → Known kernel wd) {after : Watcher} {new : Row}
    (hleaf : Leaf s.watcher.table new) (hparent : Known s.kernel new.parentWd)
    (hwd : Known kernel new.wd) (hstep : InsertStep s.watcher new after) :
    Linked ⟨after, kernel⟩ := by
  cases hstep with
  | clashes =>
    exact ⟨hlinked.acyclic, fun row hrow ↦ hused _ (hlinked.rows row hrow), by simp [parentsAt],
      fun wd path names hframe ↦ hused _ (hlinked.stack wd path names hframe),
      by simp [Inserting], by simp⟩
  | inserts hadd =>
    obtain ⟨-, rfl⟩ := addWdDirectory_eq_some_iff.mp hadd
    refine ⟨hleaf.acyclic hlinked.acyclic, fun row hrow ↦ ?_, by simpa [parentsAt] using hwd,
      fun wd path names hframe ↦ hused _ (hlinked.stack wd path names hframe),
      by simp [Inserting], by simp⟩
    rcases List.mem_append.mp hrow with hold | hnew
    · exact hused _ (hlinked.rows row hold)
    · rw [List.mem_singleton.mp hnew]
      exact hused _ hparent

theorem Linked.act {s : System Inotify} {action : InotifyAct} {kernel : Inotify}
    (hlinked : Linked s) (hact : inotify.act s.kernel action = some kernel) :
    Linked { s with kernel } := by
  have hused : kernel.used = s.kernel.used := by
    cases action <;> simp only [inotify] at hact <;> split_ifs at hact <;> cases hact <;> rfl
  have hknown : ∀ wd, Known s.kernel wd → Known kernel wd := fun wd hwd ↦ by
    rwa [Known, hused]
  exact ⟨hlinked.acyclic, fun row hrow ↦ hknown _ (hlinked.rows row hrow),
    fun wd hwd ↦ hknown _ (hlinked.place wd hwd),
    fun wd path names hframe ↦ hknown _ (hlinked.stack wd path names hframe),
    hlinked.inserting, hlinked.ends⟩

theorem Linked.dispatch {s : System Inotify} (hlinked : Linked s) (hordered : Ordered s)
    {event : Event} (hevent : event ∈ pending s) {w after : Watcher}
    (htable : w.table = s.watcher.table) (hstack : w.stack = s.watcher.stack)
    (hstep : DispatchStep event w after) : Linked { s with watcher := after } := by
  have hframes : ∀ wd path names, .subDirs wd path names ∈ w.stack → Known s.kernel wd := by
    rw [hstack]
    exact hlinked.stack
  have hsame : w.table ⊆ s.watcher.table := by rw [htable]; exact List.Subset.refl _
  cases hstep with
  | exits | skips | reports | movesUnrecorded =>
    exact hlinked.stay hsame (by simp [parentsAt]) hframes (by simp [Inserting]) (by simp)
  | forgets =>
    refine hlinked.stay ?_ (by simp [parentsAt]) hframes (by simp [Inserting]) (by simp)
    exact List.Subset.trans removeWdDirectory_sublist.subset hsame
  | watches cookie frame hframe =>
    refine hlinked.stay hsame ?_ ?_ (by simp [Inserting]) (by simp)
    · simpa [parentsAt, Known] using Or.inr (hordered.delivered.used event hevent)
    · intro wd path names hmem
      rcases List.mem_cons.mp hmem with rfl | hold
      · simp at hframe
      · exact hframes wd path names hold
  | prunes cookie _ _ _ _ hprune =>
    refine Linked.prune hlinked hordered.keys.keyed ?_ ?_ ?_ hprune
    · exact htable
    · exact hstack
    · simp

theorem Linked.internal {cfg : Config} {s : System Inotify} {after : Watcher} (hlinked : Linked s)
    (hordered : Ordered s) (hstep : InternalStep cfg s.watcher after) :
    Linked { s with watcher := after } := by
  have hinserting : ∀ row, Inserting after row → Leaf after.table row := fun row hrow ↦
    absurd hrow (not_inserting_of_internal hstep row)
  have hplaces := hlinked.place
  cases hstep with
  | readsLine =>
    refine hlinked.stay (List.Subset.refl _) (by simp [parentsAt, Known]) ?_ hinserting (by simp)
    exact fun wd path names hmem ↦ hlinked.stack wd path names (by simpa using hmem)
  | takesEvent _ hbatch hdispatch =>
    refine Linked.dispatch hlinked hordered ?_ ?_ ?_ hdispatch
    · rw [pending, hbatch]
      exact List.mem_append_left _ List.mem_cons_self
    · exact findParent_table _ _
    · exact findParent_stack _ _
  | requests hplace =>
    rw [hplace] at hplaces
    exact hlinked.stay (List.Subset.refl _) hplaces hlinked.stack hinserting (by simp)
  | insertsPruned hplace hinsert =>
    rw [hplace] at hplaces
    exact linked_of_insert hlinked (fun _ hwd ↦ hwd) (hlinked.inserting _ ⟨_, hplace⟩)
      (hplaces _ (by simp [parentsAt])) (hplaces _ (by simp [parentsAt])) hinsert
  | @descends wd path name rest hplace =>
    rw [hplace] at hplaces
    refine hlinked.stay (List.Subset.refl _) hplaces ?_ hinserting (by simp)
    intro other otherPath names hmem
    rcases List.mem_cons.mp hmem with heq | hold
    · cases heq
      exact hplaces _ (by simp [parentsAt])
    · exact hlinked.stack other otherPath names hold
  | @returns result frame rest hplace hstack =>
    have hrest : ∀ wd path names, .subDirs wd path names ∈ rest → Known s.kernel wd :=
      fun wd path names hmem ↦ hlinked.stack wd path names (hstack ▸ List.mem_cons_of_mem _ hmem)
    cases frame with
    | subDirs wd path names =>
      refine hlinked.stay (List.Subset.refl _) ?_ hrest hinserting (by simp [Watcher.returnTo])
      have hwd := hlinked.stack wd path names (hstack ▸ List.mem_cons_self)
      simpa [Watcher.returnTo, parentsAt] using hwd
    | created =>
      by_cases hzero : result = 0 <;>
        exact hlinked.stay (List.Subset.refl _) (by simp [Watcher.returnTo, hzero, parentsAt])
          hrest hinserting (by simp [Watcher.returnTo, hzero])
    | topLevel | movedTo =>
      exact hlinked.stay (List.Subset.refl _) (by simp [Watcher.returnTo, parentsAt]) hrest
        hinserting (by simp [Watcher.returnTo])
  | reports =>
    rw [report_eq] at hinserting ⊢
    exact hlinked.stay (List.Subset.refl _) (by simp [parentsAt]) hlinked.stack hinserting
      (by simp)
  | overflows =>
    exact hlinked.stay (List.Subset.refl _) (by simp [Watcher.exit, parentsAt]) hlinked.stack
      hinserting (by simp [Watcher.exit])
  | startsPolling | refuses | finishesPrune | finishesSubDirs =>
    exact hlinked.stay (List.Subset.refl _) (by simp [parentsAt]) hlinked.stack hinserting (by simp)

/-- The parent of the row for which a watch is asked. -/
def parentAsked : Place → Option Wd
  | .inotifyAddWatch parentWd _ => some parentWd
  | _ => none

/-- The answer to `inotify_add_watch` is not the parent the new row is to have. -/
def NotOwnParent {κ α : Type} (s : System κ) (label : Label α) : Prop :=
  ∀ parentWd ∈ parentAsked s.watcher.place, label ≠ .answer (.watch parentWd)

instance {κ α : Type} [DecidableEq α] (s : System κ) (label : Label α) :
    Decidable (NotOwnParent s label) := by
  unfold NotOwnParent
  infer_instance

/-- One turn of `remove_pruned_wds`. -/
theorem Linked.removes {s : System Inotify} (hlinked : Linked s) {kernel : Inotify} {wd : Wd}
    {rest : List Wd} {row : Option Row}
    (hplace : s.watcher.place = .removePrunedWds (wd :: rest) row)
    (hused : kernel.used = s.kernel.used) :
    Linked ⟨{ s.watcher with place := .removePrunedWds rest row }, kernel⟩ := by
  have hknown : ∀ other, Known s.kernel other → Known kernel other := fun other hother ↦ by
    rwa [Known, hused]
  have hplaces := hlinked.place
  rw [hplace] at hplaces
  refine ⟨hlinked.acyclic, fun old hold ↦ hknown _ (hlinked.rows old hold), fun other hother ↦ ?_,
    fun other path names hframe ↦ hknown _ (hlinked.stack other path names hframe), ?_, by simp⟩
  · refine hknown other (hplaces other ?_)
    cases row <;> exact hother
  · exact fun new hinserting ↦ hlinked.inserting new (inserting_of_removes hplace hinserting)

theorem Linked.answer {s after : System Inotify} (hlinked : Linked s) (hordered : Ordered s)
    (hpaired : Paired s) {answer : Answer}
    (hparent : ∀ parentWd path, s.watcher.place = .inotifyAddWatch parentWd path →
      answer ≠ .watch parentWd)
    (hstep : AnswerStep s.watcher s.kernel answer after.watcher after.kernel) : Linked after := by
  obtain ⟨watcher, kernel⟩ := after
  have hplaces := hlinked.place
  have hsame : s.watcher.table ⊆ s.watcher.table := List.Subset.refl _
  cases hstep with
  | reads =>
    exact ⟨hlinked.acyclic, hlinked.rows, by simp [parentsAt], hlinked.stack,
      by simp [Inserting], by simp⟩
  | exits =>
    exact hlinked.stay hsame (by simp [parentsAt]) hlinked.stack (by simp [Inserting]) (by simp)
  | @reuses parentWd path wd _ hplace hlive _ hprune =>
    rw [hplace] at hplaces
    have hne : wd ≠ parentWd := by
      rintro rfl
      exact hparent wd path hplace rfl
    refine hlinked.prune hordered.keys.keyed rfl rfl ?_ hprune
    rintro row ⟨⟩
    exact ⟨rfl, hne, hplaces _ (by simp [parentsAt]),
      Or.inr (hordered.delivered.liveUsed wd hlive)⟩
  | addsAgain hplace hlive hnew => exact absurd hnew (hpaired.not_new hplace hlive)
  | @adds parentWd path wd _ hplace hpositive hfresh hinsert =>
    rw [hplace] at hplaces
    have hknown : ∀ other, Known s.kernel other → other ≠ wd := by
      rintro other (rfl | hother) rfl
      · exact lt_irrefl _ hpositive
      · exact hfresh hother
    have hparentKnown : Known s.kernel parentWd := hplaces _ (by simp [parentsAt])
    refine linked_of_insert hlinked (fun other hother ↦ hother.imp id (List.mem_cons_of_mem _))
      ⟨(hknown _ hparentKnown).symm, fun old hold ↦ hknown _ (hlinked.rows old hold)⟩
      hparentKnown (Or.inr List.mem_cons_self) hinsert
  | missed =>
    exact hlinked.stay hsame (by simp [parentsAt]) hlinked.stack (by simp [Inserting]) (by simp)
  | kills hplace => exact hlinked.removes hplace rfl
  | killed hplace => exact hlinked.removes hplace rfl
  | opens hplace | opensNothing _ hplace | lists hplace =>
    rw [hplace] at hplaces
    exact hlinked.stay hsame hplaces hlinked.stack (by simp [Inserting]) (by simp)

theorem linked_of_reachesWhen {cfg : Config} {s : System Inotify}
    (hreaches : ReachesWhen (System.step cfg inotify) NotOwnParent (System.start cfg .start) s) :
    Linked s := by
  refine (hreaches.invariant (fun s ↦ Ordered s ∧ Paired s ∧ Linked s)
    ⟨ordered_start cfg, paired_start cfg, linked_start cfg⟩ ?_).2.2
  rintro s label next ⟨hordered, hpaired, hlinked⟩ hparent hstep
  refine ⟨hordered.step hstep, hpaired.step hordered hstep, ?_⟩
  cases label with
  | act action =>
    obtain ⟨kernel, hact, rfl⟩ := System.exists_kernel hstep
    exact hlinked.act hact
  | internal =>
    obtain ⟨watcher, hinternal, rfl⟩ := System.exists_watcher hstep
    exact hlinked.internal hordered (internalStep hinternal)
  | answer answer =>
    obtain ⟨call, hcall, hserve, hresume⟩ := System.step_answer hstep
    refine hlinked.answer hordered hpaired (fun parentWd path hplace hanswer ↦ ?_)
      (answerStep hordered.rowsUsed.table hcall (serveStep hserve) (resumeStep hresume))
    exact hparent parentWd (by rw [hplace]; rfl) (congrArg _ hanswer)

theorem notOwnParent_implies : Implies NotOwnParent NotOwnParent where
  act := by simp [NotOwnParent]
  internal := by simp [NotOwnParent]
  answer := by
    rintro s answer hparent parentWd hasked ⟨⟩
    exact hparent parentWd hasked rfl

/-- In a run in which `inotify_add_watch` never answers with the parent the new row is
to have, no row can be reached from itself by `parent_wd` links, and every prune
ends. -/
theorem links_acyclic (cfg : Config) (tree : DirTree) {s : System FileSystem}
    (hreaches : ReachesWhen (System.step cfg fileSystem) NotOwnParent
      (System.start cfg (.start tree)) s) :
    (∀ wd, ¬ OnWdCycle s.watcher.table wd) ∧
      (∀ wd, ∃ wds after, pruneWdDirectory s.watcher.table wd = some (wds, after)) ∧
      s.watcher.place ≠ .stopped .loops := by
  have hinotify := reaches_inotify notOwnParent_implies hreaches
  have hlinked := linked_of_reachesWhen hinotify
  have hkeyed := (ordered_paired_of_reaches hinotify.reaches).1.keys.keyed
  exact ⟨hlinked.acyclic, fun wd ↦ hkeyed.exists_prune (hlinked.acyclic wd), hlinked.ends⟩

/-- The directory `/t` with one sub-directory `a`. -/
def oneSubDir : DirTree where
  entries := [⟨rootDir, literal "t", 1⟩, ⟨1, literal "a", 2⟩]
  next := 3
  cwd := rootDir
  unreadable := []
  slots := by decide
  dirs := by decide
  names := by decide
  made := by decide
  root := by decide
  cwdMade := by decide

/-- The steps in which `main` watches `/t` and `/t/a`, up to `poll`. -/
def startsOneSubDir : List (Label FsAct) :=
  [.internal, .internal, .answer (.watch 1), .answer .done, .answer (.names [literal "a"]),
    .internal, .internal, .answer (.watch 2), .answer .done, .answer (.names []), .internal,
    .internal, .internal, .internal, .internal]

/-- `/t/a` is renamed to `/t/b`, and watched again after its events have been read. -/
def renamesSubDir : List (Label FsAct) :=
  [.act (.rename ⟨1, literal "a", 2⟩ 1 (literal "b") 5),
    .answer (.events [⟨1, FileSystem.movedFromDirMask, 5, literal "a"⟩,
      ⟨1, FileSystem.movedToDirMask, 5, literal "b"⟩, ⟨2, inMoveSelf, 0, []⟩]), .internal,
    .answer .done, .internal, .internal, .internal, .internal, .answer (.watch 3),
    .answer .done, .answer (.names []), .internal, .internal, .internal, .internal, .internal,
    .answer (.events [⟨2, inIgnored, 0, []⟩]), .internal, .internal]

/-- `/t/a` is moved into the new directory `/t/y` before the events are read. -/
def movesIntoNewDir : List (Label FsAct) :=
  [.act (.mkdir true 1 (literal "y")), .act (.rename ⟨1, literal "a", 2⟩ 3 (literal "a") 7),
    .answer (.events [⟨1, createDirMask, 0, literal "y"⟩,
      ⟨1, FileSystem.movedFromDirMask, 7, literal "a"⟩, ⟨2, inMoveSelf, 0, []⟩])]

/-- The start-up scan of `/t`. -/
theorem links_acyclic_scan :
    ∃ s, ReachesWhen (System.step ⟨[literal "/t"], [], by decide⟩ fileSystem) NotOwnParent
        (System.start ⟨[literal "/t"], [], by decide⟩ (.start oneSubDir)) s ∧
      s.watcher.table = [⟨1, 0, literal "/t"⟩, ⟨2, 1, literal "/t/a"⟩] ∧
      ∀ wd, ¬ OnWdCycle s.watcher.table wd := by
  have hrun : (runChecked (System.step ⟨[literal "/t"], [], by decide⟩ fileSystem)
      (fun s label ↦ decide (NotOwnParent s label))
      (System.start ⟨[literal "/t"], [], by decide⟩ (.start oneSubDir))
      [.internal, .internal, .answer (.watch 1), .answer .done, .answer (.names [literal "a"]),
        .internal, .internal, .answer (.watch 2)]).map
      (fun s : System FileSystem ↦ s.watcher.table) =
      some [⟨1, 0, literal "/t"⟩, ⟨2, 1, literal "/t/a"⟩] := by decide
  obtain ⟨s, hreaches, htable⟩ := exists_reachesWhen_of_run hrun
  exact ⟨s, hreaches, htable, (links_acyclic _ _ hreaches).1⟩

/-- Before the watcher reads its events, `/t/a` has made a directory `x`, which has
been moved out, and has itself been moved to the place of `x` in a new `/t/a`. The
watch on what is now `/t/a/x` is the one the event is about, so that the row becomes
its own parent, and the prune for the move of `x` does not end. -/
theorem links_acyclic_fails :
    ∃ s, Reaches (System.step ⟨[literal "/t"], [], by decide⟩ fileSystem)
        (System.start ⟨[literal "/t"], [], by decide⟩ (.start oneSubDir)) s ∧
      OnWdCycle s.watcher.table 2 ∧ pruneWdDirectory s.watcher.table 2 = none ∧
      s.watcher.place = .stopped .loops := by
  have hrun : (run (System.step ⟨[literal "/t"], [], by decide⟩ fileSystem)
      (System.start ⟨[literal "/t"], [], by decide⟩ (.start oneSubDir))
      (startsOneSubDir ++ [.act (.mkdir true 2 (literal "x")),
        .act (.rename ⟨2, literal "x", 3⟩ 1 (literal "b") 7),
        .act (.rename ⟨1, literal "a", 2⟩ 1 (literal "c") 8), .act (.mkdir true 1 (literal "a")),
        .act (.rename ⟨1, literal "c", 2⟩ 4 (literal "x") 9),
        .answer (.events [⟨2, createDirMask, 0, literal "x"⟩,
          ⟨2, FileSystem.movedFromDirMask, 7, literal "x"⟩]), .internal, .internal,
        .answer (.watch 2), .answer .done, .internal, .answer .done, .answer (.names []), .internal,
        .internal, .internal, .internal])).map
      (fun s : System FileSystem ↦ (s.watcher.place, s.watcher.table)) =
      some (.stopped .loops, [⟨1, 0, literal "/t"⟩, ⟨2, 2, literal "/t/a/x"⟩]) := by decide
  obtain ⟨s, hreaches, hseen⟩ := exists_reaches_of_run hrun
  simp only [Prod.mk.injEq] at hseen
  refine ⟨s, hreaches, ?_, ?_, hseen.1⟩
  · rw [hseen.2]
    exact Relation.TransGen.single (by unfold Link; decide)
  · rw [hseen.2]
    decide

end DirWatcher.Watching
