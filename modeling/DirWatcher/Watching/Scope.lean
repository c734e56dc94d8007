import DirWatcher.Watching.Orderly

/-!
The paths that the watcher records and reports. Each is a line of the config file or lies
below one, and no path from that line down to it is excluded or marked to be ignored. The
paths that are joined to a missing directory begin with the text for `NULL` and are not
absolute.
-/

set_option autoImplicit false
set_option relaxedAutoImplicit false

namespace DirWatcher.Watching

open Source Environment Foundation.Runs

variable {cfg : Config} {path name : Bytes}

/-! ### The scope -/

/-- No entry of the exclude file is the path or lies above it, and the path does not end
in the mark. -/
structure Allowed (cfg : Config) (path : Bytes) : Prop where
  ne : ∀ exclude ∈ cfg.excludes, path ≠ exclude
  above : ∀ exclude ∈ cfg.excludes, ¬ exclude ++ [slash] <+: path
  mark : ¬ dirWatcherIgnore <:+ path

theorem excludedBy_iff {exclude : Bytes} :
    excludedBy path exclude = true ↔ path = exclude ∨ exclude ++ [slash] <+: path := by
  rw [excludedBy, Bool.and_eq_true, List.isPrefixOf_iff_prefix]
  constructor
  · rintro ⟨⟨rest, rfl⟩, hnext⟩
    rw [List.drop_left] at hnext
    cases rest with
    | nil => exact Or.inl (List.append_nil _)
    | cons first rest =>
      obtain rfl : first = slash := by simpa using hnext
      exact Or.inr ⟨rest, by simp⟩
  · rintro (rfl | ⟨rest, rfl⟩)
    · exact ⟨List.prefix_refl _, by simp⟩
    · rw [List.append_assoc]
      exact ⟨List.prefix_append _ _, by simp⟩

theorem refusesPath_eq_false_iff : refusesPath cfg path = false ↔ Allowed cfg path := by
  rw [refusesPath, Bool.or_eq_false_iff, List.any_eq_false, Bool.eq_false_iff, ne_eq,
    List.isSuffixOf_iff_suffix]
  constructor
  · rintro ⟨hexcludes, hmark⟩
    refine ⟨fun exclude hmem heq ↦ ?_, fun exclude hmem habove ↦ ?_, hmark⟩
    · exact hexcludes exclude hmem (excludedBy_iff.mpr (Or.inl heq))
    · exact hexcludes exclude hmem (excludedBy_iff.mpr (Or.inr habove))
  · rintro ⟨hne, habove, hmark⟩
    refine ⟨fun exclude hmem hexcluded ↦ ?_, hmark⟩
    exact (excludedBy_iff.mp hexcluded).elim (hne exclude hmem) (habove exclude hmem)

/-- A single component of a path. -/
structure Component (name : Bytes) : Prop where
  nonempty : name ≠ []
  slash : slash ∉ name

instance (name : Bytes) : Decidable (Component name) :=
  decidable_of_iff (name ≠ [] ∧ slash ∉ name)
    ⟨fun ⟨hnonempty, hslash⟩ ↦ ⟨hnonempty, hslash⟩, fun ⟨hnonempty, hslash⟩ ↦ ⟨hnonempty, hslash⟩⟩

/-- The path is a line of the config file with components behind it, and it is allowed
with each number of them. -/
def InScope (cfg : Config) (path : Bytes) : Prop :=
  ∃ top ∈ cfg.topLevelPaths, ∃ names : List Bytes, (∀ name ∈ names, Component name) ∧
    path = names.foldl joinPath top ∧
    ∀ k ≤ names.length, Allowed cfg ((names.take k).foldl joinPath top)

theorem inScope_top (htop : path ∈ cfg.topLevelPaths) (hallowed : Allowed cfg path) :
    InScope cfg path :=
  ⟨path, htop, [], by simp, rfl, fun k _ ↦ by simpa using hallowed⟩

theorem InScope.join (hscope : InScope cfg path) (hname : Component name)
    (hallowed : Allowed cfg (joinPath path name)) : InScope cfg (joinPath path name) := by
  obtain ⟨top, htop, names, hnames, rfl, hall⟩ := hscope
  refine ⟨top, htop, names ++ [name], ?_, by simp, fun k hk ↦ ?_⟩
  · intro other hother
    rcases List.mem_append.mp hother with hold | hlast
    · exact hnames other hold
    · rwa [List.mem_singleton.mp hlast]
  · rw [List.length_append, List.length_singleton] at hk
    rcases Nat.lt_or_ge names.length k with hlt | hle
    · rw [List.take_of_length_le (by simp; omega), List.foldl_append]
      exact hallowed
    · rw [List.take_append_of_le_length hle]
      exact hall k hle

def Absolute (path : Bytes) : Prop := path.head? = some slash

instance (path : Bytes) : Decidable (Absolute path) := by
  unfold Absolute
  infer_instance

theorem Absolute.join (habsolute : Absolute path) : Absolute (joinPath path name) := by
  rw [Absolute, joinPath, List.head?_append, habsolute]
  rfl

/-- The path begins with another byte than a slash. -/
def Relative (path : Bytes) : Prop := ∃ first ∈ path.head?, first ≠ slash

theorem Relative.not_absolute (hrelative : Relative path) : ¬ Absolute path := by
  obtain ⟨first, hfirst, hne⟩ := hrelative
  rw [Absolute, Option.mem_def.mp hfirst, Option.some_inj]
  exact hne

theorem Relative.join (hrelative : Relative path) : Relative (joinPath path name) := by
  obtain ⟨first, hfirst, hne⟩ := hrelative
  refine ⟨first, ?_, hne⟩
  rw [joinPath, List.head?_append, Option.mem_def.mp hfirst]
  rfl

theorem relative_null : Relative (joinPath (Watcher.printed none) name) :=
  Relative.join ⟨40, by decide, by decide⟩

/-- A path that fits in a buffer and is in the scope or not absolute. -/
structure Placed (cfg : Config) (path : Bytes) : Prop where
  short : path.length < maxPathLen
  scope : InScope cfg path ∨ Relative path

/-- A path that is in the scope if it is allowed. -/
structure Proposed (cfg : Config) (path : Bytes) : Prop where
  short : path.length < maxPathLen
  scope : (Allowed cfg path → InScope cfg path) ∨ Relative path

theorem Proposed.placed (hproposed : Proposed cfg path) (hallowed : refusesPath cfg path = false) :
    Placed cfg path :=
  ⟨hproposed.short, hproposed.scope.imp_left fun hscope ↦
    hscope (refusesPath_eq_false_iff.mp hallowed)⟩

theorem Placed.propose (hplaced : Placed cfg path) (hname : Component name)
    (hshort : (joinPath path name).length < maxPathLen) : Proposed cfg (joinPath path name) :=
  ⟨hshort, hplaced.scope.imp (fun hscope ↦ hscope.join hname) Relative.join⟩

/-! ### The paths of a state -/

/-- What is known of the path at a place in the code. -/
def PlaceScoped (cfg : Config) : Place → Prop
  | .addWatch _ path => Proposed cfg path
  | .inotifyAddWatch _ path => Placed cfg path
  | .removePrunedWds _ (some row) => Placed cfg row.path
  | .opendir _ path => Placed cfg path
  | .readdir _ path => Placed cfg path
  | .subDirs _ path names => Placed cfg path ∧ ∀ name ∈ names, Component name
  | _ => True

structure Scoped (cfg : Config) (w : Watcher) : Prop where
  lines : ∀ line ∈ w.lines, line ∈ cfg.topLevelPaths
  table : ∀ row ∈ w.table, Placed cfg row.path
  batch : ∀ event ∈ w.batch, Arrival event → Component event.name
  parentDir : ∀ directory ∈ w.parentDir, Placed cfg directory
  reports : ∀ directory ∈ w.reports, Placed cfg directory
  place : PlaceScoped cfg w.place
  frames : ∀ wd path names, .subDirs wd path names ∈ w.stack →
    Placed cfg path ∧ ∀ name ∈ names, Component name

variable {w after : Watcher}

theorem scoped_start (cfg : Config) : Scoped cfg (Watcher.start cfg) := by
  constructor <;> simp [Watcher.start, PlaceScoped]

/-- A step that removes rows at most and goes to a place whose path is known. -/
theorem Scoped.move (hscoped : Scoped cfg w) {table : Table} {place : Place} {cookie : UInt32}
    (htable : table ⊆ w.table) (hplace : PlaceScoped cfg place) :
    Scoped cfg { w with table, place, prevCookie := cookie } :=
  ⟨hscoped.lines, fun row hrow ↦ hscoped.table row (htable hrow), hscoped.batch, hscoped.parentDir,
    hscoped.reports, hplace, hscoped.frames⟩

theorem Scoped.insert (hscoped : Scoped cfg w) {row : Row} (hrow : Placed cfg row.path)
    (hstep : InsertStep w row after) : Scoped cfg after := by
  cases hstep with
  | clashes => exact hscoped.move (List.Subset.refl _) trivial
  | inserts hadd =>
    obtain ⟨-, rfl⟩ := addWdDirectory_eq_some_iff.mp hadd
    refine ⟨hscoped.lines, fun old hold ↦ ?_, hscoped.batch, hscoped.parentDir, hscoped.reports,
      hrow, hscoped.frames⟩
    rcases List.mem_append.mp hold with hmem | hnew
    · exact hscoped.table old hmem
    · rwa [List.mem_singleton.mp hnew]

theorem Scoped.prune (hscoped : Scoped cfg w) {wd : Wd} {row : Option Row}
    (hrow : ∀ new ∈ row, Placed cfg new.path) (hstep : PruneStep w wd row after) :
    Scoped cfg after := by
  cases hstep with
  | loops => exact hscoped.move (List.Subset.refl _) trivial
  | removes hprune =>
    refine hscoped.move (pruneWdDirectory_spec hprune).2.2.subset ?_
    cases row with
    | none => trivial
    | some new => exact hrow new rfl

/-- The directory of an event is a recorded one, or it is missing. -/
theorem Scoped.findParent (hscoped : Scoped cfg w) (event : Event) :
    Scoped cfg (w.findParent event) := by
  unfold Watcher.findParent
  split_ifs
  · exact hscoped
  · refine ⟨hscoped.lines, hscoped.table, hscoped.batch, fun directory hdirectory ↦ ?_,
      hscoped.reports, hscoped.place, hscoped.frames⟩
    obtain ⟨row, hrow, -, hpath⟩ := exists_of_findWdDirectory_eq_some hdirectory
    have hplaced := hscoped.table row hrow
    rw [List.take_of_length_le hplaced.short.le] at hpath
    exact hpath ▸ hplaced

theorem Scoped.dispatch (hscoped : Scoped cfg w) {event : Event}
    (hname : Arrival event → Component event.name)
    (hwhole : Arrival event → (eventPath w event).length < maxPathLen)
    (hstep : DispatchStep event w after) : Scoped cfg after := by
  cases hstep with
  | forgets => exact hscoped.move removeWdDirectory_sublist.subset trivial
  | watches cookie frame hframe =>
    have harrival : Arrival event := hframe.imp And.left And.left
    refine ⟨hscoped.lines, hscoped.table, hscoped.batch, hscoped.parentDir, hscoped.reports, ?_,
      fun wd path names hmem ↦ hscoped.frames wd path names ?_⟩
    · change Proposed cfg ((eventPath w event).take (maxPathLen - 1))
      have hshort := hwhole harrival
      rw [List.take_of_length_le (by omega), eventPath]
      cases hparent : w.parentDir with
      | none => exact ⟨by rwa [eventPath, hparent] at hshort, Or.inr relative_null⟩
      | some directory =>
        refine (hscoped.parentDir directory hparent).propose (hname harrival) ?_
        rwa [eventPath, hparent] at hshort
    · refine (List.mem_cons.mp hmem).resolve_left ?_
      rcases hframe with ⟨-, rfl⟩ | ⟨-, rfl⟩ <;> simp
  | prunes cookie _ _ _ _ hprune =>
    have hcookie : Scoped cfg { w with prevCookie := cookie } :=
      hscoped.move (List.Subset.refl _) hscoped.place
    exact hcookie.prune (by simp) hprune
  | _ => exact hscoped.move (List.Subset.refl _) trivial

theorem Scoped.internal (hscoped : Scoped cfg w)
    (hwhole : ∀ event, w.place = .nextEvent → w.batch.head? = some event → Arrival event →
      (eventPath (w.findParent event) event).length < maxPathLen)
    (hstep : InternalStep cfg w after) : Scoped cfg after := by
  have hplaced := hscoped.place
  cases hstep with
  | @readsLine line rest _ hlines =>
    have hline : line ∈ cfg.topLevelPaths := hscoped.lines line (hlines ▸ List.mem_cons_self)
    refine ⟨fun other hother ↦ hscoped.lines other (hlines ▸ List.mem_cons_of_mem _ hother),
      hscoped.table, hscoped.batch, hscoped.parentDir, hscoped.reports,
      ⟨cfg.fits line hline, Or.inl (inScope_top hline)⟩, fun wd path names hmem ↦ ?_⟩
    exact hscoped.frames wd path names ((List.mem_cons.mp hmem).resolve_left (by simp))
  | startsPolling => exact hscoped.move (List.Subset.refl _) trivial
  | @takesEvent event rest _ hplace hbatch hdispatch =>
    rw [findParent_withBatch] at hdispatch
    have htaken : Scoped cfg { w.findParent event with batch := rest } := by
      have hfound := hscoped.findParent event
      refine ⟨hfound.lines, hfound.table, fun other hother ↦ ?_, hfound.parentDir, hfound.reports,
        hfound.place, hfound.frames⟩
      exact hscoped.batch other (hbatch ▸ List.mem_cons_of_mem _ hother)
    refine htaken.dispatch (hscoped.batch event (hbatch ▸ List.mem_cons_self)) ?_ hdispatch
    exact hwhole event hplace (by rw [hbatch]; rfl)
  | refuses => exact hscoped.move (List.Subset.refl _) trivial
  | requests hplace hrefuses =>
    rw [hplace] at hplaced
    exact hscoped.move (List.Subset.refl _) (Proposed.placed hplaced hrefuses)
  | finishesPrune => exact hscoped.move (List.Subset.refl _) trivial
  | insertsPruned hplace hinsert =>
    rw [hplace] at hplaced
    exact hscoped.insert hplaced hinsert
  | finishesSubDirs => exact hscoped.move (List.Subset.refl _) trivial
  | @descends wd path name rest hplace hlength =>
    rw [hplace] at hplaced
    obtain ⟨hpath, hnames⟩ := hplaced
    refine ⟨hscoped.lines, hscoped.table, hscoped.batch, hscoped.parentDir, hscoped.reports,
      hpath.propose (hnames name List.mem_cons_self) hlength, fun other above names hmem ↦ ?_⟩
    rcases List.mem_cons.mp hmem with hfirst | hrest
    · cases hfirst
      exact ⟨hpath, fun later hlater ↦ hnames later (List.mem_cons_of_mem _ hlater)⟩
    · exact hscoped.frames other above names hrest
  | overflows => exact hscoped.move (List.Subset.refl _) trivial
  | @returns result frame rest hplace hstack =>
    have hframes : ∀ wd path names, .subDirs wd path names ∈ rest →
        Placed cfg path ∧ ∀ name ∈ names, Component name := fun wd path names hmem ↦
      hscoped.frames wd path names (hstack ▸ List.mem_cons_of_mem _ hmem)
    cases frame with
    | subDirs wd path names =>
      exact ⟨hscoped.lines, hscoped.table, hscoped.batch, hscoped.parentDir, hscoped.reports,
        hscoped.frames wd path names (hstack ▸ List.mem_cons_self), hframes⟩
    | created =>
      refine ⟨hscoped.lines, hscoped.table, hscoped.batch, hscoped.parentDir, hscoped.reports, ?_,
        hframes⟩
      simp only [Watcher.returnTo]
      split_ifs <;> trivial
    | topLevel => exact ⟨hscoped.lines, hscoped.table, hscoped.batch, hscoped.parentDir,
        hscoped.reports, trivial, hframes⟩
    | movedTo => exact ⟨hscoped.lines, hscoped.table, hscoped.batch, hscoped.parentDir,
        hscoped.reports, trivial, hframes⟩
  | reports =>
    rw [report_eq]
    refine ⟨hscoped.lines, hscoped.table, hscoped.batch, hscoped.parentDir, fun other hother ↦ ?_,
      trivial, hscoped.frames⟩
    rcases List.mem_append.mp hother with hold | hnew
    · exact hscoped.reports other hold
    · exact hscoped.parentDir other (Option.mem_toList.mp hnew)

/-- The names in an answer of the kernel are single components of a path, as far as they are
joined to one. -/
def NamesComponents : Answer → Prop
  | .events events => ∀ event ∈ events, Arrival event → Component event.name
  | .names names => ∀ name ∈ names, Component name
  | _ => True

instance (answer : Answer) : Decidable (NamesComponents answer) := by
  cases answer <;> unfold NamesComponents <;> infer_instance

theorem Scoped.resume (hscoped : Scoped cfg w) {answer : Answer} (hnames : NamesComponents answer)
    (hstep : ResumeStep w answer after) : Scoped cfg after := by
  have hplaced := hscoped.place
  cases hstep with
  | reads events =>
    exact ⟨hscoped.lines, hscoped.table, hnames, by simp [Watcher.startBatch], hscoped.reports,
      trivial, hscoped.frames⟩
  | reuses hplace _ hprune =>
    rw [hplace] at hplaced
    refine hscoped.prune (fun new hnew ↦ ?_) hprune
    rw [← Option.some_inj.mp hnew]
    exact hplaced
  | adds hplace _ hinsert =>
    rw [hplace] at hplaced
    refine hscoped.insert ?_ hinsert
    exact hplaced
  | @removes _ _ row _ hplace =>
    rw [hplace] at hplaced
    refine hscoped.move (List.Subset.refl _) ?_
    cases row with
    | none => trivial
    | some row => exact hplaced
  | opens hplace =>
    rw [hplace] at hplaced
    exact hscoped.move (List.Subset.refl _) hplaced
  | opensNothing _ hplace =>
    rw [hplace] at hplaced
    exact hscoped.move (List.Subset.refl _) ⟨hplaced, by simp⟩
  | lists names hplace =>
    rw [hplace] at hplaced
    exact hscoped.move (List.Subset.refl _) ⟨hplaced, hnames⟩
  | _ => exact hscoped.move (List.Subset.refl _) trivial

/-! ### Runs -/

section Runs

variable {κ α : Type}

def LabelComponents : Label α → Prop
  | .answer answer => NamesComponents answer
  | _ => True

instance (label : Label α) : Decidable (LabelComponents label) := by
  cases label <;> unfold LabelComponents <;> infer_instance

/-- The names are single components of a path, and the path joined for a new directory is
shorter than the buffer. -/
structure ScopedStep (s : System κ) (label : Label α) : Prop where
  names : LabelComponents label
  whole : ∀ event ∈ takenEvent s.watcher label, Arrival event →
    (eventPath (s.watcher.findParent event) event).length < maxPathLen

instance (s : System κ) (label : Label α) : Decidable (ScopedStep s label) :=
  decidable_of_iff (LabelComponents label ∧ ∀ event ∈ takenEvent s.watcher label, Arrival event →
      (eventPath (s.watcher.findParent event) event).length < maxPathLen)
    ⟨fun ⟨hnames, hwhole⟩ ↦ ⟨hnames, hwhole⟩, fun ⟨hnames, hwhole⟩ ↦ ⟨hnames, hwhole⟩⟩

theorem Scoped.step {k : Kernel κ α} {s next : System κ} {label : Label α}
    (hscoped : Scoped cfg s.watcher) (hcondition : ScopedStep s label)
    (hstep : s.step cfg k label = some next) : Scoped cfg next.watcher := by
  cases label with
  | act action => exact (System.step_act hstep).2 ▸ hscoped
  | internal =>
    refine hscoped.internal (fun event hplace hbatch ↦ ?_)
      (internalStep (System.step_internal hstep).1)
    exact hcondition.whole event (by simp [takenEvent, hplace, hbatch])
  | answer answer =>
    obtain ⟨-, -, -, hresume⟩ := System.step_answer hstep
    exact hscoped.resume hcondition.names (resumeStep hresume)

/-- In a run over any events and with any answers of a kernel of any kind, in which names
are single components and the joined paths are shorter than the buffer, each absolute path
that is recorded or has been reported is in the scope of the config and exclude files. -/
theorem paths_in_scope (cfg : Config) (k : Kernel κ α) (kernel : κ) {s : System κ}
    (hreaches : ReachesWhen (System.step cfg k) ScopedStep (System.start cfg kernel) s) :
    (∀ row ∈ s.watcher.table, Absolute row.path → InScope cfg row.path) ∧
      ∀ directory ∈ s.watcher.reports, Absolute directory → InScope cfg directory := by
  have hscoped := hreaches.invariant (fun s ↦ Scoped cfg s.watcher) (scoped_start cfg)
    fun _ _ _ hscoped hcondition hstep ↦ hscoped.step hcondition hstep
  have hplaced : ∀ path, Placed cfg path → Absolute path → InScope cfg path :=
    fun path hpath habsolute ↦ hpath.scope.resolve_right fun hrelative ↦
      hrelative.not_absolute habsolute
  exact ⟨fun row hrow ↦ hplaced _ (hscoped.table row hrow),
    fun directory hdirectory ↦ hplaced _ (hscoped.reports directory hdirectory)⟩

end Runs

/-- The scan of `/t` with the sub-directories `a` and `x`, of which the second is excluded, and
a file written in `/t/a`. -/
theorem paths_in_scope_excluded :
    ∃ s, ReachesWhen (System.step ⟨[literal "/t"], [literal "/t/x"], by decide⟩ anyAnswer)
      ScopedStep
        (System.start ⟨[literal "/t"], [literal "/t/x"], by decide⟩ ()) s ∧
      s.watcher.table = [⟨1, 0, literal "/t"⟩, ⟨2, 1, literal "/t/a"⟩] ∧
      s.watcher.reports = [literal "/t/a"] ∧
      InScope ⟨[literal "/t"], [literal "/t/x"], by decide⟩ (literal "/t/a") := by
  have hrun : (runChecked (System.step ⟨[literal "/t"], [literal "/t/x"], by decide⟩ anyAnswer)
      (fun s label ↦ decide (ScopedStep s label))
      (System.start ⟨[literal "/t"], [literal "/t/x"], by decide⟩ ())
      [.internal, .internal, .answer (.watch 1), .answer .done,
        .answer (.names [literal "x", literal "a"]), .internal, .internal, .internal, .internal,
        .internal, .answer (.watch 2), .answer .done, .answer (.names []), .internal, .internal,
        .internal, .internal, .internal, .answer (.events [⟨2, inCloseWrite, 0, literal "f"⟩]),
        .internal, .internal]).map
      (fun s : System Unit ↦ (s.watcher.table, s.watcher.reports)) =
      some ([⟨1, 0, literal "/t"⟩, ⟨2, 1, literal "/t/a"⟩], [literal "/t/a"]) := by decide
  obtain ⟨s, hreaches, hseen⟩ := exists_reachesWhen_of_run hrun
  simp only [Prod.mk.injEq] at hseen
  exact ⟨s, hreaches, hseen.1, hseen.2,
    (paths_in_scope _ _ _ hreaches).2 _ (by simp [hseen.2]) (by decide)⟩

end DirWatcher.Watching
