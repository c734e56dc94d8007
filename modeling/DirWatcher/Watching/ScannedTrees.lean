import DirWatcher.Environment.Growth
import DirWatcher.Watching.Calls
import DirWatcher.Watching.Coverage

/-!
What a call of `add_watch` leaves when nothing at or below its path is watched or recorded
before: one row for each directory that can be reached from the path, or nothing at all.
-/

set_option autoImplicit false
set_option relaxedAutoImplicit false

namespace DirWatcher.Watching

open Source Environment Foundation.SeparatedPaths Foundation.Runs

/-! ### The rows of a tree -/

theorem Visible.reached {cfg : Config} {tree : DirTree} {top path : Bytes} {dir : Dir}
    (hvisible : Visible cfg tree top path dir) : tree.Reached top path dir := by
  induction hvisible with
  | top hresolve => exact .top hresolve
  | child _ hentry _ _ ih => exact .child ih hentry

/-- The row for a directory: its watch descriptor, that of the directory around it, or the
one `add_watch` was called with, and its path. -/
inductive RowFor (cfg : Config) (fs : FileSystem) (parentWd : Wd) (top : Bytes) : Row → Prop
  | top {wd : Wd} {dir : Dir} (hresolve : fs.tree.resolve top = some dir)
      (hwatch : ⟨wd, dir⟩ ∈ fs.watches) : RowFor cfg fs parentWd top ⟨wd, parentWd, top⟩
  | child {wd above : Wd} {path : Bytes} {entry : Entry}
      (hparent : Visible cfg fs.tree top path entry.parent) (hentry : entry ∈ fs.tree.entries)
      (hreadable : entry.dir ∉ fs.tree.unreadable)
      (hpath : refusesPath cfg (joinPath path entry.name) = false)
      (habove : ⟨above, entry.parent⟩ ∈ fs.watches) (hwatch : ⟨wd, entry.dir⟩ ∈ fs.watches) :
      RowFor cfg fs parentWd top ⟨wd, above, joinPath path entry.name⟩

variable {cfg : Config} {fs : FileSystem} {parentWd : Wd} {top path : Bytes} {dir : Dir}

theorem RowFor.exists_visible {row : Row} (hrow : RowFor cfg fs parentWd top row) :
    ∃ dir, Visible cfg fs.tree top row.path dir ∧ ⟨row.wd, dir⟩ ∈ fs.watches := by
  cases hrow with
  | top hresolve hwatch => exact ⟨_, .top hresolve, hwatch⟩
  | child hparent hentry hreadable hpath _ hwatch =>
    exact ⟨_, .child hparent hentry hreadable hpath, hwatch⟩

theorem RowFor.mono {after : FileSystem} {row : Row} (hrow : RowFor cfg fs parentWd top row)
    (htree : after.tree = fs.tree) (hwatches : fs.watches ⊆ after.watches) :
    RowFor cfg after parentWd top row := by
  cases hrow with
  | top hresolve hwatch => exact .top (htree ▸ hresolve) (hwatches hwatch)
  | child hparent hentry hreadable hpath habove hwatch =>
    exact .child (htree ▸ hparent) (htree ▸ hentry) (htree ▸ hreadable) hpath (hwatches habove)
      (hwatches hwatch)

theorem Visible.ne_top {tree : DirTree} (name : Bytes)
    (hvisible : Visible cfg tree top path dir) : joinPath path name ≠ top := by
  intro hsame
  have hle := hvisible.reached.length_le
  rw [← hsame, length_joinPath] at hle
  omega

theorem RowFor.parentWd_eq {row : Row} (hrow : RowFor cfg fs parentWd top row)
    (hpath : row.path = top) : row.parentWd = parentWd := by
  cases hrow with
  | top => rfl
  | child hparent => exact absurd hpath (hparent.ne_top _)

/-- A path has at most one row. -/
theorem RowFor.eq_of_path {row other : Row} (hrow : RowFor cfg fs parentWd top row)
    (hother : RowFor cfg fs parentWd top other) (hpath : row.path = other.path) : row = other := by
  cases hrow with
  | top hresolve hwatch =>
    cases hother with
    | top hresolve' hwatch' =>
      obtain rfl := Option.some_inj.mp (hresolve.symm.trans hresolve')
      rw [FileSystem.wd_eq_of_dir hwatch hwatch']
    | child hparent => exact absurd hpath.symm (hparent.ne_top _)
  | @child wd above path entry hparent hentry hreadable hallowed habove hwatch =>
    cases hother with
    | top => exact absurd hpath (hparent.ne_top _)
    | @child wd' above' path' entry' hparent' hentry' hreadable' hallowed' habove' hwatch' =>
      change joinPath path entry.name = joinPath path' entry'.name at hpath
      have hresolve := (Visible.child hparent hentry hreadable hallowed).resolve
      have hresolve' := (Visible.child hparent' hentry' hreadable' hallowed').resolve
      rw [hpath] at hresolve
      obtain rfl :=
        DirTree.eq_of_dir hentry hentry' (Option.some_inj.mp (hresolve.symm.trans hresolve'))
      rw [FileSystem.wd_eq_of_dir hwatch hwatch', FileSystem.wd_eq_of_dir habove habove', hpath]

/-! ### The scan -/

/-- The names are those of directories in the one that the row's watch is on. -/
def NamesIn (fs : FileSystem) (row : Row) (names : List Bytes) : Prop :=
  ∀ name ∈ names, ∃ entry ∈ fs.tree.entries, ⟨row.wd, entry.parent⟩ ∈ fs.watches ∧ entry.name = name

/-- The path is that of an entry of a directory that one of the rows is for. -/
def AskedBelow (fs : FileSystem) (news : List Row) (parentWd : Wd) (path : Bytes) : Prop :=
  ∃ row ∈ news, ∃ entry ∈ fs.tree.entries, row.wd = parentWd ∧
    ⟨row.wd, entry.parent⟩ ∈ fs.watches ∧ path = joinPath row.path entry.name

/-- The place is in a call for one of the new rows, or for a directory below it. -/
def ScanningAt (cfg : Config) (s : System FileSystem) (news : List Row) : Place → Prop
  | .addWatch parentWd path => AskedBelow s.kernel news parentWd path ∧ s.watcher.stack ≠ []
  | .inotifyAddWatch parentWd path => AskedBelow s.kernel news parentWd path ∧
    s.watcher.stack ≠ [] ∧
      refusesPath cfg path = false ∧ findDirectoryWd s.watcher.table path = nullWd
  | .opendir wd path => ∃ row ∈ news, row.wd = wd ∧ row.path = path
  | .readdir wd path => ∃ row ∈ news, row.wd = wd ∧ row.path = path ∧
      ∃ dir, ⟨row.wd, dir⟩ ∈ s.kernel.watches ∧ s.kernel.scan = some (Scan.start s.kernel.tree dir)
  | .subDirs wd path names => ∃ row ∈ news, row.wd = wd ∧ row.path = path ∧
    NamesIn s.kernel row names
  | .returned result => s.watcher.stack = [] → result = 0
  | _ => False

/-- The row of the path has been inserted, and the rows so far are those of the directories
that the scan has come to. -/
structure Scanning (cfg : Config) (before s : System FileSystem) (parentWd : Wd) (top : Bytes)
    (news : List Row) : Prop where
  tree : s.kernel.tree = before.kernel.tree
  table : s.watcher.table = before.watcher.table ++ news
  paths : (news.map Row.path).Nodup
  rows : ∀ row ∈ news, 0 < row.wd ∧ RowFor cfg s.kernel parentWd top row
  first : ∃ row ∈ news, row.path = top
  used : ∀ row ∈ s.watcher.table, row.wd ∈ s.kernel.used
  watches : ∀ watch ∈ s.kernel.watches, watch ∈ before.kernel.watches ∨
    ∃ row ∈ news, row.wd = watch.wd
  place : ScanningAt cfg s news s.watcher.place
  frames : ∀ frame ∈ s.watcher.stack, ∃ row ∈ news, ∃ names,
    frame = .subDirs row.wd row.path names ∧ NamesIn s.kernel row names
  found : ∀ row ∈ news, ∀ entry, Wanted cfg s row entry → Caught s row entry.name

/-- Nothing at or below the path is watched or recorded, the watch descriptors of all rows
have been in use, and all paths fit in a buffer. -/
structure Untouched (s : System FileSystem) (top : Bytes) : Prop where
  short : s.kernel.tree.ShortPaths [top]
  unwatched : ∀ path dir, s.kernel.tree.Reached top path dir →
    ∀ watch ∈ s.kernel.watches, watch.dir ≠ dir
  unrecorded : ∀ path dir, s.kernel.tree.Reached top path dir →
    ∀ row ∈ s.watcher.table, row.path ≠ path
  used : ∀ row ∈ s.watcher.table, row.wd ∈ s.kernel.used

variable {before s after : System FileSystem} {news : List Row} {row : Row} {label : Label FsAct}

theorem Scanning.visible (hscanning : Scanning cfg before s parentWd top news) (hrow : row ∈ news)
    (hwatch : ⟨row.wd, dir⟩ ∈ s.kernel.watches) : Visible cfg s.kernel.tree top row.path dir := by
  obtain ⟨other, hvisible, hother⟩ := (hscanning.rows row hrow).2.exists_visible
  rwa [FileSystem.dir_eq_of_wd hwatch hother]

theorem Scanning.accurate (hscanning : Scanning cfg before s parentWd top news)
    (hrow : row ∈ news) : Accurate s row := by
  obtain ⟨dir, hvisible, hwatch⟩ := (hscanning.rows row hrow).2.exists_visible
  exact ⟨dir, hwatch, hvisible.resolve⟩

/-- The directory that is asked for is that of the entry. -/
theorem Scanning.asked {wd : Wd} (hscanning : Scanning cfg before s parentWd top news)
    (hasked : AskedBelow s.kernel news wd path) (hresolve : s.kernel.tree.resolve path = some dir) :
    ∃ row ∈ news, ∃ entry ∈ s.kernel.tree.entries, row.wd = wd ∧
      ⟨row.wd, entry.parent⟩ ∈ s.kernel.watches ∧ path = joinPath row.path entry.name ∧
      entry.dir = dir ∧ Visible cfg s.kernel.tree top row.path entry.parent := by
  obtain ⟨row, hrow, entry, hentry, hwd, hwatch, rfl⟩ := hasked
  have hentryDir := (hscanning.accurate hrow).resolve_entry hwatch hentry
  exact ⟨row, hrow, entry, hentry, hwd, hwatch, rfl,
    Option.some_inj.mp (hentryDir.symm.trans hresolve), hscanning.visible hrow hwatch⟩

theorem Scanning.findDirectoryWd_ne (hscanning : Scanning cfg before s parentWd top news)
    (huntouched : Untouched before top) (hrow : row ∈ news) :
    findDirectoryWd s.watcher.table row.path ≠ nullWd := by
  have hmem : row ∈ s.watcher.table := hscanning.table ▸ List.mem_append_right _ hrow
  obtain ⟨found, hfound, hpath, hwd⟩ := exists_of_findDirectoryWd hmem
  obtain ⟨dir, hvisible, -⟩ := (hscanning.rows row hrow).2.exists_visible
  rw [hscanning.table] at hfound
  rcases List.mem_append.mp hfound with hold | hnew
  · exact absurd hpath (huntouched.unrecorded _ _ (hscanning.tree ▸ hvisible.reached) found hold)
  · rw [← hwd]
    exact ne_of_gt (hscanning.rows found hnew).1

/-- No directory is asked for twice: it would have two paths. -/
theorem Scanning.not_watched (huntouched : Untouched before top)
    (hscanning : Scanning cfg before s parentWd top news) {wd other : Wd}
    (hplace : s.watcher.place = .inotifyAddWatch wd path)
    (hresolve : s.kernel.tree.resolve path = some dir) : ⟨other, dir⟩ ∉ s.kernel.watches := by
  intro hwatch
  have hat := hscanning.place
  rw [hplace] at hat
  obtain ⟨hasked, -, -, hfind⟩ := hat
  obtain ⟨row, hrow, entry, hentry, -, -, rfl, rfl, habove⟩ := hscanning.asked hasked hresolve
  have hreached := DirTree.Reached.child habove.reached hentry
  have htree := hscanning.tree
  rcases hscanning.watches _ hwatch with hold | ⟨child, hchild, hwd⟩
  · exact huntouched.unwatched _ _ (htree ▸ hreached) _ hold rfl
  · obtain rfl : child.wd = other := hwd
    have hvisible := hscanning.visible hchild hwatch
    have hpath := huntouched.short.oneName top List.mem_cons_self top List.mem_cons_self _ _ _
      (htree ▸ hvisible.reached) (htree ▸ hreached)
    exact hscanning.findDirectoryWd_ne huntouched hchild (hpath ▸ hfind)

/-- What has been found before the step is recorded after it, or on its way. -/
theorem Scanning.caught (hscanning : Scanning cfg before s parentWd top news)
    (hundisturbed : Undisturbed label) (hnew : NewWatch s label)
    (hstep : s.step cfg fileSystem label = some after)
    (hkept : s.watcher.table ⊆ after.watcher.table)
    (hruns : ¬ Stopped after.watcher) (hrow : row ∈ news) {entry : Entry}
    (hwanted : Wanted cfg s row entry) : Caught after row entry.name := by
  rcases hscanning.found row hrow entry hwanted with ⟨child, hchild, hpath⟩ | hunderway
  · exact Or.inl ⟨child, hkept hchild, hpath⟩
  · cases label with
    | act => exact hundisturbed.elim
    | internal =>
      obtain ⟨watcher, hinternal, rfl⟩ := System.exists_watcher hstep
      exact hunderway.internal hwanted (internalStep hinternal) hruns
    | answer => exact hunderway.answer (hscanning.accurate hrow) hwanted hnew hstep hruns

/-- A step that sets no watch and inserts no row. -/
theorem Scanning.stay {watcher : Watcher} {kernel : FileSystem}
    (hscanning : Scanning cfg before s parentWd top news) (htree : kernel.tree = s.kernel.tree)
    (hwatches : kernel.watches = s.kernel.watches) (hused : kernel.used = s.kernel.used)
    (htable : watcher.table = s.watcher.table)
    (hplace : ScanningAt cfg ⟨watcher, kernel⟩ news watcher.place)
    (hframes : ∀ frame ∈ watcher.stack, ∃ row ∈ news, ∃ names,
      frame = .subDirs row.wd row.path names ∧ NamesIn kernel row names)
    (hcaught : ∀ row ∈ news, ∀ entry, Wanted cfg s row entry →
      Caught ⟨watcher, kernel⟩ row entry.name) :
    Scanning cfg before ⟨watcher, kernel⟩ parentWd top news where
  tree := htree.trans hscanning.tree
  table := htable.trans hscanning.table
  paths := hscanning.paths
  rows := fun row hrow ↦ ⟨(hscanning.rows row hrow).1,
    (hscanning.rows row hrow).2.mono htree (by rw [hwatches]; exact List.Subset.refl _)⟩
  first := hscanning.first
  used := by
    change ∀ row ∈ watcher.table, row.wd ∈ kernel.used
    rw [htable, hused]
    exact hscanning.used
  watches := by
    change ∀ watch ∈ kernel.watches, _
    rw [hwatches]
    exact hscanning.watches
  place := hplace
  frames := hframes
  found := fun row hrow entry hwanted ↦ hcaught row hrow entry
    ⟨htree ▸ hwanted.mem, hwatches ▸ hwanted.watch, htree ▸ hwanted.readable, hwanted.path⟩

/-- A new directory is watched and recorded. -/
theorem Scanning.adds {wd above : Wd} {kernel : FileSystem} (huntouched : Untouched before top)
    (hscanning : Scanning cfg before s parentWd top news)
    (hplace : s.watcher.place = .inotifyAddWatch above path)
    (hresolve : s.kernel.tree.resolve path = some dir) (hreadable : dir ∉ s.kernel.tree.unreadable)
    (hwatch : WatchStep s.kernel wd dir kernel) (hfree : Free s.watcher.table ⟨wd, above, path⟩)
    (hcaught : ∀ row ∈ news, ∀ entry, Wanted cfg s row entry → Caught ⟨{ s.watcher with
      table := s.watcher.table ++ [⟨wd, above, path⟩], place := .opendir wd path }, kernel⟩
      row entry.name) :
    Scanning cfg before ⟨{ s.watcher with
      table := s.watcher.table ++ [⟨wd, above, path⟩], place := .opendir wd path }, kernel⟩
      parentWd top (news ++ [⟨wd, above, path⟩]) := by
  have hat := hscanning.place
  rw [hplace] at hat
  obtain ⟨hasked, -, hallowed, -⟩ := hat
  obtain ⟨row, hrow, entry, hentry, rfl, habove, rfl, rfl, hvisible⟩ :=
    hscanning.asked hasked hresolve
  have hmem : ∀ old ∈ news, old ∈ s.watcher.table := fun old hold ↦
    hscanning.table ▸ List.mem_append_right _ hold
  cases hwatch with
  | again hwatched => exact absurd hwatched (hscanning.not_watched huntouched hplace hresolve)
  | fresh hwd hdir hmade hpositive =>
    have hnewRow : RowFor cfg (s.kernel.watch wd entry.dir hwd hdir hmade) parentWd top
        ⟨wd, row.wd, joinPath row.path entry.name⟩ :=
        .child hvisible hentry hreadable hallowed (List.mem_cons_of_mem _ habove) List.mem_cons_self
    exact {
      tree := hscanning.tree
      table := by
        change s.watcher.table ++ [_] = _
        rw [hscanning.table, List.append_assoc]
      paths := by
        rw [List.map_append, List.nodup_append]
        exact ⟨hscanning.paths, by simp,
          by simpa using fun old hold ↦ (hfree old (hmem old hold)).2⟩
      rows := by
        intro other hother
        rcases List.mem_append.mp hother with hold | hnew
        · exact ⟨(hscanning.rows other hold).1,
            (hscanning.rows other hold).2.mono rfl (List.subset_cons_self _ _)⟩
        · rw [List.mem_singleton.mp hnew]
          exact ⟨hpositive, hnewRow⟩
      first := by
        obtain ⟨first, hfirst, hpath⟩ := hscanning.first
        exact ⟨first, List.mem_append_left _ hfirst, hpath⟩
      used := by
        intro other hother
        rcases List.mem_append.mp hother with hold | hnew
        · exact List.mem_cons_of_mem _ (hscanning.used other hold)
        · rw [List.mem_singleton.mp hnew]
          exact List.mem_cons_self
      watches := by
        intro watch hmemWatch
        rcases List.mem_cons.mp hmemWatch with rfl | hold
        · exact Or.inr ⟨_, List.mem_append_right _ (List.mem_singleton.mpr rfl), rfl⟩
        · exact (hscanning.watches watch hold).imp_right fun ⟨old, hmemOld, hsame⟩ ↦
            ⟨old, List.mem_append_left _ hmemOld, hsame⟩
      place := ⟨_, List.mem_append_right _ (List.mem_singleton.mpr rfl), rfl, rfl⟩
      frames := by
        intro frame hframe
        obtain ⟨old, hold, names, rfl, hnames⟩ := hscanning.frames frame hframe
        refine ⟨old, List.mem_append_left _ hold, names, rfl, fun name hname ↦ ?_⟩
        obtain ⟨found, hfound, hin, hsame⟩ := hnames name hname
        exact ⟨found, hfound, List.mem_cons_of_mem _ hin, hsame⟩
      found := by
        intro other hother found hwanted
        rcases List.mem_append.mp hother with hold | hnew
        · refine hcaught other hold found ⟨hwanted.mem, ?_, hwanted.readable, hwanted.path⟩
          refine (List.mem_cons.mp hwanted.watch).resolve_left fun hsame ↦ hwd ?_
          rw [← show other.wd = wd from congrArg Watch.wd hsame]
          exact hscanning.used other (hmem other hold)
        · rw [List.mem_singleton.mp hnew]
          exact Or.inr (.opens rfl) }

theorem Scanning.move (huntouched : Untouched before top)
    (hscanning : Scanning cfg before s parentWd top news) (hundisturbed : Undisturbed label)
    (hstep : s.step cfg fileSystem label = some after) (hmove : CallMove cfg s label after)
    (hruns : ¬ Stopped after.watcher) : ∃ news, Scanning cfg before after parentWd top news := by
  have hat := hscanning.place
  have hframes := hscanning.frames
  have hcaught : NewWatch s label → s.watcher.table ⊆ after.watcher.table → ∀ row ∈ news, ∀ entry,
      Wanted cfg s row entry → Caught after row entry.name :=
    fun hnew hkept row hrow entry hwanted ↦
      hscanning.caught hundisturbed hnew hstep hkept hruns hrow hwanted
  have hsame := List.Subset.refl s.watcher.table
  cases hmove with
  | stops hstopped => exact absurd hstopped hruns
  | refuses hplace =>
    rw [hplace] at hat
    exact ⟨news, hscanning.stay rfl rfl rfl rfl (fun hnil ↦ absurd hnil hat.2) hframes
      (hcaught trivial hsame)⟩
  | requests hplace hrefuses hfind =>
    rw [hplace] at hat
    exact ⟨news, hscanning.stay rfl rfl rfl rfl ⟨hat.1, hat.2, hrefuses, hfind⟩ hframes
      (hcaught trivial hsame)⟩
  | missed _ hplace =>
    rw [hplace] at hat
    exact ⟨news, hscanning.stay rfl rfl rfl rfl (fun hnil ↦ absurd hnil hat.2.1) hframes
      (hcaught trivial hsame)⟩
  | @reuses _ wd _ dir _ _ _ hplace hresolve hwatch hexists =>
    obtain ⟨old, hold, rfl⟩ := wdDirectoryExists_iff.mp hexists
    cases hwatch with
    | again hwatched => exact absurd hwatched (hscanning.not_watched huntouched hplace hresolve)
    | fresh hwd => exact absurd (hscanning.used old hold) hwd
  | adds hplace hresolve hreadable hwatch hfree =>
    exact ⟨_, hscanning.adds huntouched hplace hresolve hreadable hwatch hfree
      (hcaught (fun old hold ↦ (hfree old hold).1) (List.subset_append_left _ _))⟩
  | removes _ hplace | inserts hplace =>
    rw [hplace] at hat
    exact hat.elim
  | @opens wd path dir hplace hresolve =>
    rw [hplace] at hat
    obtain ⟨row, hrow, rfl, rfl⟩ := hat
    obtain ⟨other, hother, hleads⟩ := hscanning.accurate hrow
    obtain rfl := Option.some_inj.mp (hresolve.symm.trans hleads)
    exact ⟨news, hscanning.stay rfl rfl rfl rfl ⟨row, hrow, rfl, rfl, dir, hother, rfl⟩ hframes
      (hcaught trivial hsame)⟩
  | opensNothing _ hplace =>
    rw [hplace] at hat
    obtain ⟨row, hrow, rfl, rfl⟩ := hat
    exact ⟨news, hscanning.stay rfl rfl rfl rfl ⟨row, hrow, rfl, rfl, by simp [NamesIn]⟩ hframes
      (hcaught trivial hsame)⟩
  | @lists wd path names scan hplace hscan hmay =>
    rw [hplace] at hat
    obtain ⟨row, hrow, rfl, rfl, dir, hwatch, hstarted⟩ := hat
    obtain rfl := Option.some_inj.mp (hscan.symm.trans hstarted)
    refine ⟨news, hscanning.stay rfl rfl rfl rfl ⟨row, hrow, rfl, rfl, fun name hname ↦ ?_⟩ hframes
      (hcaught trivial hsame)⟩
    obtain ⟨found, hentry⟩ := DirTree.mem_listing.mp (hmay hname)
    exact ⟨_, hentry, hwatch, rfl⟩
  | @descends wd path name rest hplace =>
    rw [hplace] at hat
    obtain ⟨row, hrow, rfl, rfl, hnames⟩ := hat
    obtain ⟨entry, hentry, hwatch, hname⟩ := hnames name List.mem_cons_self
    refine ⟨news, hscanning.stay rfl rfl rfl rfl
      ⟨⟨row, hrow, entry, hentry, rfl, hwatch, ?_⟩, by simp⟩
      (fun frame hframe ↦ ?_) (hcaught trivial hsame)⟩
    · rw [hname]
    · rcases List.mem_cons.mp hframe with rfl | hrest
      · exact ⟨row, hrow, rest, rfl, fun other hother ↦ hnames other
          (List.mem_cons_of_mem _ hother)⟩
      · exact hframes frame hrest
  | finishes =>
    exact ⟨news, hscanning.stay rfl rfl rfl rfl (fun _ ↦ rfl) hframes (hcaught trivial hsame)⟩
  | @returns result wd path names rest hplace hstack =>
    obtain ⟨row, hrow, listed, hframe, hnames⟩ := hframes _ (hstack ▸ List.mem_cons_self)
    cases hframe
    exact ⟨news, hscanning.stay rfl rfl rfl rfl ⟨row, hrow, rfl, rfl, hnames⟩
      (fun frame hframe ↦ hframes frame (hstack ▸ List.mem_cons_of_mem _ hframe))
      (hcaught trivial hsame)⟩

/-! ### The start of the call -/

/-- Nothing has been changed, and the row of the path has not been inserted. -/
structure Opening (before s : System FileSystem) (parentWd : Wd) (top : Bytes) : Prop where
  kernel : s.kernel = before.kernel
  table : s.watcher.table = before.watcher.table
  stack : s.watcher.stack = []
  place : s.watcher.place = .addWatch parentWd top ∨
    s.watcher.place = .inotifyAddWatch parentWd top ∨ s.watcher.place = .returned (-1)

theorem Opening.adds {wd : Wd} {kernel : FileSystem} (huntouched : Untouched before top)
    (hopening : Opening before s parentWd top) (hresolve : s.kernel.tree.resolve top = some dir)
    (hwatch : WatchStep s.kernel wd dir kernel) :
    Scanning cfg before ⟨{ s.watcher with
      table := s.watcher.table ++ [⟨wd, parentWd, top⟩], place := .opendir wd top }, kernel⟩
      parentWd top [⟨wd, parentWd, top⟩] := by
  obtain ⟨hkernel, htable, hstack, -⟩ := hopening
  rw [hkernel] at hresolve hwatch
  cases hwatch with
  | again hwatched => exact absurd rfl (huntouched.unwatched top dir (.top hresolve) _ hwatched)
  | fresh hwd hdir hmade hpositive =>
    exact {
      tree := rfl
      table := by rw [htable]
      paths := by simp
      rows := by
        intro row hrow
        rw [List.mem_singleton.mp hrow]
        exact ⟨hpositive, .top hresolve List.mem_cons_self⟩
      first := ⟨_, List.mem_singleton.mpr rfl, rfl⟩
      used := by
        change ∀ row ∈ s.watcher.table ++ [_], _
        rw [htable]
        intro row hrow
        rcases List.mem_append.mp hrow with hold | hnew
        · exact List.mem_cons_of_mem _ (huntouched.used row hold)
        · rw [List.mem_singleton.mp hnew]
          exact List.mem_cons_self
      watches := by
        intro watch hmem
        rcases List.mem_cons.mp hmem with rfl | hold
        · exact Or.inr ⟨_, List.mem_singleton.mpr rfl, rfl⟩
        · exact Or.inl hold
      place := ⟨_, List.mem_singleton.mpr rfl, rfl, rfl⟩
      frames := by
        change ∀ frame ∈ s.watcher.stack, _
        simp [hstack]
      found := by
        intro row hrow entry _
        rw [List.mem_singleton.mp hrow]
        exact Or.inr (.opens rfl) }

theorem Opening.move (huntouched : Untouched before top) (hopening : Opening before s parentWd top)
    (hmove : CallMove cfg s label after) (hruns : ¬ Stopped after.watcher) :
    Opening before after parentWd top ∨ ∃ news, Scanning cfg before after parentWd top news := by
  obtain ⟨hkernel, htable, hstack, hplace⟩ := id hopening
  cases hmove with
  | stops hstopped => exact absurd hstopped hruns
  | refuses | missed => exact Or.inl ⟨hkernel, htable, hstack, Or.inr (Or.inr rfl)⟩
  | requests hat =>
    rcases hplace with hplace | hplace | hplace
    · rw [hat, Place.addWatch.injEq] at hplace
      obtain ⟨rfl, rfl⟩ := hplace
      exact Or.inl ⟨hkernel, htable, hstack, Or.inr (Or.inl rfl)⟩
    · simp [hat] at hplace
    · simp [hat] at hplace
  | @reuses asked wd path dir wds table kernel hat hresolve hwatch hexists =>
    obtain ⟨old, hold, rfl⟩ := wdDirectoryExists_iff.mp hexists
    rw [hkernel] at hresolve hwatch
    rw [htable] at hold
    rcases hplace with hplace | hplace | hplace
    · simp [hat] at hplace
    · rw [hat, Place.inotifyAddWatch.injEq] at hplace
      obtain ⟨rfl, rfl⟩ := hplace
      cases hwatch with
      | again hwatched =>
        exact absurd rfl (huntouched.unwatched path dir (.top hresolve) _ hwatched)
      | fresh hwd => exact absurd (huntouched.used old hold) hwd
    · simp [hat] at hplace
  | adds hat hresolve _ hwatch =>
    rcases hplace with hplace | hplace | hplace
    · simp [hat] at hplace
    · rw [hat, Place.inotifyAddWatch.injEq] at hplace
      obtain ⟨rfl, rfl⟩ := hplace
      exact Or.inr ⟨_, hopening.adds huntouched hresolve hwatch⟩
    · simp [hat] at hplace
  | returns _ hother => simp [hstack] at hother
  | removes _ hat | inserts hat | opens hat | opensNothing _ hat | lists hat | descends hat
  | finishes hat => rcases hplace with hplace | hplace | hplace <;> simp [hat] at hplace

/-! ### The end of the call -/

/-- The rows are those of the directories that can be reached from the path, one for each. -/
structure CoversTree (cfg : Config) (before after : System FileSystem) (parentWd : Wd) (top : Bytes)
    (news : List Row) : Prop where
  tree : after.kernel.tree = before.kernel.tree
  table : after.watcher.table = before.watcher.table ++ news
  nodup : news.Nodup
  first : ∃ row ∈ news, row.path = top ∧ row.parentWd = parentWd
  rows : ∀ row, row ∈ news ↔ RowFor cfg after.kernel parentWd top row
  covered : ∀ path dir, Visible cfg after.kernel.tree top path dir →
    ∃ row ∈ news, row.path = path ∧ ⟨row.wd, dir⟩ ∈ after.kernel.watches ∧
      ∀ other ∈ news, other.path = path ∨ ⟨other.wd, dir⟩ ∈ after.kernel.watches → other = row

/-- When the call has returned nothing is on its way. -/
theorem Scanning.recorded (hscanning : Scanning cfg before s parentWd top news) {result : ℤ}
    (hreturns : Returns s result) (hrow : row ∈ news) {entry : Entry}
    (hwanted : Wanted cfg s row entry) :
    ∃ child ∈ s.watcher.table, child.path = joinPath row.path entry.name := by
  refine (hscanning.found row hrow entry hwanted).resolve_right fun hunderway ↦ ?_
  cases hunderway with
  | asked hplace => simp [hreturns.place] at hplace
  | opens hplace | reads hplace | loops hplace => simp [hreturns.place] at hplace
  | waits hframe => simp [hreturns.stack] at hframe

theorem Scanning.covered (huntouched : Untouched before top)
    (hscanning : Scanning cfg before s parentWd top news) {result : ℤ} (hreturns : Returns s result)
    (hvisible : Visible cfg s.kernel.tree top path dir) :
    ∃ row ∈ news, row.path = path ∧ ⟨row.wd, dir⟩ ∈ s.kernel.watches := by
  have hwatched : ∀ row ∈ news, ∀ dir, s.kernel.tree.resolve row.path = some dir →
      ⟨row.wd, dir⟩ ∈ s.kernel.watches := by
    intro row hrow dir hresolve
    obtain ⟨other, hwatch, hother⟩ := hscanning.accurate hrow
    rwa [Option.some_inj.mp (hresolve.symm.trans hother)]
  induction hvisible with
  | top hresolve =>
    obtain ⟨row, hrow, rfl⟩ := hscanning.first
    exact ⟨row, hrow, rfl, hwatched row hrow _ hresolve⟩
  | @child path entry hparent hentry hreadable hallowed ih =>
    obtain ⟨row, hrow, rfl, hwatch⟩ := ih
    have hchildVisible := Visible.child hparent hentry hreadable hallowed
    obtain ⟨child, hchild, hpath⟩ :=
      hscanning.recorded hreturns hrow ⟨hentry, hwatch, hreadable, hallowed⟩
    rw [hscanning.table] at hchild
    rcases List.mem_append.mp hchild with hold | hnew
    · exact absurd hpath
        (huntouched.unrecorded _ _ (hscanning.tree ▸ hchildVisible.reached) child hold)
    · exact ⟨child, hnew, hpath, hwatched child hnew _ (hpath ▸ hchildVisible.resolve)⟩

theorem Scanning.coversTree (huntouched : Untouched before top)
    (hscanning : Scanning cfg before s parentWd top news) {result : ℤ}
    (hreturns : Returns s result) : CoversTree cfg before s parentWd top news := by
  have honly : ∀ row ∈ news, ∀ other ∈ news, row.path = other.path → row = other :=
    fun row hrow other hother ↦ List.inj_on_of_nodup_map hscanning.paths hrow hother
  obtain ⟨first, hfirst, hfirstPath⟩ := hscanning.first
  refine ⟨hscanning.tree, hscanning.table, hscanning.paths.of_map,
    ⟨first, hfirst, hfirstPath, (hscanning.rows first hfirst).2.parentWd_eq hfirstPath⟩, fun row ↦
    ⟨fun hrow ↦ (hscanning.rows row hrow).2, fun hfor ↦ ?_⟩, fun path dir hvisible ↦ ?_⟩
  · obtain ⟨dir, hvisible, -⟩ := hfor.exists_visible
    obtain ⟨found, hfound, hpath, -⟩ := hscanning.covered huntouched hreturns hvisible
    rwa [hfor.eq_of_path (hscanning.rows found hfound).2 hpath.symm]
  · obtain ⟨row, hrow, hpath, hwatch⟩ := hscanning.covered huntouched hreturns hvisible
    refine ⟨row, hrow, hpath, hwatch, fun other hother hsame ↦ honly other hother row hrow ?_⟩
    rcases hsame with hsamePath | hsameWatch
    · exact hsamePath.trans hpath.symm
    · rw [hpath]
      exact huntouched.short.oneName top List.mem_cons_self top List.mem_cons_self _ _ _
        (hscanning.tree ▸ (hscanning.visible hother hsameWatch).reached)
        (hscanning.tree ▸ hvisible.reached)

/-- A call of `add_watch` with nothing at or below its path watched or recorded, and a file
system at rest: if it returns zero, it has added exactly one row for each directory that can
be reached from the path by directories which are readable and neither excluded nor ignored;
otherwise it returns minus one, and has changed neither the table nor the watches. -/
theorem addWatch_covers_tree (cfg : Config) (s : System FileSystem) (parentWd : Wd) (path : Bytes)
    (huntouched : Untouched s path) {after : System FileSystem} {result : ℤ}
    (hreaches : ReachesWhen (System.step cfg fileSystem) (fun _ label ↦ Undisturbed label)
      (addWatchCall s parentWd path) after)
    (hreturns : Returns after result) :
    (result = 0 ∧ ∃ news, CoversTree cfg s after parentWd path news) ∨
      (result = -1 ∧ after.watcher.table = s.watcher.table ∧
        after.kernel.watches = s.kernel.watches) := by
  have hcalled : Opening s (addWatchCall s parentWd path) parentWd path :=
    ⟨rfl, rfl, rfl, Or.inl rfl⟩
  obtain ⟨-, hopening | ⟨news, hscanning⟩⟩ := holds_of_call
    (fun state ↦ Opening s state parentWd path ∨ ∃ news, Scanning cfg s state parentWd path news)
    (calling_addWatchCall s parentWd path) (Or.inl hcalled)
    (fun state label next hstate hundisturbed _ hstep hmove ↦ or_iff_not_imp_left.mpr fun hruns ↦
      hstate.elim (fun hopening ↦ hopening.move huntouched hmove hruns)
        fun ⟨_, hscanning⟩ ↦ Or.inr (hscanning.move huntouched hundisturbed hstep hmove hruns))
    (hreaches.mono fun _ _ hundisturbed ↦ ⟨hundisturbed, trivial⟩) hreturns.not_stopped
  · refine Or.inr ⟨?_, hopening.table, by rw [hopening.kernel]⟩
    rcases hopening.place with hplace | hplace | hplace
    · simp [hreturns.place] at hplace
    · simp [hreturns.place] at hplace
    · exact Place.returned.inj (hreturns.place.symm.trans hplace)
  · refine Or.inl ⟨?_, news, hscanning.coversTree huntouched hreturns⟩
    have hat := hscanning.place
    rw [hreturns.place] at hat
    exact hat hreturns.stack

/-- The first call for a directory with one sub-directory. -/
theorem addWatch_covers_tree_subDir :
    ∃ after news, Returns after 0 ∧ after.watcher.table = news ∧
      news = [⟨1, 0, literal "/t"⟩, ⟨2, 1, literal "/t/a"⟩] ∧
      CoversTree ⟨[literal "/t"], [], by decide⟩
        (System.start ⟨[literal "/t"], [], by decide⟩ (.start oneSubDir)) after 0
        (literal "/t") news := by
  have hrun : (runChecked (System.step ⟨[literal "/t"], [], by decide⟩ fileSystem)
      (fun _ label ↦ decide (Undisturbed label))
      (addWatchCall (System.start ⟨[literal "/t"], [], by decide⟩ (.start oneSubDir)) 0
        (literal "/t"))
      [.internal, .answer (.watch 1), .answer .done, .answer (.names [literal "a"]), .internal,
        .internal, .answer (.watch 2), .answer .done, .answer (.names []), .internal, .internal,
        .internal]).map (fun s ↦ (s.watcher.place, s.watcher.stack, s.watcher.table)) =
      some (.returned 0, [], [⟨1, 0, literal "/t"⟩, ⟨2, 1, literal "/t/a"⟩]) := by decide
  obtain ⟨after, hreaches, hseen⟩ := exists_reachesWhen_of_run hrun
  simp only [Prod.mk.injEq] at hseen
  obtain ⟨hreturned, hstack, htable⟩ := hseen
  have hlists : oneSubDir.Lists (literal "/t") [(literal "/t", 1), (literal "/t/a", 2)] := by
    refine ⟨fun dir hdir ↦ ?_, by decide⟩
    obtain rfl :=
      Option.some_inj.mp
        ((show oneSubDir.resolve (literal "/t") = some 1 by decide).symm.trans hdir)
    exact List.mem_cons_self
  have huntouched : Untouched (System.start ⟨[literal "/t"], [], by decide⟩ (.start oneSubDir))
      (literal "/t") :=
    ⟨hlists.shortPaths (by decide), fun _ _ _ watch hwatch ↦ absurd hwatch List.not_mem_nil,
      fun _ _ _ row hrow ↦ absurd hrow List.not_mem_nil, fun row hrow ↦
        absurd hrow List.not_mem_nil⟩
  rcases addWatch_covers_tree _ _ 0 _ huntouched hreaches ⟨hreturned, hstack⟩ with
    ⟨-, news, hcovers⟩ | ⟨hfailed, -⟩
  · have hnews : after.watcher.table = news := hcovers.table
    exact ⟨after, news, ⟨hreturned, hstack⟩, hnews, hnews.symm.trans htable, hcovers⟩
  · cases hfailed

end DirWatcher.Watching
