import DirWatcher.Source.WdDirectory

/-!
What the functions of `wd_directory.c` do to a table, said by membership.
-/

set_option autoImplicit false
set_option relaxedAutoImplicit false

namespace DirWatcher.Watching

open Source Foundation.ParentLinks

variable {table after : Table} {row : Row} {wd : Wd} {path : Bytes}

/-! ### The queries -/

theorem wdDirectoryExists_iff : wdDirectoryExists table wd = true ↔ ∃ row ∈ table, row.wd = wd := by
  simp [wdDirectoryExists]

theorem wdDirectoryExists_eq_false_iff :
    wdDirectoryExists table wd = false ↔ ∀ row ∈ table, row.wd ≠ wd := by
  simp [wdDirectoryExists]

theorem exists_of_findDirectoryWd_ne (hfind : findDirectoryWd table path ≠ nullWd) :
    ∃ row ∈ table, row.path = path ∧ row.wd = findDirectoryWd table path := by
  unfold findDirectoryWd at hfind ⊢
  cases hrow : table.find? (·.path == path) with
  | none => simp [hrow] at hfind
  | some row =>
    exact ⟨row, List.mem_of_find?_eq_some hrow, by simpa using List.find?_some hrow, rfl⟩

/-- The lookup of a recorded path finds a row. -/
theorem exists_of_findDirectoryWd (hrow : row ∈ table) :
    ∃ found ∈ table, found.path = row.path ∧ found.wd = findDirectoryWd table row.path := by
  unfold findDirectoryWd
  cases hfind : table.find? (·.path == row.path) with
  | none => exact absurd (List.find?_eq_none.mp hfind row hrow) (by simp)
  | some found =>
    exact ⟨found, List.mem_of_find?_eq_some hfind, by simpa using List.find?_some hfind, rfl⟩

theorem findWdDirectory_eq_none_iff {maxLen : ℕ} :
    findWdDirectory table wd maxLen = none ↔ ∀ row ∈ table, row.wd ≠ wd := by
  simp [findWdDirectory]

theorem exists_of_findWdDirectory_eq_some {maxLen : ℕ}
    (hfind : findWdDirectory table wd maxLen = some path) :
    ∃ row ∈ table, row.wd = wd ∧ row.path.take maxLen = path := by
  obtain ⟨row, hrow, hpath⟩ := Option.map_eq_some_iff.mp hfind
  exact ⟨row, List.mem_of_find?_eq_some hrow, by simpa using List.find?_some hrow, hpath⟩

theorem mem_findChildren {child : Wd} :
    child ∈ findChildren table wd ↔ ∃ row ∈ table, row.wd = child ∧ row.parentWd = wd := by
  simp only [findChildren, List.mem_map, List.mem_filter, beq_iff_eq]
  constructor
  · rintro ⟨row, ⟨hrow, hparent⟩, hwd⟩
    exact ⟨row, hrow, hwd, hparent⟩
  · rintro ⟨row, hrow, hwd, hparent⟩
    exact ⟨row, ⟨hrow, hparent⟩, hwd⟩

/-! ### The statements that change the table -/

/-- The rows satisfy the primary key, the unique index, and the sign of a watch
descriptor. -/
structure Keyed (table : Table) : Prop where
  wds : (table.map Row.wd).Nodup
  paths : (table.map Row.path).Nodup
  positive : ∀ row ∈ table, 0 < row.wd

theorem keyed_nil : Keyed [] := ⟨by simp, by simp, by simp⟩

theorem Keyed.sublist (hkeyed : Keyed table) (hsub : after.Sublist table) : Keyed after :=
  ⟨hkeyed.wds.sublist (hsub.map _), hkeyed.paths.sublist (hsub.map _),
    fun row hrow ↦ hkeyed.positive row (hsub.subset hrow)⟩

theorem Keyed.eq_of_wd (hkeyed : Keyed table) {first second : Row} (hfirst : first ∈ table)
    (hsecond : second ∈ table) (hwd : first.wd = second.wd) : first = second :=
  List.inj_on_of_nodup_map hkeyed.wds hfirst hsecond hwd

theorem Keyed.eq_of_path (hkeyed : Keyed table) {first second : Row} (hfirst : first ∈ table)
    (hsecond : second ∈ table) (hpath : first.path = second.path) : first = second :=
  List.inj_on_of_nodup_map hkeyed.paths hfirst hsecond hpath

/-- No row of the table has the watch descriptor or the path of the new row. -/
def Free (table : Table) (row : Row) : Prop :=
  ∀ old ∈ table, old.wd ≠ row.wd ∧ old.path ≠ row.path

theorem addWdDirectory_eq_some_iff :
    addWdDirectory table row = some after ↔ Free table row ∧ after = table ++ [row] := by
  unfold addWdDirectory Free
  split_ifs with hclash
  · obtain ⟨old, hold, hsame⟩ := List.any_eq_true.mp hclash
    simp only [Bool.or_eq_true, beq_iff_eq] at hsame
    constructor
    · rintro ⟨⟩
    · rintro ⟨hfree, -⟩
      rcases hsame with hwd | hpath
      · exact absurd hwd (hfree old hold).1
      · exact absurd hpath (hfree old hold).2
  · have hfree : ∀ old ∈ table, old.wd ≠ row.wd ∧ old.path ≠ row.path := by
      simpa [not_or] using hclash
    rw [Option.some_inj, and_iff_right hfree, eq_comm]

theorem addWdDirectory_eq_none_iff : addWdDirectory table row = none ↔ ¬ Free table row := by
  rw [Option.eq_none_iff_forall_ne_some]
  constructor
  · intro hnone hfree
    exact hnone _ (addWdDirectory_eq_some_iff.mpr ⟨hfree, rfl⟩)
  · intro hclash inserted hsome
    exact hclash (addWdDirectory_eq_some_iff.mp hsome).1

theorem Keyed.insert (hkeyed : Keyed table) (hfree : Free table row) (hpositive : 0 < row.wd) :
    Keyed (table ++ [row]) := by
  refine ⟨?_, ?_, ?_⟩
  · rw [List.map_append, List.nodup_append]
    exact ⟨hkeyed.wds, by simp, by simpa using fun old hold ↦ (hfree old hold).1⟩
  · rw [List.map_append, List.nodup_append]
    exact ⟨hkeyed.paths, by simp, by simpa using fun old hold ↦ (hfree old hold).2⟩
  · intro old hold
    rcases List.mem_append.mp hold with hmem | hnew
    · exact hkeyed.positive old hmem
    · obtain rfl := List.mem_singleton.mp hnew
      exact hpositive

theorem Keyed.findDirectoryWd_eq (hkeyed : Keyed table) (hrow : row ∈ table) :
    findDirectoryWd table row.path = row.wd := by
  obtain ⟨found, hfound, hpath, hwd⟩ := exists_of_findDirectoryWd hrow
  rw [← hwd, hkeyed.eq_of_path hfound hrow hpath]

theorem Keyed.findDirectoryWd_ne (hkeyed : Keyed table) (hrow : row ∈ table) :
    findDirectoryWd table row.path ≠ nullWd := by
  rw [hkeyed.findDirectoryWd_eq hrow]
  exact ne_of_gt (hkeyed.positive row hrow)

theorem Keyed.not_recorded_of_findDirectoryWd (hkeyed : Keyed table)
    (hfind : findDirectoryWd table path = nullWd) (hrow : row ∈ table) : row.path ≠ path := by
  rintro rfl
  exact hkeyed.findDirectoryWd_ne hrow hfind

theorem Keyed.findWdDirectory_eq (hkeyed : Keyed table) (hrow : row ∈ table) (maxLen : ℕ) :
    findWdDirectory table row.wd maxLen = some (row.path.take maxLen) := by
  cases hfind : findWdDirectory table row.wd maxLen with
  | none => exact absurd rfl (findWdDirectory_eq_none_iff.mp hfind row hrow)
  | some path =>
    obtain ⟨found, hfound, hwd, hpath⟩ := exists_of_findWdDirectory_eq_some hfind
    rw [← hpath, hkeyed.eq_of_wd hfound hrow hwd]

@[simp] theorem mem_removeWdDirectory :
    row ∈ removeWdDirectory table wd ↔ row ∈ table ∧ row.wd ≠ wd := by
  simp [removeWdDirectory]

theorem removeWdDirectory_sublist : (removeWdDirectory table wd).Sublist table :=
  List.filter_sublist

theorem mem_foldl_removeWdDirectory {wds : List Wd} :
    row ∈ wds.foldl removeWdDirectory table ↔ row ∈ table ∧ row.wd ∉ wds := by
  induction wds generalizing table with
  | nil => simp
  | cons first rest ih =>
    rw [List.foldl_cons, ih, mem_removeWdDirectory, List.mem_cons, not_or, and_assoc]

theorem foldl_removeWdDirectory_eq (wds : List Wd) :
    wds.foldl removeWdDirectory table = table.filter (·.wd ∉ wds) := by
  induction wds generalizing table with
  | nil => simp
  | cons first rest ih =>
    rw [List.foldl_cons, ih, removeWdDirectory, List.filter_filter]
    congr 1
    ext row
    by_cases hfirst : row.wd = first <;> simp [hfirst]

theorem foldl_removeWdDirectory_sublist {wds : List Wd} :
    (wds.foldl removeWdDirectory table).Sublist table := by
  induction wds generalizing table with
  | nil => exact List.Sublist.refl _
  | cons first rest ih => exact ih.trans removeWdDirectory_sublist

/-! ### Pruning -/

/-- The second watch descriptor is the first or lies below it by `parent_wd` links. -/
abbrev BelowWd (table : Table) : Wd → Wd → Prop := Below (findChildren table)

/-- A watch descriptor that is reachable from itself by `parent_wd` links. -/
abbrev OnWdCycle (table : Table) : Wd → Prop := OnCycle (findChildren table)

theorem pruneWdDirectory_spec {wds : List Wd}
    (hprune : pruneWdDirectory table wd = some (wds, after)) :
    (∀ other, other ∈ wds ↔ BelowWd table wd other) ∧
      (∀ row, row ∈ after ↔ row ∈ table ∧ row.wd ∉ wds) ∧ after.Sublist table := by
  obtain ⟨walked, hwalk, heq⟩ := Option.map_eq_some_iff.mp hprune
  cases heq
  exact ⟨fun other ↦ mem_traverse_iff hwalk, fun row ↦ mem_foldl_removeWdDirectory,
    foldl_removeWdDirectory_sublist⟩

/-- With the primary key alone, each watch descriptor has one parent. -/
theorem forest_of_nodup (hwds : (table.map Row.wd).Nodup) :
    Forest (findChildren table) (table.map Row.wd) where
  mem := by
    intro parent child hchild
    obtain ⟨row, hrow, rfl, -⟩ := mem_findChildren.mp hchild
    exact List.mem_map_of_mem hrow
  nodup := fun parent ↦ hwds.sublist (List.filter_sublist.map _)
  oneParent := by
    intro first second child hfirst hsecond
    obtain ⟨row, hrow, hwd, rfl⟩ := mem_findChildren.mp hfirst
    obtain ⟨other, hother, hwd', rfl⟩ := mem_findChildren.mp hsecond
    rw [List.inj_on_of_nodup_map hwds hrow hother (hwd.trans hwd'.symm)]

/-- A prune ends when it does not start on a cycle of `parent_wd` links. -/
theorem exists_prune_of_nodup (hwds : (table.map Row.wd).Nodup) (hcycle : ¬ OnWdCycle table wd) :
    ∃ wds after, pruneWdDirectory table wd = some (wds, after) := by
  obtain ⟨wds, hwalk⟩ := exists_traverse (forest_of_nodup hwds) hcycle
    (by simp : (table.map Row.wd).length + 1 ≤ table.length + 1)
  exact ⟨wds, _, by rw [pruneWdDirectory, hwalk, Option.map_some]⟩

theorem Keyed.exists_prune (hkeyed : Keyed table) (hcycle : ¬ OnWdCycle table wd) :
    ∃ wds after, pruneWdDirectory table wd = some (wds, after) :=
  exists_prune_of_nodup hkeyed.wds hcycle

end DirWatcher.Watching
