import DirWatcher.Environment.DirTree
import DirWatcher.Watching.Tables

/-!
Tables in which the parent links and the paths agree. Each row has its parent in the
table, with its path before the last name, or it has none and no recorded path lies
above its own. In such a table the rows that a prune removes are the rows that lie
below by path.
-/

set_option autoImplicit false
set_option relaxedAutoImplicit false

namespace DirWatcher.Watching

open Source Environment Foundation.ParentLinks Foundation.SeparatedPaths

/-- The second path lies strictly below the first. -/
abbrev AbovePath : Bytes → Bytes → Prop := Above slash

/-- The first row is the parent of the second, and the paths say so too. -/
structure ParentOf (parent row : Row) : Prop where
  link : row.parentWd = parent.wd
  path : ∃ name, ValidName name ∧ row.path = joinPath parent.path name

/-- A row without a parent, above which nothing is recorded. -/
structure IsRoot (table : Table) (row : Row) : Prop where
  link : row.parentWd = nullWd
  path : ∀ old ∈ table, ¬ AbovePath old.path row.path

def Rooted (table : Table) : Prop :=
  ∀ row ∈ table, IsRoot table row ∨ ∃ parent ∈ table, ParentOf parent row

variable {table after : Table} {row new : Row}

theorem rooted_nil : Rooted [] := by simp [Rooted]

theorem ParentOf.length_lt {parent : Row} (hparent : ParentOf parent row) :
    parent.path.length < row.path.length := by
  obtain ⟨name, -, hpath⟩ := hparent.path
  rw [hpath, length_joinPath]
  omega

theorem ParentOf.above {parent : Row} (hparent : ParentOf parent row) :
    AbovePath parent.path row.path := by
  obtain ⟨name, -, hpath⟩ := hparent.path
  rw [hpath]
  exact above_join

/-- What a new row must be like for the table to stay rooted: its parent is recorded,
or it has none and its path lies neither above nor below a recorded one. -/
def RowFits (table : Table) (row : Row) : Prop :=
  if row.parentWd = nullWd then
    ∀ old ∈ table, ¬ AbovePath old.path row.path ∧ ¬ AbovePath row.path old.path
  else ∃ parent ∈ table, parent.wd = row.parentWd

instance (table : Table) (row : Row) : Decidable (RowFits table row) := by
  unfold RowFits
  infer_instance

/-- With a parent of the new row, nothing recorded loses its place at the root. -/
theorem Rooted.insert (hrooted : Rooted table) (hfits : RowFits table new)
    (hextends : ∀ parent ∈ table, parent.wd = new.parentWd → ParentOf parent new) :
    Rooted (table ++ [new]) := by
  have hroots : ∀ row ∈ table, IsRoot table row → ¬ AbovePath new.path row.path := by
    intro row hrow hroot habove
    by_cases hnull : new.parentWd = nullWd
    · rw [RowFits, if_pos hnull] at hfits
      exact (hfits row hrow).2 habove
    · rw [RowFits, if_neg hnull] at hfits
      obtain ⟨parent, hparent, hwd⟩ := hfits
      obtain ⟨name, -, hpath⟩ := (hextends parent hparent hwd).path
      rw [hpath] at habove
      exact hroot.path parent hparent habove.of_join
  intro row hrow
  rcases List.mem_append.mp hrow with hold | hnew
  · refine (hrooted row hold).imp (fun hroot ↦ ⟨hroot.link, fun old hmem ↦ ?_⟩) ?_
    · rcases List.mem_append.mp hmem with hmem | hmem
      · exact hroot.path old hmem
      · rw [List.mem_singleton.mp hmem]
        exact hroots row hold hroot
    · rintro ⟨parent, hparent, hof⟩
      exact ⟨parent, List.mem_append_left _ hparent, hof⟩
  · rw [List.mem_singleton.mp hnew]
    by_cases hnull : new.parentWd = nullWd
    · rw [RowFits, if_pos hnull] at hfits
      refine Or.inl ⟨hnull, fun old hmem ↦ ?_⟩
      rcases List.mem_append.mp hmem with hmem | hmem
      · exact (hfits old hmem).1
      · rw [List.mem_singleton.mp hmem]
        exact not_above_self
    · rw [RowFits, if_neg hnull] at hfits
      obtain ⟨parent, hparent, hwd⟩ := hfits
      exact Or.inr ⟨parent, List.mem_append_left _ hparent, hextends parent hparent hwd⟩

/-- Rows may leave a rooted table when none of those left has its parent among them. -/
theorem Rooted.subset (hrooted : Rooted table) (hsub : after ⊆ table)
    (hclosed : ∀ row ∈ after, ∀ parent ∈ table, row.parentWd = parent.wd → parent ∈ after) :
    Rooted after := by
  intro row hrow
  refine (hrooted row (hsub hrow)).imp (fun hroot ↦ ⟨hroot.link, fun old hold ↦ ?_⟩) ?_
  · exact hroot.path old (hsub hold)
  · rintro ⟨parent, hparent, hof⟩
    exact ⟨parent, hclosed row hrow parent hparent hof.link, hof⟩

theorem Rooted.prune (hrooted : Rooted table) {wd : Wd} {wds : List Wd}
    (hprune : pruneWdDirectory table wd = some (wds, after)) : Rooted after := by
  obtain ⟨hwds, hmem, hsub⟩ := pruneWdDirectory_spec hprune
  refine hrooted.subset hsub.subset fun row hrow parent hparent hlink ↦ ?_
  obtain ⟨hrow, hleft⟩ := (hmem row).mp hrow
  refine (hmem parent).mpr ⟨hparent, fun hremoved ↦ hleft ?_⟩
  have hbelow := (hwds parent.wd).mp hremoved
  exact (hwds row.wd).mpr (hbelow.tail (mem_findChildren.mpr ⟨row, hrow, rfl, hlink⟩))

theorem Rooted.remove (hrooted : Rooted table) {wd : Wd}
    (hleaf : ∀ row ∈ table, row.parentWd ≠ wd) : Rooted (removeWdDirectory table wd) := by
  refine hrooted.subset removeWdDirectory_sublist.subset fun row hrow parent hparent hlink ↦ ?_
  refine mem_removeWdDirectory.mpr ⟨hparent, ?_⟩
  rintro rfl
  exact hleaf row (mem_removeWdDirectory.mp hrow).1 hlink

/-! ### Subtrees by path and by links -/

/-- The path of the row is the given path or lies below it. -/
def AtOrBelow (path : Bytes) (row : Row) : Prop := row.path = path ∨ AbovePath path row.path

/-- A row that lies at or below a name in a recorded directory is linked to a row for
just that name. The induction is on the length of its path: the parent of a row is
at least as high as the name, or the row stands at the name itself. -/
theorem Rooted.exists_belowWd (hrooted : Rooted table) {parent : Row} (hparent : parent ∈ table)
    {name : Bytes} (hrow : row ∈ table)
    (hbelow : AtOrBelow (joinPath parent.path name) row) :
    ∃ top ∈ table, top.path = joinPath parent.path name ∧ BelowWd table top.wd row.wd := by
  induction hlength : row.path.length using Nat.strong_induction_on generalizing row with
  | _ length ih =>
    rcases hbelow with hat | habove
    · exact ⟨row, hrow, hat, Relation.ReflTransGen.refl⟩
    · rcases hrooted row hrow with hroot | ⟨next, hnext, hof⟩
      · exact absurd habove.of_join (hroot.path parent hparent)
      · obtain ⟨last, hlast, hpath⟩ := hof.path
        rw [hpath] at habove
        obtain ⟨top, htop, htopPath, hlinks⟩ :=
          ih next.path.length (hlength ▸ hof.length_lt) hnext
            (eq_or_above_of_above_join hlast.slash habove) rfl
        exact ⟨top, htop, htopPath, hlinks.tail (mem_findChildren.mpr ⟨row, hrow, rfl, hof.link⟩)⟩

/-- The rows linked below a row have longer paths. -/
theorem Rooted.length_le_of_belowWd (hrooted : Rooted table) (hkeyed : Keyed table) {top : Row}
    (htop : top ∈ table) {wd : Wd} (hbelow : BelowWd table top.wd wd) :
    ∃ row ∈ table, row.wd = wd ∧ top.path.length ≤ row.path.length := by
  induction hbelow with
  | refl => exact ⟨top, htop, rfl, le_rfl⟩
  | tail _ hlink ih =>
    obtain ⟨above, habove, hwd, hle⟩ := ih
    obtain ⟨row, hrow, rfl, hparent⟩ := mem_findChildren.mp hlink
    refine ⟨row, hrow, rfl, hle.trans ?_⟩
    rcases hrooted row hrow with hroot | ⟨parent, hparentMem, hof⟩
    · have hpositive := hkeyed.positive above habove
      rw [hwd, ← hparent, hroot.link] at hpositive
      exact absurd hpositive (lt_irrefl _)
    · obtain rfl : parent = above :=
        hkeyed.eq_of_wd hparentMem habove (by rw [hwd, ← hparent, hof.link])
      exact hof.length_lt.le

/-- The parent of a row is the one with the path before its last name, if that is
recorded. -/
theorem Rooted.parentOf_of_path (hrooted : Rooted table) (hkeyed : Keyed table) {parent : Row}
    (hparent : parent ∈ table) (hrow : row ∈ table) {name : Bytes} (hname : ValidName name)
    (hpath : row.path = joinPath parent.path name) : ParentOf parent row := by
  rcases hrooted row hrow with hroot | ⟨other, hother, hof⟩
  · exact absurd (hpath ▸ above_join) (hroot.path parent hparent)
  · obtain ⟨last, hlast, hjoin⟩ := hof.path
    obtain ⟨hsame, -⟩ := join_inj hname.slash hlast.slash (hpath.symm.trans hjoin)
    rwa [hkeyed.eq_of_path hparent hother hsame]

/-- Above each row by path there is one without a parent, or it is such a row itself. -/
theorem Rooted.exists_root (hrooted : Rooted table) (hrow : row ∈ table) :
    ∃ root ∈ table, root.parentWd = nullWd ∧ AtOrBelow root.path row := by
  induction hlength : row.path.length using Nat.strong_induction_on generalizing row with
  | _ length ih =>
    rcases hrooted row hrow with hroot | ⟨parent, hparent, hof⟩
    · exact ⟨row, hrow, hroot.link, Or.inl rfl⟩
    · obtain ⟨root, hroot, hnull, hbelow⟩ := ih _ (hlength ▸ hof.length_lt) hparent rfl
      refine ⟨root, hroot, hnull, Or.inr ?_⟩
      rcases hbelow with hat | habove
      · exact hat ▸ hof.above
      · exact habove.trans hof.above

end DirWatcher.Watching
