import DirWatcher.Program.Delivery
import DirWatcher.Watching.Heeded

/-!
The way of a change to a notification file, while directories are made, moved and removed.
-/

set_option autoImplicit false
set_option relaxedAutoImplicit false

namespace DirWatcher.Program

open Source Environment Foundation.Runs Cache Watching

/-- The act changes something in the directory, or makes it. -/
inductive Touches (fs : FileSystem) (dir : Dir) : FsAct → Prop
  | file {event : Event} (hchange : FileChange event) (hwatch : ⟨event.wd, dir⟩ ∈ fs.watches) :
      Touches fs dir (.fileEvent event)
  | made {readable : Bool} {parent : Dir} {name : Bytes} (hdir : fs.tree.next = dir) :
      Touches fs dir (.mkdir readable parent name)
  | leaves {entry : Entry} {parent : Dir} {name : Bytes} {cookie : UInt32}
      (hdir : entry.parent = dir) : Touches fs dir (.rename entry parent name cookie)
  | arrives {entry : Entry} {name : Bytes} {cookie : UInt32} :
      Touches fs dir (.rename entry dir name cookie)
  | removed {entry : Entry} (hdir : entry.parent = dir) : Touches fs dir (.rmdir entry)

theorem telling_congr {first second : Event} (hmask : first.mask = second.mask) :
    Telling first ↔ Telling second := by
  have hbranch : first.branch = second.branch := by
    unfold Event.branch Event.has
    rw [hmask]
  rw [Telling, hbranch, Telling]

/-- The watch on the directory is told, if there is one. -/
theorem announcing_of_notices {s : System FileSystem} {kernel : FileSystem} {dir : Dir}
    {mask cookie : UInt32} {name : Bytes} {news : List Event}
    (hchanges : Changes s.kernel news kernel) (htelling : Telling ⟨0, mask, 0, []⟩)
    (hnotices : s.kernel.notices dir mask cookie name ⊆ news) :
    Announcing { s with kernel } dir := by
  rintro watch hwatch rfl
  refine ⟨⟨watch.wd, mask, cookie, name⟩, ?_, (telling_congr rfl).mpr htelling, rfl⟩
  rw [pending_of_queue hchanges.queue]
  refine List.mem_append_right _ (hnotices ?_)
  exact FileSystem.mem_notices.mpr ⟨watch.wd, hchanges.watches hwatch, rfl⟩

/-- What is touched by an act is unwatched, or its watch has been told. -/
theorem announcing_of_touches {cfg : Config} {s after : System FileSystem} {dir : Dir}
    {action : FsAct} (htouches : Touches s.kernel dir action)
    (hstep : s.step cfg fileSystem (.act action) = some after) : Announcing after dir := by
  obtain ⟨kernel, hact, rfl⟩ := System.exists_kernel hstep
  cases htouches with
  | file hchange hwatch =>
    have hchanges := FileSystem.changes_fileEvent hact
    rintro watch hon rfl
    refine ⟨_, ?_, hchange.telling, FileSystem.wd_eq_of_dir hwatch (hchanges.watches hon)⟩
    rw [pending_of_queue hchanges.queue]
    exact List.mem_append_right _ (List.mem_singleton_self _)
  | made hdir =>
    have hchanges := FileSystem.changes_mkdir hact
    rintro watch hon rfl
    exact absurd (s.kernel.known watch (hchanges.watches hon)).2 (by simp [hdir])
  | leaves hdir =>
    subst hdir
    exact announcing_of_notices (FileSystem.changes_rename hact) (by decide)
      (List.subset_append_left _ _)
  | arrives =>
    refine announcing_of_notices (FileSystem.changes_rename hact) ?_ fun event hevent ↦
      List.mem_append_right _ (List.mem_append_left _ hevent)
    decide
  | removed hdir =>
    subst hdir
    exact announcing_of_notices (FileSystem.changes_rmdir hact) (by decide)
      (List.Subset.refl _)

/-- No directory is lost, and a failed write is noticed. -/
structure CoveredStep (p : Process FileSystem) (label : ProcessLabel FsAct) : Prop where
  coverage : OnSystem CoverageStep p label
  notices : OnLoop NoticesFailures p label

instance (p : Process FileSystem) (label : ProcessLabel FsAct) : Decidable (CoveredStep p label) :=
  decidable_of_iff (OnSystem CoverageStep p label ∧ OnLoop NoticesFailures p label)
    ⟨fun ⟨hcoverage, hnotices⟩ ↦ ⟨hcoverage, hnotices⟩,
      fun ⟨hcoverage, hnotices⟩ ↦ ⟨hcoverage, hnotices⟩⟩

end DirWatcher.Program
