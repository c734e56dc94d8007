import DirWatcher.Environment.Refinement

/-!
What happens to the directories, together with what inotify tells about it. A place
that a directory has left or come to is announced to the watch on the directory
around it, and the last thing a pending queue says about a place is true.
-/

set_option autoImplicit false
set_option relaxedAutoImplicit false

namespace DirWatcher.Environment

open Source

/-- What an act does to a file system, with the events it queues. -/
structure Changes (fs : FileSystem) (news : List Event) (after : FileSystem) : Prop where
  queue : after.queue = fs.queue ++ news
  used : after.used = fs.used
  next : fs.tree.next ≤ after.tree.next
  unreadable : ∀ dir < fs.tree.next, dir ∈ after.tree.unreadable ↔ dir ∈ fs.tree.unreadable
  watches : after.watches ⊆ fs.watches
  /-- A watch dies with a directory that has been removed, some time after its removal. -/
  dying : ∀ watch ∈ fs.watches, watch ∈ after.watches ∨
    ¬ fs.tree.Attached watch.dir ∧ after.tree = fs.tree
  /-- A removed directory does not come back. -/
  removed : ∀ dir < fs.tree.next, ¬ fs.tree.Attached dir → ¬ after.tree.Attached dir
  kept : ∀ entry ∈ fs.tree.entries, entry ∈ after.tree.entries ∨
    ¬ after.tree.Attached entry.dir ∨ ∀ wd, ⟨wd, entry.parent⟩ ∈ fs.watches →
      ∃ event ∈ news, Departure event ∧ event.wd = wd ∧ event.name = entry.name
  arrived : ∀ entry ∈ after.tree.entries, entry ∈ fs.tree.entries ∨
    ∀ wd, ⟨wd, entry.parent⟩ ∈ fs.watches →
      ∃ event ∈ news, Arrival event ∧ event.wd = wd ∧ event.name = entry.name
  departed : ∀ entry ∈ after.tree.entries, ∀ wd, ⟨wd, entry.parent⟩ ∈ fs.watches →
    ∀ event ∈ news, Departure event → event.wd = wd → event.name ≠ entry.name
  scan : ∀ scan ∈ fs.scan, ∃ later ∈ after.scan, later.dir = scan.dir ∧
    ∀ entry ∈ after.tree.entries, entry ∈ fs.tree.entries → entry.parent = scan.dir →
      entry.name ∈ scan.must → entry.name ∈ later.must

/-! ### Events by their masks -/

section Masks

variable {wd : Wd} {cookie : UInt32} {name : Bytes}

theorem arrival_createDir : Arrival ⟨wd, createDirMask, cookie, name⟩ :=
  (arrival_congr rfl).mpr (by decide : Arrival ⟨0, createDirMask, 0, []⟩)

theorem arrival_movedTo : Arrival ⟨wd, FileSystem.movedToDirMask, cookie, name⟩ :=
  (arrival_congr rfl).mpr (by decide : Arrival ⟨0, FileSystem.movedToDirMask, 0, []⟩)

theorem departure_movedFrom : Departure ⟨wd, FileSystem.movedFromDirMask, cookie, name⟩ :=
  (departure_congr rfl).mpr (by decide : Departure ⟨0, FileSystem.movedFromDirMask, 0, []⟩)

theorem not_departure_of_mask {mask : UInt32}
    (hmask : mask ∈ [createDirMask, FileSystem.movedToDirMask, FileSystem.deleteDirMask,
      inMoveSelf, inDeleteSelf, inIgnored]) : ¬ Departure ⟨wd, mask, cookie, name⟩ := by
  have hsame : Departure ⟨wd, mask, cookie, name⟩ ↔ Departure ⟨0, mask, 0, []⟩ :=
    departure_congr rfl
  rw [hsame]
  simp only [List.mem_cons, List.not_mem_nil, or_false] at hmask
  rcases hmask with rfl | rfl | rfl | rfl | rfl | rfl <;> decide

end Masks

/-- A name that does not leave is still to be found. -/
theorem Scan.mem_must_leave {scan : Scan} {entry : Entry} {name : Bytes} (hmust : name ∈ scan.must)
    (hstays : entry.parent = scan.dir → name ≠ entry.name) : name ∈ (scan.leave entry).must := by
  unfold Scan.leave
  split_ifs with hparent
  · exact List.mem_filter.mpr ⟨hmust, by simpa using hstays hparent⟩
  · exact hmust

namespace FileSystem

variable {fs after : FileSystem} {dir : Dir} {mask cookie : UInt32} {name : Bytes} {event : Event}

/-- The events that the watch on a directory is sent. -/
def notices (fs : FileSystem) (dir : Dir) (mask cookie : UInt32) (name : Bytes) : List Event :=
  ((fs.watchOn dir).map fun wd ↦ ⟨wd, mask, cookie, name⟩).toList

theorem mem_notices : event ∈ fs.notices dir mask cookie name ↔
    ∃ wd, ⟨wd, dir⟩ ∈ fs.watches ∧ event = ⟨wd, mask, cookie, name⟩ := by
  rw [notices, Option.mem_toList, Option.map_eq_some_iff]
  exact exists_congr fun wd ↦ and_congr watchOn_eq_some_iff eq_comm

theorem notify_eq : fs.notify dir mask cookie name =
    { fs with queue := fs.queue ++ fs.notices dir mask cookie name } := by
  unfold notify notices
  split
  · next hnone => simp [hnone]
  · next hsome => simp [hsome, emit]

theorem dir_eq_of_wd {wd : Wd} {first second : Dir} (hfirst : ⟨wd, first⟩ ∈ fs.watches)
    (hsecond : ⟨wd, second⟩ ∈ fs.watches) : first = second :=
  congrArg Watch.dir (List.inj_on_of_nodup_map fs.wds hfirst hsecond rfl)

theorem wd_eq_of_dir {first second : Wd} (hfirst : ⟨first, dir⟩ ∈ fs.watches)
    (hsecond : ⟨second, dir⟩ ∈ fs.watches) : first = second :=
  congrArg Watch.wd (List.inj_on_of_nodup_map fs.dirs hfirst hsecond rfl)

theorem changes_mkdir {readable : Bool} {parent : Dir}
    (hmkdir : fs.mkdir readable parent name = some after) :
    Changes fs (fs.notices parent createDirMask 0 name) after := by
  unfold mkdir at hmkdir
  split_ifs at hmkdir with h
  cases hmkdir
  obtain ⟨hattached, hname, hfree⟩ := h
  rw [notify_eq]
  have hmem : ∀ entry,
    entry ∈ (fs.tree.makeDir readable parent name hname hattached.lt_next).entries ↔
      entry = ⟨parent, name, fs.tree.next⟩ ∨ entry ∈ fs.tree.entries := fun entry ↦
    DirTree.mem_makeDir hfree
  refine ⟨rfl, rfl, Nat.le_succ _, ?_, List.Subset.refl _, fun watch hwatch ↦ Or.inl hwatch, ?_,
    ?_, ?_, ?_, ?_⟩
  · intro dir hdir
    change dir ∈ (if readable then fs.tree.unreadable else fs.tree.next :: fs.tree.unreadable) ↔ _
    split_ifs
    · rfl
    · simp [ne_of_lt hdir]
  · rintro dir hdir hgone (hroot | ⟨entry, hentry, rfl⟩)
    · exact hgone (Or.inl hroot)
    · rcases (hmem entry).mp hentry with rfl | hold
      · exact lt_irrefl _ hdir
      · exact hgone (Or.inr ⟨entry, hold, rfl⟩)
  · exact fun entry hentry ↦ Or.inl ((hmem entry).mpr (Or.inr hentry))
  · intro entry hentry
    rcases (hmem entry).mp hentry with rfl | hold
    · exact Or.inr fun wd hwatch ↦ ⟨_, mem_notices.mpr ⟨wd, hwatch, rfl⟩, arrival_createDir, rfl,
        rfl⟩
    · exact Or.inl hold
  · intro entry _ wd _ event hevent hdeparture
    obtain ⟨_, -, rfl⟩ := mem_notices.mp hevent
    exact absurd hdeparture (not_departure_of_mask (by simp))
  · intro scan hscan
    refine ⟨scan.arrive ⟨parent, name, fs.tree.next⟩ hname, ?_, rfl, fun _ _ _ _ hmust ↦ hmust⟩
    change _ ∈ fs.scan.map _
    rw [Option.mem_def.mp hscan]
    rfl

theorem changes_rename {entry : Entry} {parent : Dir}
    (hrename : fs.rename entry parent name cookie = some after) :
    Changes fs (fs.notices entry.parent movedFromDirMask cookie entry.name ++
      (fs.notices parent movedToDirMask cookie name ++ fs.notices entry.dir inMoveSelf 0 []))
      after := by
  unfold rename at hrename
  split_ifs at hrename with h
  cases hrename
  obtain ⟨hentry, hattached, hname, -, hreplace⟩ := h
  rw [notify_eq, notify_eq, notify_eq]
  have hmade := (fs.tree.made entry hentry).2
  have hmem : ∀ other, other ∈ (fs.tree.put ⟨parent, name, entry.dir⟩ hname
      ⟨hattached.lt_next, hmade⟩).entries ↔ other = ⟨parent, name, entry.dir⟩ ∨
        other ∈ fs.tree.entries ∧ other.dir ≠ entry.dir ∧ other.slot ≠ (parent, name) := fun other ↦
    DirTree.mem_put
  have hslot : entry.slot ≠ (parent, name) := fun hsame ↦ (hreplace entry hentry hsame).1 rfl
  refine ⟨?_, rfl, le_rfl, fun _ _ ↦ Iff.rfl, List.Subset.refl _, fun watch hwatch ↦ Or.inl hwatch,
    ?_, ?_, ?_, ?_, ?_⟩
  · simp only [List.append_assoc]
    rfl
  · rintro dir hdir hgone (hroot | ⟨other, hother, rfl⟩)
    · exact hgone (Or.inl hroot)
    · rcases (hmem other).mp hother with rfl | ⟨hold, -⟩
      · exact hgone (Or.inr ⟨entry, hentry, rfl⟩)
      · exact hgone (Or.inr ⟨other, hold, rfl⟩)
  · intro other hother
    by_cases hdir : other.dir = entry.dir
    · obtain rfl := DirTree.eq_of_dir hother hentry hdir
      refine Or.inr (Or.inr fun wd hwatch ↦ ⟨⟨wd, movedFromDirMask, cookie, other.name⟩, ?_,
        departure_movedFrom, rfl, rfl⟩)
      exact List.mem_append_left _ (mem_notices.mpr ⟨wd, hwatch, rfl⟩)
    · by_cases htaken : other.slot = (parent, name)
      · refine Or.inr (Or.inl ?_)
        rintro (hroot | ⟨last, hlast, hsame⟩)
        · exact (fs.tree.made other hother).2.2 hroot
        · rcases (hmem last).mp hlast with rfl | ⟨hold, -, hfree⟩
          · exact hdir hsame.symm
          · exact hfree (DirTree.eq_of_dir hold hother hsame ▸ htaken)
      · exact Or.inl ((hmem other).mpr (Or.inr ⟨hother, hdir, htaken⟩))
  · intro other hother
    rcases (hmem other).mp hother with rfl | ⟨hold, -⟩
    · refine Or.inr fun wd hwatch ↦ ⟨⟨wd, movedToDirMask, cookie, name⟩, ?_, arrival_movedTo, rfl,
        rfl⟩
      exact List.mem_append_right _ (List.mem_append_left _ (mem_notices.mpr ⟨wd, hwatch, rfl⟩))
    · exact Or.inl hold
  · intro other hother wd hwatch event hevent hdeparture hwd hsame
    rcases List.mem_append.mp hevent with hfrom | hrest
    · obtain ⟨sent, hfromWatch, rfl⟩ := mem_notices.mp hfrom
      obtain rfl : sent = wd := hwd
      have hparent : other.parent = entry.parent := dir_eq_of_wd hwatch hfromWatch
      have hplace : other.slot = entry.slot := by rw [Entry.slot, Entry.slot, hparent, ← hsame]
      rcases (hmem other).mp hother with rfl | ⟨hold, hdir, -⟩
      · exact hslot hplace.symm
      · exact hdir (congrArg Entry.dir (DirTree.eq_of_slot hold hentry hplace))
    · rcases List.mem_append.mp hrest with hto | hself
      · obtain ⟨_, -, rfl⟩ := mem_notices.mp hto
        exact not_departure_of_mask (by simp) hdeparture
      · obtain ⟨_, -, rfl⟩ := mem_notices.mp hself
        exact not_departure_of_mask (by simp) hdeparture
  · intro scan hscan
    refine ⟨((scan.leave entry).leave ⟨parent, name, entry.dir⟩).arrive ⟨parent, name, entry.dir⟩
      hname, ?_, rfl, fun other hother hold hparent hmust ↦ ?_⟩
    · change _ ∈ fs.scan.map _
      rw [Option.mem_def.mp hscan]
      rfl
    · obtain ⟨hdir, hfree⟩ : other.dir ≠ entry.dir ∧ other.slot ≠ (parent, name) := by
        rcases (hmem other).mp hother with rfl | ⟨-, hkept⟩
        · exact absurd (DirTree.eq_of_dir hold hentry rfl ▸ rfl) hslot
        · exact hkept
      have hleft : entry.parent = scan.dir → other.name ≠ entry.name := fun hsame hname ↦
        hdir (congrArg Entry.dir (DirTree.eq_of_slot hold hentry
          (by rw [Entry.slot, Entry.slot, hparent, hsame, hname])))
      have hreplaced : parent = scan.dir → other.name ≠ name := fun hsame hname ↦
        hfree (by rw [Entry.slot, hparent, hsame, hname])
      exact Scan.mem_must_leave (Scan.mem_must_leave hmust hleft) hreplaced

theorem changes_rmdir {entry : Entry} (hrmdir : fs.rmdir entry = some after) :
    Changes fs (fs.notices entry.parent deleteDirMask 0 entry.name) after := by
  unfold rmdir at hrmdir
  split_ifs at hrmdir with h
  cases hrmdir
  obtain ⟨hentry, -⟩ := h
  rw [notify_eq]
  have hmem : ∀ other, other ∈ (fs.tree.removeDir entry.dir).entries ↔
      other ∈ fs.tree.entries ∧ other.dir ≠ entry.dir := fun other ↦ DirTree.mem_removeDir
  refine ⟨rfl, rfl, le_rfl, fun _ _ ↦ Iff.rfl, List.Subset.refl _, fun watch hwatch ↦ Or.inl hwatch,
    ?_, ?_, fun other hother ↦ Or.inl ((hmem other).mp hother).1, ?_, ?_⟩
  · rintro dir hdir hgone (hroot | ⟨other, hother, rfl⟩)
    · exact hgone (Or.inl hroot)
    · exact hgone (Or.inr ⟨other, ((hmem other).mp hother).1, rfl⟩)
  · intro other hother
    by_cases hdir : other.dir = entry.dir
    · refine Or.inr (Or.inl ?_)
      rintro (hroot | ⟨last, hlast, hsame⟩)
      · exact (fs.tree.made other hother).2.2 hroot
      · exact ((hmem last).mp hlast).2 (hsame.trans hdir)
    · exact Or.inl ((hmem other).mpr ⟨hother, hdir⟩)
  · intro other _ wd _ event hevent hdeparture
    obtain ⟨_, -, rfl⟩ := mem_notices.mp hevent
    exact absurd hdeparture (not_departure_of_mask (by simp))
  · intro scan hscan
    refine ⟨scan.leave entry, ?_, rfl, fun other hother hold hparent hmust ↦ ?_⟩
    · change _ ∈ fs.scan.map _
      rw [Option.mem_def.mp hscan]
      rfl
    · refine Scan.mem_must_leave hmust fun hsame hname ↦ ((hmem other).mp hother).2 ?_
      exact congrArg Entry.dir (DirTree.eq_of_slot hold hentry
        (by rw [Entry.slot, Entry.slot, hparent, hsame, hname]))

/-- An act that leaves all directories where they are. -/
theorem changes_of_tree {news : List Event} (htree : after.tree = fs.tree)
    (hscan : after.scan = fs.scan) (hqueue : after.queue = fs.queue ++ news)
    (hused : after.used = fs.used) (hwatches : after.watches ⊆ fs.watches)
    (hdying : ∀ watch ∈ fs.watches, watch ∈ after.watches ∨ ¬ fs.tree.Attached watch.dir)
    (hnews : ∀ event ∈ news, ¬ Departure event) : Changes fs news after where
  queue := hqueue
  used := hused
  next := htree ▸ le_rfl
  unreadable := fun _ _ ↦ htree ▸ Iff.rfl
  watches := hwatches
  dying := fun watch hwatch ↦ (hdying watch hwatch).imp id fun hremoved ↦ ⟨hremoved, htree⟩
  removed := fun _ _ hgone ↦ htree ▸ hgone
  kept := fun _ hentry ↦ Or.inl (htree ▸ hentry)
  arrived := fun _ hentry ↦ Or.inl (htree ▸ hentry)
  departed := fun _ _ _ _ event hevent hdeparture ↦ absurd hdeparture (hnews event hevent)
  scan := fun scan hmem ↦ ⟨scan, hscan ▸ hmem, rfl, fun _ _ _ _ hmust ↦ hmust⟩

theorem changes_free {watch : Watch} (hfree : fs.free watch = some after) :
    Changes fs [⟨watch.wd, inDeleteSelf, 0, []⟩, ignoredEvent watch.wd] after := by
  unfold free at hfree
  split_ifs at hfree with h
  cases hfree
  refine changes_of_tree rfl rfl ?_ rfl (List.filter_subset_self _) (fun other hother ↦ ?_) ?_
  · simp [kill, emit]
  · by_cases hwd : other.wd = watch.wd
    · have hsame : other = watch := List.inj_on_of_nodup_map fs.wds hother h.1 hwd
      exact Or.inr (hsame ▸ h.2)
    · exact Or.inl (List.mem_filter.mpr ⟨hother, by simpa using hwd⟩)
  · rintro event hevent
    simp only [List.mem_cons, List.not_mem_nil, or_false] at hevent
    rcases hevent with rfl | rfl <;> exact not_departure_of_mask (by simp)

theorem changes_fileEvent (hevent : fs.fileEvent event = some after) :
    Changes fs [event] after := by
  unfold fileEvent at hevent
  split_ifs at hevent with h
  cases hevent
  refine changes_of_tree rfl rfl rfl rfl (List.Subset.refl _) (fun _ hwatch ↦ Or.inl hwatch) ?_
  intro other hother hdeparture
  rw [List.mem_singleton.mp hother] at hdeparture
  rw [hdeparture.2] at h
  exact absurd h.2.2 (by simp)

theorem exists_changes {action : FsAct} (hact : fs.act action = some after) :
    ∃ news, Changes fs news after := by
  cases action with
  | mkdir => exact ⟨_, changes_mkdir hact⟩
  | rename => exact ⟨_, changes_rename hact⟩
  | rmdir => exact ⟨_, changes_rmdir hact⟩
  | free => exact ⟨_, changes_free hact⟩
  | fileEvent => exact ⟨_, changes_fileEvent hact⟩

end FileSystem

end DirWatcher.Environment
