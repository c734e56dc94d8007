import DirWatcher.Environment.Changes

/-!
File systems in which directories are made but not moved or removed. What a path leads
to stays the same, and an event that a directory has come to a place is true of it for
ever.
-/

set_option autoImplicit false
set_option relaxedAutoImplicit false

namespace DirWatcher.Environment

open Source Foundation.SeparatedPaths

namespace DirTree

/-- Directories have been made, and nothing else has happened. -/
structure Grows (tree later : DirTree) : Prop where
  entries : tree.entries ⊆ later.entries
  fresh : ∀ entry ∈ later.entries, entry ∈ tree.entries ∨ tree.next ≤ entry.dir
  cwd : later.cwd = tree.cwd
  unreadable : ∀ dir < tree.next, dir ∈ later.unreadable ↔ dir ∈ tree.unreadable

variable {tree later : DirTree} {dir found : Dir} {path : Bytes}

theorem Grows.refl (tree : DirTree) : Grows tree tree :=
  ⟨List.Subset.refl _, fun _ hentry ↦ Or.inl hentry, rfl, fun _ _ ↦ Iff.rfl⟩

theorem Grows.attached (hgrows : tree.Grows later) (hattached : tree.Attached dir) :
    later.Attached dir :=
  hattached.imp id fun ⟨entry, hentry, hdir⟩ ↦ ⟨entry, hgrows.entries hentry, hdir⟩

theorem Grows.child {name : Bytes} (hgrows : tree.Grows later)
    (hchild : tree.child dir name = some found) : later.child dir name = some found :=
  child_eq_some_iff.mpr (hgrows.entries (child_eq_some_iff.mp hchild))

/-- The place of a directory is found by the directory. -/
theorem find_dir {entry : Entry} (hentry : entry ∈ tree.entries) :
    tree.entries.find? (·.dir == entry.dir) = some entry := by
  cases hfind : tree.entries.find? (·.dir == entry.dir) with
  | none => exact absurd (List.find?_eq_none.mp hfind entry hentry) (by simp)
  | some other =>
    have hdir : other.dir = entry.dir := by simpa using List.find?_some hfind
    rw [eq_of_dir (List.mem_of_find?_eq_some hfind) hentry hdir]

/-- A directory without a place gets none. -/
theorem Grows.enter {component : Bytes} (hgrows : tree.Grows later) (hdir : dir < tree.next)
    (henter : tree.enter dir component = some found) : later.enter dir component = some found := by
  unfold DirTree.enter at henter ⊢
  split_ifs at henter ⊢
  · exact henter
  · split at henter
    · next hnone =>
      cases hfind : later.entries.find? (·.dir == dir) with
      | none => exact henter
      | some entry =>
        have hplace : entry.dir = dir := by simpa using List.find?_some hfind
        rcases hgrows.fresh entry (List.mem_of_find?_eq_some hfind) with hold | hnew
        · exact absurd hplace (by simpa using List.find?_eq_none.mp hnone entry hold)
        · exact absurd hdir (by rw [← hplace]; exact not_lt.mpr hnew)
    · next entry hsome =>
      have hplace : entry.dir = dir := by simpa using List.find?_some hsome
      rw [← hplace, find_dir (hgrows.entries (List.mem_of_find?_eq_some hsome))]
      exact henter
  · exact hgrows.child henter

theorem Grows.resolve (hgrows : tree.Grows later) (hresolve : tree.resolve path = some found) :
    later.resolve path = some found := by
  have hwalk : ∀ components : List Bytes, ∀ dir < tree.next,
      components.foldlM tree.enter dir = some found →
      components.foldlM later.enter dir = some found := by
    intro components
    induction components with
    | nil => exact fun dir _ hrest ↦ hrest
    | cons first rest ih =>
      intro dir hdir hrest
      rw [List.foldlM_cons] at hrest ⊢
      obtain ⟨next, hnext, hrest⟩ := Option.bind_eq_some_iff.mp hrest
      exact Option.bind_eq_some_iff.mpr
        ⟨next, hgrows.enter hdir hnext, ih next (enter_lt hdir hnext) hrest⟩
  unfold DirTree.resolve at hresolve ⊢
  rw [hgrows.cwd]
  split_ifs at hresolve ⊢
  · exact hwalk _ _ tree.root hresolve
  · exact hwalk _ _ tree.cwdMade hresolve

/-- The directory is at the path, which begins with `top`. -/
inductive Reached (tree : DirTree) (top : Bytes) : Bytes → Dir → Prop
  | top {dir : Dir} (hresolve : tree.resolve top = some dir) : Reached tree top top dir
  | child {path : Bytes} {entry : Entry} (hparent : Reached tree top path entry.parent)
      (hentry : entry ∈ tree.entries) :
      Reached tree top (joinPath path entry.name) entry.dir

theorem Reached.entry {top name : Bytes} (hreached : tree.Reached top path dir)
    (hname : ValidName name) (hresolve : tree.resolve path = some dir)
    (hfound : tree.resolve (joinPath path name) = some found) :
    tree.Reached top (joinPath path name) found := by
  have hne : path ≠ [] := by
    rintro rfl
    simp [DirTree.resolve] at hresolve
  rw [resolve_joinPath hne hname, hresolve, Option.bind_some, child_eq_some_iff] at hfound
  exact .child hreached hfound

theorem Grows.reached {top : Bytes} (hgrows : tree.Grows later)
    (hreached : tree.Reached top path dir) : later.Reached top path dir := by
  induction hreached with
  | top hresolve => exact .top (hgrows.resolve hresolve)
  | child _ hentry ih => exact .child ih (hgrows.entries hentry)

/-- No directory has two paths that begin with one of the given ones. -/
def OneName (tree : DirTree) (tops : List Bytes) : Prop :=
  ∀ top ∈ tops, ∀ other ∈ tops, ∀ path path' dir,
    tree.Reached top path dir → tree.Reached other path' dir → path = path'

/-- The paths that begin with one of the given ones fit in a buffer. -/
def ShortPaths (tree : DirTree) (tops : List Bytes) : Prop :=
  ∀ top ∈ tops, ∀ path dir, tree.Reached top path dir → path.length < maxPathLen

theorem OneName.of_grows {tops : List Bytes} (hnames : later.OneName tops)
    (hgrows : tree.Grows later) : tree.OneName tops :=
  fun top htop other hother _ _ _ hpath hpath' ↦
    hnames top htop other hother _ _ _ (hgrows.reached hpath) (hgrows.reached hpath')

theorem ShortPaths.of_grows {tops : List Bytes} (hshort : later.ShortPaths tops)
    (hgrows : tree.Grows later) : tree.ShortPaths tops :=
  fun top htop _ _ hpath ↦ hshort top htop _ _ (hgrows.reached hpath)

theorem Reached.length_le {top : Bytes} (hreached : tree.Reached top path dir) :
    top.length ≤ path.length := by
  induction hreached with
  | top => exact le_rfl
  | child _ _ ih =>
    rw [length_joinPath]
    omega

/-- Where the path starts from a directory that has another path, so does a longer one. -/
theorem Reached.shift {top other : Bytes} {start : Dir} (hreached : tree.Reached top path dir)
    (hstart : tree.resolve top = some start) (hother : tree.Reached top other start) :
    ∃ shifted, tree.Reached top shifted dir ∧
      shifted.length + top.length = path.length + other.length := by
  induction hreached with
  | top hresolve =>
    obtain rfl := Option.some_inj.mp (hstart.symm.trans hresolve)
    exact ⟨other, hother, Nat.add_comm _ _⟩
  | child _ hentry ih =>
    obtain ⟨shifted, hshifted, hlength⟩ := ih
    refine ⟨_, .child hshifted hentry, ?_⟩
    rw [length_joinPath, length_joinPath]
    omega

/-- No directory lies below itself when all paths are short. -/
theorem ShortPaths.eq_top {top : Bytes} {start : Dir} (hshort : tree.ShortPaths [top])
    (hstart : tree.resolve top = some start) (hreached : tree.Reached top path start) :
    path = top := by
  by_contra hne
  have hlonger : top.length < path.length := by
    cases hreached with
    | top => exact absurd rfl hne
    | child habove =>
      have hle := habove.length_le
      rw [length_joinPath]
      omega
  have hlong : ∀ length, ∃ other, tree.Reached top other start ∧ length ≤ other.length := by
    intro length
    induction length with
    | zero => exact ⟨top, .top hstart, Nat.zero_le _⟩
    | succ length ih =>
      obtain ⟨other, hother, hle⟩ := ih
      obtain ⟨shifted, hshifted, hlength⟩ := hreached.shift hstart hother
      exact ⟨shifted, hshifted, by omega⟩
  obtain ⟨other, hother, hle⟩ := hlong maxPathLen
  exact absurd (hshort top List.mem_cons_self other start hother) (not_lt.mpr hle)

/-- Each directory has one entry, so two paths to it from one top level path would meet in
the directory of that. -/
theorem ShortPaths.oneName {top : Bytes} (hshort : tree.ShortPaths [top]) : tree.OneName [top] := by
  suffices hone : ∀ path dir, tree.Reached top path dir →
    ∀ path' dir', tree.Reached top path' dir' →
      dir' = dir → path = path' by
    intro first hfirst second hsecond path path' dir hpath hpath'
    rw [List.mem_singleton.mp hfirst] at hpath
    rw [List.mem_singleton.mp hsecond] at hpath'
    exact hone path dir hpath path' dir hpath' rfl
  intro path dir hreached
  induction hreached with
  | top hresolve =>
    rintro path' dir' hpath' rfl
    exact (hshort.eq_top hresolve hpath').symm
  | @child above entry habove hentry ih =>
    rintro path' dir' hpath' hdir
    cases hpath' with
    | top hresolve =>
      exact hshort.eq_top hresolve (hdir ▸ .child habove hentry)
    | @child above' entry' habove' hentry' =>
      obtain rfl := eq_of_dir hentry' hentry hdir
      rw [ih _ _ habove' rfl]

/-- The list holds the top level path with its directory, and is closed under entries. -/
structure Lists (tree : DirTree) (top : Bytes) (known : List (Bytes × Dir)) : Prop where
  top : ∀ dir, tree.resolve top = some dir → (top, dir) ∈ known
  closed : ∀ found ∈ known, ∀ entry ∈ tree.entries, entry.parent = found.2 →
    (joinPath found.1 entry.name, entry.dir) ∈ known

variable {top : Bytes} {known : List (Bytes × Dir)}

theorem Lists.mem (hlists : tree.Lists top known) (hreached : tree.Reached top path dir) :
    (path, dir) ∈ known := by
  induction hreached with
  | top hresolve => exact hlists.top _ hresolve
  | child _ hentry ih => exact hlists.closed _ ih _ hentry rfl

theorem Lists.oneName (hlists : tree.Lists top known) (hdirs : (known.map Prod.snd).Nodup) :
    tree.OneName [top] := by
  intro first hfirst second hsecond path path' dir hpath hpath'
  rw [List.mem_singleton.mp hfirst] at hpath
  rw [List.mem_singleton.mp hsecond] at hpath'
  exact congrArg Prod.fst
    (List.inj_on_of_nodup_map hdirs (hlists.mem hpath) (hlists.mem hpath') rfl)

theorem Lists.shortPaths (hlists : tree.Lists top known)
    (hshort : ∀ found ∈ known, found.1.length < maxPathLen) : tree.ShortPaths [top] := by
  intro first hfirst path dir hpath
  rw [List.mem_singleton.mp hfirst] at hpath
  exact hshort _ (hlists.mem hpath)

/-- A file system with the directory `/t`. -/
def oneDir : DirTree where
  entries := [⟨rootDir, literal "t", 1⟩]
  next := 2
  cwd := rootDir
  unreadable := []
  slots := by decide
  dirs := by decide
  names := by decide
  made := by decide
  root := by decide
  cwdMade := by decide

end DirTree

/-! ### What happens -/

/-- Directories are made, and anything may happen to files. -/
def FsAct.Creation : FsAct → Prop
  | .mkdir _ _ _ | .fileEvent _ => True
  | .rename _ _ _ _ | .rmdir _ | .free _ => False

instance (action : FsAct) : Decidable action.Creation := by
  cases action <;> unfold FsAct.Creation <;> infer_instance

/-- What a creation does to a file system, with the events it queues. -/
structure Creates (fs : FileSystem) (news : List Event) (after : FileSystem) : Prop where
  queue : after.queue = fs.queue ++ news
  used : after.used = fs.used
  watches : after.watches = fs.watches
  grows : fs.tree.Grows after.tree
  stays : ∀ event ∈ news, ¬ Departure event
  arrives : ∀ event ∈ news, Arrival event → ∀ dir, ⟨event.wd, dir⟩ ∈ fs.watches →
    ∃ found, ⟨dir, event.name, found⟩ ∈ after.tree.entries

namespace FileSystem

variable {fs after : FileSystem}

theorem creates_mkdir {readable : Bool} {parent : Dir} {name : Bytes}
    (hmkdir : fs.mkdir readable parent name = some after) :
    Creates fs (fs.notices parent createDirMask 0 name) after ∧
      ⟨parent, name, fs.tree.next⟩ ∈ after.tree.entries ∧ fs.tree.child parent name = none ∧
      fs.tree.next < after.tree.next := by
  have hchanges := changes_mkdir hmkdir
  unfold mkdir at hmkdir
  split_ifs at hmkdir with h
  cases hmkdir
  obtain ⟨hattached, hname, hfree⟩ := h
  rw [notify_eq] at hchanges ⊢
  have hmem : ∀ entry,
    entry ∈ (fs.tree.makeDir readable parent name hname hattached.lt_next).entries ↔
      entry = ⟨parent, name, fs.tree.next⟩ ∨ entry ∈ fs.tree.entries := fun entry ↦
    DirTree.mem_makeDir hfree
  refine ⟨⟨rfl, rfl, rfl, ⟨fun entry hentry ↦ (hmem entry).mpr (Or.inr hentry),
    fun entry hentry ↦ ?_,
    rfl, hchanges.unreadable⟩, ?_, ?_⟩, (hmem _).mpr (Or.inl rfl), ?_, Nat.lt_succ_self _⟩
  · rcases (hmem entry).mp hentry with rfl | hold
    · exact Or.inr le_rfl
    · exact Or.inl hold
  · intro event hevent
    obtain ⟨wd, -, rfl⟩ := mem_notices.mp hevent
    exact not_departure_of_mask (by simp)
  · intro event hevent _ dir hdir
    obtain ⟨wd, hwatch, rfl⟩ := mem_notices.mp hevent
    rw [dir_eq_of_wd hdir hwatch]
    exact ⟨_, (hmem _).mpr (Or.inl rfl)⟩
  · rw [Option.eq_none_iff_forall_ne_some]
    exact fun found hfound ↦ hfree _ (DirTree.child_eq_some_iff.mp hfound) rfl

theorem creates_fileEvent {event : Event} (hevent : fs.fileEvent event = some after) :
    Creates fs [event] after := by
  unfold fileEvent at hevent
  split_ifs at hevent with h
  cases hevent
  refine ⟨rfl, rfl, rfl, DirTree.Grows.refl _, fun other hother hdeparture ↦ ?_,
    fun other hother harrival ↦ ?_⟩
  · rw [List.mem_singleton.mp hother] at hdeparture
    exact absurd hdeparture.2 (by simp [h.2.2])
  · rw [List.mem_singleton.mp hother] at harrival
    exact absurd harrival.isdir (by simp [h.2.2])

theorem exists_creates {action : FsAct} (hcreation : action.Creation)
    (hact : fs.act action = some after) : ∃ news, Creates fs news after := by
  cases action with
  | mkdir => exact ⟨_, (creates_mkdir hact).1⟩
  | fileEvent => exact ⟨_, creates_fileEvent hact⟩
  | rename => exact absurd hcreation id
  | rmdir => exact absurd hcreation id
  | free => exact absurd hcreation id

end FileSystem

end DirWatcher.Environment
