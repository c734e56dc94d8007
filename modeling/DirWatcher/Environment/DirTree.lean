import DirWatcher.Foundation.SeparatedPaths
import DirWatcher.Source.Paths

/-!
The directories of a file system. Each directory but the first has at most one entry:
the directory it is in, and its name there. A directory that has lost its entry has
been removed. Paths are resolved one component at a time.
-/

set_option autoImplicit false
set_option relaxedAutoImplicit false

namespace DirWatcher.Environment

open Source Foundation.SeparatedPaths

/-- A directory, whatever its path. -/
abbrev Dir := ℕ

def rootDir : Dir := 0

structure Entry where
  parent : Dir
  name : Bytes
  dir : Dir
deriving DecidableEq, Repr

/-- The place of the entry. -/
def Entry.slot (entry : Entry) : Dir × Bytes := (entry.parent, entry.name)

def dot : Bytes := literal "."

def dotDot : Bytes := literal ".."

/-- A name that a directory can have. -/
structure ValidName (name : Bytes) : Prop where
  nonempty : name ≠ []
  notDot : name ≠ dot
  notDotDot : name ≠ dotDot
  slash : slash ∉ name
  zero : 0 ∉ name

instance (name : Bytes) : Decidable (ValidName name) :=
  decidable_of_iff (name ≠ [] ∧ name ≠ dot ∧ name ≠ dotDot ∧ slash ∉ name ∧ 0 ∉ name)
    ⟨fun ⟨h₁, h₂, h₃, h₄, h₅⟩ ↦ ⟨h₁, h₂, h₃, h₄, h₅⟩,
      fun ⟨h₁, h₂, h₃, h₄, h₅⟩ ↦ ⟨h₁, h₂, h₃, h₄, h₅⟩⟩

/-- The entries of all directories, the next directory to be made, the working
directory of the watcher, and the directories it has no permission to read. A name is
used once in a directory, and a directory has one entry. -/
structure DirTree where
  entries : List Entry
  next : Dir
  cwd : Dir
  unreadable : List Dir
  slots : (entries.map Entry.slot).Nodup
  dirs : (entries.map Entry.dir).Nodup
  names : ∀ entry ∈ entries, ValidName entry.name
  made : ∀ entry ∈ entries, entry.parent < next ∧ entry.dir < next ∧ entry.dir ≠ rootDir
  root : rootDir < next
  cwdMade : cwd < next

namespace DirTree

variable {tree : DirTree} {dir parent : Dir} {name : Bytes} {entry other : Entry}

/-- The directory with a name in a directory. -/
def child (tree : DirTree) (dir : Dir) (name : Bytes) : Option Dir :=
  (tree.entries.find? (·.slot == (dir, name))).map Entry.dir

/-- The names in a directory. -/
def listing (tree : DirTree) (dir : Dir) : List Bytes :=
  (tree.entries.filter (·.parent == dir)).map Entry.name

/-- The directory has not been removed. -/
def Attached (tree : DirTree) (dir : Dir) : Prop :=
  dir = rootDir ∨ ∃ entry ∈ tree.entries, entry.dir = dir

instance (tree : DirTree) (dir : Dir) : Decidable (tree.Attached dir) := by
  unfold Attached
  infer_instance

/-- The directory is `top` or lies in it. -/
def liesIn (tree : DirTree) : ℕ → Dir → Dir → Bool
  | 0, dir, top => dir == top
  | fuel + 1, dir, top => dir == top ||
    match tree.entries.find? (·.dir == dir) with
    | none => false
    | some entry => tree.liesIn fuel entry.parent top

theorem eq_of_slot (hentry : entry ∈ tree.entries) (hother : other ∈ tree.entries)
    (hslot : entry.slot = other.slot) : entry = other :=
  List.inj_on_of_nodup_map tree.slots hentry hother hslot

theorem eq_of_dir (hentry : entry ∈ tree.entries) (hother : other ∈ tree.entries)
    (hdir : entry.dir = other.dir) : entry = other :=
  List.inj_on_of_nodup_map tree.dirs hentry hother hdir

theorem child_eq_some_iff {found : Dir} :
    tree.child dir name = some found ↔ ⟨dir, name, found⟩ ∈ tree.entries := by
  constructor
  · intro hchild
    obtain ⟨⟨parent, other, last⟩, hentry, rfl⟩ := Option.map_eq_some_iff.mp hchild
    have hslot : (parent, other) = (dir, name) := by simpa [Entry.slot] using List.find?_some hentry
    cases hslot
    exact List.mem_of_find?_eq_some hentry
  · intro hmem
    cases hfind : tree.entries.find? (·.slot == (dir, name)) with
    | none => exact absurd (List.find?_eq_none.mp hfind _ hmem) (by simp [Entry.slot])
    | some entry =>
      have hslot : entry.slot = (dir, name) := by simpa using List.find?_some hfind
      rw [child, hfind, eq_of_slot (List.mem_of_find?_eq_some hfind) hmem hslot]
      rfl

theorem mem_listing : name ∈ tree.listing dir ↔ ∃ found, ⟨dir, name, found⟩ ∈ tree.entries := by
  simp only [listing, List.mem_map, List.mem_filter, beq_iff_eq]
  constructor
  · rintro ⟨⟨parent, name, found⟩, ⟨hentry, rfl⟩, rfl⟩
    exact ⟨found, hentry⟩
  · rintro ⟨found, hentry⟩
    exact ⟨_, ⟨hentry, rfl⟩, rfl⟩

/-! ### Changes -/

/-- Puts a directory in a place. What has been there is no longer. -/
def put (tree : DirTree) (entry : Entry) (hname : ValidName entry.name)
    (hmade : entry.parent < tree.next ∧ entry.dir < tree.next ∧ entry.dir ≠ rootDir) : DirTree where
  entries := entry :: tree.entries.filter fun old ↦ old.dir ≠ entry.dir ∧ old.slot ≠ entry.slot
  next := tree.next
  cwd := tree.cwd
  unreadable := tree.unreadable
  slots := by
    rw [List.map_cons, List.nodup_cons]
    refine ⟨?_, tree.slots.sublist (List.filter_sublist.map _)⟩
    simp only [List.mem_map, List.mem_filter, decide_eq_true_eq]
    rintro ⟨old, ⟨-, -, hold⟩, hslot⟩
    exact hold hslot
  dirs := by
    rw [List.map_cons, List.nodup_cons]
    refine ⟨?_, tree.dirs.sublist (List.filter_sublist.map _)⟩
    simp only [List.mem_map, List.mem_filter, decide_eq_true_eq]
    rintro ⟨old, ⟨-, hold, -⟩, hdir⟩
    exact hold hdir
  names := by
    intro old hold
    rcases List.mem_cons.mp hold with rfl | hmem
    · exact hname
    · exact tree.names old (List.mem_of_mem_filter hmem)
  made := by
    intro old hold
    rcases List.mem_cons.mp hold with rfl | hmem
    · exact hmade
    · exact tree.made old (List.mem_of_mem_filter hmem)
  root := tree.root
  cwdMade := tree.cwdMade

theorem mem_put {hname : ValidName entry.name}
    {hmade : entry.parent < tree.next ∧ entry.dir < tree.next ∧ entry.dir ≠ rootDir} :
    other ∈ (tree.put entry hname hmade).entries ↔
      other = entry ∨ other ∈ tree.entries ∧ other.dir ≠ entry.dir ∧ other.slot ≠ entry.slot := by
  simp [put]

/-- One more directory, which has no place yet. -/
def grow (tree : DirTree) (readable : Bool) : DirTree where
  entries := tree.entries
  next := tree.next + 1
  cwd := tree.cwd
  unreadable := if readable then tree.unreadable else tree.next :: tree.unreadable
  slots := tree.slots
  dirs := tree.dirs
  names := tree.names
  made := fun entry hentry ↦
    have ⟨hparent, hdir, hroot⟩ := tree.made entry hentry
    ⟨hparent.trans (Nat.lt_succ_self _), hdir.trans (Nat.lt_succ_self _), hroot⟩
  root := tree.root.trans (Nat.lt_succ_self _)
  cwdMade := tree.cwdMade.trans (Nat.lt_succ_self _)

/-- Makes a new directory. -/
def makeDir (tree : DirTree) (readable : Bool) (parent : Dir) (name : Bytes)
    (hname : ValidName name) (hparent : parent < tree.next) : DirTree :=
  (tree.grow readable).put ⟨parent, name, tree.next⟩ hname
    ⟨hparent.trans (Nat.lt_succ_self _), Nat.lt_succ_self _, ne_of_gt tree.root⟩

/-- Takes a directory from its place. -/
def removeDir (tree : DirTree) (dir : Dir) : DirTree where
  entries := tree.entries.filter (·.dir ≠ dir)
  next := tree.next
  cwd := tree.cwd
  unreadable := tree.unreadable
  slots := tree.slots.sublist (List.filter_sublist.map _)
  dirs := tree.dirs.sublist (List.filter_sublist.map _)
  names := fun entry hentry ↦ tree.names entry (List.mem_of_mem_filter hentry)
  made := fun entry hentry ↦ tree.made entry (List.mem_of_mem_filter hentry)
  root := tree.root
  cwdMade := tree.cwdMade

theorem mem_removeDir :
    entry ∈ (tree.removeDir dir).entries ↔ entry ∈ tree.entries ∧ entry.dir ≠ dir := by
  simp [removeDir]

/-- A new directory takes a place that is free, and every other keeps its own. -/
theorem mem_makeDir {readable : Bool} {hname : ValidName name} {hparent : parent < tree.next}
    (hfree : ∀ entry ∈ tree.entries, entry.slot ≠ (parent, name)) :
    entry ∈ (tree.makeDir readable parent name hname hparent).entries ↔
      entry = ⟨parent, name, tree.next⟩ ∨ entry ∈ tree.entries := by
  rw [makeDir, mem_put]
  refine or_congr Iff.rfl (and_iff_left_of_imp fun hentry ↦ ⟨?_, hfree entry hentry⟩)
  exact ne_of_lt (tree.made entry hentry).2.1

theorem Attached.lt_next (hattached : tree.Attached dir) : dir < tree.next := by
  rcases hattached with rfl | ⟨entry, hentry, rfl⟩
  · exact tree.root
  · exact (tree.made entry hentry).2.1

/-! ### Paths -/

/-- The directory a component of a path leads to. -/
def enter (tree : DirTree) (dir : Dir) (component : Bytes) : Option Dir :=
  if component = [] ∨ component = dot then some dir
  else if component = dotDot then
    match tree.entries.find? (·.dir == dir) with
    | none => some dir
    | some entry => some entry.parent
  else tree.child dir component

/-- The directory a path leads to. The empty path leads nowhere. -/
def resolve (tree : DirTree) (path : Bytes) : Option Dir :=
  if path = [] then none
  else (components slash path).foldlM tree.enter
    (if path.head? = some slash then rootDir else tree.cwd)

theorem enter_eq_child (hname : ValidName name) : tree.enter dir name = tree.child dir name := by
  rw [enter, if_neg (by simp [hname.nonempty, hname.notDot]), if_neg hname.notDotDot]

/-- A path with one more name leads to the directory with that name. -/
theorem resolve_joinPath {path : Bytes} (hpath : path ≠ []) (hname : ValidName name) :
    tree.resolve (joinPath path name) =
      (tree.resolve path).bind fun dir ↦ tree.child dir name := by
  have hhead : (joinPath path name).head? = path.head? := by
    cases path with
    | nil => exact absurd rfl hpath
    | cons => rfl
  rw [resolve, resolve, if_neg hpath, if_neg (by simp [joinPath]), hhead, joinPath, components_join,
    components_of_not_mem hname.slash, List.foldlM_append]
  refine Option.bind_congr fun found _ ↦ ?_
  simp [enter_eq_child hname]

/-- A path that ends in a name leads to a directory that has not been removed. -/
theorem attached_of_resolve_joinPath {path : Bytes} (hname : ValidName name)
    (hresolve : tree.resolve (joinPath path name) = some dir) : tree.Attached dir := by
  rw [resolve, if_neg (by simp [joinPath]), joinPath, components_join,
    components_of_not_mem hname.slash, List.foldlM_append] at hresolve
  obtain ⟨parent, -, hlast⟩ := Option.bind_eq_some_iff.mp hresolve
  have hchild : tree.child parent name = some dir := by simpa [enter_eq_child hname] using hlast
  exact Or.inr ⟨_, child_eq_some_iff.mp hchild, rfl⟩

theorem enter_lt {component : Bytes} {found : Dir} (hdir : dir < tree.next)
    (henter : tree.enter dir component = some found) : found < tree.next := by
  unfold enter at henter
  split_ifs at henter
  · cases henter
    exact hdir
  · split at henter <;> cases henter
    · exact hdir
    · next hfind => exact (tree.made _ (List.mem_of_find?_eq_some hfind)).1
  · exact (tree.made _ (child_eq_some_iff.mp henter)).2.1

theorem resolve_lt {path : Bytes} {found : Dir}
    (hresolve : tree.resolve path = some found) : found < tree.next := by
  have hwalk : ∀ components : List Bytes, ∀ dir < tree.next,
      components.foldlM tree.enter dir = some found → found < tree.next := by
    intro components
    induction components with
    | nil =>
      rintro dir hdir ⟨⟩
      exact hdir
    | cons first rest ih =>
      intro dir hdir hrest
      rw [List.foldlM_cons] at hrest
      obtain ⟨next, hnext, hrest⟩ := Option.bind_eq_some_iff.mp hrest
      exact ih next (enter_lt hdir hnext) hrest
  unfold resolve at hresolve
  split_ifs at hresolve
  · exact hwalk _ _ tree.root hresolve
  · exact hwalk _ _ tree.cwdMade hresolve

end DirTree

end DirWatcher.Environment
