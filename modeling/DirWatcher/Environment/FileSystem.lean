import DirWatcher.Environment.Contract
import DirWatcher.Environment.DirTree

/-!
A file system with its inotify instance. Directories are made, moved and removed at
any time; what happens to a directory is told to the watch on the directory around it,
and a watch belongs to one directory for as long as it lives. A removed directory is
freed some time after its removal, and its watch dies then.
-/

set_option autoImplicit false
set_option relaxedAutoImplicit false

namespace DirWatcher.Environment

open Source Foundation.SeparatedPaths

structure Watch where
  wd : Wd
  dir : Dir
deriving DecidableEq, Repr

/-- A directory that is being read. The names that have been there all the time are
found, and those that have been there some of the time may be found. -/
structure Scan where
  dir : Dir
  must : List Bytes
  may : List Bytes
  valid : ∀ name ∈ may, ValidName name

structure FileSystem where
  tree : DirTree
  watches : List Watch
  used : List Wd
  queue : List Event
  scan : Option Scan
  wds : (watches.map Watch.wd).Nodup
  dirs : (watches.map Watch.dir).Nodup
  known : ∀ watch ∈ watches, watch.wd ∈ used ∧ watch.dir < tree.next

/-- Nothing is watched yet. -/
def FileSystem.start (tree : DirTree) : FileSystem where
  tree := tree
  watches := []
  used := []
  queue := []
  scan := none
  wds := List.nodup_nil
  dirs := List.nodup_nil
  known := by simp

/-! ### Scans -/

namespace Scan

/-- All that is in a directory now. -/
def start (tree : DirTree) (dir : Dir) : Scan where
  dir := dir
  must := tree.listing dir
  may := tree.listing dir
  valid := by
    intro name hname
    obtain ⟨found, hentry⟩ := DirTree.mem_listing.mp hname
    exact tree.names _ hentry

/-- A directory comes to be in the one that is read. -/
def arrive (scan : Scan) (entry : Entry) (hname : ValidName entry.name) : Scan where
  dir := scan.dir
  must := scan.must
  may := if entry.parent = scan.dir then entry.name :: scan.may else scan.may
  valid := by
    intro name hmem
    split_ifs at hmem
    · rcases List.mem_cons.mp hmem with rfl | hold
      · exact hname
      · exact scan.valid name hold
    · exact scan.valid name hmem

/-- A directory leaves the one that is read. -/
def leave (scan : Scan) (entry : Entry) : Scan where
  dir := scan.dir
  must := if entry.parent = scan.dir then scan.must.filter (· ≠ entry.name) else scan.must
  may := scan.may
  valid := scan.valid

end Scan

namespace FileSystem

/-- The watch on a directory. -/
def watchOn (fs : FileSystem) (dir : Dir) : Option Wd :=
  (fs.watches.find? (·.dir == dir)).map Watch.wd

def live (fs : FileSystem) : List Wd := fs.watches.map Watch.wd

def emit (fs : FileSystem) (event : Event) : FileSystem := { fs with queue := fs.queue ++ [event] }

/-- The event goes to the watch on the directory, if there is one. -/
def notify (fs : FileSystem) (dir : Dir) (mask cookie : UInt32) (name : Bytes) : FileSystem :=
  match fs.watchOn dir with
  | none => fs
  | some wd => fs.emit ⟨wd, mask, cookie, name⟩

/-- The watch dies, and its last event is queued. -/
def kill (fs : FileSystem) (wd : Wd) : FileSystem where
  tree := fs.tree
  watches := fs.watches.filter (·.wd ≠ wd)
  used := fs.used
  queue := fs.queue ++ [ignoredEvent wd]
  scan := fs.scan
  wds := fs.wds.sublist (List.filter_sublist.map _)
  dirs := fs.dirs.sublist (List.filter_sublist.map _)
  known := fun watch hwatch ↦ fs.known watch (List.mem_of_mem_filter hwatch)

/-- A watch descriptor is used for the first time. -/
def watch (fs : FileSystem) (wd : Wd) (dir : Dir) (hwd : wd ∉ fs.used)
    (hdir : ∀ old ∈ fs.watches, old.dir ≠ dir) (hmade : dir < fs.tree.next) : FileSystem where
  tree := fs.tree
  watches := ⟨wd, dir⟩ :: fs.watches
  used := wd :: fs.used
  queue := fs.queue
  scan := fs.scan
  wds := by
    rw [List.map_cons, List.nodup_cons]
    refine ⟨?_, fs.wds⟩
    rintro hmem
    obtain ⟨old, hold, rfl⟩ := List.mem_map.mp hmem
    exact hwd (fs.known old hold).1
  dirs := by
    rw [List.map_cons, List.nodup_cons]
    refine ⟨?_, fs.dirs⟩
    rintro hmem
    obtain ⟨old, hold, heq⟩ := List.mem_map.mp hmem
    exact hdir old hold heq
  known := by
    intro old hold
    rcases List.mem_cons.mp hold with rfl | hmem
    · exact ⟨List.mem_cons_self, hmade⟩
    · exact ⟨List.mem_cons_of_mem _ (fs.known old hmem).1, (fs.known old hmem).2⟩

/-- The directories are other ones now. -/
def setTree (fs : FileSystem) (tree : DirTree) (hnext : fs.tree.next ≤ tree.next)
    (scan : Option Scan) : FileSystem where
  tree := tree
  watches := fs.watches
  used := fs.used
  queue := fs.queue
  scan := scan
  wds := fs.wds
  dirs := fs.dirs
  known := fun watch hwatch ↦
    ⟨(fs.known watch hwatch).1, (fs.known watch hwatch).2.trans_le hnext⟩

/-! ### What can happen to the directories -/

def movedFromDirMask : UInt32 := inMovedFrom ||| inIsdir

def movedToDirMask : UInt32 := inMovedTo ||| inIsdir

def deleteDirMask : UInt32 := inDelete ||| inIsdir

/-- A place is free for a directory, or it is held by an empty one. -/
def Replaceable (tree : DirTree) (dir parent : Dir) (name : Bytes) : Prop :=
  ∀ entry ∈ tree.entries, entry.slot = (parent, name) →
    entry.dir ≠ dir ∧ ∀ inner ∈ tree.entries, inner.parent ≠ entry.dir

instance (tree : DirTree) (dir parent : Dir) (name : Bytes) :
    Decidable (Replaceable tree dir parent name) := by
  unfold Replaceable
  infer_instance

/-- `mkdir`. -/
def mkdir (fs : FileSystem) (readable : Bool) (parent : Dir) (name : Bytes) : Option FileSystem :=
  if h : fs.tree.Attached parent ∧ ValidName name ∧
      ∀ entry ∈ fs.tree.entries, entry.slot ≠ (parent, name) then
    some ((fs.setTree (fs.tree.makeDir readable parent name h.2.1 h.1.lt_next) (Nat.le_succ _)
      (fs.scan.map fun scan ↦ scan.arrive ⟨parent, name, fs.tree.next⟩ h.2.1)).notify
        parent createDirMask 0 name)
  else none

/-- `rename`, which replaces an empty directory. A directory is not moved into itself. -/
def rename (fs : FileSystem) (entry : Entry) (parent : Dir) (name : Bytes) (cookie : UInt32) :
    Option FileSystem :=
  if h : entry ∈ fs.tree.entries ∧ fs.tree.Attached parent ∧ ValidName name ∧
      fs.tree.liesIn fs.tree.entries.length parent entry.dir = false ∧
      Replaceable fs.tree entry.dir parent name then
    some ((((fs.setTree (fs.tree.put ⟨parent, name, entry.dir⟩ h.2.2.1
      ⟨h.2.1.lt_next, (fs.tree.made entry h.1).2⟩) le_rfl
      (fs.scan.map fun scan ↦ ((scan.leave entry).leave ⟨parent, name, entry.dir⟩).arrive
        ⟨parent, name, entry.dir⟩ h.2.2.1)).notify
          entry.parent movedFromDirMask cookie entry.name).notify
          parent movedToDirMask cookie name).notify entry.dir inMoveSelf 0 [])
  else none

/-- `rmdir`. -/
def rmdir (fs : FileSystem) (entry : Entry) : Option FileSystem :=
  if entry ∈ fs.tree.entries ∧ ∀ inner ∈ fs.tree.entries, inner.parent ≠ entry.dir then
    some ((fs.setTree (fs.tree.removeDir entry.dir) le_rfl
      (fs.scan.map (Scan.leave · entry))).notify entry.parent deleteDirMask 0 entry.name)
  else none

/-- The end of a watched directory that has been removed. -/
def free (fs : FileSystem) (watch : Watch) : Option FileSystem :=
  if watch ∈ fs.watches ∧ ¬ fs.tree.Attached watch.dir then
    some ((fs.emit ⟨watch.wd, inDeleteSelf, 0, []⟩).kill watch.wd)
  else none

/-- An event that is not about a directory in the watched one. -/
def fileEvent (fs : FileSystem) (event : Event) : Option FileSystem :=
  if event.wd ∈ fs.live ∧ OrdinaryEvent event ∧ event.has inIsdir = false then
    some (fs.emit event)
  else none

end FileSystem

inductive FsAct
  | mkdir (readable : Bool) (parent : Dir) (name : Bytes)
  | rename (entry : Entry) (parent : Dir) (name : Bytes) (cookie : UInt32)
  | rmdir (entry : Entry)
  | free (watch : Watch)
  | fileEvent (event : Event)
deriving DecidableEq, Repr

namespace FileSystem

def act (fs : FileSystem) : FsAct → Option FileSystem
  | .mkdir readable parent name => fs.mkdir readable parent name
  | .rename entry parent name cookie => fs.rename entry parent name cookie
  | .rmdir entry => fs.rmdir entry
  | .free watch => fs.free watch
  | .fileEvent event => fs.fileEvent event

/-! ### System calls -/

/-- The error a call with a path can fail with. -/
def FailsWith (fs : FileSystem) (path : Bytes) : Errno → Prop
  | .enoent | .enotdir => fs.tree.resolve path = none
  | .eacces => ∃ dir ∈ fs.tree.unreadable, fs.tree.resolve path = some dir
  | .einval | .other => True

instance (fs : FileSystem) (path : Bytes) (errno : Errno) :
    Decidable (fs.FailsWith path errno) := by
  cases errno <;> unfold FailsWith <;> infer_instance

/-- `inotify_add_watch`, with the watch descriptor it returns. -/
def inotifyAddWatch (fs : FileSystem) (path : Bytes) (wd : Wd) : Option FileSystem :=
  match hresolve : fs.tree.resolve path with
  | none => none
  | some dir =>
    if dir ∈ fs.tree.unreadable then none
    else if ⟨wd, dir⟩ ∈ fs.watches then some fs
    else if h : (∀ old ∈ fs.watches, old.dir ≠ dir) ∧ 0 < wd ∧ wd ∉ fs.used then
      some (fs.watch wd dir h.2.2 h.1 (DirTree.resolve_lt hresolve))
    else none

/-- `opendir`. -/
def opendir (fs : FileSystem) (path : Bytes) : Option FileSystem :=
  match fs.tree.resolve path with
  | none => none
  | some dir =>
    if dir ∈ fs.tree.unreadable then none
    else some { fs with scan := some (Scan.start fs.tree dir) }

/-- `readdir` to the end, with the names it finds. -/
def readdir (fs : FileSystem) (names : List Bytes) : Option FileSystem :=
  match fs.scan with
  | none => none
  | some scan =>
    if scan.must ⊆ names ∧ names ⊆ scan.may then some { fs with scan := none } else none

def serve (fs : FileSystem) : Call → Answer → Option FileSystem
  | .inotifyAddWatch path, .watch wd => fs.inotifyAddWatch path wd
  | .inotifyAddWatch path, .error errno => if fs.FailsWith path errno then some fs else none
  | .inotifyRmWatch wd, .done => if wd ∈ fs.live then some (fs.kill wd) else none
  | .inotifyRmWatch wd, .error errno =>
    if errno = .einval ∧ wd ∉ fs.live then some fs else none
  | .opendir path, .done => fs.opendir path
  | .opendir path, .error errno => if fs.FailsWith path errno then some fs else none
  | .readdir, .names names => fs.readdir names
  | .readdir, .error _ => some fs
  | .read, .events events =>
    if events <+: fs.queue then some { fs with queue := fs.queue.drop events.length } else none
  | .read, .error _ => some fs
  | _, _ => none

end FileSystem

def fileSystem : Kernel FileSystem FsAct where
  serve := FileSystem.serve
  act := FileSystem.act

end DirWatcher.Environment
