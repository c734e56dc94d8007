import DirWatcher.Source.Events

/-!
The watcher of `main.c`: `load_top_level_paths`, `add_watch` with its recursion
over `list_sub_dirs`, and `process_inotify_events`.

The code is cut into steps, so that anything can happen in the file system between
two of them. A step either makes one system call, and goes on with its answer, or
works on the memory of the process alone. The calls of `add_watch` that have not
returned yet are a stack.
-/

set_option autoImplicit false
set_option relaxedAutoImplicit false

namespace DirWatcher.Source

/-- The lines of the config file and of the exclude file. `fgets` reads at most
`MAX_PATH_LEN - 1` bytes. -/
structure Config where
  topLevelPaths : List Bytes
  excludes : List Bytes
  fits : ∀ path ∈ topLevelPaths, path.length < maxPathLen

def dirWatcherIgnore : Bytes := literal "__dir_watcher_ignore"

/-- The test against one entry of `excludes`. -/
def excludedBy (path exclude : Bytes) : Bool :=
  exclude.isPrefixOf path &&
    (match path.drop exclude.length with
      | [] => true
      | next :: _ => next == slash)

/-- The tests on the path with which `add_watch` begins. -/
def refusesPath (cfg : Config) (path : Bytes) : Bool :=
  cfg.excludes.any (excludedBy path) || dirWatcherIgnore.isSuffixOf path

/-- The errors the code tells apart. -/
inductive Errno
  | enoent
  | eacces
  | enotdir
  | einval
  | other
deriving DecidableEq, Repr

/-- The system calls of the watcher. `readdir` stands for the calls that read a
directory to its end, with the entries of type `DT_DIR` other than `.` and `..`. -/
inductive Call
  | inotifyAddWatch (path : Bytes)
  | inotifyRmWatch (wd : Wd)
  | opendir (path : Bytes)
  | readdir
  | read
deriving DecidableEq, Repr

inductive Answer
  | done
  | watch (wd : Wd)
  | names (names : List Bytes)
  | events (events : List Event)
  | error (errno : Errno)
deriving DecidableEq, Repr

/-- Where a call of `add_watch` returns to: the loop over the sub-directories of the
call before it, `load_top_level_paths`, or a branch of `process_inotify_events`. -/
inductive Frame
  | subDirs (wd : Wd) (path : Bytes) (names : List Bytes)
  | topLevel (path : Bytes)
  | created
  | movedTo
deriving DecidableEq, Repr

/-- The place in the code. `removePrunedWds` carries the list that is left, and the
row that `add_watch` is to insert afterwards. -/
inductive Place
  | loadTopLevelPaths
  | poll
  | nextEvent
  | addWatch (parentWd : Wd) (path : Bytes)
  | inotifyAddWatch (parentWd : Wd) (path : Bytes)
  | removePrunedWds (wds : List Wd) (row : Option Row)
  | opendir (wd : Wd) (path : Bytes)
  | readdir (wd : Wd) (path : Bytes)
  | subDirs (wd : Wd) (path : Bytes) (names : List Bytes)
  | returned (result : ℤ)
  | report
  | stopped (stop : Stop)
deriving DecidableEq, Repr

/-- The variables of the watcher. `lines` is the rest of the config file, `batch` the
rest of the events read, and `reports` and `watchedTops` record the directories
reported and the top level paths for which `add_watch` has returned zero. -/
structure Watcher where
  place : Place
  stack : List Frame
  lines : List Bytes
  table : Table
  batch : List Event
  prevWd : Wd
  parentDir : Option Bytes
  prevCookie : UInt32
  reports : List Bytes
  watchedTops : List Bytes
deriving DecidableEq, Repr

def Watcher.start (cfg : Config) : Watcher where
  place := .loadTopLevelPaths
  stack := []
  lines := cfg.topLevelPaths
  table := []
  batch := []
  prevWd := nullWd
  parentDir := none
  prevCookie := 0
  reports := []
  watchedTops := []

namespace Watcher

def exit (w : Watcher) (code : ℤ) : Watcher := { w with place := .stopped (.exited code) }

/-- `prune_wd_directory`, then on to `remove_pruned_wds`. -/
def prune (w : Watcher) (wd : Wd) (row : Option Row) : Watcher :=
  match pruneWdDirectory w.table wd with
  | none => { w with place := .stopped .loops }
  | some (wds, table) => { w with table, place := .removePrunedWds wds row }

/-! ### `add_watch` -/

/-- `add_watch` up to the call of `inotify_add_watch`. -/
def addWatch (cfg : Config) (w : Watcher) (parentWd : Wd) (path : Bytes) : Watcher :=
  if refusesPath cfg path then { w with place := .returned (-1) }
  else if findDirectoryWd w.table path ≠ nullWd then { w with place := .returned (-1) }
  else { w with place := .inotifyAddWatch parentWd path }

/-- The call of `add_wd_directory`, then on to `list_sub_dirs`. -/
def insertRow (w : Watcher) (row : Row) : Watcher :=
  match addWdDirectory w.table row with
  | none => { w with place := .stopped .sqlError }
  | some table => { w with table, place := .opendir row.wd row.path }

/-- A successful `inotify_add_watch`: a row that is there for the watch descriptor is
pruned first. -/
def watchAdded (w : Watcher) (parentWd : Wd) (path : Bytes) (wd : Wd) : Watcher :=
  if wdDirectoryExists w.table wd then w.prune wd (some ⟨wd, parentWd, path⟩)
  else w.insertRow ⟨wd, parentWd, path⟩

def watchFailed (w : Watcher) (errno : Errno) : Watcher :=
  if errno = .enoent ∨ errno = .eacces then { w with place := .returned (-1) } else w.exit 2

/-- One turn of the loop over the sub-directories. -/
def watchSubDir (w : Watcher) (wd : Wd) (path : Bytes) : List Bytes → Watcher
  | [] => { w with place := .returned 0 }
  | name :: rest =>
    let joined := snprintf maxPathLen (joinPath path name)
    if maxPathLen ≤ joined.2 then w.exit 4
    else { w with
      place := .addWatch wd joined.1
      stack := .subDirs wd path rest :: w.stack }

/-- A failed `opendir` of `list_sub_dirs`. -/
def opendirFailed (w : Watcher) (wd : Wd) (path : Bytes) (errno : Errno) : Watcher :=
  if errno = .enoent ∨ errno = .enotdir then { w with place := .subDirs wd path [] }
  else w.exit (-1)

/-- What the caller does with the result of `add_watch`. -/
def returnTo (w : Watcher) (result : ℤ) : Frame → Watcher
  | .subDirs wd path names => { w with place := .subDirs wd path names }
  | .topLevel path => { w with
      place := .loadTopLevelPaths
      watchedTops := if result = 0 then w.watchedTops ++ [path] else w.watchedTops }
  | .created => { w with place := if result ≠ 0 then .nextEvent else .report }
  | .movedTo => { w with place := .report }

/-! ### `process_inotify_events` -/

/-- `"%s"` for a `char *`: the C library prints `NULL` as `(null)`. -/
def printed : Option Bytes → Bytes
  | none => literal "(null)"
  | some text => text

/-- `watch_new_directory`. The test for an overflow is an equality, and a longer path
is cut off. -/
def watchNewDirectory (w : Watcher) (frame : Frame) (event : Event) : Watcher :=
  let joined := snprintf maxPathLen (joinPath (printed w.parentDir) event.name)
  if joined.2 = maxPathLen then w.exit 14
  else { w with place := .addWatch event.wd joined.1, stack := frame :: w.stack }

def pruneMovedDirectory (w : Watcher) (event : Event) : Watcher :=
  let joined := snprintf maxPathLen (joinPath (printed w.parentDir) event.name)
  if maxPathLen ≤ joined.2 then w.exit 4
  else if findDirectoryWd w.table joined.1 = nullWd then { w with place := .report }
  else w.prune (findDirectoryWd w.table joined.1) none

/-- The lookup of the directory of an event, skipped when the event before had the
same watch descriptor. -/
def findParent (w : Watcher) (event : Event) : Watcher :=
  if event.wd = w.prevWd then w
  else { w with
    parentDir := findWdDirectory w.table event.wd maxPathLen
    prevWd := event.wd }

def movedFrom (w : Watcher) (event : Event) : Watcher :=
  if event.cookie = w.prevCookie then w.exit 17
  else if event.has inIsdir then { w with prevCookie := event.cookie }.pruneMovedDirectory event
  else { w with prevCookie := event.cookie, place := .report }

def movedTo (w : Watcher) (event : Event) : Watcher :=
  if event.has inIsdir then
    { w with prevCookie := event.cookie }.watchNewDirectory .movedTo event
  else { w with prevCookie := event.cookie, place := .report }

/-- The branches, after the lookup of the directory of the event. -/
def dispatch (w : Watcher) (event : Event) : Watcher :=
  match event.branch with
  | .qOverflow => w.exit 16
  | .createDir => w.watchNewDirectory .created event
  | .deleteSelf => { w with place := .nextEvent }
  | .moveSelf => { w with place := .nextEvent }
  | .movedFrom => w.movedFrom event
  | .movedTo => w.movedTo event
  | .ignored => { w with table := removeWdDirectory w.table event.wd, place := .nextEvent }
  | .createFile => { w with place := .nextEvent }
  | .other => { w with place := .report }

/-- The end of the loop. An event without a directory is not reported. -/
def report (w : Watcher) : Watcher :=
  match w.parentDir with
  | none => { w with place := .nextEvent }
  | some directory => { w with place := .nextEvent, reports := w.reports ++ [directory] }

/-- The start of `process_inotify_events`, with the events that `read` has put in the
buffer. -/
def startBatch (w : Watcher) (events : List Event) : Watcher :=
  { w with batch := events, prevWd := nullWd, parentDir := none, place := .nextEvent }

/-! ### Steps -/

/-- The system call at the place in the code, if there is one. -/
def call (w : Watcher) : Option Call :=
  match w.place with
  | .poll => some .read
  | .inotifyAddWatch _ path => some (.inotifyAddWatch path)
  | .removePrunedWds (wd :: _) _ => some (.inotifyRmWatch wd)
  | .opendir _ path => some (.opendir path)
  | .readdir _ _ => some .readdir
  | _ => none

/-- A step without a system call. -/
def internal (cfg : Config) (w : Watcher) : Option Watcher :=
  match w.place with
  | .loadTopLevelPaths =>
    match w.lines with
    | [] => some { w with place := .poll }
    | line :: rest => some { w with
        lines := rest, place := .addWatch nullWd line, stack := .topLevel line :: w.stack }
  | .nextEvent =>
    match w.batch with
    | [] => some { w with place := .poll }
    | event :: rest => some (({ w with batch := rest }.findParent event).dispatch event)
  | .addWatch parentWd path => some (w.addWatch cfg parentWd path)
  | .removePrunedWds [] none => some { w with place := .report }
  | .removePrunedWds [] (some row) => some (w.insertRow row)
  | .subDirs wd path names => some (w.watchSubDir wd path names)
  | .returned result =>
    match w.stack with
    | [] => none
    | frame :: rest => some ({ w with stack := rest }.returnTo result frame)
  | .report => some w.report
  | _ => none

/-- How the watcher goes on after the answer to its system call. -/
def resume (w : Watcher) (answer : Answer) : Option Watcher :=
  match w.place, answer with
  | .poll, .events events => some (w.startBatch events)
  | .poll, .error _ => some (w.exit (-1))
  | .inotifyAddWatch parentWd path, .watch wd => some (w.watchAdded parentWd path wd)
  | .inotifyAddWatch _ _, .error errno => some (w.watchFailed errno)
  | .removePrunedWds (_ :: rest) row, .done => some { w with place := .removePrunedWds rest row }
  | .removePrunedWds (_ :: rest) row, .error errno =>
    if errno = .einval then some { w with place := .removePrunedWds rest row }
    else some (w.exit 15)
  | .opendir wd path, .done => some { w with place := .readdir wd path }
  | .opendir wd path, .error errno => some (w.opendirFailed wd path errno)
  | .readdir wd path, .names names => some { w with place := .subDirs wd path names }
  | .readdir _ _, .error _ => some (w.exit (-1))
  | _, _ => none

end Watcher

end DirWatcher.Source
