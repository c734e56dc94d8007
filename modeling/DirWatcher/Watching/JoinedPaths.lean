import DirWatcher.Source.Notifications
import DirWatcher.Source.Startup
import DirWatcher.Source.Watcher

/-!
The places that join a directory and a name in a buffer of a fixed size. Two of them stop
the process for every path that does not fit. The other four stop it only for a path that
is as long as the buffer, and go on with the front of a longer one.
-/

set_option autoImplicit false
set_option relaxedAutoImplicit false

namespace DirWatcher.Watching

open Source

/-- A call of one of the functions that join paths, with what it works on. -/
inductive JoinSite
  | initializeErrorPath (notifyDir : Bytes)
  | initializeTempPath (notifyDir : Bytes)
  | renameTempFile (notifier : Notifier) (lines : List Bytes)
  | watchNewDirectory (w : Watcher) (frame : Frame) (event : Event)
  | pruneMovedDirectory (w : Watcher) (event : Event)
  | watchSubDir (w : Watcher) (wd : Wd) (path name : Bytes) (rest : List Bytes)

namespace JoinSite

/-- The directory, a slash and the name. -/
def fullPath : JoinSite → Bytes
  | initializeErrorPath notifyDir => joinPath notifyDir (literal "error.txt")
  | initializeTempPath notifyDir => joinPath notifyDir (literal "temp")
  | renameTempFile notifier _ =>
    joinPath notifier.notifyDir
      (paddedDecimal (notifier.notificationCount + 1) ++ literal ".txt")
  | watchNewDirectory w _ event => joinPath (Watcher.printed w.parentDir) event.name
  | pruneMovedDirectory w event => joinPath (Watcher.printed w.parentDir) event.name
  | watchSubDir _ _ path name _ => joinPath path name

def bufferSize : JoinSite → ℕ
  | initializeErrorPath _ => maxPathLen + 1
  | _ => maxPathLen

/-- The result of `snprintf` is tested with `>=`, not with `==`. -/
def testsAtLeast : JoinSite → Bool
  | pruneMovedDirectory _ _ => true
  | watchSubDir _ _ _ _ _ => true
  | _ => false

/-- The process stops because the path does not fit. -/
def Terminates : JoinSite → Prop
  | initializeErrorPath notifyDir =>
    Source.initializeErrorPath notifyDir = .error (.exited 1)
  | initializeTempPath notifyDir => Source.initializeTempPath notifyDir = .error (.exited 1)
  | renameTempFile notifier lines =>
    ∀ io, Source.renameTempFile io notifier lines = .error (.exited 12)
  | watchNewDirectory w frame event => w.watchNewDirectory frame event = w.exit 14
  | pruneMovedDirectory w event => w.pruneMovedDirectory event = w.exit 4
  | watchSubDir w wd path name rest => w.watchSubDir wd path (name :: rest) = w.exit 4

/-- The function goes on, and the path it uses is the given one. -/
def GoesOnWith (used : Bytes) : JoinSite → Prop
  | initializeErrorPath notifyDir => Source.initializeErrorPath notifyDir = .ok used
  | initializeTempPath notifyDir => Source.initializeTempPath notifyDir = .ok used
  | renameTempFile notifier lines =>
    ∀ io, Source.renameTempFile io notifier lines =
      if io.renameFails then .error (.exited 13)
      else .ok { notifier with
        notificationCount := notifier.notificationCount + 1
        published := notifier.published ++ [⟨used, lines⟩] }
  | watchNewDirectory w frame event =>
    w.watchNewDirectory frame event =
      { w with place := .addWatch event.wd used, stack := frame :: w.stack }
  | pruneMovedDirectory w event =>
    w.pruneMovedDirectory event =
      if findDirectoryWd w.table used = nullWd then { w with place := .report }
      else w.prune (findDirectoryWd w.table used) none
  | watchSubDir w wd path name rest =>
    w.watchSubDir wd path (name :: rest) =
      { w with place := .addWatch wd used, stack := .subDirs wd path rest :: w.stack }

end JoinSite

/-! ### Paths in a buffer -/

variable {site : JoinSite}

theorem snprintf_ne {size : ℕ} {text : Bytes} (hlong : size < text.length) :
    (snprintf size text).1 ≠ text := by
  intro heq
  have hlength := congrArg List.length heq
  rw [snprintf, List.length_take] at hlength
  omega

theorem fst_snprintf_of_lt {size : ℕ} {text : Bytes} (hfits : text.length < size) :
    (snprintf size text).1 = text := List.take_of_length_le (by omega)

/-- A path that passes the test is used as the buffer holds it. -/
theorem goesOnWith_stored (hpass : site.fullPath.length ≠ site.bufferSize)
    (htest : site.testsAtLeast = true → site.fullPath.length < site.bufferSize) :
    site.GoesOnWith (snprintf site.bufferSize site.fullPath).1 := by
  cases site with
  | initializeErrorPath notifyDir => exact if_neg hpass
  | initializeTempPath notifyDir => exact if_neg hpass
  | renameTempFile notifier lines => exact fun io ↦ if_neg hpass
  | watchNewDirectory w frame event => exact if_neg hpass
  | pruneMovedDirectory w event => exact if_neg (not_le.mpr (htest rfl))
  | watchSubDir w wd path name rest => exact if_neg (not_le.mpr (htest rfl))

/-- A path that fits in the buffer is used as it is. -/
theorem goesOnWith_of_lt (hfits : site.fullPath.length < site.bufferSize) :
    site.GoesOnWith site.fullPath := by
  have hstored := goesOnWith_stored hfits.ne fun _ ↦ hfits
  rwa [fst_snprintf_of_lt hfits] at hstored

/-- A path as long as the buffer stops the process, and with the test `>=` a longer one
too. -/
theorem terminates_of_le (hlong : site.bufferSize ≤ site.fullPath.length)
    (htest : site.testsAtLeast = true ∨ site.fullPath.length ≤ site.bufferSize) :
    site.Terminates := by
  cases site with
  | pruneMovedDirectory w event => exact if_pos hlong
  | watchSubDir w wd path name rest => exact if_pos hlong
  | initializeErrorPath notifyDir =>
    exact if_pos (le_antisymm (htest.resolve_left Bool.false_ne_true) hlong)
  | initializeTempPath notifyDir =>
    exact if_pos (le_antisymm (htest.resolve_left Bool.false_ne_true) hlong)
  | renameTempFile notifier lines =>
    intro io
    exact if_pos (le_antisymm (htest.resolve_left Bool.false_ne_true) hlong)
  | watchNewDirectory w frame event =>
    exact if_pos (le_antisymm (htest.resolve_left Bool.false_ne_true) hlong)

/-- Where the test is `==`, a place that goes on does not stop. -/
theorem JoinSite.GoesOnWith.not_terminates {used : Bytes} (hgoes : site.GoesOnWith used)
    (htest : site.testsAtLeast = false) : ¬ site.Terminates := by
  intro hstop
  cases site with
  | initializeErrorPath notifyDir => cases hgoes.symm.trans hstop
  | initializeTempPath notifyDir => cases hgoes.symm.trans hstop
  | renameTempFile notifier lines => cases (hgoes .faultless).symm.trans (hstop .faultless)
  | watchNewDirectory w frame event => cases congrArg Watcher.place (hgoes.symm.trans hstop)
  | pruneMovedDirectory w event => cases htest
  | watchSubDir w wd path name rest => cases htest

/-- Where the test is `==`, the path with which a place goes on is the only one. -/
theorem JoinSite.GoesOnWith.unique {used other : Bytes} (hused : site.GoesOnWith used)
    (hother : site.GoesOnWith other) (htest : site.testsAtLeast = false) : used = other := by
  cases site with
  | initializeErrorPath notifyDir => exact Except.ok.inj (hused.symm.trans hother)
  | initializeTempPath notifyDir => exact Except.ok.inj (hused.symm.trans hother)
  | renameTempFile notifier lines =>
    have hsame := congrArg Notifier.published
      (Except.ok.inj ((hused .faultless).symm.trans (hother .faultless)))
    rw [List.append_cancel_left_eq, List.cons.injEq, Publication.mk.injEq] at hsame
    exact hsame.1.1
  | watchNewDirectory w frame event =>
    have hsame := congrArg Watcher.place (hused.symm.trans hother)
    rw [Place.addWatch.injEq] at hsame
    exact hsame.2
  | pruneMovedDirectory w event => cases htest
  | watchSubDir w wd path name rest => cases htest

/-- With the test `==` a path longer than the buffer neither stops the process nor is
used in full. -/
theorem not_whole_of_lt (htest : site.testsAtLeast = false)
    (hlong : site.bufferSize < site.fullPath.length) :
    ¬ (site.Terminates ∨ site.GoesOnWith site.fullPath) := by
  have hcut := goesOnWith_stored hlong.ne' (by simp [htest])
  rintro (hstop | hwhole)
  · exact hcut.not_terminates htest hstop
  · exact snprintf_ne hlong (hcut.unique hwhole htest)

/-- A place that joins paths stops the process or goes on with the whole path exactly if
it tests with `>=` or the path is not longer than the buffer. -/
theorem whole_iff (site : JoinSite) :
    site.Terminates ∨ site.GoesOnWith site.fullPath ↔
      site.testsAtLeast = true ∨ site.fullPath.length ≤ site.bufferSize := by
  constructor
  · intro hwhole
    by_contra hnot
    rw [not_or, Bool.not_eq_true, not_le] at hnot
    exact not_whole_of_lt hnot.1 hnot.2 hwhole
  · intro htest
    rcases Nat.lt_or_ge site.fullPath.length site.bufferSize with hfits | hlong
    · exact Or.inr (goesOnWith_of_lt hfits)
    · exact Or.inl (terminates_of_le hlong htest)

/-- The watcher at an event in a directory with this path. -/
def inDirectory (directory : Bytes) : Watcher :=
  { Watcher.start ⟨[], [], by simp⟩ with parentDir := some directory }

/-- The call of `watch_new_directory` for a name in that directory. -/
def createdIn (directory name : Bytes) : JoinSite :=
  .watchNewDirectory (inDirectory directory) .created ⟨1, createDirMask, 0, name⟩

theorem fullPath_createdIn (directory name : Bytes) :
    (createdIn directory name).fullPath = joinPath directory name := rfl

/-- A directory is created with a name of ten bytes in a directory with a path of 4090
bytes. The front of the joined path is watched. -/
theorem not_whole_createdIn : ∃ directory name : Bytes,
    directory.length = 4090 ∧ name.length = 10 ∧
      ¬ ((createdIn directory name).Terminates ∨
        (createdIn directory name).GoesOnWith (createdIn directory name).fullPath) := by
  refine ⟨List.replicate 4090 97, List.replicate 10 98, List.length_replicate,
    List.length_replicate, not_whole_of_lt rfl ?_⟩
  rw [fullPath_createdIn, length_joinPath, List.length_replicate, List.length_replicate]
  exact (by decide : maxPathLen < 4090 + 10 + 1)

end DirWatcher.Watching
