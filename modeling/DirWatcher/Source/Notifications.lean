import DirWatcher.Source.Paths

/-!
The part of `main.c` that collects the directories to report and publishes them:
`open_temp_file`, `rename_temp_file` and `flush_hash_cache`, with the report at
the end of the loop of `process_inotify_events` and the flush of the timer.

How the calls of `stdio` and `rename` turn out is a parameter of each flush.
-/

set_option autoImplicit false
set_option relaxedAutoImplicit false

namespace DirWatcher.Source

/-- What the calls on the temporary file answer during one flush: whether `fopen`
fails, which calls of `fprintf` set the error flag of the stream and lose their
line, how many of the last lines are lost when `fclose` writes the buffer out,
and whether `rename` fails. A line that is cut off counts as lost, and the piece
of it that a failing `fclose` can leave at the end of the file is not kept. -/
structure FlushIo where
  openFails : Bool
  printFails : ℕ → Bool
  closeLoses : ℕ
  renameFails : Bool

/-- No call fails. -/
def FlushIo.faultless : FlushIo := ⟨false, fun _ ↦ false, 0, false⟩

/-- The stream of the temporary file. -/
structure TempFile where
  lines : List Bytes
  error : Bool
  prints : ℕ
deriving DecidableEq, Repr

/-- A notification file that `rename` has put in its place, with its whole lines. -/
structure Publication where
  path : Bytes
  lines : List Bytes
deriving DecidableEq, Repr

/-- The globals the notifications depend on, with the files published so far. The overflow
of the `int` `notification_count`, which C leaves undefined, is not modelled. -/
structure Notifier where
  hc : HashCache
  notifyDir : Bytes
  notificationCount : ℕ
  published : List Publication

def openTempFile (io : FlushIo) : Except Stop TempFile :=
  if io.openFails then .error (.exited 11) else .ok ⟨[], false, 0⟩

/-- `fprintf(temp_file_p, "%s\n", line)`. -/
def printLine (io : FlushIo) (file : TempFile) (line : Bytes) : TempFile :=
  if io.printFails file.prints then { file with error := true, prints := file.prints + 1 }
  else { file with lines := file.lines ++ [line], prints := file.prints + 1 }

/-- The text of `"%s/%08d.txt"`. -/
def notificationPath (notifyDir : Bytes) (count : ℕ) : Bytes :=
  joinPath notifyDir (paddedDecimal count ++ literal ".txt")

/-- `rename_temp_file`, for a temporary file of the given lines. The test for an
overflow of the buffer is an equality in the source. -/
def renameTempFile (io : FlushIo) (notifier : Notifier) (lines : List Bytes) :
    Except Stop Notifier :=
  let count := notifier.notificationCount + 1
  let name := snprintf maxPathLen (notificationPath notifier.notifyDir count)
  if name.2 = maxPathLen then .error (.exited 12)
  else if io.renameFails then .error (.exited 13)
  else .ok { notifier with
    notificationCount := count
    published := notifier.published ++ [⟨name.1, lines⟩] }

/-- The file of a flush, opened if it is not open yet. -/
def openOnce (io : FlushIo) : Option TempFile → Except Stop TempFile
  | some file => .ok file
  | none => openTempFile io

/-- The start of `flush_hash_cache`: a directory that did not fit in the cache is
the first line. The error flag is not tested here. -/
def printParent (io : FlushIo) : Option CString → Except Stop (Option TempFile)
  | none => .ok none
  | some directory => do
    let file ← openTempFile io
    return some (printLine io file directory.bytes)

/-- The loop of `flush_hash_cache` from position `pos` on, for at most `fuel`
calls of `hash_cache_iter`. The file is opened at the first line. -/
def printItems (io : FlushIo) (hc : HashCache) :
    ℕ → ℕ → Option TempFile → Except Stop (Option TempFile)
  | 0, _, _ => .error .loops
  | fuel + 1, pos, file =>
    match hashCacheIter hc pos with
    | none => .ok file
    | some (next, item) => do
      let opened ← openOnce io file
      let printed := printLine io opened (stringAt item.data)
      if printed.error then .error (.exited 20) else printItems io hc fuel next (some printed)

/-- The end of `flush_hash_cache`: a file that has been opened is closed, the
result of `fclose` not tested, and renamed. -/
def publish (io : FlushIo) (notifier : Notifier) : Option TempFile → Except Stop Notifier
  | none => .ok notifier
  | some file =>
    renameTempFile io notifier (file.lines.take (file.lines.length - io.closeLoses))

def flushHashCache (io : FlushIo) (notifier : Notifier) (parentDir : Option CString) :
    Except Stop Notifier := do
  let first ← printParent io parentDir
  let file ← printItems io notifier.hc (notifier.hc.hashPos + 1) 0 first
  publish io { notifier with hc := hashCacheClear notifier.hc } file

/-- The end of the loop of `process_inotify_events`, for an event whose directory
is to be reported. -/
def reportDirectory (io : FlushIo) (notifier : Notifier) (directory : CString) :
    Except Stop Notifier :=
  match hashCacheAdd notifier.hc directory.terminated with
  | none => .error .loops
  | some (result, hc) =>
    if result = 0 then flushHashCache io { notifier with hc } (some directory)
    else .ok { notifier with hc }

/-- The flush of the main loop when the timer has fired. -/
def flushTimer (io : FlushIo) (notifier : Notifier) : Except Stop Notifier :=
  flushHashCache io notifier none

end DirWatcher.Source
