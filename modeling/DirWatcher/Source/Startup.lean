import DirWatcher.Source.Paths

/-!
The two paths that `main` makes of the directory for the notifications before anything
else. The test for an overflow is an equality in both.
-/

set_option autoImplicit false
set_option relaxedAutoImplicit false

namespace DirWatcher.Source

/-- `initialize_error_path`, whose buffer has one byte more than the others. -/
def initializeErrorPath (notifyDir : Bytes) : Except Stop Bytes :=
  let path := snprintf (maxPathLen + 1) (joinPath notifyDir (literal "error.txt"))
  if path.2 = maxPathLen + 1 then .error (.exited 1) else .ok path.1

def initializeTempPath (notifyDir : Bytes) : Except Stop Bytes :=
  let path := snprintf maxPathLen (joinPath notifyDir (literal "temp"))
  if path.2 = maxPathLen then .error (.exited 1) else .ok path.1

end DirWatcher.Source
