import DirWatcher.Source.WdDirectory
import Mathlib.Data.UInt

/-!
The events of inotify and the order in which `process_inotify_events` tests the
bits of their masks.
-/

set_option autoImplicit false
set_option relaxedAutoImplicit false

namespace DirWatcher.Source

/-- `struct inotify_event`, without the field `len`. The name of an event that has
none is empty. -/
structure Event where
  wd : Wd
  mask : UInt32
  cookie : UInt32
  name : Bytes
deriving DecidableEq, Repr

def inCloseWrite : UInt32 := 0x8
def inMovedFrom : UInt32 := 0x40
def inMovedTo : UInt32 := 0x80
def inCreate : UInt32 := 0x100
def inDelete : UInt32 := 0x200
def inDeleteSelf : UInt32 := 0x400
def inMoveSelf : UInt32 := 0x800
def inQOverflow : UInt32 := 0x4000
def inIgnored : UInt32 := 0x8000
def inIsdir : UInt32 := 0x40000000

def createDirMask : UInt32 := inCreate ||| inIsdir

/-- `event_p->mask & bit` as a condition. -/
def Event.has (event : Event) (bit : UInt32) : Bool := event.mask &&& bit != 0

/-- The branches of the body of `process_inotify_events`. The last one has no code
of its own: what it stands for is reported. -/
inductive Branch
  | qOverflow
  | createDir
  | deleteSelf
  | moveSelf
  | movedFrom
  | movedTo
  | ignored
  | createFile
  | other
deriving DecidableEq, Repr

/-- The chain of `if` and `else if`, in its order. -/
def Event.branch (event : Event) : Branch :=
  if event.has inQOverflow then .qOverflow
  else if event.mask &&& createDirMask = createDirMask then .createDir
  else if event.has inDeleteSelf then .deleteSelf
  else if event.has inMoveSelf then .moveSelf
  else if event.has inMovedFrom then .movedFrom
  else if event.has inMovedTo then .movedTo
  else if event.has inIgnored then .ignored
  else if event.has inCreate then .createFile
  else .other

end DirWatcher.Source
