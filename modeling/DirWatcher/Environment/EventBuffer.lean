import DirWatcher.Environment.Interface
import DirWatcher.Source.IterateInotifyEvents

/-!
The watcher with the buffer of `iterate_inotify_events.c`. The rest of a batch is what the
iterator comes to, and an event is read where its pointer leads to. The name is read as the
string that starts behind the header, whatever the length of the name field is.
-/

set_option autoImplicit false
set_option relaxedAutoImplicit false

namespace DirWatcher.Environment

open Source

/-- The static variables, and the result of `start_iter_inotify` until the loop has tested
it. -/
structure EventVars where
  iterator : EventIterator
  started : Option IterOutcome

/-- `fault` records behaviour that C leaves undefined. -/
structure BufferSystem (κ : Type) where
  system : System κ
  vars : EventVars
  fault : Bool

/-- The branch joins the name of the event to a path. -/
def usesName (event : Event) : Bool :=
  match event.branch with
  | .createDir => true
  | .movedFrom => event.has inIsdir
  | .movedTo => event.has inIsdir
  | _ => false

/-- The bytes from an index of the buffer to its end. -/
def bytesFrom (buffer : ℕ → UInt8) (index : ℕ) : Bytes :=
  readBytes buffer index (inotifyEventBufferLen - index)

/-- `*event_p`, with `event_p->name` as a string. -/
def eventRead (buffer : ℕ → UInt8) (index : ℕ) : Event :=
  { (eventAt buffer index).seen with
    name := stringAt (bytesFrom buffer (index + inotifyEventSize)) }

namespace BufferSystem

variable {κ α : Type}

def start (cfg : Config) (kernel : κ) (iterator : EventIterator) : BufferSystem κ :=
  ⟨System.start cfg kernel, ⟨iterator, none⟩, false⟩

/-- The head of the loop of `process_inotify_events`, and its body up to the first system
call. A name without an end in the buffer has no meaning. -/
def nextEvent (s : BufferSystem κ) : BufferSystem κ :=
  match s.vars.started.getD s.vars.iterator.nextIterInotify with
  | .null iterator => { s with system.watcher.place := .poll, vars := ⟨iterator, none⟩ }
  | .exited code => { s with system.watcher := s.system.watcher.exit code }
  | .undefined => { s with fault := true }
  | .event index iterator =>
    let event := eventRead iterator.buffer index
    if usesName event && !(bytesFrom iterator.buffer (index + inotifyEventSize)).contains 0 then
      { s with fault := true }
    else { s with
      system.watcher := (s.system.watcher.findParent event).dispatch event
      vars := ⟨iterator, none⟩ }

def internal (cfg : Config) (s : BufferSystem κ) : Option (BufferSystem κ) :=
  match s.system.watcher.place with
  | .nextEvent => some s.nextEvent
  | _ => (s.system.watcher.internal cfg).map fun watcher ↦ { s with system.watcher := watcher }

/-- The answer to a system call. `read` puts the bytes of the events into the buffer. -/
def answer (cfg : Config) (k : Kernel κ α) (encode : List Event → Bytes) (s : BufferSystem κ)
    (answer : Answer) : Option (BufferSystem κ) :=
  (s.system.step cfg k (.answer answer : Label α)).map fun system ↦
    match answer with
    | .events events =>
      { s with
        system := { system with watcher.batch := [] }
        vars.started := some (s.vars.iterator.startIterInotify (some (encode events))) }
    | _ => { s with system }

def step (cfg : Config) (k : Kernel κ α) (encode : List Event → Bytes) (s : BufferSystem κ)
    (label : Label α) : Option (BufferSystem κ) :=
  if s.fault then none
  else match label with
    | .act action => (s.system.step cfg k (.act action)).map fun system ↦ { s with system }
    | .internal => s.internal cfg
    | .answer answer => s.answer cfg k encode answer

end BufferSystem

end DirWatcher.Environment
