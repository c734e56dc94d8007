import DirWatcher.Source.Notifications

/-!
The loop of `main`, cut into steps so that a signal can be handled between any two of them.
The tests and assignments of `alive` and `flush_now` are steps of their own, and so are the
parts of `flush_hash_cache`. What `poll`, `getppid` and the calls on the files answer, what
they leave in `errno`, and which directories the events of a batch report, is left open.
-/

set_option autoImplicit false
set_option relaxedAutoImplicit false

namespace DirWatcher.Source

/-- `EINTR`, the `errno` of a `poll` that a signal has interrupted. -/
def eintr : ℕ := 4

/-- The result of `poll`: a failure, with the `errno` it leaves, a timeout, or a ready
descriptor with or without `POLLIN`. -/
inductive PollResult
  | failed (errno : ℕ)
  | timeout
  | ready (pollin : Bool)
deriving DecidableEq, Repr

/-! ### The steps of `flush_hash_cache` -/

/-- The place in `flush_hash_cache`: at its start, before a call of `hash_cache_iter`,
before `hash_cache_clear`, and before `fclose` and `rename_temp_file`. -/
inductive FlushPlace
  | opening (parentDir : Option CString)
  | printing (pos : ℕ) (file : Option TempFile)
  | clearing (file : Option TempFile)
  | closing (file : Option TempFile)
deriving DecidableEq, Repr

/-- One step of `flush_hash_cache`, with the place it leads to. `none` is its return. -/
def flushStep (io : FlushIo) (notifier : Notifier) :
    FlushPlace → Except Stop (Notifier × Option FlushPlace)
  | .opening parentDir => do
    let first ← printParent io parentDir
    return (notifier, some (.printing 0 first))
  | .printing pos file =>
    match hashCacheIter notifier.hc pos with
    | none => .ok (notifier, some (.clearing file))
    | some (next, item) => do
      let opened ← openOnce io file
      let printed := printLine io opened (stringAt item.data)
      if printed.error then .error (.exited 20)
      else .ok (notifier, some (.printing next (some printed)))
  | .clearing file => .ok ({ notifier with hc := hashCacheClear notifier.hc }, some (.closing file))
  | .closing file => do
    let after ← publish io notifier file
    return (after, none)

/-! ### The loop -/

/-- The place in the loop: the test of `alive`, `poll`, the test on the parent process, the
test of `flush_now`, its reset, the flush that follows, the `switch` on the result of
`poll`, the events, the flush in the middle of them, and the end of `main`. -/
inductive LoopPlace
  | aliveTest
  | poll
  | parentTest (result : PollResult)
  | flushTest (result : PollResult)
  | flushReset (result : PollResult)
  | timerFlush (result : PollResult) (place : FlushPlace)
  | switch (result : PollResult)
  | events
  | eventFlush (place : FlushPlace)
  | ended
deriving DecidableEq, Repr

/-- What is worth remembering of a run. `put` is a directory that is in the cache when
`hash_cache_add` returns. -/
inductive Happening
  | reported (directory : CString)
  | put (directory : CString)
  | alarm
  | cleared
  | published (lines : List Bytes)
deriving DecidableEq, Repr

/-- The places at which a library or system call is made, which can change `errno` even
when it succeeds. -/
def LoopPlace.calls : LoopPlace → Bool
  | .poll => true
  | .parentTest _ => true
  | .timerFlush _ _ => true
  | .events => true
  | .eventFlush _ => true
  | _ => false

structure MainLoop where
  alive : Bool
  flushNow : Bool
  errno : ℕ
  notifier : Notifier
  place : LoopPlace
  stop : Option Stop
  log : List Happening

/-- The choices that are not up to the process: the signals, the answers of the calls and
what they leave in `errno`, and the events, which report a directory, come to their end or
stop the process. -/
inductive LoopLabel
  | sigterm
  | sigalrm
  | next
  | poll (result : PollResult)
  | errno (value : ℕ)
  | parent (gone : Bool)
  | flush (io : FlushIo)
  | report (directory : CString)
  | endBatch
  | abort (stop : Stop)

namespace MainLoop

def start (notifier : Notifier) : MainLoop where
  alive := true
  flushNow := false
  errno := 0
  notifier := notifier
  place := .aliveTest
  stop := none
  log := []

/-- What a step of a flush adds to the log. -/
def happenings (place : FlushPlace) (before after : Notifier) : List Happening :=
  match place with
  | .clearing _ => [.cleared]
  | _ => (after.published.drop before.published.length).map fun file ↦ .published file.lines

/-- One step of a flush, with the place after its return. -/
def flush (s : MainLoop) (io : FlushIo) (place : FlushPlace) (inside : FlushPlace → LoopPlace)
    (done : LoopPlace) : MainLoop :=
  match flushStep io s.notifier place with
  | .error stop => { s with stop := some stop }
  | .ok (notifier, next) => { s with
      notifier
      place := next.elim done inside
      log := s.log ++ happenings place s.notifier notifier }

/-- The end of the loop of `process_inotify_events` for a directory that is reported. -/
def reportDirectory (s : MainLoop) (directory : CString) : MainLoop :=
  match hashCacheAdd s.notifier.hc directory.terminated with
  | none => { s with stop := some .loops, log := s.log ++ [.reported directory] }
  | some (result, hc) =>
    if result = 0 then { s with
      notifier := { s.notifier with hc }
      place := .eventFlush (.opening (some directory))
      log := s.log ++ [.reported directory] }
    else { s with
      notifier := { s.notifier with hc }
      log := s.log ++ [.reported directory, .put directory] }

/-- The answer of `poll`. -/
def polled (s : MainLoop) (result : PollResult) : MainLoop :=
  match result with
  | .failed errno => { s with errno, place := .parentTest result }
  | _ => { s with place := .parentTest result }

/-- The `switch` on the result. After a failure the variable `errno` is read only here. -/
def switch (s : MainLoop) (result : PollResult) : MainLoop :=
  match result with
  | .failed _ =>
    if s.errno ≠ eintr then { s with stop := some (.exited 24) }
    else { s with place := .aliveTest }
  | .ready true => { s with place := if s.alive then .events else .aliveTest }
  | _ => { s with place := .aliveTest }

/-- A step of a process that has not come to its end. The functions that the events call
have no `exit(24)`. -/
def advance (s : MainLoop) (label : LoopLabel) : Option MainLoop :=
  match label, s.place with
  | .sigterm, _ => some { s with alive := false }
  | .sigalrm, _ => some { s with flushNow := true, log := s.log ++ [.alarm] }
  | .next, .aliveTest => some { s with place := if s.alive then .poll else .ended }
  | .poll result, .poll => some (s.polled result)
  | .errno value, place => if place.calls then some { s with errno := value } else none
  | .parent gone, .parentTest result =>
    some { s with alive := s.alive && !gone, place := .flushTest result }
  | .next, .flushTest result =>
    some { s with place := if s.flushNow then .flushReset result else .switch result }
  | .next, .flushReset result =>
    some { s with flushNow := false, place := .timerFlush result (.opening none) }
  | .flush io, .timerFlush result place =>
    some (s.flush io place (.timerFlush result) (.switch result))
  | .next, .switch result => some (s.switch result)
  | .report directory, .events => some (s.reportDirectory directory)
  | .endBatch, .events => some { s with place := .aliveTest }
  | .abort stop, .events =>
    if stop = .exited 24 then none else some { s with stop := some stop }
  | .flush io, .eventFlush place => some (s.flush io place .eventFlush .events)
  | _, _ => none

def step (s : MainLoop) (label : LoopLabel) : Option MainLoop :=
  if s.stop.isSome ∨ s.place = .ended then none else s.advance label

end MainLoop

end DirWatcher.Source
