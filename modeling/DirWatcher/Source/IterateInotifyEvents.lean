import DirWatcher.Source.Events
import Mathlib.Data.UInt
import Mathlib.Data.Int.Init

/-!
`iterate_inotify_events.c`: the walk over the events that one `read` has put in the
buffer, with its three static variables.

The variables of type `int` are integers, and the conversions the code makes are
written out. A pointer into the buffer is an index. Where C leaves the behaviour
undefined, the outcome says so.
-/

set_option autoImplicit false
set_option relaxedAutoImplicit false

namespace DirWatcher.Source

/-- `sizeof (struct inotify_event)`, the length of the header of an event. -/
def inotifyEventSize : ℕ := 16

def inotifyEventBufferLen : ℕ := 64 * 1024

/-! ### The integers of C -/

/-- An `int` compared with a `size_t`. -/
def toSizeT (n : ℤ) : ℕ := (n % (2 ^ 64 : ℕ)).toNat

/-- A `size_t` stored in an `int`. -/
def narrowed (n : ℕ) : ℤ := (n : ℤ).bmod (2 ^ 32)

/-- The sum of two `int`, which is undefined when it overflows. -/
def addInt (first second : ℤ) : Option ℤ :=
  if -2 ^ 31 ≤ first + second ∧ first + second < 2 ^ 31 then some (first + second) else none

/-! ### Events in the buffer -/

/-- `struct inotify_event` as it lies in the buffer. The field `len` is the length of
the name field, which the kernel pads with zero bytes. -/
structure InotifyEvent where
  wd : Int32
  mask : UInt32
  cookie : UInt32
  name : Bytes
deriving DecidableEq, Repr

/-- The `uint32_t` that lies in these bytes, the lowest one first. -/
def uint32Of (bytes : Bytes) : UInt32 :=
  UInt32.ofNat (bytes.foldr (fun byte high ↦ byte.toNat + 256 * high) 0)

/-- The field of a header at an index of the buffer. -/
def uint32At (buffer : ℕ → UInt8) (index : ℕ) : UInt32 := uint32Of (readBytes buffer index 4)

/-- `event_p->len`. -/
def lenAt (buffer : ℕ → UInt8) (index : ℕ) : ℕ := (uint32At buffer (index + 12)).toNat

/-- `*event_p`, with its name field. -/
def eventAt (buffer : ℕ → UInt8) (index : ℕ) : InotifyEvent where
  wd := (uint32At buffer index).toInt32
  mask := uint32At buffer (index + 4)
  cookie := uint32At buffer (index + 8)
  name := readBytes buffer (index + inotifyEventSize) (lenAt buffer index)

/-- What `process_inotify_events` makes of an event: the name is read as a string. -/
def InotifyEvent.seen (event : InotifyEvent) : Event where
  wd := event.wd.toInt
  mask := event.mask
  cookie := event.cookie
  name := stringAt event.name

/-! ### The iterator -/

structure EventIterator where
  buffer : ℕ → UInt8
  startUnusedBuffer : ℤ
  eventStartIndex : ℤ
  eventSize : ℤ

/-- How a call ends: with a pointer to an event, with `NULL`, with an `exit`, or in
behaviour that C leaves undefined. -/
inductive IterOutcome
  | event (index : ℕ) (after : EventIterator)
  | null (after : EventIterator)
  | exited (code : ℤ)
  | undefined

namespace EventIterator

/-- The static variables after `read` has put these bytes at the front of the buffer. -/
def filled (it : EventIterator) (bytes : Bytes) : EventIterator :=
  { it with
    buffer := writeBytes it.buffer 0 bytes
    startUnusedBuffer := bytes.length
    eventStartIndex := 0 }

/-- `start_iter_inotify`, for the bytes that `read` delivers. `none` is a `read` that
fails. Both tests compare as `size_t`. -/
def startIterInotify (it : EventIterator) : Option Bytes → IterOutcome
  | none => .exited (-1)
  | some bytes =>
    let read := it.filled bytes
    if toSizeT read.startUnusedBuffer < inotifyEventSize then
      .null { read with startUnusedBuffer := 0 }
    else if toSizeT read.startUnusedBuffer < inotifyEventSize + lenAt read.buffer 0 then
      .null { read with startUnusedBuffer := 0 }
    else
      .event 0 { read with eventSize := narrowed (inotifyEventSize + lenAt read.buffer 0) }

/-- `next_iter_inotify`. The first test compares as `size_t`, the second one as `int`,
after the size has been narrowed. An index before the buffer is undefined. -/
def nextIterInotify (it : EventIterator) : IterOutcome :=
  match addInt it.eventStartIndex it.eventSize with
  | none => .undefined
  | some nextEventStartIndex =>
    if nextEventStartIndex = it.startUnusedBuffer then .null it
    else if toSizeT it.startUnusedBuffer <
        (toSizeT nextEventStartIndex + inotifyEventSize) % 2 ^ 64 then .exited (-1)
    else if nextEventStartIndex < 0 then .undefined
    else
      let index := nextEventStartIndex.toNat
      let nextEventSize := narrowed (inotifyEventSize + lenAt it.buffer index)
      match addInt nextEventStartIndex nextEventSize with
      | none => .undefined
      | some stop =>
        if it.startUnusedBuffer < stop then .exited (-1)
        else .event index { it with
          eventStartIndex := nextEventStartIndex
          eventSize := nextEventSize }

/-- The outcome of the `n`-th call of the loop of `process_inotify_events`, which calls
again as long as an event is returned. -/
def call (it : EventIterator) (read : Option Bytes) : ℕ → Option IterOutcome
  | 0 => some (it.startIterInotify read)
  | n + 1 =>
    match it.call read n with
    | some (.event _ after) => some after.nextIterInotify
    | _ => none

end EventIterator

end DirWatcher.Source
