import DirWatcher.Source.IterateInotifyEvents
import Mathlib.Tactic.Linarith

/-!
The walk over the events in the buffer, for every content of it. A record is a header
with the name field that its `len` announces, and the walk goes from the end of one whole
record to the next.

The iterator follows the walk as long as its records are whole. Where a record does not
end in the bytes read, it stops, unless the end of the record does not fit in an `int`:
the test that should stop it has been made on a narrowed size.
-/

set_option autoImplicit false
set_option relaxedAutoImplicit false

namespace DirWatcher.Watching

open Source

/-- The index after the record that starts at an index. -/
def recordEnd (buffer : ℕ → UInt8) (start : ℕ) : ℕ :=
  start + inotifyEventSize + lenAt buffer start

theorem lt_recordEnd (buffer : ℕ → UInt8) (start : ℕ) : start < recordEnd buffer start := by
  unfold recordEnd inotifyEventSize
  omega

/-- The starts of the records that are reached from the front of the buffer over records
that end in its first `size` bytes. -/
inductive Walked (buffer : ℕ → UInt8) (size : ℕ) : ℕ → Prop
  | front : Walked buffer size 0
  | next (start : ℕ) (hbefore : Walked buffer size start)
      (hwhole : recordEnd buffer start ≤ size) : Walked buffer size (recordEnd buffer start)

/-- The iterator after it has returned the whole record at an index. -/
def iteratorAt (buffer : ℕ → UInt8) (size start : ℕ) : EventIterator where
  buffer := buffer
  startUnusedBuffer := size
  eventStartIndex := start
  eventSize := (inotifyEventSize + lenAt buffer start : ℕ)

/-! ### Integers in range -/

theorem toSizeT_natCast {n : ℕ} (hn : n < 2 ^ 64) : toSizeT n = n := by
  unfold toSizeT
  omega

theorem narrowed_of_lt {n : ℕ} (hn : n < 2 ^ 31) : narrowed n = n := by
  unfold narrowed
  rw [Int.bmod_def]
  omega

theorem addInt_of_lt {first second : ℕ} (hsum : first + second < 2 ^ 31) :
    addInt first second = some ((first + second : ℕ) : ℤ) := by
  unfold addInt
  rw [if_pos (by omega)]
  rfl

theorem addInt_eq_some {first second sum : ℤ} (hsum : addInt first second = some sum) :
    sum = first + second ∧ sum < 2 ^ 31 := by
  unfold addInt at hsum
  split at hsum
  · cases hsum
    omega
  · cases hsum

theorem lenAt_lt (buffer : ℕ → UInt8) (index : ℕ) : lenAt buffer index < 2 ^ 32 :=
  (uint32At buffer (index + 12)).toNat_lt

/-! ### One call -/

section Calls

variable {it : EventIterator} {buffer : ℕ → UInt8} {size start : ℕ} {bytes : Bytes}

theorem filled_startUnusedBuffer (it : EventIterator) (bytes : Bytes) :
    (it.filled bytes).startUnusedBuffer = (bytes.length : ℕ) := rfl

/-- The first call returns the record at the front if it is whole. -/
theorem startIterInotify_of_whole (hsize : bytes.length ≤ inotifyEventBufferLen)
    (hwhole : recordEnd (it.filled bytes).buffer 0 ≤ bytes.length) :
    it.startIterInotify (some bytes) =
      .event 0 (iteratorAt (it.filled bytes).buffer bytes.length 0) := by
  have hbuffer : bytes.length ≤ 2 ^ 16 := hsize
  have hend : 0 + inotifyEventSize + lenAt (it.filled bytes).buffer 0 ≤ bytes.length := hwhole
  simp only [EventIterator.startIterInotify, filled_startUnusedBuffer,
    toSizeT_natCast (show bytes.length < 2 ^ 64 by omega),
    narrowed_of_lt (show inotifyEventSize + lenAt (it.filled bytes).buffer 0 < 2 ^ 31 by omega)]
  rw [if_neg (by omega), if_neg (by omega)]
  rfl

/-- It gives up if it is not. -/
theorem startIterInotify_of_short (hsize : bytes.length ≤ inotifyEventBufferLen)
    (hshort : bytes.length < recordEnd (it.filled bytes).buffer 0) :
    it.startIterInotify (some bytes) =
      .null { it.filled bytes with startUnusedBuffer := 0 } := by
  have hbuffer : bytes.length ≤ 2 ^ 16 := hsize
  have hend : bytes.length < 0 + inotifyEventSize + lenAt (it.filled bytes).buffer 0 := hshort
  simp only [EventIterator.startIterInotify, filled_startUnusedBuffer,
    toSizeT_natCast (show bytes.length < 2 ^ 64 by omega)]
  by_cases hheader : bytes.length < inotifyEventSize
  · rw [if_pos hheader]
  · rw [if_neg hheader, if_pos (by omega)]

/-- Where the call after a whole record looks for the next one. -/
theorem addInt_iteratorAt (hsize : size ≤ inotifyEventBufferLen)
    (hwhole : recordEnd buffer start ≤ size) :
    addInt (iteratorAt buffer size start).eventStartIndex
      (iteratorAt buffer size start).eventSize = some ((recordEnd buffer start : ℕ) : ℤ) := by
  unfold inotifyEventBufferLen at hsize
  unfold recordEnd at hwhole ⊢
  have hsum : addInt start (inotifyEventSize + lenAt buffer start : ℕ) =
      some ((start + (inotifyEventSize + lenAt buffer start) : ℕ) : ℤ) :=
    addInt_of_lt (by omega)
  rw [iteratorAt, hsum, Nat.add_assoc]

/-- What is left of a call that looks for the next record at `next`, once its integers
are known to be in range. -/
theorem nextIterInotify_of_sum {next : ℕ} (hsize : size ≤ inotifyEventBufferLen)
    (hnext : addInt it.eventStartIndex it.eventSize = some (next : ℤ))
    (hunused : it.startUnusedBuffer = (size : ℤ)) (hle : next ≤ size) :
    it.nextIterInotify =
      if next = size then .null it
      else if size < next + inotifyEventSize then .exited (-1)
      else
        match addInt next (narrowed (inotifyEventSize + lenAt it.buffer next)) with
        | none => .undefined
        | some stop =>
          if (size : ℤ) < stop then .exited (-1)
          else .event next { it with
            eventStartIndex := next
            eventSize := narrowed (inotifyEventSize + lenAt it.buffer next) } := by
  have hbuffer : size ≤ 2 ^ 16 := hsize
  have hsizeT : (toSizeT (next : ℤ) + inotifyEventSize) % 2 ^ 64 = next + inotifyEventSize := by
    rw [toSizeT_natCast (by omega)]
    exact Nat.mod_eq_of_lt (by unfold inotifyEventSize; omega)
  have hfield : toSizeT it.startUnusedBuffer = size := by
    rw [hunused, toSizeT_natCast (by omega)]
  unfold EventIterator.nextIterInotify
  rw [hnext]
  simp only [hsizeT, hfield, Int.toNat_natCast, if_neg (Int.natCast_nonneg next).not_gt]
  rw [hunused]
  cases addInt next (narrowed (inotifyEventSize + lenAt it.buffer next)) <;>
    simp only [Int.natCast_inj]

theorem nextIterInotify_of_end (hsize : size ≤ inotifyEventBufferLen)
    (hend : recordEnd buffer start = size) :
    (iteratorAt buffer size start).nextIterInotify = .null (iteratorAt buffer size start) := by
  rw [nextIterInotify_of_sum hsize (addInt_iteratorAt hsize hend.le) rfl hend.le, if_pos hend]

theorem nextIterInotify_of_whole (hsize : size ≤ inotifyEventBufferLen)
    (hwhole : recordEnd buffer (recordEnd buffer start) ≤ size) :
    (iteratorAt buffer size start).nextIterInotify =
      .event (recordEnd buffer start) (iteratorAt buffer size (recordEnd buffer start)) := by
  have hbuffer : size ≤ 2 ^ 16 := hsize
  have hbefore : recordEnd buffer start < size := (lt_recordEnd _ _).trans_le hwhole
  have hend : recordEnd buffer start +
      (inotifyEventSize + lenAt buffer (recordEnd buffer start)) ≤ size := by
    rw [← Nat.add_assoc]
    exact hwhole
  have hsum := addInt_of_lt (lt_of_le_of_lt hend (by omega))
  have hnarrowed := narrowed_of_lt
    (lt_of_le_of_lt ((Nat.le_add_left _ _).trans hend) (by omega))
  rw [nextIterInotify_of_sum hsize (addInt_iteratorAt hsize hbefore.le) rfl hbefore.le,
    if_neg hbefore.ne, if_neg (by omega)]
  have hbufferAt : (iteratorAt buffer size start).buffer = buffer := rfl
  simp only [hbufferAt, hnarrowed, hsum]
  rw [if_neg (by omega)]
  rfl

/-- A record that is not whole, but has its end in the range of an `int`, is refused. -/
theorem nextIterInotify_of_beyond (hsize : size ≤ inotifyEventBufferLen)
    (hwhole : recordEnd buffer start < size)
    (hbeyond : size < recordEnd buffer (recordEnd buffer start))
    (hfits : recordEnd buffer start + inotifyEventSize ≤ size →
      recordEnd buffer (recordEnd buffer start) < 2 ^ 31) :
    (iteratorAt buffer size start).nextIterInotify = .exited (-1) := by
  rw [nextIterInotify_of_sum hsize (addInt_iteratorAt hsize hwhole.le) rfl hwhole.le,
    if_neg hwhole.ne]
  by_cases hheader : size < recordEnd buffer start + inotifyEventSize
  · rw [if_pos hheader]
  · have hend : recordEnd buffer start +
        (inotifyEventSize + lenAt buffer (recordEnd buffer start)) < 2 ^ 31 := by
      rw [← Nat.add_assoc]
      exact hfits (by omega)
    have hpast : size < recordEnd buffer start +
        (inotifyEventSize + lenAt buffer (recordEnd buffer start)) := by
      rw [← Nat.add_assoc]
      exact hbeyond
    have hbufferAt : (iteratorAt buffer size start).buffer = buffer := rfl
    rw [if_neg hheader]
    simp only [hbufferAt, addInt_of_lt hend,
      narrowed_of_lt (lt_of_le_of_lt (Nat.le_add_left _ _) hend)]
    rw [if_pos (by omega)]

/-- A record with its end past the range of an `int` is returned, or the sum that would
have refused it overflows. -/
theorem nextIterInotify_of_overflow (hsize : size ≤ inotifyEventBufferLen)
    (hheader : recordEnd buffer start + inotifyEventSize ≤ size)
    (hoverflow : 2 ^ 31 ≤ recordEnd buffer (recordEnd buffer start)) :
    (iteratorAt buffer size start).nextIterInotify = .undefined ∨
      ∃ after, (iteratorAt buffer size start).nextIterInotify =
        .event (recordEnd buffer start) after ∧ after.buffer = buffer := by
  have hbuffer : size ≤ 2 ^ 16 := hsize
  have hbefore : recordEnd buffer start < size := by
    unfold inotifyEventSize at hheader
    omega
  have hend : 2 ^ 31 ≤ recordEnd buffer start +
      (inotifyEventSize + lenAt buffer (recordEnd buffer start)) := by
    rw [← Nat.add_assoc]
    exact hoverflow
  have hlen := lenAt_lt buffer (recordEnd buffer start)
  have hbufferAt : (iteratorAt buffer size start).buffer = buffer := rfl
  rw [nextIterInotify_of_sum hsize (addInt_iteratorAt hsize hbefore.le) rfl hbefore.le,
    if_neg hbefore.ne, if_neg (by omega), hbufferAt]
  have hsmall : narrowed (inotifyEventSize + lenAt buffer (recordEnd buffer start)) < 2 ^ 31 ∧
      (2 ^ 31 ≤ recordEnd buffer start +
          narrowed (inotifyEventSize + lenAt buffer (recordEnd buffer start)) ∨
        recordEnd buffer start +
          narrowed (inotifyEventSize + lenAt buffer (recordEnd buffer start)) ≤ size) := by
    unfold narrowed
    rw [Int.bmod_def]
    unfold inotifyEventSize at hend hheader ⊢
    omega
  cases hsum : addInt (recordEnd buffer start)
      (narrowed (inotifyEventSize + lenAt buffer (recordEnd buffer start))) with
  | none => exact Or.inl rfl
  | some stop =>
    obtain ⟨hstop, hrange⟩ := addInt_eq_some hsum
    exact Or.inr ⟨_, if_neg (by omega), rfl⟩

end Calls

/-! ### The calls of one batch -/

/-- The loop over the batch has come to its end. -/
inductive EndsBatch : IterOutcome → Prop
  | null (after : EventIterator) : EndsBatch (.null after)
  | exited (code : ℤ) : EndsBatch (.exited code)

/-- The calls for the bytes of one `read` come to an end, each event they return lies in
these bytes with its header and its name field, and the next one starts after it. -/
structure SafeIteration (it : EventIterator) (bytes : Bytes) : Prop where
  ends : ∃ n outcome, it.call (some bytes) n = some outcome ∧ EndsBatch outcome
  inside : ∀ n index after, it.call (some bytes) n = some (.event index after) →
    recordEnd after.buffer index ≤ bytes.length
  increases : ∀ n index after later next, it.call (some bytes) n = some (.event index after) →
    it.call (some bytes) (n + 1) = some (.event later next) → index < later

/-- Wherever the walk comes to a header after the first record, the end of its record is
in the range of an `int`. -/
def EndsInRange (buffer : ℕ → UInt8) (size : ℕ) : Prop :=
  ∀ start, Walked buffer size start → 0 < start → start + inotifyEventSize ≤ size →
    recordEnd buffer start < 2 ^ 31

section Batch

variable {it : EventIterator} {bytes : Bytes}

theorem call_succ {n index : ℕ} {after : EventIterator} {read : Option Bytes}
    (hcall : it.call read n = some (.event index after)) :
    it.call read (n + 1) = some after.nextIterInotify := by
  rw [EventIterator.call, hcall]

/-- There is a further call only after an event. -/
theorem exists_event_of_call_succ {n : ℕ} {outcome : IterOutcome} {read : Option Bytes}
    (hcall : it.call read (n + 1) = some outcome) :
    ∃ index after, it.call read n = some (.event index after) ∧
      outcome = after.nextIterInotify := by
  rw [EventIterator.call] at hcall
  split at hcall
  · rename_i index after hbefore
    exact ⟨index, after, hbefore, (Option.some.inj hcall).symm⟩
  · cases hcall

theorem exists_event_of_lt {m n : ℕ} {outcome : IterOutcome} {read : Option Bytes} (hlt : m < n)
    (hcall : it.call read n = some outcome) :
    ∃ index after, it.call read m = some (.event index after) := by
  induction n generalizing outcome with
  | zero => omega
  | succ n ih =>
    obtain ⟨index, after, hbefore, -⟩ := exists_event_of_call_succ hcall
    rcases Nat.lt_succ_iff_lt_or_eq.mp hlt with hearlier | rfl
    · exact ih hearlier hbefore
    · exact ⟨index, after, hbefore⟩

/-- Every whole record of the walk is returned by some call. -/
theorem exists_call_of_walked (hsize : bytes.length ≤ inotifyEventBufferLen) {start : ℕ}
    (hwalked : Walked (it.filled bytes).buffer bytes.length start)
    (hwhole : recordEnd (it.filled bytes).buffer start ≤ bytes.length) :
    ∃ n, it.call (some bytes) n =
      some (.event start (iteratorAt (it.filled bytes).buffer bytes.length start)) := by
  induction hwalked with
  | front => exact ⟨0, congrArg some (startIterInotify_of_whole hsize hwhole)⟩
  | next start hbefore hwholeBefore ih =>
    obtain ⟨n, hcall⟩ := ih hwholeBefore
    exact ⟨n + 1, (call_succ hcall).trans
      (congrArg some (nextIterInotify_of_whole hsize hwhole))⟩

/-- What the outcome of a call is when the walk stays in range: a whole record of the
walk, or the end. -/
inductive SoundOutcome (buffer : ℕ → UInt8) (size : ℕ) : IterOutcome → Prop
  | event (index : ℕ) (hwalked : Walked buffer size index)
      (hwhole : recordEnd buffer index ≤ size) :
      SoundOutcome buffer size (.event index (iteratorAt buffer size index))
  | ends (outcome : IterOutcome) (hends : EndsBatch outcome) : SoundOutcome buffer size outcome

theorem soundOutcome_startIterInotify (it : EventIterator)
    (hsize : bytes.length ≤ inotifyEventBufferLen) :
    SoundOutcome (it.filled bytes).buffer bytes.length (it.startIterInotify (some bytes)) := by
  by_cases hwhole : recordEnd (it.filled bytes).buffer 0 ≤ bytes.length
  · rw [startIterInotify_of_whole hsize hwhole]
    exact SoundOutcome.event 0 Walked.front hwhole
  · rw [startIterInotify_of_short hsize (not_le.mp hwhole)]
    exact SoundOutcome.ends _ (EndsBatch.null _)

/-- A call after a whole record returns the next one, or ends the loop. -/
theorem soundOutcome_nextIterInotify {buffer : ℕ → UInt8} {size start : ℕ}
    (hsize : size ≤ inotifyEventBufferLen) (hrange : EndsInRange buffer size)
    (hwalked : Walked buffer size start) (hwhole : recordEnd buffer start ≤ size) :
    EndsBatch (iteratorAt buffer size start).nextIterInotify ∨
      recordEnd buffer (recordEnd buffer start) ≤ size ∧
        (iteratorAt buffer size start).nextIterInotify =
          .event (recordEnd buffer start) (iteratorAt buffer size (recordEnd buffer start)) := by
  rcases hwhole.eq_or_lt with hend | hlt
  · rw [nextIterInotify_of_end hsize hend]
    exact Or.inl (EndsBatch.null _)
  · by_cases hwholeNext : recordEnd buffer (recordEnd buffer start) ≤ size
    · exact Or.inr ⟨hwholeNext, nextIterInotify_of_whole hsize hwholeNext⟩
    · have hstop := nextIterInotify_of_beyond hsize hlt (not_le.mp hwholeNext)
        (hrange _ (Walked.next start hwalked hwhole) ((Nat.zero_le _).trans_lt
          (lt_recordEnd buffer start)))
      rw [hstop]
      exact Or.inl (EndsBatch.exited _)

theorem soundOutcome_call (hsize : bytes.length ≤ inotifyEventBufferLen)
    (hrange : EndsInRange (it.filled bytes).buffer bytes.length) {n : ℕ} {outcome : IterOutcome}
    (hcall : it.call (some bytes) n = some outcome) :
    SoundOutcome (it.filled bytes).buffer bytes.length outcome := by
  induction n generalizing outcome with
  | zero =>
    obtain rfl := Option.some.inj hcall
    exact soundOutcome_startIterInotify it hsize
  | succ n ih =>
    obtain ⟨index, after, hbefore, rfl⟩ := exists_event_of_call_succ hcall
    cases ih hbefore with
    | ends _ hends => cases hends
    | event _ hwalked hwhole =>
      rcases soundOutcome_nextIterInotify hsize hrange hwalked hwhole with hends | ⟨hnext, heq⟩
      · exact SoundOutcome.ends _ hends
      · rw [heq]
        exact SoundOutcome.event _ (Walked.next index hwalked hwhole) hnext

/-- An event returned in range is a whole record of the walk. -/
theorem whole_of_event (hsize : bytes.length ≤ inotifyEventBufferLen)
    (hrange : EndsInRange (it.filled bytes).buffer bytes.length) {n index : ℕ}
    {after : EventIterator} (hcall : it.call (some bytes) n = some (.event index after)) :
    Walked (it.filled bytes).buffer bytes.length index ∧
      recordEnd (it.filled bytes).buffer index ≤ bytes.length ∧
      after = iteratorAt (it.filled bytes).buffer bytes.length index := by
  cases soundOutcome_call hsize hrange hcall with
  | ends _ hends => cases hends
  | event _ hwalked hwhole => exact ⟨hwalked, hwhole, rfl⟩

/-- The calls after an event come to an end, since each event starts after the one
before it. -/
theorem exists_ends_of_event (hsize : bytes.length ≤ inotifyEventBufferLen)
    (hrange : EndsInRange (it.filled bytes).buffer bytes.length) {n index : ℕ}
    {after : EventIterator} (hcall : it.call (some bytes) n = some (.event index after)) :
    ∃ m outcome, it.call (some bytes) m = some outcome ∧ EndsBatch outcome := by
  induction hleft : bytes.length - index using Nat.strong_induction_on
    generalizing n index after with
  | _ left ih =>
    obtain ⟨hwalked, hwhole, rfl⟩ := whole_of_event hsize hrange hcall
    have hnext := call_succ hcall
    rcases soundOutcome_nextIterInotify hsize hrange hwalked hwhole with hends | ⟨hlater, heq⟩
    · exact ⟨n + 1, _, hnext, hends⟩
    · have hinside := lt_recordEnd (it.filled bytes).buffer index
      rw [heq] at hnext
      exact ih _ (by omega) hnext rfl

/-- The property of the iterator holds for a batch exactly if no record that the walk comes
to after the first one ends past the range of an `int`. -/
theorem safeIteration_iff_endsInRange (it : EventIterator)
    (hsize : bytes.length ≤ inotifyEventBufferLen) :
    SafeIteration it bytes ↔ EndsInRange (it.filled bytes).buffer bytes.length := by
  constructor
  · intro hsafe start hwalked hpos hheader
    by_contra hoverflow
    cases hwalked with
    | front => exact hpos.false
    | next start hbefore hwhole =>
      obtain ⟨n, hcall⟩ := exists_call_of_walked hsize hbefore hwhole
      have hnext := call_succ hcall
      rcases nextIterInotify_of_overflow hsize hheader (not_lt.mp hoverflow) with
        hundefined | ⟨after, hevent, hbuffer⟩
      · obtain ⟨m, outcome, hlast, hends⟩ := hsafe.ends
        rw [hundefined] at hnext
        rcases lt_trichotomy m (n + 1) with hlt | rfl | hlt
        · obtain ⟨_, _, hevent⟩ := exists_event_of_lt hlt hnext
          obtain rfl := Option.some.inj (hlast.symm.trans hevent)
          cases hends
        · obtain rfl := Option.some.inj (hlast.symm.trans hnext)
          cases hends
        · obtain ⟨_, _, hevent⟩ := exists_event_of_lt hlt hlast
          cases hnext.symm.trans hevent
      · rw [hevent] at hnext
        have hinside := hsafe.inside _ _ _ hnext
        rw [hbuffer] at hinside
        have hbound : bytes.length ≤ 2 ^ 16 := hsize
        omega
  · intro hrange
    refine ⟨?_, fun n index after hcall ↦ ?_, fun n index after later next hcall hnext ↦ ?_⟩
    · obtain ⟨outcome, hfirst⟩ : ∃ outcome, it.call (some bytes) 0 = some outcome := ⟨_, rfl⟩
      cases soundOutcome_call hsize hrange hfirst with
      | ends _ hends => exact ⟨0, outcome, hfirst, hends⟩
      | event index hwalked hwhole => exact exists_ends_of_event hsize hrange hfirst
    · obtain ⟨-, hwhole, rfl⟩ := whole_of_event hsize hrange hcall
      exact hwhole
    · obtain ⟨hwalked, hwhole, rfl⟩ := whole_of_event hsize hrange hcall
      have hlater := hnext.symm.trans (call_succ hcall)
      rcases soundOutcome_nextIterInotify hsize hrange hwalked hwhole with hends | ⟨-, heq⟩
      · rw [← Option.some.inj hlater] at hends
        cases hends
      · rw [heq] at hlater
        cases hlater
        exact lt_recordEnd _ _

end Batch

/-- An iterator with nothing in its buffer yet. -/
def freshIterator : EventIterator := ⟨fun _ ↦ 0, 0, 0, 0⟩

/-- Two whole records without names are in range. -/
theorem safeIteration_two_records : SafeIteration freshIterator (List.replicate 32 0) := by
  refine (safeIteration_iff_endsInRange freshIterator (by decide)).mpr ?_
  intro start _ _ hheader
  have hzero : ∀ index < 17, lenAt (freshIterator.filled (List.replicate 32 0)).buffer index = 0 :=
    by decide
  have hstart : start + 16 ≤ 32 := hheader
  rw [recordEnd, hzero start (by omega), inotifyEventSize]
  omega

/-- A record without a name, and one with a `len` of `2 ^ 32 - 16`, so that its narrowed
size is zero. -/
def standingRecord : Bytes := List.replicate 28 0 ++ [240, 255, 255, 255]

/-- The second record is returned again by the call after it. -/
theorem not_safeIteration_standingRecord : ¬ SafeIteration freshIterator standingRecord := by
  intro hsafe
  obtain ⟨after, hcall⟩ : ∃ after,
      freshIterator.call (some standingRecord) 1 = some (.event 16 after) := ⟨_, rfl⟩
  obtain ⟨next, hnext⟩ : ∃ next,
      freshIterator.call (some standingRecord) 2 = some (.event 16 next) := ⟨_, rfl⟩
  exact (hsafe.increases 1 16 after 16 next hcall hnext).false

/-! ### Encoding and decoding -/

/-- The bytes of a `uint32_t`, the lowest one first. -/
def uint32Bytes (n : UInt32) : Bytes :=
  [n.toUInt8, (n >>> 8).toUInt8, (n >>> 16).toUInt8, (n >>> 24).toUInt8]

/-- The bytes the kernel writes for an event. -/
def encodeEvent (event : InotifyEvent) : Bytes :=
  uint32Bytes event.wd.toUInt32 ++ uint32Bytes event.mask ++ uint32Bytes event.cookie ++
    uint32Bytes (UInt32.ofNat event.name.length) ++ event.name

/-- The bytes of a batch, one event after the other. -/
def encodeEvents (events : List InotifyEvent) : Bytes := events.flatMap encodeEvent

@[simp] theorem length_uint32Bytes (n : UInt32) : (uint32Bytes n).length = 4 := rfl

theorem uint32Of_uint32Bytes (n : UInt32) : uint32Of (uint32Bytes n) = n := by
  apply UInt32.toNat_inj.mp
  have hlt := n.toNat_lt
  simp only [uint32Of, uint32Bytes, List.foldr_cons, List.foldr_nil, UInt32.toNat_toUInt8,
    UInt32.toNat_shiftRight, UInt32.toNat_ofNat, UInt32.toNat_ofNat', Nat.shiftRight_eq_div_pow]
  simp only [Nat.reduceMod, Nat.reducePow] at *
  omega

theorem length_encodeEvent (event : InotifyEvent) :
    (encodeEvent event).length = inotifyEventSize + event.name.length := by
  simp only [encodeEvent, List.length_append, length_uint32Bytes, inotifyEventSize]

/-- Bytes in the middle of what has been written to the buffer. -/
theorem readBytes_filled (it : EventIterator) (before data after : Bytes) :
    readBytes (it.filled (before ++ data ++ after)).buffer before.length data.length = data := by
  refine List.ext_getElem (by simp [readBytes]) fun i hleft hright ↦ ?_
  have hinside : i < data.length + after.length := by omega
  simp [readBytes, EventIterator.filled, writeBytes, hinside, hright]

/-- A field of a header that has been written to the buffer. -/
theorem uint32At_filled (it : EventIterator) {bytes : Bytes} (before after : Bytes) (n : UInt32)
    {index : ℕ} (hbytes : bytes = before ++ uint32Bytes n ++ after)
    (hindex : index = before.length) : uint32At (it.filled bytes).buffer index = n := by
  subst hbytes hindex
  rw [uint32At]
  exact (congrArg uint32Of (readBytes_filled it before (uint32Bytes n) after)).trans
    (uint32Of_uint32Bytes n)

section Encoded

variable (it : EventIterator) {bytes before after : Bytes} {event : InotifyEvent}

theorem lenAt_filled (hbytes : bytes = before ++ encodeEvent event ++ after)
    (hname : event.name.length < 2 ^ 32) :
    lenAt (it.filled bytes).buffer before.length = event.name.length := by
  rw [lenAt, uint32At_filled it (before ++ uint32Bytes event.wd.toUInt32 ++
    uint32Bytes event.mask ++ uint32Bytes event.cookie) (event.name ++ after)
    (UInt32.ofNat event.name.length) (by simp [hbytes, encodeEvent]) (by simp)]
  exact UInt32.toNat_ofNat_of_lt hname

/-- An event that has been written to the buffer is read back. -/
theorem eventAt_filled (hbytes : bytes = before ++ encodeEvent event ++ after)
    (hname : event.name.length < 2 ^ 32) :
    eventAt (it.filled bytes).buffer before.length = event := by
  have hwd : uint32At (it.filled bytes).buffer before.length = event.wd.toUInt32 :=
    uint32At_filled it before (uint32Bytes event.mask ++ uint32Bytes event.cookie ++
      uint32Bytes (UInt32.ofNat event.name.length) ++ event.name ++ after) _
      (by simp [hbytes, encodeEvent]) rfl
  have hmask : uint32At (it.filled bytes).buffer (before.length + 4) = event.mask :=
    uint32At_filled it (before ++ uint32Bytes event.wd.toUInt32)
      (uint32Bytes event.cookie ++ uint32Bytes (UInt32.ofNat event.name.length) ++ event.name ++
        after) _ (by simp [hbytes, encodeEvent]) (by simp)
  have hcookie : uint32At (it.filled bytes).buffer (before.length + 8) = event.cookie :=
    uint32At_filled it (before ++ uint32Bytes event.wd.toUInt32 ++ uint32Bytes event.mask)
      (uint32Bytes (UInt32.ofNat event.name.length) ++ event.name ++ after) _
      (by simp [hbytes, encodeEvent]) (by simp)
  have hread : readBytes (it.filled bytes).buffer (before.length + inotifyEventSize)
      event.name.length = event.name := by
    have hmiddle := readBytes_filled it (before ++ uint32Bytes event.wd.toUInt32 ++
      uint32Bytes event.mask ++ uint32Bytes event.cookie ++
      uint32Bytes (UInt32.ofNat event.name.length)) event.name after
    have hstart : (before ++ uint32Bytes event.wd.toUInt32 ++ uint32Bytes event.mask ++
        uint32Bytes event.cookie ++ uint32Bytes (UInt32.ofNat event.name.length)).length =
        before.length + inotifyEventSize := by simp [inotifyEventSize]
    rw [hstart] at hmiddle
    simpa [hbytes, encodeEvent] using hmiddle
  rw [eventAt, hwd, hmask, hcookie, lenAt_filled it hbytes hname, hread, Int32.toInt32_toUInt32]

theorem recordEnd_filled (hbytes : bytes = before ++ encodeEvent event ++ after)
    (hname : event.name.length < 2 ^ 32) :
    recordEnd (it.filled bytes).buffer before.length = (before ++ encodeEvent event).length := by
  rw [recordEnd, lenAt_filled it hbytes hname, List.length_append, length_encodeEvent,
    Nat.add_assoc]

end Encoded

section Delivered

variable {events : List InotifyEvent}

theorem encodeEvents_append (first second : List InotifyEvent) :
    encodeEvents (first ++ second) = encodeEvents first ++ encodeEvents second := by
  simp [encodeEvents]

theorem encodeEvents_cons (event : InotifyEvent) (rest : List InotifyEvent) :
    encodeEvents (event :: rest) = encodeEvent event ++ encodeEvents rest := by
  simp [encodeEvents]

/-- An event of a batch, with the bytes around it. -/
theorem encodeEvents_split {first rest : List InotifyEvent} {event : InotifyEvent}
    (hevents : events = first ++ event :: rest) :
    encodeEvents events = encodeEvents first ++ encodeEvent event ++ encodeEvents rest := by
  rw [hevents, encodeEvents_append, encodeEvents_cons, List.append_assoc]

/-- A name field in a batch that fits in the buffer has a length that fits in `len`. -/
theorem length_name_lt (hsize : (encodeEvents events).length ≤ inotifyEventBufferLen)
    {first rest : List InotifyEvent} {event : InotifyEvent}
    (hevents : events = first ++ event :: rest) : event.name.length < 2 ^ 32 := by
  have hbuffer : (encodeEvents events).length ≤ 2 ^ 16 := hsize
  rw [encodeEvents_split hevents] at hbuffer
  simp only [List.length_append, length_encodeEvent] at hbuffer
  omega

/-- The call with the number of an event returns the record at its place. -/
theorem call_encodeEvents (it : EventIterator)
    (hsize : (encodeEvents events).length ≤ inotifyEventBufferLen) (first rest : List InotifyEvent)
    (event : InotifyEvent) (hevents : events = first ++ event :: rest) :
    it.call (some (encodeEvents events)) first.length =
      some (.event (encodeEvents first).length (iteratorAt (it.filled (encodeEvents events)).buffer
        (encodeEvents events).length (encodeEvents first).length)) := by
  induction first using List.reverseRecOn generalizing event rest with
  | nil =>
    have hend := recordEnd_filled it (encodeEvents_split hevents)
      (length_name_lt hsize hevents)
    refine congrArg some (startIterInotify_of_whole hsize (hend.trans_le ?_))
    rw [encodeEvents_split hevents]
    simp
  | append_singleton before last ih =>
    have hlast : events = before ++ last :: event :: rest := by simpa using hevents
    have hendLast := recordEnd_filled it (encodeEvents_split hlast)
      (length_name_lt hsize hlast)
    have hend := recordEnd_filled it (encodeEvents_split hevents)
      (length_name_lt hsize hevents)
    have hplace : encodeEvents before ++ encodeEvent last = encodeEvents (before ++ [last]) := by
      rw [encodeEvents_append, encodeEvents_cons]
      simp [encodeEvents]
    rw [hplace] at hendLast
    have hwhole : recordEnd (it.filled (encodeEvents events)).buffer
        (encodeEvents (before ++ [last])).length ≤ (encodeEvents events).length := by
      refine hend.trans_le ?_
      rw [encodeEvents_split hevents]
      simp
    rw [← hendLast] at hwhole ⊢
    rw [List.length_append, List.length_singleton, call_succ (ih _ _ hlast),
      nextIterInotify_of_whole hsize hwhole]

/-- The iterator decodes what the kernel has encoded: the calls for the bytes of a batch
return its events in their order, and then `NULL`. -/
theorem call_decodes (it : EventIterator) (events : List InotifyEvent)
    (hsize : (encodeEvents events).length ≤ inotifyEventBufferLen) :
    (∀ k (hk : k < events.length), ∃ index after,
      it.call (some (encodeEvents events)) k = some (.event index after) ∧
        eventAt after.buffer index = events[k]) ∧
    ∃ after, it.call (some (encodeEvents events)) events.length = some (.null after) := by
  constructor
  · intro k hk
    have hevents : events = events.take k ++ events[k] :: events.drop (k + 1) := by simp
    have hcall := call_encodeEvents it hsize _ _ _ hevents
    rw [List.length_take_of_le hk.le] at hcall
    exact ⟨_, _, hcall, eventAt_filled it (encodeEvents_split hevents)
      (length_name_lt hsize hevents)⟩
  · rcases events.eq_nil_or_concat' with rfl | ⟨before, last, hevents⟩
    · exact ⟨_, congrArg some (startIterInotify_of_short hsize (lt_recordEnd _ _))⟩
    · have hcall := call_encodeEvents it hsize _ _ _ hevents
      have hend := recordEnd_filled it (encodeEvents_split hevents)
        (length_name_lt hsize hevents)
      have hlast : recordEnd (it.filled (encodeEvents events)).buffer
          (encodeEvents before).length = (encodeEvents events).length := by
        rw [hend, encodeEvents_split hevents]
        simp [encodeEvents]
      have hnumber : events.length = before.length + 1 := by simp [hevents]
      rw [hnumber, call_succ hcall, nextIterInotify_of_end hsize hlast]
      exact ⟨_, rfl⟩

/-- The events that the loop over a batch gets from its first calls, as the watcher reads
them. -/
def batchOf (it : EventIterator) (bytes : Bytes) (calls : ℕ) : List Event :=
  (List.range calls).filterMap fun n ↦
    match it.call (some bytes) n with
    | some (.event index after) => some (eventAt after.buffer index).seen
    | _ => none

/-- The watcher goes through the events the kernel has delivered. -/
theorem batchOf_encodeEvents (it : EventIterator)
    (hsize : (encodeEvents events).length ≤ inotifyEventBufferLen) {calls : ℕ}
    (hcalls : calls ≤ events.length) :
    batchOf it (encodeEvents events) calls = (events.take calls).map InotifyEvent.seen := by
  induction calls with
  | zero => rfl
  | succ n ih =>
    have hn : n < events.length := hcalls
    have hevents : events = events.take n ++ events[n] :: events.drop (n + 1) := by simp
    have hcall := call_encodeEvents it hsize _ _ _ hevents
    have heq := eventAt_filled it (encodeEvents_split hevents)
      (length_name_lt hsize hevents)
    rw [List.length_take_of_le hn.le] at hcall
    have hlast : batchOf it (encodeEvents events) (n + 1) =
        batchOf it (encodeEvents events) n ++ [events[n].seen] := by
      simp only [batchOf, List.range_succ, List.filterMap_append, List.filterMap_cons,
        List.filterMap_nil, hcall]
      exact congrArg (fun event ↦ _ ++ [InotifyEvent.seen event]) heq
    rw [hlast, ih hn.le, List.take_succ_eq_append_getElem hn, List.map_append]
    rfl

end Delivered

/-- An event with a padded name, and the overflow of the queue, which has none. -/
def deliveredEvents : List InotifyEvent :=
  [⟨3, createDirMask, 0, [97, 0, 0, 0]⟩, ⟨-1, inQOverflow, 0, []⟩]

theorem call_decodes_deliveredEvents : ∃ index after,
    freshIterator.call (some (encodeEvents deliveredEvents)) 1 = some (.event index after) ∧
      eventAt after.buffer index = ⟨-1, inQOverflow, 0, []⟩ :=
  (call_decodes freshIterator deliveredEvents (by decide)).1 1 (by decide)

end DirWatcher.Watching
