import DirWatcher.Environment.EventBuffer
import DirWatcher.Watching.EventIteration
import DirWatcher.Watching.Mapped
import DirWatcher.Watching.Pairing

/-!
The watcher that reads its events from the buffer takes the steps of the one that has them in
a list, as long as the kernel delivers whole events and a name with each event that needs one.
-/

set_option autoImplicit false
set_option relaxedAutoImplicit false

namespace DirWatcher.Watching

open Source Environment Foundation.Runs

/-! ### The events as the kernel writes them -/

/-- The name field holds the name with zero bytes behind it. -/
def inotifyEventOf (padding : Bytes → ℕ) (event : Event) : InotifyEvent where
  wd := Int32.ofInt event.wd
  mask := event.mask
  cookie := event.cookie
  name := event.name ++ List.replicate (padding event.name) 0

def encoded (padding : Bytes → ℕ) (events : List Event) : Bytes :=
  encodeEvents (events.map (inotifyEventOf padding))

/-- The events of directories in a directory have a name. -/
structure Deliverable (event : Event) : Prop where
  inRange : -2 ^ 31 ≤ event.wd ∧ event.wd < 2 ^ 31
  nonzero : 0 ∉ event.name
  named : usesName event = true → event.name ≠ []

instance : DecidablePred Deliverable := fun event ↦
  haveI := Int.decLe (-2 ^ 31) event.wd
  haveI := Int.decLt event.wd (2 ^ 31)
  decidable_of_iff ((-2 ^ 31 ≤ event.wd ∧ event.wd < 2 ^ 31) ∧ event.name.contains 0 = false ∧
      (usesName event && event.name.isEmpty) = false) <| by
    rw [List.contains_eq_mem, decide_eq_false_iff_not, Bool.and_eq_false_imp,
      List.isEmpty_eq_false_iff]
    exact ⟨fun ⟨hrange, hzero, hnamed⟩ ↦ ⟨hrange, hzero, hnamed⟩,
      fun hevent ↦ ⟨hevent.inRange, hevent.nonzero, hevent.named⟩⟩

variable {padding : Bytes → ℕ} {event : Event}

/-! ### The event that is read -/

theorem readBytes_add (memory : ℕ → UInt8) (pos first second : ℕ) :
    readBytes memory pos (first + second) =
      readBytes memory pos first ++ readBytes memory (pos + first) second := by
  simp only [readBytes, List.range_add, List.map_append, List.map_map, Function.comp_def,
    Nat.add_assoc]

theorem stringAt_append_zero {name : Bytes} (hname : 0 ∉ name) (rest : Bytes) :
    stringAt (name ++ 0 :: rest) = name := by
  have hall : ∀ byte ∈ name, (byte != 0) = true := by
    intro byte hmem
    simpa using fun hzero : byte = 0 ↦ hname (hzero ▸ hmem)
  rw [stringAt, List.takeWhile_append_of_pos hall]
  simp

/-- A record in the buffer. -/
theorem length_record_le {bytes before after : Bytes} {raw : InotifyEvent}
    (hbytes : bytes = before ++ encodeEvent raw ++ after)
    (hsize : bytes.length ≤ inotifyEventBufferLen) :
    before.length + inotifyEventSize + raw.name.length ≤ inotifyEventBufferLen := by
  rw [hbytes, List.length_append, List.length_append, length_encodeEvent] at hsize
  omega

theorem length_name_lt_of_record {bytes before after : Bytes} {raw : InotifyEvent}
    (hbytes : bytes = before ++ encodeEvent raw ++ after)
    (hsize : bytes.length ≤ inotifyEventBufferLen) : raw.name.length < 2 ^ 32 := by
  have hrecord := length_record_le hbytes hsize
  unfold inotifyEventBufferLen at hrecord
  omega

/-- The bytes behind a header begin with the name field. -/
theorem bytesFrom_filled (it : EventIterator) {bytes before after : Bytes} {raw : InotifyEvent}
    (hbytes : bytes = before ++ encodeEvent raw ++ after)
    (hsize : bytes.length ≤ inotifyEventBufferLen) :
    ∃ rest, bytesFrom (it.filled bytes).buffer (before.length + inotifyEventSize) =
      raw.name ++ rest := by
  have hrecord := length_record_le hbytes hsize
  have hname := length_name_lt_of_record hbytes hsize
  obtain ⟨more, hmore⟩ : ∃ more, inotifyEventBufferLen - (before.length + inotifyEventSize) =
      raw.name.length + more := ⟨_, (Nat.add_sub_of_le (by omega)).symm⟩
  have hread := congrArg InotifyEvent.name (eventAt_filled it hbytes hname)
  dsimp only [eventAt] at hread
  rw [lenAt_filled it hbytes hname] at hread
  exact ⟨_, by rw [bytesFrom, hmore, readBytes_add, hread]⟩

/-- A branch that does not join the name does the same with another one. -/
theorem dispatch_withName (w : Watcher) {name : Bytes}
    (hname : usesName event = true → name = event.name) :
    w.dispatch { event with name } = w.dispatch event := by
  by_cases huses : usesName event = true
  · rw [hname huses]
  · have hbranch : Event.branch { event with name } = event.branch := rfl
    unfold Watcher.dispatch
    rw [hbranch]
    cases hbranch : event.branch with
    | createDir => simp [usesName, hbranch] at huses
    | movedFrom =>
      have hisdir : ¬ event.has inIsdir = true := by simpa [usesName, hbranch] using huses
      have hother : ¬ Event.has { event with name } inIsdir = true := hisdir
      dsimp only [Watcher.movedFrom]
      rw [if_neg hisdir, if_neg hother]
    | movedTo =>
      have hisdir : ¬ event.has inIsdir = true := by simpa [usesName, hbranch] using huses
      have hother : ¬ Event.has { event with name } inIsdir = true := hisdir
      dsimp only [Watcher.movedTo]
      rw [if_neg hisdir, if_neg hother]
    | _ => rfl

/-- What is read at the pointer to an event is the event, but for a name that no branch asks
for. -/
theorem eventRead_filled (hpadding : ∀ name ≠ [], 0 < padding name) (it : EventIterator)
    {bytes before after : Bytes} (hevent : Deliverable event)
    (hbytes : bytes = before ++ encodeEvent (inotifyEventOf padding event) ++ after)
    (hsize : bytes.length ≤ inotifyEventBufferLen) :
    ∃ name, eventRead (it.filled bytes).buffer before.length = { event with name } ∧
      (usesName event = true → name = event.name ∧
        (bytesFrom (it.filled bytes).buffer (before.length + inotifyEventSize)).contains 0 =
          true) := by
  obtain ⟨rest, hrest⟩ := bytesFrom_filled it hbytes hsize
  refine ⟨stringAt (bytesFrom (it.filled bytes).buffer (before.length + inotifyEventSize)), ?_,
    fun huses ↦ ?_⟩
  · have hwd : (Int32.ofInt event.wd).toInt = event.wd :=
      Int32.toInt_ofInt_of_le hevent.inRange.1 hevent.inRange.2
    rw [eventRead, eventAt_filled it hbytes (length_name_lt_of_record hbytes hsize)]
    simp [InotifyEvent.seen, inotifyEventOf, hwd]
  · obtain ⟨zeros, hzeros⟩ := Nat.exists_eq_succ_of_ne_zero
      (hpadding event.name (hevent.named huses)).ne'
    have hbehind : bytesFrom (it.filled bytes).buffer (before.length + inotifyEventSize) =
        event.name ++ 0 :: (List.replicate zeros 0 ++ rest) := by
      rw [hrest]
      simp [inotifyEventOf, hzeros, List.replicate_succ]
    rw [hbehind]
    exact ⟨stringAt_append_zero hevent.nonzero _, by simp⟩

/-! ### The rest of the batch -/

variable {vars : EventVars} {batch : List Event}

/-- The next call of the iterator is the one for the first event that is left. -/
structure AtEvent (padding : Bytes → ℕ) (batch : List Event) (vars : EventVars) : Prop where
  deliverable : ∀ event ∈ batch, Deliverable event
  call : ∃ (it : EventIterator) (before : List Event),
    (encoded padding (before ++ batch)).length ≤ inotifyEventBufferLen ∧
      it.call (some (encoded padding (before ++ batch))) before.length =
        some (vars.started.getD vars.iterator.nextIterInotify)

theorem atEvent_start (hdeliverable : ∀ event ∈ batch, Deliverable event)
    (hsize : (encoded padding batch).length ≤ inotifyEventBufferLen) (it iterator : EventIterator) :
    AtEvent padding batch ⟨iterator, some (it.startIterInotify (some (encoded padding batch)))⟩ :=
  ⟨hdeliverable, it, [], hsize, rfl⟩

theorem AtEvent.outcome_nil (hat : AtEvent padding [] vars) :
    ∃ iterator, vars.started.getD vars.iterator.nextIterInotify = .null iterator := by
  obtain ⟨it, before, hsize, hcall⟩ := hat.call
  rw [List.append_nil] at hsize hcall
  obtain ⟨iterator, hnull⟩ := (call_decodes it _ hsize).2
  rw [List.length_map] at hnull
  exact ⟨iterator, Option.some_inj.mp (hcall.symm.trans hnull)⟩

theorem AtEvent.outcome_cons (hpadding : ∀ name ≠ [], 0 < padding name)
    (hat : AtEvent padding (event :: batch) vars) :
    ∃ index iterator name,
      vars.started.getD vars.iterator.nextIterInotify = .event index iterator ∧
      AtEvent padding batch ⟨iterator, none⟩ ∧
      eventRead iterator.buffer index = { event with name } ∧
      (usesName event = true → name = event.name ∧
        (bytesFrom iterator.buffer (index + inotifyEventSize)).contains 0 = true) := by
  obtain ⟨it, before, hsize, hcall⟩ := hat.call
  have hevents : (before ++ event :: batch).map (inotifyEventOf padding) =
      before.map (inotifyEventOf padding) ++ inotifyEventOf padding event ::
        batch.map (inotifyEventOf padding) := by simp
  have hrecord := call_encodeEvents it hsize _ _ _ hevents
  rw [List.length_map] at hrecord
  have hnext := call_succ hrecord
  obtain ⟨name, hread, hname⟩ := eventRead_filled hpadding it
    (hat.deliverable event List.mem_cons_self) (encodeEvents_split hevents) hsize
  refine ⟨_, _, name, Option.some_inj.mp (hcall.symm.trans hrecord),
    ⟨?_, it, before ++ [event], ?_⟩, hread, hname⟩
  · exact fun other hother ↦ hat.deliverable other (List.mem_cons_of_mem _ hother)
  · rw [← List.append_cons, List.length_append, List.length_singleton, Option.getD_none]
    exact ⟨hsize, hnext⟩

/-! ### The steps -/

/-- The watcher without the rest of the batch. -/
def emptied : Watcher → Watcher := mapped id fun _ ↦ []

theorem keepsCalls_id : KeepsCalls id := fun _ _ ↦ rfl

variable {κ α : Type} {k : Kernel κ α} {cfg : Config} {model : System κ} {s : BufferSystem κ}

/-- The iterator is at the rest of the batch, while one is processed. -/
structure InBuffer (padding : Bytes → ℕ) (model : System κ) (s : BufferSystem κ) : Prop where
  system : s.system = ⟨emptied model.watcher, model.kernel⟩
  valid : s.fault = false
  control : Control model.watcher
  batch : (∃ stop, model.watcher.place = .stopped stop) ∨ model.watcher.place = .poll ∨
    Loading model.watcher ∨ AtEvent padding model.watcher.batch s.vars

theorem inBuffer_start (cfg : Config) (kernel : κ) (iterator : EventIterator) :
    InBuffer padding (System.start cfg kernel) (BufferSystem.start cfg kernel iterator) :=
  ⟨rfl, rfl, control_start cfg, Or.inr (Or.inr (Or.inl (Or.inl rfl)))⟩

theorem batch_of_elsewhere {w next : Watcher} (hstep : InternalStep cfg w next)
    (hplace : w.place ≠ .nextEvent) : next.batch = w.batch := by
  cases hstep with
  | takesEvent hother => exact absurd hother hplace
  | insertsPruned _ hinsert => cases hinsert <;> rfl
  | @returns _ frame => cases frame <;> rfl
  | reports => rw [report_eq]
  | _ => rfl

/-- The head of the loop, and the event that it comes to. -/
theorem inBuffer_nextEvent (hpadding : ∀ name ≠ [], 0 < padding name) {w : Watcher} {kernel : κ}
    (hplace : w.place = .nextEvent) (hcontrol : Control w) (hat : AtEvent padding w.batch vars) :
    Option.Rel (InBuffer padding) (System.step cfg k ⟨w, kernel⟩ .internal)
      (some (BufferSystem.nextEvent ⟨⟨emptied w, kernel⟩, vars, false⟩)) := by
  cases hbatch : w.batch with
  | nil =>
    rw [hbatch] at hat
    obtain ⟨iterator, hnull⟩ := hat.outcome_nil
    have hinternal : w.internal cfg = some { w with place := .poll } := by
      simp [Watcher.internal, hplace, hbatch]
    have hmodel : System.step cfg k ⟨w, kernel⟩ .internal =
        some ⟨{ w with place := .poll }, kernel⟩ := by simp [System.step, hinternal]
    rw [hmodel]
    unfold BufferSystem.nextEvent
    dsimp only
    rw [hnull]
    exact .some ⟨rfl, rfl, hcontrol.internal (internalStep hinternal), Or.inr (Or.inl rfl)⟩
  | cons event rest =>
    rw [hbatch] at hat
    obtain ⟨index, iterator, name, houtcome, hrest, hread, hname⟩ := hat.outcome_cons hpadding
    have hinternal : w.internal cfg =
        some (({ w with batch := rest }.findParent event).dispatch event) := by
      simp [Watcher.internal, hplace, hbatch]
    have hmodel : System.step cfg k ⟨w, kernel⟩ .internal =
        some ⟨({ w with batch := rest }.findParent event).dispatch event, kernel⟩ := by
      simp [System.step, hinternal]
    have hnamed : ¬ (usesName { event with name } && !(bytesFrom iterator.buffer
        (index + inotifyEventSize)).contains 0) = true := by
      rw [Bool.and_eq_true, not_and]
      intro huses
      simp only [(hname huses).2]
      decide
    have hdispatch : ((emptied w).findParent { event with name }).dispatch { event with name } =
        emptied (({ w with batch := rest }.findParent event).dispatch event) := by
      rw [dispatch_withName _ fun huses ↦ (hname huses).1, emptied, ← dispatch_mapped keepsCalls_id,
        ← findParent_mapped]
      rfl
    rw [hmodel]
    unfold BufferSystem.nextEvent
    dsimp only
    rw [houtcome]
    dsimp only
    rw [hread, if_neg hnamed, hdispatch]
    have hafter : (({ w with batch := rest }.findParent event).dispatch event).batch = rest :=
      (batch_of_dispatch (dispatchStep _ _)).trans (findParent_batch _ _)
    exact .some ⟨rfl, rfl, hcontrol.internal (internalStep hinternal),
      Or.inr (Or.inr (Or.inr (hafter.symm ▸ hrest)))⟩

theorem internal_inBuffer (hpadding : ∀ name ≠ [], 0 < padding name)
    (hin : InBuffer padding model s) :
    Option.Rel (InBuffer padding) (model.step cfg k .internal) (s.internal cfg) := by
  obtain ⟨system, vars, fault⟩ := s
  obtain ⟨w, kernel⟩ := model
  obtain ⟨rfl, rfl, hcontrol, hbatch⟩ := hin
  dsimp only at hcontrol hbatch
  by_cases hplace : w.place = .nextEvent
  · have hat : AtEvent padding w.batch vars := by
      have hstack : w.stack = [] := by
        have hfits := hcontrol.fits
        rwa [hplace] at hfits
      simpa [hplace, Loading, hstack] using hbatch
    have hbuffer : BufferSystem.internal cfg ⟨⟨emptied w, kernel⟩, vars, false⟩ =
        some (BufferSystem.nextEvent ⟨⟨emptied w, kernel⟩, vars, false⟩) := by
      simp [BufferSystem.internal, emptied, hplace]
    rw [hbuffer]
    exact inBuffer_nextEvent hpadding hplace hcontrol hat
  · have hbuffer : BufferSystem.internal cfg ⟨⟨emptied w, kernel⟩, vars, false⟩ =
        (w.internal cfg).map fun next ↦ ⟨⟨emptied next, kernel⟩, vars, false⟩ := by
      unfold BufferSystem.internal
      split
      case h_1 hother => exact absurd hother hplace
      case h_2 =>
        rw [emptied, internal_mapped keepsCalls_id (Or.inl rfl) (Or.inl rfl) (Or.inr hplace),
          Option.map_map]
        rfl
    rw [hbuffer]
    refine rel_map fun next hinternal ↦ ⟨rfl, rfl, hcontrol.internal (internalStep hinternal), ?_⟩
    rcases hbatch with ⟨stop, hstop⟩ | hpoll | hloading | hat
    · simp [Watcher.internal, hstop] at hinternal
    · simp [Watcher.internal, hpoll] at hinternal
    · exact Or.inr ((loading_goes_on (internalStep hinternal) hloading).imp_right Or.inl)
    · rw [← batch_of_elsewhere (internalStep hinternal) hplace] at hat
      exact Or.inr (Or.inr (Or.inr hat))

/-- The events that are read fit into the buffer. -/
def EventsFit (padding : Bytes → ℕ) : Label α → Prop
  | .answer (.events events) =>
    (encoded padding events).length ≤ inotifyEventBufferLen ∧ ∀ event ∈ events, Deliverable event
  | _ => True

instance : DecidablePred (EventsFit (α := α) padding)
  | .answer (.events events) =>
    haveI := Nat.decLe (encoded padding events).length inotifyEventBufferLen
    haveI := List.decidableBAll Deliverable events
    inferInstanceAs (Decidable (_ ∧ _))
  | .act _ | .internal | .answer .done | .answer (.watch _) | .answer (.names _)
  | .answer (.error _) => .isTrue trivial

theorem batch_of_answer {w next : Watcher} {answer : Answer} (hstep : ResumeStep w answer next)
    (hother : ∀ events, answer ≠ .events events) : next.batch = w.batch := by
  cases hstep with
  | reads events => exact absurd rfl (hother events)
  | reuses _ _ hprune => exact batch_of_prune hprune
  | adds _ _ hinsert => cases hinsert <;> rfl
  | _ => rfl

/-- The events that are read are taken as they are with a list of them. -/
theorem resume_events_emptied (w : Watcher) (events : List Event) :
    ((emptied w).resume (.events events)).map (fun next ↦ { next with batch := [] }) =
      (w.resume (.events events)).map emptied := by
  cases hplace : w.place with
  | poll =>
    simp only [Watcher.resume, emptied, mapped_place, hplace]
    rfl
  | _ => simp [Watcher.resume, emptied, hplace]

theorem step_events_emptied (w : Watcher) (kernel : κ) (events : List Event) :
    (System.step cfg k ⟨emptied w, kernel⟩ (.answer (.events events))).map
        (fun system ↦ { system with watcher.batch := [] }) =
      (System.step cfg k ⟨w, kernel⟩ (.answer (.events events))).map fun next ↦
        ⟨emptied next.watcher, next.kernel⟩ := by
  have hresume := resume_events_emptied w events
  have hcall : (emptied w).call = w.call := rfl
  unfold System.step
  dsimp only
  rw [hcall]
  cases w.call with
  | none => rfl
  | some call =>
    cases hserve : k.serve kernel call (.events events) with
    | none => simp [hserve]
    | some kernel =>
      cases hnext : w.resume (.events events) with
      | none =>
        rw [hnext, Option.map_none, Option.map_eq_none_iff] at hresume
        simp [hresume]
      | some next =>
        rw [hnext, Option.map_some] at hresume
        obtain ⟨other, hother, heq⟩ := Option.map_eq_some_iff.mp hresume
        simp [hserve, hother, ← heq]

theorem answer_inBuffer {answer : Answer}
    (hfits : EventsFit padding (.answer answer : Label α)) (hin : InBuffer padding model s) :
    Option.Rel (InBuffer padding) (model.step cfg k (.answer answer))
      (s.answer cfg k (encoded padding) answer) := by
  obtain ⟨system, vars, fault⟩ := s
  obtain ⟨w, kernel⟩ := model
  obtain ⟨rfl, rfl, hcontrol, hbatch⟩ := hin
  dsimp only at hcontrol hbatch
  by_cases hevents : ∃ events, answer = .events events
  · obtain ⟨events, rfl⟩ := hevents
    have hbuffer : BufferSystem.answer cfg k (encoded padding) ⟨⟨emptied w, kernel⟩, vars, false⟩
          (.events events) =
        (System.step cfg k ⟨w, kernel⟩ (.answer (.events events))).map fun next ↦
          ⟨⟨emptied next.watcher, next.kernel⟩, ⟨vars.iterator,
            some (vars.iterator.startIterInotify (some (encoded padding events)))⟩, false⟩ := by
      exact (Option.map_map (fun system ↦ (⟨system, ⟨vars.iterator,
        some (vars.iterator.startIterInotify (some (encoded padding events)))⟩, false⟩ :
          BufferSystem κ)) _ _).symm.trans
        ((congrArg _ (step_events_emptied w kernel events)).trans (Option.map_map _ _ _))
    rw [hbuffer]
    refine rel_map_right fun next hnext ↦ ?_
    obtain ⟨_, -, -, hresume⟩ := System.step_answer hnext
    obtain ⟨w', kernel'⟩ := next
    have hstep := resumeStep hresume
    refine ⟨rfl, rfl, hcontrol.resume hstep, Or.inr (Or.inr (Or.inr ?_))⟩
    cases hstep with
    | reads => exact atEvent_start hfits.2 hfits.1 _ _
    | removes _ _ hanswer => simp at hanswer
  · have hother : ∀ events, answer ≠ .events events := fun events heq ↦ hevents ⟨events, heq⟩
    have hbuffer : BufferSystem.answer cfg k (encoded padding) ⟨⟨emptied w, kernel⟩, vars, false⟩
          answer =
        (System.step cfg k ⟨w, kernel⟩ (.answer answer)).map fun next ↦
          ⟨⟨emptied next.watcher, next.kernel⟩, vars, false⟩ := by
      unfold BufferSystem.answer
      rw [emptied, step_answer_mapped (Or.inr hother), Option.map_map]
      cases answer with
      | events events => exact absurd rfl (hother events)
      | _ => rfl
    rw [hbuffer]
    refine rel_map_right fun next hnext ↦ ?_
    obtain ⟨_, -, -, hresume⟩ := System.step_answer hnext
    obtain ⟨w', kernel'⟩ := next
    have hstep := resumeStep hresume
    refine ⟨rfl, rfl, hcontrol.resume hstep, ?_⟩
    rcases hbatch with ⟨stop, hstop⟩ | hpoll | hloading | hat
    · simp [Watcher.resume, hstop] at hresume
    · cases hstep with
      | exits => exact Or.inl ⟨_, rfl⟩
      | reads events => exact absurd rfl (hother events)
      | reuses hplace | adds hplace | missed _ hplace | removes _ hplace | opens hplace
      | opensNothing _ hplace | lists _ hplace => cases hpoll.symm.trans hplace
    · rcases hloading with hplace | ⟨path, htop⟩
      · simp [Watcher.resume, hplace] at hresume
      · rw [← stack_of_resume hstep] at htop
        exact Or.inr (Or.inr (Or.inl (Or.inr ⟨path, htop⟩)))
    · rw [← batch_of_answer hstep hother] at hat
      exact Or.inr (Or.inr (Or.inr hat))

theorem step_inBuffer (hpadding : ∀ name ≠ [], 0 < padding name) {label : Label α}
    (hfits : EventsFit padding label) (hin : InBuffer padding model s) :
    Option.Rel (InBuffer padding) (model.step cfg k label)
      (s.step cfg k (encoded padding) label) := by
  unfold BufferSystem.step
  rw [if_neg (by simp [hin.valid])]
  cases label with
  | internal => exact internal_inBuffer hpadding hin
  | answer answer => exact answer_inBuffer hfits hin
  | act action =>
    obtain ⟨system, vars, fault⟩ := s
    obtain ⟨rfl, rfl, hcontrol, hbatch⟩ := hin
    have hbuffer : (System.step cfg k ⟨emptied model.watcher, model.kernel⟩ (.act action)).map
          (fun system ↦ (⟨system, vars, false⟩ : BufferSystem κ)) =
        (k.act model.kernel action).map fun kernel ↦
          ⟨⟨emptied model.watcher, kernel⟩, vars, false⟩ := Option.map_map _ _ _
    change Option.Rel _ _ (Option.map _ (System.step _ _ _ _))
    rw [hbuffer]
    exact rel_map fun kernel _ ↦ ⟨rfl, rfl, hcontrol, hbatch⟩

/-! ### The runs -/

/-- The name fields of Linux are filled up to multiples of sixteen bytes. -/
def toSixteen (name : Bytes) : ℕ := if name = [] then 0 else 16 - name.length % 16

end DirWatcher.Watching
