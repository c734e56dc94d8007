import DirWatcher.Cache.Publication
import DirWatcher.Source.MainLoop

/-!
Everything a step of the main loop can do, with one case for each way a step can go, and
the steps of a flush put together again.
-/

set_option autoImplicit false
set_option relaxedAutoImplicit false

namespace DirWatcher.Cache

open Source

/-! ### The steps of a flush -/

/-- The steps of `flush_hash_cache`. -/
inductive FlushMove (io : FlushIo) (notifier : Notifier) :
    FlushPlace → Notifier → Option FlushPlace → Prop
  | opens {parentDir : Option CString} {first : Option TempFile}
      (hprint : printParent io parentDir = .ok first) :
      FlushMove io notifier (.opening parentDir) notifier (some (.printing 0 first))
  | finishes {pos : ℕ} (file : Option TempFile) (hiter : hashCacheIter notifier.hc pos = none) :
      FlushMove io notifier (.printing pos file) notifier (some (.clearing file))
  | prints {pos next : ℕ} {item : Item} {file : Option TempFile} {opened : TempFile}
      (hiter : hashCacheIter notifier.hc pos = some (next, item))
      (hopen : openOnce io file = .ok opened)
      (herror : (printLine io opened (stringAt item.data)).error = false) :
      FlushMove io notifier (.printing pos file) notifier
        (some (.printing next (some (printLine io opened (stringAt item.data)))))
  | clears (file : Option TempFile) :
      FlushMove io notifier (.clearing file)
        { notifier with hc := hashCacheClear notifier.hc } (some (.closing file))
  | closes {file : Option TempFile} {after : Notifier}
      (hpublish : publish io notifier file = .ok after) :
      FlushMove io notifier (.closing file) after none

theorem exists_of_bind_eq_ok {ε α β : Type} {first : Except ε α} {rest : α → Except ε β}
    {result : β}
    (hbind : first >>= rest = .ok result) :
    ∃ value, first = .ok value ∧ rest value = .ok result := by
  cases first with
  | error stop => cases hbind
  | ok value => exact ⟨value, rfl, hbind⟩

theorem flushMove {io : FlushIo} {notifier after : Notifier} {place : FlushPlace}
    {next : Option FlushPlace} (hstep : flushStep io notifier place = .ok (after, next)) :
    FlushMove io notifier place after next := by
  cases place with
  | opening parentDir =>
    obtain ⟨first, hprint, hresult⟩ := exists_of_bind_eq_ok hstep
    cases hresult
    exact .opens hprint
  | printing pos file =>
    simp only [flushStep] at hstep
    split at hstep
    case h_1 hiter =>
      cases hstep
      exact .finishes file hiter
    case h_2 hiter =>
      obtain ⟨opened, hopen, hresult⟩ := exists_of_bind_eq_ok hstep
      split_ifs at hresult with herror
      cases hresult
      exact .prints hiter hopen (by simpa using herror)
  | clearing file =>
    cases hstep
    exact .clears file
  | closing file =>
    obtain ⟨published, hpublish, hresult⟩ := exists_of_bind_eq_ok hstep
    cases hresult
    exact .closes hpublish

theorem of_bind_eq_error {ε α β : Type} {first : Except ε α} {rest : α → Except ε β} {stop : ε}
    (hbind : first >>= rest = .error stop) :
    first = .error stop ∨ ∃ value, first = .ok value ∧ rest value = .error stop := by
  cases first with
  | error other =>
    cases hbind
    exact Or.inl rfl
  | ok value => exact Or.inr ⟨value, rfl, hbind⟩

theorem openTempFile_error {io : FlushIo} {stop : Stop} (hopen : openTempFile io = .error stop) :
    stop = .exited 11 := by
  unfold openTempFile at hopen
  split_ifs at hopen
  cases hopen
  rfl

/-- How a step of a flush can stop the process. -/
theorem flushStep_error {io : FlushIo} {notifier : Notifier} {place : FlushPlace} {stop : Stop}
    (hstep : flushStep io notifier place = .error stop) :
    stop ∈ [.exited 11, .exited 12, .exited 13, .exited 20] := by
  cases place with
  | opening parentDir =>
    rcases of_bind_eq_error hstep with hprint | ⟨first, -, hreturn⟩
    · cases parentDir with
      | none => cases hprint
      | some directory =>
        rcases of_bind_eq_error hprint with hopen | ⟨file, -, hreturn⟩
        · simp [openTempFile_error hopen]
        · cases hreturn
    · cases hreturn
  | printing pos file =>
    simp only [flushStep] at hstep
    split at hstep
    · cases hstep
    · rcases of_bind_eq_error hstep with hopen | ⟨opened, -, hprint⟩
      · cases file with
        | none => simp [openTempFile_error hopen]
        | some file => cases hopen
      · split_ifs at hprint
        cases hprint
        simp
  | clearing file => cases hstep
  | closing file =>
    rcases of_bind_eq_error hstep with hpublish | ⟨after, -, hreturn⟩
    · cases file with
      | none => cases hpublish
      | some file =>
        rw [publish, renameTempFile] at hpublish
        split_ifs at hpublish <;> cases hpublish <;> simp
    · cases hreturn

theorem stop_ne_of_flushStep {io : FlushIo} {notifier : Notifier} {place : FlushPlace}
    {stop : Stop} (hstep : flushStep io notifier place = .error stop) :
    stop ≠ .exited 24 ∧ stop ≠ .loops := by
  constructor <;>
    (rintro rfl
     simpa using flushStep_error hstep)

/-- What is left of a flush from a place on, without an interruption. -/
def finishFlush (io : FlushIo) (notifier : Notifier) : FlushPlace → Except Stop Notifier
  | .opening parentDir => flushHashCache io notifier parentDir
  | .printing pos file => do
    let written ← printItems io notifier.hc (notifier.hc.hashPos - pos + 1) pos file
    publish io { notifier with hc := hashCacheClear notifier.hc } written
  | .clearing file => publish io { notifier with hc := hashCacheClear notifier.hc } file
  | .closing file => publish io notifier file

/-- The position of the loop is one that the cache can have. -/
def PlaceFits (hc : HashCache) : FlushPlace → Prop
  | .printing pos _ => pos ≤ hc.hashPos
  | _ => True

/-- The steps make up `flush_hash_cache`. -/
theorem finishFlush_eq_step (io : FlushIo) (notifier : Notifier) (place : FlushPlace)
    (hfits : PlaceFits notifier.hc place) :
    finishFlush io notifier place = (do
      let (after, next) ← flushStep io notifier place
      next.elim (.ok after) (finishFlush io after)) := by
  cases place with
  | opening parentDir =>
    rw [finishFlush, flushHashCache, flushStep]
    cases printParent io parentDir <;> rfl
  | printing pos file =>
    rw [finishFlush, printItems, flushStep]
    cases hiter : hashCacheIter notifier.hc pos with
    | none => rfl
    | some found =>
      obtain ⟨next, item⟩ := found
      have hnext : pos < notifier.hc.hashPos ∧ next = pos + 1 := by
        unfold hashCacheIter at hiter
        split_ifs at hiter with hend
        cases hiter
        exact ⟨not_le.mp hend, rfl⟩
      dsimp only
      cases openOnce io file with
      | error stop => rfl
      | ok opened =>
        change (Except.bind (if (printLine io opened (stringAt item.data)).error = true then _
          else _) _) =
          Except.bind (if (printLine io opened (stringAt item.data)).error = true then _ else _) _
        split_ifs
        · rfl
        · obtain ⟨hpos, rfl⟩ := hnext
          rw [show notifier.hc.hashPos - pos = notifier.hc.hashPos - (pos + 1) + 1 by omega]
          rfl
  | clearing file => rfl
  | closing file =>
    rw [finishFlush, flushStep]
    cases publish io notifier file <;> rfl

/-! ### A log that grows -/

/-- An item of a log that has grown is an old one or one of the new part. -/
theorem split_append {α : Type} {log new before later : List α} {item : α}
    (hlog : log ++ new = before ++ item :: later) :
    (∃ rest, log = before ++ item :: rest ∧ later = rest ++ new) ∨
      ∃ rest, new = rest ++ item :: later := by
  rcases List.append_eq_append_iff.mp hlog with ⟨rest, -, hsplit⟩ | ⟨rest, hbefore, hsplit⟩
  · exact Or.inr ⟨rest, hsplit⟩
  · cases rest with
    | nil => exact Or.inr ⟨[], hsplit.symm⟩
    | cons first rest =>
      rw [List.cons_append] at hsplit
      obtain ⟨rfl, rfl⟩ := List.cons.inj hsplit
      exact Or.inl ⟨rest, hbefore, rfl⟩

/-! ### The steps of the loop -/

/-- The steps of the main loop, with the signals between them. -/
inductive LoopMove (s : MainLoop) : LoopLabel → MainLoop → Prop
  | terminates : LoopMove s .sigterm { s with alive := false }
  | ticks : LoopMove s .sigalrm { s with flushNow := true, log := s.log ++ [.alarm] }
  | polls (hplace : s.place = .aliveTest) : LoopMove s .next { s with place := .poll }
  | ends (hplace : s.place = .aliveTest) (halive : s.alive = false) :
      LoopMove s .next { s with place := .ended }
  | polled (result : PollResult) (errno : ℕ) (hplace : s.place = .poll)
      (herrno : ∀ value, result = .failed value → errno = value) :
      LoopMove s (.poll result) { s with errno, place := .parentTest result }
  | setsErrno (value : ℕ) (hcalls : s.place.calls = true) :
      LoopMove s (.errno value) { s with errno := value }
  | checks {result : PollResult} (gone : Bool) (hplace : s.place = .parentTest result) :
      LoopMove s (.parent gone) { s with alive := s.alive && !gone, place := .flushTest result }
  | sees {result : PollResult} (hplace : s.place = .flushTest result) :
      LoopMove s .next { s with place := .flushReset result }
  | passes {result : PollResult} (hplace : s.place = .flushTest result) :
      LoopMove s .next { s with place := .switch result }
  | resets {result : PollResult} (hplace : s.place = .flushReset result) :
      LoopMove s .next { s with flushNow := false, place := .timerFlush result (.opening none) }
  | flushesTimer (io : FlushIo) {result : PollResult} {place : FlushPlace} {notifier : Notifier}
      {next : Option FlushPlace} (hplace : s.place = .timerFlush result place)
      (hmove : FlushMove io s.notifier place notifier next) :
      LoopMove s (.flush io) { s with
        notifier
        place := next.elim (.switch result) (.timerFlush result)
        log := s.log ++ MainLoop.happenings place s.notifier notifier }
  | flushesEvent (io : FlushIo) {place : FlushPlace} {notifier : Notifier}
      {next : Option FlushPlace} (hplace : s.place = .eventFlush place)
      (hmove : FlushMove io s.notifier place notifier next) :
      LoopMove s (.flush io) { s with
        notifier
        place := next.elim .events .eventFlush
        log := s.log ++ MainLoop.happenings place s.notifier notifier }
  | switches {result : PollResult} (place : LoopPlace) (hplace : s.place = .switch result)
      (hnext : place = .aliveTest ∨ place = .events) : LoopMove s .next { s with place }
  | fails {errno : ℕ} (hplace : s.place = .switch (.failed errno)) (herrno : s.errno ≠ eintr) :
      LoopMove s .next { s with stop := some (.exited 24) }
  | endsBatch (hplace : s.place = .events) : LoopMove s .endBatch { s with place := .aliveTest }
  | puts (directory : CString) {result : Int32} {hc : HashCache} (hplace : s.place = .events)
      (hadd : hashCacheAdd s.notifier.hc directory.terminated = some (result, hc))
      (hresult : result ≠ 0) :
      LoopMove s (.report directory) { s with
        notifier := { s.notifier with hc }
        log := s.log ++ [.reported directory, .put directory] }
  | refuses (directory : CString) {hc : HashCache} (hplace : s.place = .events)
      (hadd : hashCacheAdd s.notifier.hc directory.terminated = some (0, hc)) :
      LoopMove s (.report directory) { s with
        notifier := { s.notifier with hc }
        place := .eventFlush (.opening (some directory))
        log := s.log ++ [.reported directory] }
  | hangs (directory : CString) (hplace : s.place = .events)
      (hadd : hashCacheAdd s.notifier.hc directory.terminated = none) :
      LoopMove s (.report directory)
        { s with stop := some .loops, log := s.log ++ [.reported directory] }
  | stops (label : LoopLabel) (stop : Stop) (hcalls : s.place.calls = true)
      (hstop : stop ≠ .exited 24) (hexits : stop ≠ .loops ∨ label = .abort stop) :
      LoopMove s label { s with stop := some stop }

theorem loopMove_polled {s : MainLoop} (result : PollResult) (hplace : s.place = .poll) :
    LoopMove s (.poll result) (s.polled result) := by
  cases result with
  | failed errno => exact .polled _ errno hplace fun value heq ↦ PollResult.failed.inj heq
  | timeout => exact .polled _ s.errno hplace fun value heq ↦ nomatch heq
  | ready pollin => exact .polled _ s.errno hplace fun value heq ↦ nomatch heq

theorem loopMove_switch {s : MainLoop} {result : PollResult} (hplace : s.place = .switch result) :
    LoopMove s .next (s.switch result) := by
  unfold MainLoop.switch
  split
  · split_ifs with herrno
    · exact .fails hplace herrno
    · exact .switches _ hplace (Or.inl rfl)
  · refine .switches _ hplace ?_
    split_ifs
    · exact Or.inr rfl
    · exact Or.inl rfl
  · exact .switches _ hplace (Or.inl rfl)

theorem loopMove_of_advance {s after : MainLoop} {label : LoopLabel}
    (hstep : s.advance label = some after) : LoopMove s label after := by
  unfold MainLoop.advance at hstep
  split at hstep
  case h_1 => cases hstep; exact .terminates
  case h_2 => cases hstep; exact .ticks
  case h_3 hplace =>
    cases hstep
    split_ifs with halive
    · exact .polls hplace
    · exact .ends hplace (by simpa using halive)
  case h_4 result hplace => cases hstep; exact loopMove_polled result hplace
  case h_5 =>
    split_ifs at hstep with hcalls
    cases hstep
    exact .setsErrno _ hcalls
  case h_6 gone result hplace => cases hstep; exact .checks _ hplace
  case h_7 hplace =>
    cases hstep
    split_ifs
    · exact .sees hplace
    · exact .passes hplace
  case h_8 hplace => cases hstep; exact .resets hplace
  case h_9 io result place hplace =>
    cases hstep
    unfold MainLoop.flush
    split
    · next hflush =>
      obtain ⟨hother, hexits⟩ := stop_ne_of_flushStep hflush
      exact .stops _ _ (by rw [hplace]; rfl) hother (Or.inl hexits)
    · next hflush => exact .flushesTimer io hplace (flushMove hflush)
  case h_10 result hplace => cases hstep; exact loopMove_switch hplace
  case h_11 directory hplace =>
    cases hstep
    unfold MainLoop.reportDirectory
    split
    · next hadd => exact .hangs directory hplace hadd
    · next hadd =>
      split_ifs with hresult
      · rw [hresult] at hadd
        exact .refuses directory hplace hadd
      · exact .puts directory hplace hadd hresult
  case h_12 hplace => cases hstep; exact .endsBatch hplace
  case h_13 stop hplace =>
    split_ifs at hstep with hstop
    cases hstep
    exact .stops _ _ (by rw [hplace]; rfl) hstop (Or.inr rfl)
  case h_14 io place hplace =>
    cases hstep
    unfold MainLoop.flush
    split
    · next hflush =>
      obtain ⟨hother, hexits⟩ := stop_ne_of_flushStep hflush
      exact .stops _ _ (by rw [hplace]; rfl) hother (Or.inl hexits)
    · next hflush => exact .flushesEvent io hplace (flushMove hflush)
  case h_15 => cases hstep

theorem loopMove {s after : MainLoop} {label : LoopLabel} (hstep : s.step label = some after) :
    s.stop = none ∧ LoopMove s label after := by
  unfold MainLoop.step at hstep
  split_ifs at hstep with hover
  rw [not_or] at hover
  exact ⟨by simpa using hover.1, loopMove_of_advance hstep⟩

end DirWatcher.Cache
