import DirWatcher.Cache.LoopSteps
import DirWatcher.Cache.WriteFailures
import DirWatcher.Foundation.Runs

/-!
What is published when `main` comes to its normal end. Nothing is flushed after the loop:
every directory that has been reported is listed in a file published afterwards exactly
when the cache is empty at the end, in all runs in which no failed write goes unnoticed.
-/

set_option autoImplicit false
set_option relaxedAutoImplicit false

namespace DirWatcher.Cache

open Source Foundation.FirstOccurrences Foundation.Runs

variable {s after : MainLoop} {accepted : List Bytes}

/-! ### The log -/

def noteHappening (cached : List CString) : Happening → List CString
  | .put directory => cached ++ [directory]
  | .cleared => []
  | _ => cached

/-- The directories that have been put in the cache since it was last cleared. -/
def putSince (log : List Happening) : List CString := log.foldl noteHappening []

theorem putSince_append (log new : List Happening) :
    putSince (log ++ new) = new.foldl noteHappening (putSince log) :=
  List.foldl_append

/-- The files published in a part of a log list the directory. -/
def ListedIn (log : List Happening) (directory : CString) : Prop :=
  ∃ lines, .published lines ∈ log ∧ directory.bytes ∈ lines

/-- Every directory that has been reported is listed in a file published later. -/
def AllListed (log : List Happening) : Prop :=
  ∀ before directory later, log = before ++ .reported directory :: later →
    ListedIn later directory

/-- Every directory that has been reported is listed in a file published later, or its line
is one of those that wait. -/
def ListedOr (log : List Happening) (waiting : List Bytes) : Prop :=
  ∀ before directory later, log = before ++ .reported directory :: later →
    ListedIn later directory ∨ directory.bytes ∈ waiting

theorem ListedIn.append {log : List Happening} {directory : CString}
    (hlisted : ListedIn log directory) (new : List Happening) :
    ListedIn (log ++ new) directory := by
  obtain ⟨lines, hmem, hline⟩ := hlisted
  exact ⟨lines, List.mem_append_left _ hmem, hline⟩

/-- Lines go on waiting while the log grows. -/
theorem ListedOr.append {log : List Happening} {waiting waitingAfter : List Bytes}
    (hlisted : ListedOr log waiting) {new : List Happening}
    (hold : ∀ directory : CString, directory.bytes ∈ waiting →
      ListedIn new directory ∨ directory.bytes ∈ waitingAfter)
    (hnew : ∀ directory, .reported directory ∈ new → directory.bytes ∈ waitingAfter) :
    ListedOr (log ++ new) waitingAfter := by
  intro before directory later hlog
  rcases split_append hlog with ⟨rest, hbefore, rfl⟩ | ⟨rest, hrest⟩
  · rcases hlisted before directory rest hbefore with hin | hwaits
    · exact Or.inl (hin.append new)
    · refine (hold directory hwaits).imp_left ?_
      rintro ⟨lines, hmem, hline⟩
      exact ⟨lines, List.mem_append_right _ hmem, hline⟩
  · exact Or.inr (hnew directory (by simp [hrest]))

/-! ### The lines that wait -/

/-- The lines that a flush is still to publish, with a cache of the accepted items. -/
def flushWaiting (accepted : List Bytes) : FlushPlace → List Bytes
  | .opening parentDir => flushedLines parentDir accepted
  | .printing pos file => linesOf file ++ ((distinct accepted).drop pos).map stringAt
  | .clearing file => linesOf file
  | .closing file => linesOf file

/-- The flush at a place in the loop. -/
def flushAt : LoopPlace → Option FlushPlace
  | .timerFlush _ place => some place
  | .eventFlush place => some place
  | _ => none

/-- The lines that are still to be published. -/
def waiting (accepted : List Bytes) (place : LoopPlace) : List Bytes :=
  match flushAt place with
  | some place => flushWaiting accepted place
  | none => (distinct accepted).map stringAt

/-! ### The condition -/

/-- The line of a directory that did not fit fails only if one from the cache comes after
it, and `fclose` loses nothing. -/
def NoticesFailures (s : MainLoop) (label : LoopLabel) : Prop :=
  match label, flushAt s.place with
  | .flush io, some (.opening (some _)) =>
    io.printFails 0 = false ∨ s.notifier.hc.hashPos ≠ 0
  | .flush io, some (.closing (some _)) => io.closeLoses = 0
  | _, _ => True

instance (s : MainLoop) (label : LoopLabel) : Decidable (NoticesFailures s label) := by
  unfold NoticesFailures
  split <;> infer_instance

/-- The line of the directory has failed, and the next one will show it. -/
def Doomed (s : MainLoop) : Prop :=
  s.stop ≠ none ∨ s.notifier.hc.hashPos ≠ 0 ∧
    ∃ file : TempFile, file.error = true ∧ flushAt s.place = some (.printing 0 (some file))

/-- The directory has been reported, and no file has been published since. -/
def Unlisted (log : List Happening) (directory : CString) : Prop :=
  ∃ before later, log = before ++ .reported directory :: later ∧ ∀ lines, .published lines ∉ later

theorem Unlisted.append {log new : List Happening} {directory : CString}
    (hunlisted : Unlisted log directory) (hnew : ∀ lines, .published lines ∉ new) :
    Unlisted (log ++ new) directory := by
  obtain ⟨before, later, rfl, hlater⟩ := hunlisted
  refine ⟨before, later ++ new, by simp, fun lines hmem ↦ ?_⟩
  exact (List.mem_append.mp hmem).elim (hlater lines) (hnew lines)

/-- The cache holds what has been put in it, and what has been reported is published or
waits to be. -/
structure Accounted (hashSize : ℕ) (accepted : List Bytes) (s : MainLoop) : Prop where
  holds : Holds s.notifier.hc accepted
  hashSize : s.notifier.hc.hashSize = hashSize
  put : ∀ data, data ∈ accepted ↔ data ∈ (putSince s.log).map CString.terminated
  listed : ListedOr s.log (waiting accepted s.place)
  cleared : ∀ file, flushAt s.place = some (.closing file) → putSince s.log = []
  unlisted : ∀ directory ∈ putSince s.log, Unlisted s.log directory

variable {hashSize : ℕ}

/-! ### Steps -/

/-- A step that leaves the log and the cache alone, and no line out. -/
theorem Accounted.stay (hacc : Accounted hashSize accepted s)
    (hnotifier : after.notifier = s.notifier) (hlog : after.log = s.log)
    (hwaiting : waiting accepted s.place ⊆ waiting accepted after.place)
    (hclosing : ∀ file, flushAt after.place = some (.closing file) →
      flushAt s.place = some (.closing file)) : Accounted hashSize accepted after where
  holds := hnotifier ▸ hacc.holds
  hashSize := hnotifier ▸ hacc.hashSize
  put := hlog ▸ hacc.put
  listed := by
    rw [hlog]
    exact fun before directory later hsplit ↦
      (hacc.listed before directory later hsplit).imp_right fun hline ↦ hwaiting hline
  cleared := fun file hfile ↦ hlog ▸ hacc.cleared file (hclosing file hfile)
  unlisted := hlog ▸ hacc.unlisted

theorem happenings_eq_nil {place : FlushPlace} {notifier : Notifier}
    (hplace : ∀ file, place ≠ .clearing file) :
    MainLoop.happenings place notifier notifier = [] := by
  cases place with
  | clearing file => exact absurd rfl (hplace file)
  | _ => simp [MainLoop.happenings]

theorem waiting_of_flushAt {place : LoopPlace} {flush : FlushPlace}
    (hplace : flushAt place = some flush) :
    waiting accepted place = flushWaiting accepted flush := by
  rw [waiting, hplace]

section Flush

variable {io : FlushIo} {place next : FlushPlace} {inside : FlushPlace → LoopPlace}

/-- A step within a flush that does nothing but print. -/
theorem Accounted.stayInFlush (hacc : Accounted hashSize accepted s)
    (hplace : flushAt s.place = some place) (hinside : ∀ place, flushAt (inside place) = some place)
    (hclearing : ∀ file, place ≠ .clearing file) (hclosing : ∀ file, next ≠ .closing file)
    (hwaiting : flushWaiting accepted place ⊆ flushWaiting accepted next) :
    Accounted hashSize accepted { s with
      place := inside next
      log := s.log ++ MainLoop.happenings place s.notifier s.notifier } := by
  rw [happenings_eq_nil hclearing, List.append_nil]
  refine hacc.stay rfl rfl ?_ fun file hfile ↦ ?_
  · rwa [waiting_of_flushAt hplace, waiting_of_flushAt (hinside next)]
  · rw [hinside] at hfile
    exact absurd (Option.some_inj.mp hfile) (hclosing file)

/-- The start of a flush opens the file, and a line of the directory that fails will be
noticed. -/
theorem Accounted.opens (hacc : Accounted hashSize accepted s) {parentDir : Option CString}
    {first : Option TempFile} (hplace : flushAt s.place = some (.opening parentDir))
    (hinside : ∀ place, flushAt (inside place) = some place)
    (hnotices : NoticesFailures s (.flush io)) (hprint : printParent io parentDir = .ok first) :
    let after : MainLoop := { s with
      place := inside (.printing 0 first)
      log := s.log ++ MainLoop.happenings (.opening parentDir) s.notifier s.notifier }
    Doomed after ∨ Accounted hashSize accepted after := by
  cases parentDir with
  | none =>
    cases hprint
    exact Or.inr (hacc.stayInFlush hplace hinside (by simp) (by simp)
      (by simp [flushWaiting, flushedLines, linesOf]))
  | some directory =>
    obtain ⟨file, hopen, hresult⟩ := exists_of_bind_eq_ok hprint
    obtain rfl : ⟨[], false, 0⟩ = file := by
      unfold openTempFile at hopen
      split_ifs at hopen
      exact Except.ok.inj hopen
    cases hresult
    simp only [NoticesFailures, hplace] at hnotices
    cases hfails : io.printFails 0 with
    | true =>
      refine Or.inl (Or.inr ⟨hnotices.resolve_left (by simp [hfails]), _, ?_, hinside _⟩)
      exact (printLine_error _ _).mpr (Or.inr hfails)
    | false =>
      refine Or.inr (hacc.stayInFlush hplace hinside (by simp) (by simp) ?_)
      rw [printLine_ok rfl hfails]
      simp [flushWaiting, flushedLines, linesOf]

/-- The loop of the flush takes the next line from the cache to the file. -/
theorem Accounted.prints (hacc : Accounted hashSize accepted s) {pos following : ℕ} {item : Item}
    {file : Option TempFile} {opened : TempFile}
    (hplace : flushAt s.place = some (.printing pos file))
    (hinside : ∀ place, flushAt (inside place) = some place)
    (hiter : hashCacheIter s.notifier.hc pos = some (following, item))
    (hopen : openOnce io file = .ok opened)
    (herror : (printLine io opened (stringAt item.data)).error = false) :
    Accounted hashSize accepted { s with
      place := inside (.printing following (some (printLine io opened (stringAt item.data))))
      log := s.log ++ MainLoop.happenings (.printing pos file) s.notifier s.notifier } := by
  have hpos : pos < s.notifier.hc.hashPos := by
    by_contra hend
    simp [hashCacheIter, not_lt.mp hend] at hiter
  obtain ⟨data, hnext, hdrop⟩ := hacc.holds.exists_iter hpos
  rw [hnext] at hiter
  cases hiter
  have hwritten : ¬ (opened.error = true ∨ io.printFails opened.prints = true) := by
    rw [← printLine_error opened (stringAt data), herror]
    exact Bool.false_ne_true
  rw [not_or, Bool.not_eq_true, Bool.not_eq_true] at hwritten
  have hlines : opened.lines = linesOf file := by
    cases file with
    | none =>
      unfold openOnce openTempFile at hopen
      dsimp only at hopen
      split_ifs at hopen
      cases hopen
      rfl
    | some file =>
      cases hopen
      rfl
  refine hacc.stayInFlush hplace hinside (by simp) (by simp) ?_
  rw [printLine_ok hwritten.1 hwritten.2]
  simp [flushWaiting, linesOf, hdrop, hlines]

theorem Accounted.finishes (hacc : Accounted hashSize accepted s) {pos : ℕ} {file : Option TempFile}
    (hplace : flushAt s.place = some (.printing pos file))
    (hinside : ∀ place, flushAt (inside place) = some place)
    (hiter : hashCacheIter s.notifier.hc pos = none) :
    Accounted hashSize accepted { s with
      place := inside (.clearing file)
      log := s.log ++ MainLoop.happenings (.printing pos file) s.notifier s.notifier } := by
  have hend : s.notifier.hc.hashPos ≤ pos := by
    by_contra hpos
    obtain ⟨data, hnext, -⟩ := hacc.holds.exists_iter (not_le.mp hpos)
    rw [hnext] at hiter
    cases hiter
  refine hacc.stayInFlush hplace hinside (by simp) (by simp) ?_
  simp [flushWaiting, hacc.holds.drop_eq_nil hend]

theorem foldl_clearEntry_hashSize (hc : HashCache) : (hashCacheClear hc).hashSize = hc.hashSize :=
  (foldl_clearEntry_sizes hc (List.range hc.hashPos)).1

/-- The cache is cleared when all its lines are in the file. -/
theorem Accounted.clears (hacc : Accounted hashSize accepted s) {file : Option TempFile}
    (hplace : flushAt s.place = some (.clearing file))
    (hinside : ∀ place, flushAt (inside place) = some place) :
    Accounted hashSize [] { s with
      notifier := { s.notifier with hc := hashCacheClear s.notifier.hc }
      place := inside (.closing file)
      log := s.log ++ [.cleared] } := by
  have hput : putSince (s.log ++ [.cleared]) = [] := by simp [putSince_append, noteHappening]
  refine ⟨hacc.holds.hashCacheClear, (foldl_clearEntry_hashSize _).trans hacc.hashSize,
    by simp [hput], ?_, fun _ _ ↦ hput, by simp [hput]⟩
  have hlisted := hacc.listed
  rw [waiting_of_flushAt hplace] at hlisted
  rw [waiting_of_flushAt (hinside _)]
  exact hlisted.append (fun directory hline ↦ Or.inr hline) (by simp)

/-- The file that is renamed lists all that has been waiting. -/
theorem Accounted.closes (hacc : Accounted hashSize accepted s) {file : Option TempFile}
    {notifier : Notifier} {done : LoopPlace} (hplace : flushAt s.place = some (.closing file))
    (hdone : flushAt done = none) (hnotices : NoticesFailures s (.flush io))
    (hpublish : publish io s.notifier file = .ok notifier) :
    Accounted hashSize accepted { s with
      notifier
      place := done
      log := s.log ++ MainLoop.happenings (.closing file) s.notifier notifier } := by
  have hput := hacc.cleared file hplace
  have hlisted := hacc.listed
  rw [waiting_of_flushAt hplace] at hlisted
  obtain ⟨hhc, files, hfiles, hnew⟩ : notifier.hc = s.notifier.hc ∧
      ∃ files : List (List Bytes), MainLoop.happenings (.closing file) s.notifier
        notifier = files.map .published ∧ ∀ directory : CString, directory.bytes ∈ linesOf file →
          ListedIn (files.map .published) directory := by
    cases file with
    | none =>
      cases hpublish
      exact ⟨rfl, [], happenings_eq_nil (by simp), by simp [linesOf]⟩
    | some file =>
      simp only [NoticesFailures, hplace] at hnotices
      obtain ⟨-, rfl⟩ := eq_of_renameTempFile_eq_ok hpublish
      refine ⟨rfl, [file.lines], by simp [MainLoop.happenings, hnotices], fun directory hline ↦ ?_⟩
      exact ⟨file.lines, by simp, hline⟩
  have hputAfter : putSince (s.log ++ files.map .published) = [] := by
    rw [putSince_append, hput]
    clear hfiles hnew
    induction files with
    | nil => rfl
    | cons lines rest ih => exact ih
  rw [hfiles]
  refine ⟨hhc ▸ hacc.holds, hhc ▸ hacc.hashSize, ?_, ?_, ?_, by simp [hputAfter]⟩
  · rw [hputAfter, ← hput]
    exact hacc.put
  · exact hlisted.append (fun directory hline ↦ Or.inl (hnew directory hline)) (by simp)
  · rw [hdone]
    simp

/-- One step of a flush, of the timer or in the middle of the events. -/
theorem Accounted.flush (hacc : Accounted hashSize accepted s) {notifier : Notifier}
    {following : Option FlushPlace} {done : LoopPlace} (hplace : flushAt s.place = some place)
    (hinside : ∀ place, flushAt (inside place) = some place) (hdone : flushAt done = none)
    (hnotices : NoticesFailures s (.flush io))
    (hmove : FlushMove io s.notifier place notifier following) :
    let after : MainLoop := { s with
      notifier
      place := following.elim done inside
      log := s.log ++ MainLoop.happenings place s.notifier notifier }
    Doomed after ∨ ∃ accepted, Accounted hashSize accepted after := by
  cases hmove with
  | opens hprint => exact (hacc.opens hplace hinside hnotices hprint).imp_right fun h ↦ ⟨_, h⟩
  | finishes file hiter => exact Or.inr ⟨_, hacc.finishes hplace hinside hiter⟩
  | prints hiter hopen herror => exact Or.inr ⟨_, hacc.prints hplace hinside hiter hopen herror⟩
  | clears file => exact Or.inr ⟨_, hacc.clears hplace hinside⟩
  | closes hpublish => exact Or.inr ⟨_, hacc.closes hplace hdone hnotices hpublish⟩

end Flush

/-! ### Reports -/

theorem waiting_of_none {place : LoopPlace} (hplace : flushAt place = none) :
    waiting accepted place = (distinct accepted).map stringAt := by
  rw [waiting, hplace]

theorem map_stringAt_subset {more : List Bytes} (hsub : accepted ⊆ more) :
    (distinct accepted).map stringAt ⊆ (distinct more).map stringAt :=
  List.map_subset _ fun _ hmem ↦ mem_distinct.mpr (hsub (mem_distinct.mp hmem))

/-- When `hash_cache_add` returns zero the cache holds what it has held before: the item is
refused, or its count has gone round to zero. -/
theorem Holds.of_refused {hc after : HashCache} (hholds : Holds hc accepted)
    (hsize : 1 ≤ hc.hashSize) {data : Bytes} (hadd : hashCacheAdd hc data = some (0, after)) :
    ∃ held, Holds after held ∧ after.hashSize = hc.hashSize ∧
      ∀ item, item ∈ held ↔ item ∈ accepted := by
  by_cases hrefuses : Refuses hc.hashSize hc.memSize accepted data
  · rw [hholds.hashCacheAdd_of_refuses hrefuses] at hadd
    cases hadd
    exact ⟨accepted, hholds, rfl, fun _ ↦ Iff.rfl⟩
  · obtain ⟨added, hadded, hafter, hsame, -⟩ := hholds.hashCacheAdd_of_not_refuses hsize hrefuses
    obtain ⟨hcount, rfl⟩ := Prod.mk.inj (Option.some_inj.mp (hadd.symm.trans hadded))
    have hmem : data ∈ accepted := by
      by_contra hnew
      rw [List.count_append, List.count_eq_zero_of_not_mem hnew] at hcount
      simp at hcount
    refine ⟨_, hafter, hsame, fun item ↦ ?_⟩
    rw [List.mem_append, List.mem_singleton, or_iff_left_of_imp]
    rintro rfl
    exact hmem

/-- A directory that fits is put in the cache. -/
theorem Accounted.puts (hacc : Accounted hashSize accepted s) (hsize : 1 ≤ hashSize)
    {directory : CString} {result : Int32} {hc : HashCache} (hplace : flushAt s.place = none)
    (hadd : hashCacheAdd s.notifier.hc directory.terminated = some (result, hc))
    (hresult : result ≠ 0) :
    Accounted hashSize (accepted ++ [directory.terminated]) { s with
      notifier := { s.notifier with hc }
      log := s.log ++ [.reported directory, .put directory] } := by
  have hfits : ¬ Refuses s.notifier.hc.hashSize s.notifier.hc.memSize accepted
      directory.terminated := by
    intro hrefuses
    rw [hacc.holds.hashCacheAdd_of_refuses hrefuses] at hadd
    cases hadd
    exact hresult rfl
  obtain ⟨added, hadded, hholds, hsame, -⟩ :=
    hacc.holds.hashCacheAdd_of_not_refuses (hacc.hashSize.symm ▸ hsize) hfits
  obtain ⟨-, rfl⟩ := Prod.mk.inj (Option.some_inj.mp (hadd.symm.trans hadded))
  have hput : putSince (s.log ++ [.reported directory, .put directory]) =
      putSince s.log ++ [directory] := by simp [putSince_append, noteHappening]
  have hlisted := hacc.listed
  refine ⟨hholds, hsame.trans hacc.hashSize, ?_, ?_, by simp [hplace], ?_⟩
  · intro data
    rw [hput, List.mem_append, hacc.put]
    simp
  · rw [waiting_of_none hplace] at hlisted ⊢
    refine hlisted.append
      (fun other hline ↦ Or.inr (map_stringAt_subset (List.subset_append_left _ _) hline)) ?_
    intro other hother
    obtain rfl : other = directory := by simpa using hother
    rw [← stringAt_terminated other]
    exact List.mem_map_of_mem (mem_distinct.mpr (by simp))
  · intro other hother
    rw [hput] at hother
    rcases List.mem_append.mp hother with hold | hnew
    · exact (hacc.unlisted other hold).append (by simp)
    · obtain rfl := List.mem_singleton.mp hnew
      exact ⟨s.log, [.put other], rfl, by simp⟩

/-- A directory that does not fit is the first line of a flush. -/
theorem Accounted.refuses (hacc : Accounted hashSize accepted s) (hsize : 1 ≤ hashSize)
    {directory : CString} {hc : HashCache} (hplace : flushAt s.place = none)
    (hadd : hashCacheAdd s.notifier.hc directory.terminated = some (0, hc)) :
    ∃ accepted, Accounted hashSize accepted { s with
      notifier := { s.notifier with hc }
      place := .eventFlush (.opening (some directory))
      log := s.log ++ [.reported directory] } := by
  obtain ⟨held, hholds, hsame, hheld⟩ :=
    hacc.holds.of_refused (hacc.hashSize.symm ▸ hsize) hadd
  have hput : putSince (s.log ++ [.reported directory]) = putSince s.log := by
    simp [putSince_append, noteHappening]
  have hlisted := hacc.listed
  rw [waiting_of_none hplace] at hlisted
  refine ⟨held, hholds, hsame.trans hacc.hashSize, ?_, ?_, by simp [flushAt], ?_⟩
  · intro data
    rw [hput, hheld, hacc.put]
  · rw [waiting_of_flushAt (rfl : flushAt (.eventFlush (.opening (some directory))) = _)]
    refine hlisted.append (fun other hline ↦ Or.inr (List.mem_append_right _ ?_)) ?_
    · exact map_stringAt_subset (fun item hitem ↦ (hheld item).mpr hitem) hline
    · intro other hother
      obtain rfl : other = directory := by simpa using hother
      simp [flushWaiting, flushedLines]
  · rw [hput]
    exact fun other hother ↦ (hacc.unlisted other hother).append (by simp)

/-! ### Runs -/

theorem not_flushMove_of_error {io : FlushIo} {notifier next : Notifier} {file : TempFile}
    {following : Option FlushPlace} (hpos : notifier.hc.hashPos ≠ 0) (herror : file.error = true) :
    ¬ FlushMove io notifier (.printing 0 (some file)) next following := by
  intro hmove
  cases hmove with
  | finishes _ hiter =>
    simp [hashCacheIter, hpos] at hiter
  | prints hiter hopen hfine =>
    cases hopen
    rw [(printLine_error file _).mpr (Or.inl herror)] at hfine
    cases hfine

theorem Doomed.move {label : LoopLabel} (hdoomed : Doomed s) (hstop : s.stop = none)
    (hmove : LoopMove s label after) : Doomed after := by
  obtain ⟨hpos, file, herror, hplace⟩ := hdoomed.resolve_left (not_not_intro hstop)
  cases hmove with
  | terminates | ticks | setsErrno => exact Or.inr ⟨hpos, file, herror, hplace⟩
  | hangs | fails | stops => exact Or.inl (Option.some_ne_none _)
  | flushesTimer io hat hmove | flushesEvent io hat hmove =>
    rw [hat] at hplace
    cases hplace
    exact absurd hmove (not_flushMove_of_error hpos herror)
  | polls hat | ends hat | polled _ _ hat | checks _ hat | sees hat | passes hat | resets hat
  | switches _ hat | endsBatch hat | puts _ hat | refuses _ hat =>
    rw [hat] at hplace
    cases hplace

/-- A tick adds nothing to what has been reported. -/
theorem Accounted.ticks (hacc : Accounted hashSize accepted s) :
    Accounted hashSize accepted { s with flushNow := true, log := s.log ++ [.alarm] } := by
  have hput : putSince (s.log ++ [.alarm]) = putSince s.log := by
    simp [putSince_append, noteHappening]
  refine ⟨hacc.holds, hacc.hashSize, ?_, ?_, ?_, ?_⟩
  · rw [hput]
    exact hacc.put
  · exact hacc.listed.append (fun directory hline ↦ Or.inr hline) (by simp)
  · rw [hput]
    exact hacc.cleared
  · rw [hput]
    exact fun directory hmem ↦ (hacc.unlisted directory hmem).append (by simp)

theorem Accounted.move {label : LoopLabel} (hacc : Accounted hashSize accepted s)
    (hsize : 1 ≤ hashSize) (hnotices : NoticesFailures s label) (hmove : LoopMove s label after) :
    Doomed after ∨ ∃ accepted, Accounted hashSize accepted after := by
  cases hmove with
  | hangs | fails | stops => exact Or.inl (Or.inl (Option.some_ne_none _))
  | terminates | setsErrno =>
    exact Or.inr ⟨_, hacc.stay rfl rfl (List.Subset.refl _) fun _ hfile ↦ hfile⟩
  | ticks => exact Or.inr ⟨_, hacc.ticks⟩
  | flushesTimer io hplace hmove =>
    exact hacc.flush (by rw [hplace]; rfl) (fun _ ↦ rfl) rfl hnotices hmove
  | flushesEvent io hplace hmove =>
    exact hacc.flush (by rw [hplace]; rfl) (fun _ ↦ rfl) rfl hnotices hmove
  | puts directory hplace hadd hresult =>
    exact Or.inr ⟨_, hacc.puts hsize (by rw [hplace]; rfl) hadd hresult⟩
  | refuses directory hplace hadd =>
    exact Or.inr (hacc.refuses hsize (by rw [hplace]; rfl) hadd)
  | polls hplace | ends hplace | polled _ _ hplace | checks _ hplace | sees hplace
  | passes hplace | endsBatch hplace =>
    refine Or.inr ⟨_, hacc.stay rfl rfl ?_ (by simp [flushAt])⟩
    rw [hplace]
    exact List.Subset.refl _
  | resets hplace =>
    refine Or.inr ⟨_, hacc.stay rfl rfl ?_ (by simp [flushAt])⟩
    rw [hplace]
    exact List.Subset.refl _
  | switches place hplace hnext =>
    refine Or.inr ⟨_, hacc.stay rfl rfl ?_ ?_⟩
    · rw [hplace]
      rcases hnext with rfl | rfl <;> exact List.Subset.refl _
    · rcases hnext with rfl | rfl <;> simp [flushAt]

theorem accounted_start (notifyDir : Bytes) (hashSize memSize : ℕ) (entries : ℕ → HashCacheEntry)
    (memory : ℕ → UInt8) :
    Accounted hashSize []
      (.start (newNotifier notifyDir (newHashCache hashSize memSize entries memory))) where
  holds := holds_newHashCache hashSize memSize entries memory
  hashSize := rfl
  put := by simp [MainLoop.start, putSince]
  listed := by
    intro before directory later hlog
    simp [MainLoop.start] at hlog
  cleared := by simp [MainLoop.start, flushAt]
  unlisted := by simp [MainLoop.start, putSince]

theorem Accounted.hashPos_eq_zero_iff (hacc : Accounted hashSize accepted s) :
    s.notifier.hc.hashPos = 0 ↔ accepted = [] := by
  rw [hacc.holds.used, List.length_eq_zero_iff]
  constructor
  · intro hnone
    exact List.eq_nil_iff_forall_not_mem.mpr fun data hdata ↦ by
      simpa [hnone] using mem_distinct.mpr hdata
  · rintro rfl
    rfl

/-- When a run is over, all that has been reported is published if the cache is empty, and
what is in the cache has not been published since it was reported. -/
theorem Accounted.allListed_iff (hacc : Accounted hashSize accepted s)
    (hended : s.place = .ended) : AllListed s.log ↔ s.notifier.hc.hashPos = 0 := by
  rw [hacc.hashPos_eq_zero_iff]
  constructor
  · intro hall
    refine List.eq_nil_iff_forall_not_mem.mpr fun data hdata ↦ ?_
    obtain ⟨directory, hput, -⟩ := List.mem_map.mp ((hacc.put data).mp hdata)
    obtain ⟨before, later, hlog, hnone⟩ := hacc.unlisted directory hput
    obtain ⟨lines, hpublished, -⟩ := hall before directory later hlog
    exact hnone lines hpublished
  · rintro rfl before directory later hlog
    refine (hacc.listed before directory later hlog).resolve_right ?_
    simp [hended, waiting, flushAt, distinct]

/-- Runs of the main loop in which the signals come between any two steps, and every failed
write is noticed: when `main` comes to its normal end, every directory that has been
reported is listed in a file published later exactly when the cache is empty. Nothing is
flushed after `while (alive)`. -/
theorem allListed_iff_cache_empty (notifyDir : Bytes) (hashSize memSize : ℕ) (hsize : 1 ≤ hashSize)
    (entries : ℕ → HashCacheEntry) (memory : ℕ → UInt8) {s : MainLoop}
    (hreaches : ReachesWhen MainLoop.step NoticesFailures
      (.start (newNotifier notifyDir (newHashCache hashSize memSize entries memory))) s)
    (hstop : s.stop = none) (hended : s.place = .ended) :
    AllListed s.log ↔ s.notifier.hc.hashPos = 0 := by
  have hends : Doomed s ∨ ∃ accepted, Accounted hashSize accepted s := by
    refine hreaches.invariant (fun s ↦ Doomed s ∨ ∃ accepted, Accounted hashSize accepted s)
      (Or.inr ⟨_, accounted_start notifyDir hashSize memSize entries memory⟩) ?_
    intro state label next hstate hnotices hstep
    obtain ⟨hgoing, hmove⟩ := loopMove hstep
    rcases hstate with hdoomed | ⟨accepted, hacc⟩
    · exact Or.inl (hdoomed.move hgoing hmove)
    · exact hacc.move hsize hnotices hmove
  rcases hends with (hstopped | ⟨-, file, -, hplace⟩) | ⟨accepted, hacc⟩
  · exact absurd hstop hstopped
  · rw [hended] at hplace
    cases hplace
  · exact hacc.allListed_iff hended

/-- A directory is reported, the timer has it published, and the process is told to end. -/
theorem allListed_iff_cache_empty_flushed :
    ∃ s : MainLoop, s.place = .ended ∧
      s.log = [.reported ⟨[47, 97], by decide⟩, .put ⟨[47, 97], by decide⟩, .alarm, .cleared,
        .published [[47, 97]]] ∧ AllListed s.log := by
  have hrun : (runChecked MainLoop.step (fun s label ↦ decide (NoticesFailures s label))
      (.start (newNotifier [47, 110] (newHashCache 2 4 (fun _ ↦ ⟨0, 0, 0, 0, 0⟩) fun _ ↦ 0)))
      [.next, .poll (.ready true), .parent false, .next, .next,
        .report ⟨[47, 97], by decide⟩, .sigalrm, .endBatch, .next, .poll .timeout, .parent false,
        .next, .next, .flush .faultless, .flush .faultless, .flush .faultless, .flush .faultless,
        .flush .faultless, .sigterm, .next, .next]).map
        (fun s ↦ (s.stop, s.place, s.notifier.hc.hashPos, s.log)) =
      some (none, .ended, 0, [.reported ⟨[47, 97], by decide⟩, .put ⟨[47, 97], by decide⟩, .alarm,
        .cleared, .published [[47, 97]]]) := by decide
  obtain ⟨s, hreaches, hseen⟩ := exists_reachesWhen_of_run hrun
  simp only [Prod.mk.injEq] at hseen
  obtain ⟨hstop, hended, hempty, hlog⟩ := hseen
  exact ⟨s, hended, hlog,
    (allListed_iff_cache_empty _ 2 4 (by decide) _ _ hreaches hstop hended).mpr hempty⟩

/-- A directory is reported, and the process is told to end before the next tick: no file
lists the directory. -/
theorem allListed_iff_cache_empty_fails :
    ∃ s : MainLoop, Reaches MainLoop.step
      (.start (newNotifier [47, 110] (newHashCache 2 4 (fun _ ↦ ⟨0, 0, 0, 0, 0⟩) fun _ ↦ 0))) s ∧
      s.stop = none ∧ s.place = .ended ∧ s.notifier.published = [] ∧ ¬ AllListed s.log := by
  have hrun : (run MainLoop.step
      (.start (newNotifier [47, 110] (newHashCache 2 4 (fun _ ↦ ⟨0, 0, 0, 0, 0⟩) fun _ ↦ 0)))
      [.next, .poll (.ready true), .parent false, .next, .next,
        .report ⟨[47, 97], by decide⟩, .endBatch, .sigterm, .next]).map
        (fun s ↦ (s.stop, s.place, s.notifier.published, s.log)) =
      some (none, .ended, [], [.reported ⟨[47, 97], by decide⟩, .put ⟨[47, 97], by decide⟩]) := by
    decide
  obtain ⟨s, hreaches, hseen⟩ := exists_reaches_of_run hrun
  simp only [Prod.mk.injEq] at hseen
  obtain ⟨hstop, hended, hpublished, hlog⟩ := hseen
  refine ⟨s, hreaches, hstop, hended, hpublished, fun hall ↦ ?_⟩
  obtain ⟨lines, hmem, -⟩ := hall [] ⟨[47, 97], by decide⟩ [.put ⟨[47, 97], by decide⟩] hlog
  simp at hmem

end DirWatcher.Cache
