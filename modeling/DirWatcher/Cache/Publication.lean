import DirWatcher.Cache.HashCacheRefinement
import DirWatcher.Source.Notifications

/-!
No report is lost or invented between an event and a notification file. A run of
reports and timer flushes is logged with what it shows: the directories reported
and the lists of lines published. As long as no call on the files fails, the
cache holds the directories reported since the last publication, and a
publication lists just those.
-/

set_option autoImplicit false
set_option relaxedAutoImplicit false

namespace DirWatcher.Cache

open Source Foundation.FirstOccurrences

/-! ### The loop of the flush -/

/-- The lines in the temporary file, none if it has not been opened. -/
def linesOf : Option TempFile → List Bytes
  | none => []
  | some file => file.lines

/-- The stream has no error, if there is one. -/
def ErrorFree (file : Option TempFile) : Prop := ∀ opened, file = some opened → opened.error = false

theorem printLine_faultless (file : TempFile) (line : Bytes) :
    printLine .faultless file line =
      { file with lines := file.lines ++ [line], prints := file.prints + 1 } := by
  simp [printLine, FlushIo.faultless]

/-- Whichever way the file comes to be open, the next line goes to its end. -/
theorem ErrorFree.openOnce {file : Option TempFile} (hfile : ErrorFree file) :
    ∃ opened, openOnce .faultless file = .ok opened ∧ opened.error = false ∧
      opened.lines = linesOf file := by
  cases file with
  | none => exact ⟨⟨[], false, 0⟩, rfl, rfl, rfl⟩
  | some opened => exact ⟨opened, rfl, hfile opened rfl, rfl⟩

theorem printParent_faultless (parentDir : Option CString) :
    ∃ first, printParent .faultless parentDir = .ok first ∧ ErrorFree first ∧
      linesOf first = (parentDir.map CString.bytes).toList ∧
      (first = none ↔ parentDir = none) := by
  cases parentDir with
  | none => exact ⟨none, rfl, by simp [ErrorFree], rfl, by simp⟩
  | some directory =>
    refine ⟨_, rfl, ?_, ?_, by simp⟩ <;>
      simp [ErrorFree, printLine_faultless, linesOf, Option.toList]

variable {hc : HashCache} {accepted : List Bytes}

/-- The loop writes a line for each item from its position on. Only when there is
none left does a file that was not open stay so. -/
theorem Holds.printItems_eq (hholds : Holds hc accepted) {fuel pos : ℕ}
    (hpos : pos ≤ hc.hashPos) (hfuel : hc.hashPos < fuel + pos) {file : Option TempFile}
    (hfile : ErrorFree file) :
    ∃ written, printItems .faultless hc fuel pos file = .ok written ∧ ErrorFree written ∧
      linesOf written = linesOf file ++ ((distinct accepted).drop pos).map stringAt ∧
      (written = none ↔ file = none ∧ (distinct accepted).drop pos = []) := by
  induction fuel generalizing pos file with
  | zero => omega
  | succ fuel ih =>
    by_cases hend : hc.hashPos ≤ pos
    · have hdone := hholds.drop_eq_nil hend
      refine ⟨file, by simp [printItems, hashCacheIter, hend], hfile, ?_, ?_⟩ <;> simp [hdone]
    · obtain ⟨data, hiter, hdrop⟩ := hholds.exists_iter (not_le.mp hend)
      obtain ⟨opened, hopen, hopened, hlines⟩ := hfile.openOnce
      have hprint := printLine_faultless opened (stringAt data)
      have hprinted : ErrorFree (some (printLine .faultless opened (stringAt data))) := by
        rintro _ ⟨⟩
        rwa [hprint]
      obtain ⟨written, hrun, herror, hwritten, hnone⟩ :=
        ih (by omega : pos + 1 ≤ hc.hashPos) (by omega) hprinted
      refine ⟨written, ?_, herror, ?_, ?_⟩
      · rw [← hrun, printItems, hiter]
        simp only [hopen, hprint]
        refine if_neg ?_
        rw [hprint]
        simpa using hopened
      · rw [hwritten, hdrop, linesOf, hprint, hlines]
        simp
      · simp only [hnone, hdrop]
        simp

/-! ### The flush -/

/-- The lines a flush is to write: the directory that did not fit, if there is
one, then the items of the cache. -/
def flushedLines (parentDir : Option CString) (accepted : List Bytes) : List Bytes :=
  (parentDir.map CString.bytes).toList ++ (distinct accepted).map stringAt

theorem bytes_injective : Function.Injective CString.bytes := by
  intro first second hsame
  cases first
  cases second
  cases hsame
  rfl

theorem terminated_injective : Function.Injective CString.terminated :=
  fun _ _ hsame ↦ bytes_injective (List.append_cancel_right hsame)

/-- From a cache of directories a flush is to write each of them once. -/
theorem flushedLines_terminated (parentDir : Option CString) (directories : List CString) :
    flushedLines parentDir (directories.map CString.terminated) =
      (parentDir.toList ++ distinct directories).map CString.bytes := by
  rw [flushedLines, distinct_map terminated_injective, List.map_map, List.map_append]
  congr 1
  · cases parentDir <;> rfl
  · exact List.map_congr_left fun directory _ ↦ stringAt_terminated directory

/-- The name of the next notification file fills the buffer to its last byte, so
that `rename_temp_file` takes it for cut off. -/
def NameOverflows (notifier : Notifier) : Prop :=
  (notificationPath notifier.notifyDir (notifier.notificationCount + 1)).length = maxPathLen

theorem renameTempFile_ok {io : FlushIo} (hio : io.renameFails = false) (notifier : Notifier)
    (lines : List Bytes) (hname : ¬ NameOverflows notifier) :
    renameTempFile io notifier lines = .ok { notifier with
      notificationCount := notifier.notificationCount + 1
      published := notifier.published ++
        [⟨(notificationPath notifier.notifyDir (notifier.notificationCount + 1)).take
          (maxPathLen - 1), lines⟩] } :=
  (if_neg hname).trans (if_neg (by simp [hio]))

theorem renameTempFile_overflow (io : FlushIo) (notifier : Notifier) (lines : List Bytes)
    (hname : NameOverflows notifier) :
    renameTempFile io notifier lines = .error (.exited 12) :=
  if_pos hname

/-- A `rename_temp_file` that returns has put the lines in the next file. -/
theorem eq_of_renameTempFile_eq_ok {io : FlushIo} {notifier after : Notifier} {lines : List Bytes}
    (hrename : renameTempFile io notifier lines = .ok after) :
    ¬ NameOverflows notifier ∧ after = { notifier with
      notificationCount := notifier.notificationCount + 1
      published := notifier.published ++
        [⟨(notificationPath notifier.notifyDir (notifier.notificationCount + 1)).take
          (maxPathLen - 1), lines⟩] } := by
  unfold renameTempFile at hrename
  dsimp only [snprintf] at hrename
  split_ifs at hrename with hname hfails
  cases hrename
  exact ⟨hname, rfl⟩

/-- A flush in which no call fails empties the cache and publishes its lines, when
there are any, in one file. -/
theorem Holds.flushHashCache_faultless {notifier : Notifier} (hholds : Holds notifier.hc accepted)
    (parentDir : Option CString) :
    (∃ after, flushHashCache .faultless notifier parentDir = .ok after ∧
        after.hc = Source.hashCacheClear notifier.hc ∧ after.notifyDir = notifier.notifyDir ∧
        after.published.map Publication.lines = notifier.published.map Publication.lines ++
          if flushedLines parentDir accepted = [] then []
          else [flushedLines parentDir accepted]) ∨
      (flushHashCache .faultless notifier parentDir = .error (.exited 12) ∧
        NameOverflows notifier) := by
  obtain ⟨first, hfirst, hfree, hlines, hnone⟩ := printParent_faultless parentDir
  obtain ⟨written, hrun, -, hall, hempty⟩ :=
    hholds.printItems_eq (Nat.zero_le _) (Nat.lt_succ_self _) hfree
  have hflush : flushHashCache .faultless notifier parentDir =
      publish .faultless { notifier with hc := Source.hashCacheClear notifier.hc } written := by
    rw [flushHashCache, hfirst]
    change (printItems .faultless notifier.hc (notifier.hc.hashPos + 1) 0 first).bind _ = _
    rw [hrun]
    rfl
  have hlinesAll : linesOf written = flushedLines parentDir accepted := by
    rw [hall, hlines, flushedLines, List.drop_zero]
  rw [hflush]
  cases written with
  | none =>
    have hnil : flushedLines parentDir accepted = [] := hlinesAll.symm
    exact Or.inl ⟨_, rfl, rfl, rfl, by simp [hnil]⟩
  | some file =>
    have hsome : flushedLines parentDir accepted ≠ [] := by
      intro hnil
      obtain ⟨hparent, hitems⟩ := List.append_eq_nil_iff.mp hnil
      have hfirstNone : first = none := hnone.mpr (by simpa using hparent)
      exact absurd (hempty.mpr ⟨hfirstNone, by simpa using hitems⟩) (by simp)
    have hfile : file.lines = flushedLines parentDir accepted := hlinesAll
    have hkept : file.lines.take (file.lines.length - FlushIo.faultless.closeLoses) =
        file.lines := by simp [FlushIo.faultless]
    rw [publish, hkept]
    by_cases hname : NameOverflows notifier
    · exact Or.inr ⟨renameTempFile_overflow .faultless _ _ hname, hname⟩
    · have hrename := @renameTempFile_ok .faultless rfl
        { notifier with hc := Source.hashCacheClear notifier.hc } file.lines hname
      exact Or.inl ⟨_, hrename, rfl, rfl, by simp [hsome, hfile]⟩

/-! ### Runs of reports and timer ticks -/

inductive NotifierOp
  | report (directory : CString)
  | tick
deriving DecidableEq, Repr

def runNotifierOp (io : FlushIo) (notifier : Notifier) : NotifierOp → Except Stop Notifier
  | .report directory => reportDirectory io notifier directory
  | .tick => flushTimer io notifier

/-- What a run shows to the outside. -/
inductive Observation
  | reported (directory : CString)
  | published (lines : List Bytes)
deriving DecidableEq, Repr

/-- What one operation shows: the report it makes, then the files it has published. -/
def observations (op : NotifierOp) (before after : Notifier) : List Observation :=
  (match op with
    | .report directory => [.reported directory]
    | .tick => []) ++
  ((after.published.drop before.published.length).map fun file ↦ .published file.lines)

/-- One operation of a logged run. -/
def runLogged (io : FlushIo) (state : Notifier × List Observation) (op : NotifierOp) :
    Except Stop (Notifier × List Observation) :=
  (runNotifierOp io state.1 op).map fun after ↦ (after, state.2 ++ observations op state.1 after)

/-- A run of reports and timer ticks with the log of what it has shown. -/
def runNotifier (io : FlushIo) (notifier : Notifier) (ops : List NotifierOp) :
    Except Stop (Notifier × List Observation) :=
  ops.foldlM (runLogged io) (notifier, [])

/-- The notifier of a process that has just started. -/
def newNotifier (notifyDir : Bytes) (hc : HashCache) : Notifier := ⟨hc, notifyDir, 0, []⟩

def noteObservation (reported : List CString) : Observation → List CString
  | .reported directory => reported ++ [directory]
  | .published _ => []

/-- The directories reported since the last publication of a log. -/
def reportedSince (log : List Observation) : List CString := log.foldl noteObservation []

@[simp] theorem reportedSince_nil : reportedSince [] = [] := rfl

@[simp] theorem reportedSince_append_reported (log : List Observation) (directory : CString) :
    reportedSince (log ++ [.reported directory]) = reportedSince log ++ [directory] := by
  simp [reportedSince, noteObservation]

@[simp] theorem reportedSince_append_published (log : List Observation) (lines : List Bytes) :
    reportedSince (log ++ [.published lines]) = [] := by
  simp [reportedSince, noteObservation]

/-- Every file of a log lists just the directories reported between the one before
it and itself. -/
def ListsReports (log : List Observation) : Prop :=
  ∀ before lines after, log = before ++ .published lines :: after →
    ∀ line, line ∈ lines ↔ line ∈ (reportedSince before).map CString.bytes

theorem listsReports_nil : ListsReports [] := by
  intro before lines after hsplit
  simp at hsplit

/-- A log that ends in an observation is split either before the end or at it. -/
theorem split_append_singleton {log before after : List Observation} {last item : Observation}
    (hsplit : log ++ [last] = before ++ item :: after) :
    (∃ rest, log = before ++ item :: rest) ∨ (log = before ∧ last = item) := by
  rcases List.eq_nil_or_concat after with rfl | ⟨rest, final, rfl⟩
  · obtain ⟨hlog, hlast⟩ := List.append_inj' hsplit rfl
    exact Or.inr ⟨hlog, List.head_eq_of_cons_eq hlast⟩
  · have hassoc : log ++ [last] = (before ++ item :: rest) ++ [final] := by simpa using hsplit
    exact Or.inl ⟨rest, (List.append_inj' hassoc rfl).1⟩

theorem ListsReports.append_reported {log : List Observation} (hlog : ListsReports log)
    (directory : CString) : ListsReports (log ++ [.reported directory]) := by
  intro before lines after hsplit
  rcases split_append_singleton hsplit with ⟨rest, hold⟩ | ⟨-, hlast⟩
  · exact hlog before lines rest hold
  · cases hlast

theorem ListsReports.append_published {log : List Observation} (hlog : ListsReports log)
    {lines : List Bytes}
    (hlines : ∀ line, line ∈ lines ↔ line ∈ (reportedSince log).map CString.bytes) :
    ListsReports (log ++ [.published lines]) := by
  intro before listed after hsplit
  rcases split_append_singleton hsplit with ⟨rest, hold⟩ | ⟨rfl, hlast⟩
  · exact hlog before listed rest hold
  · cases hlast
    exact hlines

/-- A state of a logged run: the cache holds the directories reported since the
last publication, and the publications have been exact. -/
structure Logged (hashSize : ℕ) (notifyDir : Bytes) (state : Notifier × List Observation) :
    Prop where
  holds : Holds state.1.hc ((reportedSince state.2).map CString.terminated)
  hashSize : state.1.hc.hashSize = hashSize
  notifyDir : state.1.notifyDir = notifyDir
  exact : ListsReports state.2

/-- The process has stopped because the name of a notification file fills its
buffer to the last byte. -/
def StoppedByName (notifyDir : Bytes) {α : Type} (result : Except Stop α) : Prop :=
  result = .error (.exited 12) ∧ ∃ count, (notificationPath notifyDir count).length = maxPathLen

theorem mem_flushedLines {parentDir : Option CString} {reported : List CString} {line : Bytes} :
    line ∈ flushedLines parentDir (reported.map CString.terminated) ↔
      line ∈ (reported ++ parentDir.toList).map CString.bytes := by
  cases parentDir <;> simp [flushedLines, or_comm, eq_comm]

/-- A flush whose lines are the directories reported since the last publication
leads to a logged state again. -/
theorem Logged.flush {hashSize : ℕ} {notifyDir : Bytes} (notifier : Notifier)
    {log : List Observation} (parentDir : Option CString)
    (hholds : Holds notifier.hc accepted) (hsize : notifier.hc.hashSize = hashSize)
    (hdir : notifier.notifyDir = notifyDir) (hlog : ListsReports log)
    (hlines : ∀ line, line ∈ flushedLines parentDir accepted ↔
      line ∈ (reportedSince log).map CString.bytes) :
    (∃ after, flushHashCache .faultless notifier parentDir = .ok after ∧
      Logged hashSize notifyDir (after, log ++
        (after.published.drop notifier.published.length).map fun file ↦ .published file.lines)) ∨
    StoppedByName notifyDir (flushHashCache .faultless notifier parentDir) := by
  rcases hholds.flushHashCache_faultless parentDir with
    ⟨after, hflush, hhc, hafterDir, hpublished⟩ | ⟨hexit, hname⟩
  · refine Or.inl ⟨after, hflush, ?_⟩
    have hnew : (after.published.drop notifier.published.length).map
        (fun file ↦ Observation.published file.lines) =
        (if flushedLines parentDir accepted = [] then []
          else [flushedLines parentDir accepted]).map Observation.published := by
      have hdrop := congrArg (List.drop notifier.published.length) hpublished
      rw [List.drop_left' (by simp), ← List.map_drop] at hdrop
      rw [← hdrop, List.map_map]
      rfl
    have hcleared : Holds after.hc [] := hhc ▸ hholds.hashCacheClear
    have hafterSize : after.hc.hashSize = hashSize := by
      rw [hhc, ← hsize]
      exact (foldl_clearEntry_sizes notifier.hc (List.range notifier.hc.hashPos)).1
    rw [hnew]
    split_ifs with hempty
    · have hnothing : reportedSince log = [] := by
        rw [hempty] at hlines
        simpa [List.eq_nil_iff_forall_not_mem] using fun line ↦ (hlines line).symm
      exact ⟨by simpa [hnothing] using hcleared, hafterSize, hafterDir.trans hdir,
        by simpa using hlog⟩
    · exact ⟨by simpa using hcleared, hafterSize, hafterDir.trans hdir,
        hlog.append_published hlines⟩
  · exact Or.inr ⟨hexit, _, by rw [← hdir]; exact hname⟩

theorem Logged.reportDirectory {hashSize : ℕ} {notifyDir : Bytes} {notifier : Notifier}
    {log : List Observation} (hlogged : Logged hashSize notifyDir (notifier, log))
    (hsize : 1 ≤ hashSize) (directory : CString) :
    (∃ after, Source.reportDirectory .faultless notifier directory = .ok after ∧
      Logged hashSize notifyDir
        (after, log ++ observations (.report directory) notifier after)) ∨
    StoppedByName notifyDir (Source.reportDirectory .faultless notifier directory) := by
  obtain ⟨hholds, hhashSize, hdir, hexact⟩ := hlogged
  have hsize' : 1 ≤ notifier.hc.hashSize := hhashSize ▸ hsize
  have hlog := hexact.append_reported directory
  have hsince := reportedSince_append_reported log directory
  by_cases hrefuses : Refuses notifier.hc.hashSize notifier.hc.memSize
      ((reportedSince log).map CString.terminated) directory.terminated
  · have hflush : Source.reportDirectory .faultless notifier directory =
        flushHashCache .faultless notifier (some directory) := by
      rw [Source.reportDirectory, hholds.hashCacheAdd_of_refuses hrefuses]
      exact if_pos rfl
    rw [hflush]
    simpa only [observations, List.append_assoc] using
      Logged.flush _ _ hholds hhashSize hdir hlog fun line ↦ by simp [mem_flushedLines]
  · obtain ⟨added, hadd, hafter, hafterSize, -, -⟩ :=
      hholds.hashCacheAdd_of_not_refuses hsize' hrefuses
    have haccepted : (reportedSince log).map CString.terminated ++ [directory.terminated] =
        (reportedSince (log ++ [.reported directory])).map CString.terminated := by simp
    rw [haccepted] at hafter
    rw [Source.reportDirectory, hadd]
    dsimp only
    split_ifs
    · simpa only [observations, List.append_assoc] using
        Logged.flush { notifier with hc := added } (some directory) hafter
          (hafterSize.trans hhashSize) hdir hlog fun line ↦ by rw [mem_flushedLines]; simp
    · exact Or.inl ⟨_, rfl, by simpa [observations] using hafter, hafterSize.trans hhashSize,
        hdir, by simpa [observations] using hlog⟩

theorem Logged.runLogged {hashSize : ℕ} {notifyDir : Bytes}
    {state : Notifier × List Observation} (hlogged : Logged hashSize notifyDir state)
    (hsize : 1 ≤ hashSize) (op : NotifierOp) :
    (∃ after, runLogged .faultless state op = .ok after ∧ Logged hashSize notifyDir after) ∨
      StoppedByName notifyDir (runLogged .faultless state op) := by
  have hop : (∃ after, runNotifierOp .faultless state.1 op = .ok after ∧
      Logged hashSize notifyDir (after, state.2 ++ observations op state.1 after)) ∨
      StoppedByName notifyDir (runNotifierOp .faultless state.1 op) := by
    cases op with
    | report directory => exact hlogged.reportDirectory hsize directory
    | tick =>
      exact Logged.flush _ _ hlogged.holds hlogged.hashSize hlogged.notifyDir hlogged.exact
        fun line ↦ by simp [mem_flushedLines]
  rw [Cache.runLogged]
  rcases hop with ⟨after, hrun, hafter⟩ | ⟨hexit, hname⟩
  · exact Or.inl ⟨_, by rw [hrun]; rfl, hafter⟩
  · exact Or.inr ⟨by rw [hexit]; rfl, hname⟩

theorem Logged.foldlM {hashSize : ℕ} {notifyDir : Bytes} {state : Notifier × List Observation}
    (hlogged : Logged hashSize notifyDir state) (hsize : 1 ≤ hashSize) (ops : List NotifierOp) :
    (∃ after, ops.foldlM (Cache.runLogged .faultless) state = .ok after ∧
      Logged hashSize notifyDir after) ∨
    StoppedByName notifyDir (ops.foldlM (Cache.runLogged .faultless) state) := by
  induction ops generalizing state with
  | nil => exact Or.inl ⟨state, rfl, hlogged⟩
  | cons op ops ih =>
    rw [List.foldlM_cons]
    rcases hlogged.runLogged hsize op with ⟨after, hrun, hafter⟩ | ⟨hexit, hname⟩
    · rw [hrun]
      exact ih hafter
    · rw [hexit]
      exact Or.inr ⟨rfl, hname⟩

/-- A run of reports and timer ticks, from a new cache of any sizes and with no call
failing, comes to its end unless the name of a file fills the buffer to the last
byte. Each file published on the way lists exactly the directories reported since
the publication before it, and the cache holds exactly those reported since the
last one. -/
theorem published_iff_reported (hashSize memSize : ℕ) (hsize : 1 ≤ hashSize)
    (entries : ℕ → HashCacheEntry) (memory : ℕ → UInt8) (notifyDir : Bytes)
    (ops : List NotifierOp) :
    (∃ notifier log, runNotifier .faultless
        (newNotifier notifyDir (newHashCache hashSize memSize entries memory)) ops =
          .ok (notifier, log) ∧
      (∀ before lines after, log = before ++ .published lines :: after →
        ∀ line, line ∈ lines ↔ line ∈ (reportedSince before).map CString.bytes) ∧
      ∃ items, iterateFrom notifier.hc (notifier.hc.hashPos + 1) 0 = some items ∧
        ∀ data, data ∈ items.map Item.data ↔
          data ∈ (reportedSince log).map CString.terminated) ∨
    StoppedByName notifyDir (runNotifier .faultless
      (newNotifier notifyDir (newHashCache hashSize memSize entries memory)) ops) := by
  have hstart : Logged hashSize notifyDir
      (newNotifier notifyDir (newHashCache hashSize memSize entries memory), []) :=
    ⟨holds_newHashCache hashSize memSize entries memory, rfl, rfl, listsReports_nil⟩
  rcases hstart.foldlM hsize ops with ⟨⟨notifier, log⟩, hrun, hlogged⟩ | hstopped
  · refine Or.inl ⟨notifier, log, hrun, hlogged.exact, _,
      hlogged.holds.iterateFrom_eq (Nat.zero_le _) (Nat.lt_succ_self _), fun data ↦ ?_⟩
    simp [heldItems]
  · exact Or.inr hstopped

/-- In a cache of two slots for four bytes the second directory does not fit: it is
published with the first, and the third waits for the timer. -/
theorem published_iff_reported_three :
    (∃ notifier log, runNotifier .faultless
        (newNotifier [47, 110] (newHashCache 2 4 (fun _ ↦ ⟨0, 0, 0, 0, 0⟩) fun _ ↦ 0))
        [.report ⟨[47, 97], by decide⟩, .report ⟨[47, 98], by decide⟩,
          .report ⟨[47, 99], by decide⟩, .tick] = .ok (notifier, log) ∧
      notifier.published.map Publication.lines = [[[47, 98], [47, 97]], [[47, 99]]] ∧
      ∀ before lines after, log = before ++ .published lines :: after →
        ∀ line, line ∈ lines ↔ line ∈ (reportedSince before).map CString.bytes) := by
  rcases published_iff_reported 2 4 (by decide) (fun _ ↦ ⟨0, 0, 0, 0, 0⟩) (fun _ ↦ 0) [47, 110]
    [.report ⟨[47, 97], by decide⟩, .report ⟨[47, 98], by decide⟩,
      .report ⟨[47, 99], by decide⟩, .tick] with ⟨notifier, log, hrun, hlists, -⟩ | ⟨hexit, -⟩
  · refine ⟨notifier, log, hrun, ?_, hlists⟩
    have hnotifier := congrArg
      (fun result ↦ result.map fun state ↦ state.1.published.map Publication.lines) hrun
    exact (Except.ok.inj hnotifier).symm.trans rfl
  · cases hexit

end DirWatcher.Cache
