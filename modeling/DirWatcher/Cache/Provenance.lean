import DirWatcher.Cache.LoopSteps
import DirWatcher.Cache.FinalFlush

/-!
Where the lines of the published files come from. Each line that is whole is a directory that
was reported before the file was published. Whole lines can be lost in a failed write, and what
a failing `fclose` leaves of a line is not one of the lines here.
-/

set_option autoImplicit false
set_option relaxedAutoImplicit false

namespace DirWatcher.Cache

open Source Foundation.FirstOccurrences Foundation.Runs

variable {s after : MainLoop} {accepted : List Bytes} {hashSize : ℕ}

/-! ### What a log says -/

/-- The directories that have been reported. -/
def reportedIn (log : List Happening) : List CString :=
  log.filterMap fun
    | .reported directory => some directory
    | _ => none

/-- The lines of the files that have been published. -/
def publishedIn (log : List Happening) : List (List Bytes) :=
  log.filterMap fun
    | .published lines => some lines
    | _ => none

@[simp] theorem reportedIn_append (log new : List Happening) :
    reportedIn (log ++ new) = reportedIn log ++ reportedIn new := List.filterMap_append

@[simp] theorem publishedIn_append (log new : List Happening) :
    publishedIn (log ++ new) = publishedIn log ++ publishedIn new := List.filterMap_append

theorem mem_reportedIn {log : List Happening} {directory : CString} :
    directory ∈ reportedIn log ↔ .reported directory ∈ log := by
  rw [reportedIn, List.mem_filterMap]
  constructor
  · rintro ⟨happening, hmem, hreported⟩
    cases happening <;> cases hreported
    exact hmem
  · exact fun hmem ↦ ⟨_, hmem, rfl⟩

theorem mem_publishedIn {log : List Happening} {lines : List Bytes} :
    lines ∈ publishedIn log ↔ .published lines ∈ log := by
  rw [publishedIn, List.mem_filterMap]
  constructor
  · rintro ⟨happening, hmem, hpublished⟩
    cases happening <;> cases hpublished
    exact hmem
  · exact fun hmem ↦ ⟨_, hmem, rfl⟩

theorem reportedIn_published (files : List (List Bytes)) :
    reportedIn (files.map .published) = [] := by
  rw [reportedIn, List.filterMap_map]
  exact List.filterMap_eq_nil_iff.mpr fun _ _ ↦ rfl

/-- The directory that a step of the loop reports. -/
def reportOf : Option LoopLabel → List CString
  | some (.report directory) => [directory]
  | _ => []

theorem happenings_eq (place : FlushPlace) (before later : Notifier) :
    MainLoop.happenings place before later = [.cleared] ∨
      MainLoop.happenings place before later =
        ((later.published.drop before.published.length).map Publication.lines).map .published := by
  cases place with
  | clearing file => exact Or.inl rfl
  | _ => exact Or.inr (List.map_map ..).symm

theorem reportedIn_happenings (place : FlushPlace) (before later : Notifier) :
    reportedIn (MainLoop.happenings place before later) = [] := by
  rcases happenings_eq place before later with hcleared | hfiles
  · rw [hcleared]
    rfl
  · rw [hfiles, reportedIn_published]

theorem reportedIn_of_report {directory : CString}
    (hstep : s.step (.report directory) = some after) :
    reportedIn after.log = reportedIn s.log ++ [directory] := by
  unfold MainLoop.step at hstep
  split_ifs at hstep
  cases hplace : s.place with
  | events =>
    simp only [MainLoop.advance, hplace] at hstep
    cases hstep
    unfold MainLoop.reportDirectory
    split
    · exact reportedIn_append _ _
    · split_ifs <;> exact reportedIn_append _ _
  | _ =>
    simp only [MainLoop.advance, hplace] at hstep
    cases hstep

theorem reportedIn_of_move {label : LoopLabel} (hmove : LoopMove s label after)
    (hlabel : ∀ directory, label ≠ .report directory) :
    reportedIn after.log = reportedIn s.log := by
  cases hmove with
  | puts directory | refuses directory | hangs directory => exact absurd rfl (hlabel directory)
  | flushesTimer | flushesEvent =>
    rw [reportedIn_append, reportedIn_happenings, List.append_nil]
  | ticks => exact (reportedIn_append _ _).trans (List.append_nil _)
  | _ => rfl

theorem reportedIn_of_step {label : LoopLabel} (hstep : s.step label = some after) :
    reportedIn after.log = reportedIn s.log ++ reportOf (some label) := by
  cases label with
  | report directory => exact reportedIn_of_report hstep
  | _ => exact (reportedIn_of_move (loopMove hstep).2 (by simp)).trans (List.append_nil _).symm

/-! ### Lines that have been reported -/

/-- The line is a directory that the log says has been reported. -/
def ReportedLine (log : List Happening) (line : Bytes) : Prop :=
  ∃ directory ∈ reportedIn log, directory.bytes = line

theorem ReportedLine.append {log : List Happening} {line : Bytes} (hline : ReportedLine log line)
    (new : List Happening) : ReportedLine (log ++ new) line := by
  obtain ⟨directory, hdirectory, hbytes⟩ := hline
  exact ⟨directory, by simp [hdirectory], hbytes⟩

/-- Each line of a file has been reported before the file was published. -/
def ReportedFirst (log : List Happening) : Prop :=
  ∀ before lines later, log = before ++ .published lines :: later →
    ∀ line ∈ lines, ReportedLine before line

/-- The lines in the hands of a flush: the directory it is called with, and those it has
printed. -/
def linesInHand : FlushPlace → List Bytes
  | .opening parentDir => (parentDir.map CString.bytes).toList
  | .printing _ file => linesOf file
  | .clearing file => linesOf file
  | .closing file => linesOf file

/-- All lines on the way to a file have been reported. -/
structure Genuine (hashSize : ℕ) (accepted : List Bytes) (s : MainLoop) : Prop where
  holds : Holds s.notifier.hc accepted
  hashSize : s.notifier.hc.hashSize = hashSize
  cached : ∀ data ∈ accepted, ∃ directory ∈ reportedIn s.log, directory.terminated = data
  inHand : ∀ place, flushAt s.place = some place → ∀ line ∈ linesInHand place,
    ReportedLine s.log line
  first : ReportedFirst s.log
  files : publishedIn s.log = s.notifier.published.map Publication.lines

theorem genuine_start (notifyDir : Bytes) (hashSize memSize : ℕ) (entries : ℕ → HashCacheEntry)
    (memory : ℕ → UInt8) :
    Genuine hashSize []
      (.start (newNotifier notifyDir (newHashCache hashSize memSize entries memory))) where
  holds := holds_newHashCache hashSize memSize entries memory
  hashSize := rfl
  cached := by simp
  inHand := by simp [MainLoop.start, flushAt]
  first := by
    intro before lines later hlog
    simp [MainLoop.start] at hlog
  files := rfl

/-- A log that has grown without a publication. -/
theorem ReportedFirst.append {log new : List Happening} (hfirst : ReportedFirst log)
    (hnew : ∀ lines, .published lines ∉ new) : ReportedFirst (log ++ new) := by
  intro before lines later hlog
  rcases split_append hlog with ⟨rest, hbefore, -⟩ | ⟨rest, hrest⟩
  · exact hfirst before lines rest hbefore
  · exact absurd (by simp [hrest]) (hnew lines)

theorem ReportedFirst.publish {log : List Happening} (hfirst : ReportedFirst log)
    {lines : List Bytes} (hlines : ∀ line ∈ lines, ReportedLine log line) :
    ReportedFirst (log ++ [.published lines]) := by
  intro before other later hlog
  rcases split_append hlog with ⟨rest, hbefore, -⟩ | ⟨rest, hrest⟩
  · exact hfirst before other rest hbefore
  · cases rest with
    | nil =>
      obtain ⟨hhead, rfl⟩ := List.cons.inj hrest
      obtain rfl := Happening.published.inj hhead
      obtain rfl : log = before := List.append_cancel_right hlog
      exact hlines
    | cons happening rest => simp at hrest

/-- A step that leaves the cache and the log alone, and gives no line to a flush. -/
theorem Genuine.stay (hgenuine : Genuine hashSize accepted s)
    (hnotifier : after.notifier = s.notifier) (hlog : after.log = s.log)
    (hinHand : ∀ place, flushAt after.place = some place → ∀ line ∈ linesInHand place,
      ReportedLine s.log line) : Genuine hashSize accepted after where
  holds := hnotifier ▸ hgenuine.holds
  hashSize := hnotifier ▸ hgenuine.hashSize
  cached := hlog ▸ hgenuine.cached
  inHand := hlog ▸ hinHand
  first := hlog ▸ hgenuine.first
  files := hlog ▸ hnotifier ▸ hgenuine.files

/-- A step to a place outside of a flush. -/
theorem Genuine.leave (hgenuine : Genuine hashSize accepted s)
    (hnotifier : after.notifier = s.notifier) (hlog : after.log = s.log)
    (hplace : flushAt after.place = none) : Genuine hashSize accepted after :=
  hgenuine.stay hnotifier hlog (by simp [hplace])

/-- A step that adds to the log something other than a file, and stays out of a flush or
where it is. -/
theorem Genuine.note (hgenuine : Genuine hashSize accepted s) (flag : Bool)
    (happening : Happening) (hnew : ∀ lines, happening ≠ .published lines) :
    Genuine hashSize accepted
      { s with flushNow := flag, log := s.log ++ [happening] } where
  holds := hgenuine.holds
  hashSize := hgenuine.hashSize
  cached := fun data hdata ↦ (hgenuine.cached data hdata).imp fun directory hdirectory ↦
    ⟨by simp [hdirectory.1], hdirectory.2⟩
  inHand := fun place hplace line hline ↦ (hgenuine.inHand place hplace line hline).append _
  first := hgenuine.first.append fun lines hmem ↦ hnew lines (List.mem_singleton.mp hmem).symm
  files := by
    rw [publishedIn_append, hgenuine.files]
    cases happening with
    | published lines => exact absurd rfl (hnew lines)
    | _ => exact List.append_nil _

/-! ### The steps of a flush -/

theorem mem_linesOf_printLine {io : FlushIo} {file : TempFile} {line other : Bytes}
    (hmem : other ∈ (printLine io file line).lines) : other ∈ file.lines ∨ other = line := by
  unfold printLine at hmem
  split_ifs at hmem
  · exact Or.inl hmem
  · simpa using hmem

theorem linesOf_of_printParent {io : FlushIo} {parentDir : Option CString} {first : Option TempFile}
    (hprint : printParent io parentDir = .ok first) {line : Bytes} (hline : line ∈ linesOf first) :
    line ∈ (parentDir.map CString.bytes).toList := by
  cases parentDir with
  | none =>
    cases hprint
    cases hline
  | some directory =>
    obtain ⟨file, hopen, hresult⟩ := exists_of_bind_eq_ok hprint
    obtain rfl : ⟨[], false, 0⟩ = file := by
      unfold openTempFile at hopen
      split_ifs at hopen
      exact Except.ok.inj hopen
    cases hresult
    rcases mem_linesOf_printLine hline with hold | rfl
    · cases hold
    · exact List.mem_singleton_self _

theorem linesOf_of_openOnce {io : FlushIo} {file : Option TempFile} {opened : TempFile}
    (hopen : openOnce io file = .ok opened) : opened.lines = linesOf file := by
  cases file with
  | none =>
    unfold openOnce openTempFile at hopen
    dsimp only at hopen
    split_ifs at hopen
    cases hopen
    rfl
  | some file =>
    cases hopen
    rfl

/-- An item of the cache is a directory that has been reported. -/
theorem Genuine.item (hgenuine : Genuine hashSize accepted s) {pos next : ℕ} {item : Item}
    (hiter : hashCacheIter s.notifier.hc pos = some (next, item)) :
    ReportedLine s.log (stringAt item.data) := by
  have hpos : pos < s.notifier.hc.hashPos := by
    by_contra hend
    simp [hashCacheIter, not_lt.mp hend] at hiter
  obtain ⟨data, hnext, hdrop⟩ := hgenuine.holds.exists_iter hpos
  rw [hnext] at hiter
  cases hiter
  have hmem : data ∈ accepted :=
    mem_distinct.mp (List.mem_of_mem_drop (hdrop ▸ List.mem_cons_self))
  obtain ⟨directory, hdirectory, rfl⟩ := hgenuine.cached data hmem
  exact ⟨directory, hdirectory, (stringAt_terminated directory).symm⟩

/-- The file that is renamed holds lines of the flush. -/
theorem Genuine.closes (hgenuine : Genuine hashSize accepted s) {io : FlushIo}
    {file : Option TempFile} {notifier : Notifier} {done : LoopPlace}
    (hplace : flushAt s.place = some (.closing file)) (hdone : flushAt done = none)
    (hpublish : publish io s.notifier file = .ok notifier) :
    Genuine hashSize accepted { s with
      notifier
      place := done
      log := s.log ++ MainLoop.happenings (.closing file) s.notifier notifier } := by
  cases file with
  | none =>
    cases hpublish
    rw [happenings_eq_nil (by simp), List.append_nil]
    exact hgenuine.leave rfl rfl hdone
  | some file =>
    obtain ⟨-, rfl⟩ := eq_of_renameTempFile_eq_ok hpublish
    have hlines : ∀ line ∈ file.lines.take (file.lines.length - io.closeLoses),
        ReportedLine s.log line := fun line hline ↦
      hgenuine.inHand _ hplace line (List.mem_of_mem_take hline)
    have hnew : MainLoop.happenings (.closing (some file)) s.notifier { s.notifier with
        notificationCount := s.notifier.notificationCount + 1
        published := s.notifier.published ++
          [⟨(notificationPath s.notifier.notifyDir (s.notifier.notificationCount + 1)).take
            (maxPathLen - 1), file.lines.take (file.lines.length - io.closeLoses)⟩] } =
        [.published (file.lines.take (file.lines.length - io.closeLoses))] := by
      simp [MainLoop.happenings]
    rw [hnew]
    refine ⟨hgenuine.holds, hgenuine.hashSize, fun data hdata ↦ ?_, by simp [hdone],
      hgenuine.first.publish hlines, ?_⟩
    · exact (hgenuine.cached data hdata).imp fun directory hdirectory ↦
        ⟨by simp [hdirectory.1], hdirectory.2⟩
    · rw [publishedIn_append, hgenuine.files, List.map_append]
      rfl

theorem Genuine.flush (hgenuine : Genuine hashSize accepted s) {io : FlushIo} {place : FlushPlace}
    {notifier : Notifier} {next : Option FlushPlace} {inside : FlushPlace → LoopPlace}
    {done : LoopPlace} (hplace : flushAt s.place = some place)
    (hinside : ∀ place, flushAt (inside place) = some place) (hdone : flushAt done = none)
    (hmove : FlushMove io s.notifier place notifier next) :
    ∃ accepted, Genuine hashSize accepted { s with
      notifier
      place := next.elim done inside
      log := s.log ++ MainLoop.happenings place s.notifier notifier } := by
  have hinHand := hgenuine.inHand place hplace
  cases hmove with
  | @opens parentDir first hprint =>
    rw [happenings_eq_nil (by simp), List.append_nil]
    refine ⟨_, hgenuine.stay rfl rfl fun other hother line hline ↦ ?_⟩
    obtain rfl := Option.some_inj.mp ((hinside _).symm.trans hother)
    exact hinHand line (linesOf_of_printParent hprint hline)
  | finishes file =>
    rw [happenings_eq_nil (by simp), List.append_nil]
    refine ⟨_, hgenuine.stay rfl rfl fun other hother line hline ↦ ?_⟩
    obtain rfl := Option.some_inj.mp ((hinside _).symm.trans hother)
    exact hinHand line hline
  | prints hiter hopen =>
    rw [happenings_eq_nil (by simp), List.append_nil]
    refine ⟨_, hgenuine.stay rfl rfl fun other hother line hline ↦ ?_⟩
    obtain rfl := Option.some_inj.mp ((hinside _).symm.trans hother)
    rcases mem_linesOf_printLine hline with hold | rfl
    · rw [linesOf_of_openOnce hopen] at hold
      exact hinHand line hold
    · exact hgenuine.item hiter
  | clears file =>
    have hnoted := hgenuine.note s.flushNow .cleared (by simp)
    refine ⟨[], hgenuine.holds.hashCacheClear, ?_, by simp, fun other hother line hline ↦ ?_,
      hnoted.first, hnoted.files⟩
    · exact (foldl_clearEntry_hashSize _).trans hgenuine.hashSize
    · obtain rfl := Option.some_inj.mp ((hinside _).symm.trans hother)
      exact (hinHand line hline).append _
  | closes hpublish => exact ⟨_, hgenuine.closes hplace hdone hpublish⟩

/-! ### Runs -/

/-- A directory is reported, and the cache takes it, has taken it before, or refuses it. -/
theorem Genuine.reports (hgenuine : Genuine hashSize accepted s) (hsize : 1 ≤ hashSize)
    {directory : CString} {result : Int32} {hc : HashCache}
    (hadd : hashCacheAdd s.notifier.hc directory.terminated = some (result, hc)) :
    ∃ held, Holds hc held ∧ hc.hashSize = hashSize ∧
      ∀ data ∈ held, data ∈ accepted ∨ data = directory.terminated := by
  by_cases hrefuses : Refuses s.notifier.hc.hashSize s.notifier.hc.memSize accepted
      directory.terminated
  · rw [hgenuine.holds.hashCacheAdd_of_refuses hrefuses] at hadd
    cases hadd
    exact ⟨accepted, hgenuine.holds, hgenuine.hashSize, fun data hdata ↦ Or.inl hdata⟩
  · obtain ⟨added, hadded, hholds, hsame, -⟩ :=
      hgenuine.holds.hashCacheAdd_of_not_refuses (hgenuine.hashSize.symm ▸ hsize) hrefuses
    obtain ⟨-, rfl⟩ := Prod.mk.inj (Option.some_inj.mp (hadd.symm.trans hadded))
    refine ⟨_, hholds, hsame.trans hgenuine.hashSize, fun data hdata ↦ ?_⟩
    exact (List.mem_append.mp hdata).imp_right List.mem_singleton.mp

/-- The state after the report, at a place where no flush holds another line. -/
theorem Genuine.afterReport (hgenuine : Genuine hashSize accepted s) (hsize : 1 ≤ hashSize)
    {directory : CString} {result : Int32} {hc : HashCache} {place : LoopPlace}
    {more : List Happening}
    (hadd : hashCacheAdd s.notifier.hc directory.terminated = some (result, hc))
    (hmore : ∀ happening ∈ more, happening = .put directory)
    (hplace : ∀ flush, flushAt place = some flush → linesInHand flush ⊆ [directory.bytes]) :
    ∃ accepted, Genuine hashSize accepted { s with
      notifier := { s.notifier with hc }
      place
      log := s.log ++ .reported directory :: more } := by
  obtain ⟨held, hholds, hsame, hheld⟩ := hgenuine.reports hsize hadd
  have hquiet : ∀ lines, .published lines ∉ Happening.reported directory :: more := by
    intro lines hmem
    rcases List.mem_cons.mp hmem with hhead | hrest
    · cases hhead
    · cases hmore _ hrest
  have hreported : directory ∈ reportedIn (s.log ++ .reported directory :: more) :=
    mem_reportedIn.mpr (by simp)
  refine ⟨held, hholds, hsame, fun data hdata ↦ ?_, fun flush hflush line hline ↦ ?_,
    hgenuine.first.append hquiet, ?_⟩
  · rcases hheld data hdata with hold | rfl
    · exact (hgenuine.cached data hold).imp fun other hother ↦
        ⟨by simp [hother.1], hother.2⟩
    · exact ⟨directory, hreported, rfl⟩
  · exact ⟨directory, hreported, (List.mem_singleton.mp (hplace flush hflush hline)).symm⟩
  · have hnone : publishedIn (.reported directory :: more) = [] :=
      List.eq_nil_iff_forall_not_mem.mpr fun lines hmem ↦ hquiet lines (mem_publishedIn.mp hmem)
    rw [publishedIn_append, hnone, List.append_nil, hgenuine.files]

theorem Genuine.move {label : LoopLabel} (hgenuine : Genuine hashSize accepted s)
    (hsize : 1 ≤ hashSize) (hmove : LoopMove s label after) :
    ∃ accepted, Genuine hashSize accepted after := by
  cases hmove with
  | terminates | setsErrno | stops | fails =>
    exact ⟨_, hgenuine.stay rfl rfl hgenuine.inHand⟩
  | ticks => exact ⟨_, hgenuine.note _ _ (by simp)⟩
  | hangs directory =>
    exact ⟨_, (hgenuine.note s.flushNow (.reported directory) (by simp)).stay rfl rfl
      fun place hplace line hline ↦
        (hgenuine.inHand place hplace line hline).append _⟩
  | flushesTimer io hplace hmove =>
    exact hgenuine.flush (by rw [hplace]; rfl) (fun _ ↦ rfl) rfl hmove
  | flushesEvent io hplace hmove =>
    exact hgenuine.flush (by rw [hplace]; rfl) (fun _ ↦ rfl) rfl hmove
  | puts directory hplace hadd =>
    exact hgenuine.afterReport hsize hadd (by simp) (by simp [hplace, flushAt])
  | refuses directory hplace hadd =>
    exact hgenuine.afterReport hsize hadd (by simp) (by simp [flushAt, linesInHand])
  | polls | ends | polled | checks | sees | passes | endsBatch =>
    exact ⟨_, hgenuine.leave rfl rfl rfl⟩
  | resets => exact ⟨_, hgenuine.stay rfl rfl (by simp [flushAt, linesInHand])⟩
  | switches place _ hnext =>
    refine ⟨_, hgenuine.leave rfl rfl ?_⟩
    rcases hnext with rfl | rfl <;> rfl

/-- Runs of the main loop with any signals, any reports and any answers of the calls on the
files, failed ones included: the files that have been published are those of the log, and
each of their whole lines is a directory that was reported before its file was published. -/
theorem published_reported_first (notifyDir : Bytes) (hashSize memSize : ℕ) (hsize : 1 ≤ hashSize)
    (entries : ℕ → HashCacheEntry) (memory : ℕ → UInt8) {s : MainLoop}
    (hreaches : Reaches MainLoop.step
      (.start (newNotifier notifyDir (newHashCache hashSize memSize entries memory))) s) :
    publishedIn s.log = s.notifier.published.map Publication.lines ∧ ReportedFirst s.log := by
  obtain ⟨accepted, hgenuine⟩ := hreaches.invariant
    (fun s ↦ ∃ accepted, Genuine hashSize accepted s)
    ⟨_, genuine_start notifyDir hashSize memSize entries memory⟩
    fun _ _ _ ⟨_, hgenuine⟩ _ hstep ↦ hgenuine.move hsize (loopMove hstep).2
  exact ⟨hgenuine.files, hgenuine.first⟩

end DirWatcher.Cache
