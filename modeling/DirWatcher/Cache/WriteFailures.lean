import DirWatcher.Cache.Publication

/-!
What a flush publishes when calls on the temporary file fail. The error flag of the
stream is tested after each line from the cache, not after the line of the directory that
did not fit, and what `fclose` says is not looked at.
-/

set_option autoImplicit false
set_option relaxedAutoImplicit false

namespace DirWatcher.Cache

open Source Foundation.FirstOccurrences

variable {io : FlushIo} {hc : HashCache} {accepted : List Bytes}

/-! ### The file that is handed to `rename` -/

/-- What is left of the lines when `fclose` has written the buffer out. -/
def closedLines (io : FlushIo) (lines : List Bytes) : List Bytes :=
  lines.take (lines.length - io.closeLoses)

theorem closedLines_eq_self_iff {lines : List Bytes} (hlines : lines ≠ []) :
    closedLines io lines = lines ↔ io.closeLoses = 0 := by
  have hlength := List.length_pos_iff.mpr hlines
  rw [closedLines, List.take_eq_self_iff]
  omega

/-- The lines of the file that a flush hands to `rename_temp_file`, if it comes to that and
if there is a file. -/
def renamedFile (io : FlushIo) (hc : HashCache) (parentDir : Option CString) :
    Except Stop (Option (List Bytes)) := do
  let first ← printParent io parentDir
  let file ← printItems io hc (hc.hashPos + 1) 0 first
  return file.map fun file ↦ closedLines io file.lines

/-- After `renamedFile` only `rename_temp_file` is left to be done. -/
theorem flushHashCache_eq (notifier : Notifier) (parentDir : Option CString) :
    flushHashCache io notifier parentDir = (do
      let renamed ← renamedFile io notifier.hc parentDir
      match renamed with
      | none => .ok { notifier with hc := Source.hashCacheClear notifier.hc }
      | some lines =>
        renameTempFile io { notifier with hc := Source.hashCacheClear notifier.hc } lines) := by
  unfold flushHashCache renamedFile
  rcases printParent io parentDir with stop | first
  · rfl
  · change (printItems io notifier.hc (notifier.hc.hashPos + 1) 0 first).bind _ =
      ((printItems io notifier.hc (notifier.hc.hashPos + 1) 0 first).bind _).bind _
    rcases printItems io notifier.hc (notifier.hc.hashPos + 1) 0 first with stop | file
    · rfl
    · cases file <;> rfl

/-- A flush that returns has cleared the cache, and has renamed nothing or one file. -/
theorem renamed_of_flush {notifier after : Notifier} {parentDir : Option CString}
    (hflush : flushHashCache io notifier parentDir = .ok after) :
    after = { notifier with hc := Source.hashCacheClear notifier.hc } ∨
      ∃ lines, renamedFile io notifier.hc parentDir = .ok (some lines) ∧
        renameTempFile io { notifier with hc := Source.hashCacheClear notifier.hc } lines =
          .ok after := by
  rw [flushHashCache_eq] at hflush
  cases hrenamed : renamedFile io notifier.hc parentDir with
  | error stop =>
    rw [hrenamed] at hflush
    cases hflush
  | ok renamed =>
    rw [hrenamed] at hflush
    cases renamed with
    | none =>
      cases hflush
      exact Or.inl rfl
    | some lines => exact Or.inr ⟨lines, rfl, hflush⟩

theorem flushHashCache_of_renamed {notifier : Notifier} {parentDir : Option CString}
    {lines : List Bytes} (hrenamed : renamedFile io notifier.hc parentDir = .ok (some lines)) :
    flushHashCache io notifier parentDir =
      renameTempFile io { notifier with hc := Source.hashCacheClear notifier.hc } lines := by
  rw [flushHashCache_eq, hrenamed]
  rfl

/-! ### The lines one after the other -/

/-- The loop of the flush over the lines themselves. -/
def printLines (io : FlushIo) : Option TempFile → List Bytes → Except Stop (Option TempFile)
  | file, [] => .ok file
  | file, line :: rest => do
    let opened ← openOnce io file
    let printed := printLine io opened line
    if printed.error then .error (.exited 20) else printLines io (some printed) rest

theorem Holds.printItems_eq_printLines (hholds : Holds hc accepted) (io : FlushIo) {fuel pos : ℕ}
    (hpos : pos ≤ hc.hashPos) (hfuel : hc.hashPos < fuel + pos) (file : Option TempFile) :
    printItems io hc fuel pos file =
      printLines io file (((distinct accepted).drop pos).map stringAt) := by
  induction fuel generalizing pos file with
  | zero => omega
  | succ fuel ih =>
    rw [printItems]
    by_cases hend : hc.hashPos ≤ pos
    · simp [hashCacheIter, hend, hholds.drop_eq_nil hend, printLines]
    · obtain ⟨data, hiter, hdrop⟩ := hholds.exists_iter (not_le.mp hend)
      have hrest := ih (by omega : pos + 1 ≤ hc.hashPos) (by omega)
      simp only [hiter, hdrop, hrest, List.map_cons, printLines]

theorem printLine_error (file : TempFile) (line : Bytes) :
    (printLine io file line).error = true ↔
      file.error = true ∨ io.printFails file.prints = true := by
  unfold printLine
  split_ifs with hfails <;> simp [hfails]

/-- Some of the next lines does not get into the stream. -/
def SomeFails (io : FlushIo) (prints count : ℕ) : Prop :=
  ∃ i < count, io.printFails (prints + i) = true

instance (io : FlushIo) (prints count : ℕ) : Decidable (SomeFails io prints count) := by
  unfold SomeFails
  infer_instance

theorem someFails_succ {prints count : ℕ} :
    SomeFails io prints (count + 1) ↔
      io.printFails prints = true ∨ SomeFails io (prints + 1) count := by
  simp only [SomeFails, Nat.exists_lt_succ_left, Nat.add_zero, Nat.add_assoc, Nat.add_comm 1]

theorem printLine_prints (file : TempFile) (line : Bytes) :
    (printLine io file line).prints = file.prints + 1 := by
  unfold printLine
  split_ifs <;> rfl

theorem printLine_ok {file : TempFile} (herror : file.error = false)
    (hprints : io.printFails file.prints = false) (line : Bytes) :
    printLine io file line = ⟨file.lines ++ [line], false, file.prints + 1⟩ := by
  simp [printLine, hprints, herror]

/-- A line that fails is noticed when it or a later one comes from the cache. -/
theorem printLines_fails {file : TempFile} {lines : List Bytes} (hlines : lines ≠ [])
    (hfails : file.error = true ∨ SomeFails io file.prints lines.length) :
    printLines io (some file) lines = .error (.exited 20) := by
  induction lines generalizing file with
  | nil => exact absurd rfl hlines
  | cons line rest ih =>
    change (if (printLine io file line).error = true then _ else printLines io _ rest) = _
    rw [List.length_cons, someFails_succ, ← or_assoc, ← printLine_error file line] at hfails
    split_ifs with herror
    · rfl
    · obtain hlater : SomeFails io (file.prints + 1) rest.length := hfails.resolve_left herror
      have hrest : rest ≠ [] := by
        rintro rfl
        obtain ⟨i, hi, -⟩ := hlater
        exact absurd hi (Nat.not_lt_zero i)
      refine ih hrest (Or.inr ?_)
      rwa [printLine_prints]

theorem printLines_ok (file : TempFile) {lines : List Bytes} (herror : file.error = false)
    (hfails : ¬ SomeFails io file.prints lines.length) :
    ∃ prints, printLines io (some file) lines =
      .ok (some ⟨file.lines ++ lines, false, prints⟩) := by
  induction lines generalizing file with
  | nil => exact ⟨file.prints, by rw [printLines, List.append_nil, ← herror]⟩
  | cons line rest ih =>
    rw [List.length_cons, someFails_succ, not_or, Bool.not_eq_true] at hfails
    have hprinted := printLine_ok herror hfails.1 line
    obtain ⟨prints, hrest⟩ := ih ⟨file.lines ++ [line], false, file.prints + 1⟩ rfl hfails.2
    refine ⟨prints, ?_⟩
    change (if (printLine io file line).error = true then _ else printLines io _ rest) = _
    rw [hprinted, if_neg Bool.false_ne_true, hrest, List.append_assoc]
    rfl

/-! ### The ways a flush can go -/

theorem Holds.renamedFile_none (hholds : Holds hc accepted) :
    renamedFile io hc none =
      (printLines io none ((distinct accepted).map stringAt)).map
      (Option.map fun file ↦ closedLines io file.lines) := by
  have hitems := hholds.printItems_eq_printLines io (Nat.zero_le _) (Nat.lt_succ_self _) none
  rw [List.drop_zero] at hitems
  rw [← hitems]
  change (printItems io hc (hc.hashPos + 1) 0 none).bind _ = _
  cases printItems io hc (hc.hashPos + 1) 0 none <;> rfl

theorem Holds.renamedFile_some (hholds : Holds hc accepted) (directory : CString)
    (hopen : io.openFails = false) :
    renamedFile io hc (some directory) =
      (printLines io (some (printLine io ⟨[], false, 0⟩ directory.bytes))
        ((distinct accepted).map stringAt)).map
          (Option.map fun file ↦ closedLines io file.lines) := by
  have hitems := hholds.printItems_eq_printLines io (Nat.zero_le _) (Nat.lt_succ_self _)
    (some (printLine io ⟨[], false, 0⟩ directory.bytes))
  rw [List.drop_zero] at hitems
  have hfirst : printParent io (some directory) =
      .ok (some (printLine io ⟨[], false, 0⟩ directory.bytes)) := by
    simp only [printParent, openTempFile, hopen, Bool.false_eq_true, if_false]
    rfl
  rw [← hitems, renamedFile, hfirst]
  change (printItems io hc (hc.hashPos + 1) 0 _).bind _ = _
  cases printItems io hc (hc.hashPos + 1) 0
    (some (printLine io ⟨[], false, 0⟩ directory.bytes)) <;> rfl

/-- Whether the directory or the cache has the first line, the file is opened before it. -/
theorem printLines_opened {lines : List Bytes} (hlines : lines ≠ []) :
    printLines io none lines =
      if io.openFails then .error (.exited 11) else printLines io (some ⟨[], false, 0⟩) lines := by
  cases lines with
  | nil => exact absurd rfl hlines
  | cons line rest =>
    simp only [printLines, openOnce, openTempFile]
    split_ifs <;> rfl

theorem Holds.renamedFile_of_nothing (hholds : Holds hc accepted) {parentDir : Option CString}
    (hlines : flushedLines parentDir accepted = []) : renamedFile io hc parentDir = .ok none := by
  obtain ⟨hparent, hitems⟩ := List.append_eq_nil_iff.mp hlines
  obtain rfl : parentDir = none := by simpa using hparent
  rw [hholds.renamedFile_none, hitems]
  rfl

theorem Holds.renamedFile_of_openFails (hholds : Holds hc accepted) {parentDir : Option CString}
    (hlines : flushedLines parentDir accepted ≠ []) (hopen : io.openFails = true) :
    renamedFile io hc parentDir = .error (.exited 11) := by
  cases parentDir with
  | none =>
    have hitems : (distinct accepted).map stringAt ≠ [] := hlines
    rw [hholds.renamedFile_none, printLines_opened hitems, if_pos hopen]
    rfl
  | some directory =>
    have hfirst : printParent io (some directory) = .error (.exited 11) := by
      simp only [printParent, openTempFile, hopen, if_true]
      rfl
    rw [renamedFile, hfirst]
    rfl

theorem someFails_flushedLines (directory : CString) :
    SomeFails io 0 (flushedLines (some directory) accepted).length ↔
      io.printFails 0 = true ∨ SomeFails io 1 (distinct accepted).length := by
  rw [← someFails_succ]
  simp [flushedLines, Nat.add_comm]

theorem Holds.renamedFile_of_written (hholds : Holds hc accepted) {parentDir : Option CString}
    (hlines : flushedLines parentDir accepted ≠ []) (hopen : io.openFails = false)
    (hfails : ¬ SomeFails io 0 (flushedLines parentDir accepted).length) :
    renamedFile io hc parentDir = .ok
      (some (closedLines io (flushedLines parentDir accepted))) := by
  cases parentDir with
  | none =>
    have hitems : (distinct accepted).map stringAt ≠ [] := hlines
    obtain ⟨prints, hwritten⟩ := printLines_ok ⟨[], false, 0⟩ rfl hfails
    rw [hholds.renamedFile_none, printLines_opened hitems, if_neg (by simp [hopen])]
    exact congrArg (Except.map _) hwritten
  | some directory =>
    rw [someFails_flushedLines, not_or, Bool.not_eq_true] at hfails
    have hrest : ¬ SomeFails io 1 ((distinct accepted).map stringAt).length := by
      rw [List.length_map]
      exact hfails.2
    obtain ⟨prints, hwritten⟩ := printLines_ok ⟨[directory.bytes], false, 1⟩ rfl hrest
    rw [hholds.renamedFile_some directory hopen, printLine_ok rfl hfails.1]
    exact congrArg (Except.map _) hwritten

theorem Holds.renamedFile_of_noticed (hholds : Holds hc accepted) {parentDir : Option CString}
    (hitems : distinct accepted ≠ []) (hopen : io.openFails = false)
    (hfails : SomeFails io 0 (flushedLines parentDir accepted).length) :
    renamedFile io hc parentDir = .error (.exited 20) := by
  have hlines : (distinct accepted).map stringAt ≠ [] := by simpa using hitems
  cases parentDir with
  | none =>
    rw [hholds.renamedFile_none, printLines_opened hlines, if_neg (by simp [hopen]),
      printLines_fails hlines (Or.inr hfails)]
    rfl
  | some directory =>
    rw [someFails_flushedLines, ← List.length_map stringAt] at hfails
    have hprinted : (printLine io ⟨[], false, 0⟩ directory.bytes).error = true ∨
        SomeFails io (printLine io ⟨[], false, 0⟩ directory.bytes).prints
          ((distinct accepted).map stringAt).length := by
      rw [printLine_prints, printLine_error]
      simpa using hfails
    rw [hholds.renamedFile_some directory hopen, printLines_fails hlines hprinted]
    rfl

/-- With nothing in the cache no line comes after the one of the directory. -/
theorem Holds.renamedFile_of_unnoticed (hholds : Holds hc accepted) {parentDir : Option CString}
    (hitems : distinct accepted = []) (hopen : io.openFails = false)
    (hfails : SomeFails io 0 (flushedLines parentDir accepted).length) :
    renamedFile io hc parentDir = .ok (some []) := by
  cases parentDir with
  | none =>
    obtain ⟨i, hi, -⟩ := hfails
    simp [flushedLines, hitems] at hi
  | some directory =>
    rw [someFails_flushedLines, hitems] at hfails
    have hfirst : io.printFails 0 = true := by simpa [SomeFails] using hfails
    rw [hholds.renamedFile_some directory hopen, hitems]
    simp [printLines, printLine, hfirst, Except.map, closedLines]

/-! ### When no incomplete file is published -/

/-- The flush stops the process before `rename_temp_file`, or the file it hands to
`rename_temp_file` has all the lines. -/
def NeverShorter (io : FlushIo) (hc : HashCache) (parentDir : Option CString)
    (lines : List Bytes) : Prop :=
  ∀ renamed, renamedFile io hc parentDir = .ok renamed → renamed.getD [] = lines

/-- There is nothing to write, the file cannot be opened, a line fails and there is something
in the cache, or no line fails and `fclose` loses nothing. -/
def FailuresSeen (io : FlushIo) (parentDir : Option CString) (accepted : List Bytes) : Prop :=
  flushedLines parentDir accepted = [] ∨ io.openFails = true ∨
    SomeFails io 0 (flushedLines parentDir accepted).length ∧ distinct accepted ≠ [] ∨
    ¬ SomeFails io 0 (flushedLines parentDir accepted).length ∧ io.closeLoses = 0

theorem Holds.neverShorter_iff (hholds : Holds hc accepted) (parentDir : Option CString) :
    NeverShorter io hc parentDir (flushedLines parentDir accepted) ↔
      FailuresSeen io parentDir accepted := by
  unfold NeverShorter FailuresSeen
  by_cases hlines : flushedLines parentDir accepted = []
  · simp [hholds.renamedFile_of_nothing hlines, hlines]
  cases hopen : io.openFails with
  | true => simp [hholds.renamedFile_of_openFails hlines hopen]
  | false =>
    by_cases hfails : SomeFails io 0 (flushedLines parentDir accepted).length
    · by_cases hitems : distinct accepted = []
      · simp [hholds.renamedFile_of_unnoticed hitems hopen hfails, hlines, hfails, hitems, eq_comm]
      · simp [hholds.renamedFile_of_noticed hitems hopen hfails, hfails, hitems]
    · simp [hholds.renamedFile_of_written hlines hopen hfails, hlines, hfails,
        closedLines_eq_self_iff hlines]

/-- With any content of the cache and any failures, a flush that hands a file with fewer
lines to `rename_temp_file` is one in which the line of the directory fails and the cache is
empty, or in which no line fails and `fclose` loses some. -/
theorem failed_writes_not_published (hashSize memSize : ℕ) (hsize : 1 ≤ hashSize)
    (entries : ℕ → HashCacheEntry) (memory : ℕ → UInt8) (ops : List CacheOp) {hc : HashCache}
    (hrun : runOps (newHashCache hashSize memSize entries memory) ops = some hc) (io : FlushIo)
    (parentDir : Option CString) :
    NeverShorter io hc parentDir
        (flushedLines parentDir (acceptedItems hashSize memSize ops)) ↔
      FailuresSeen io parentDir (acceptedItems hashSize memSize ops) := by
  obtain ⟨after, hafter, hholds, -, -⟩ := holds_runOps hashSize memSize hsize entries memory ops
  obtain rfl : after = hc := Option.some_inj.mp (hafter.symm.trans hrun)
  exact hholds.neverShorter_iff parentDir

/-- The cache holds one directory and the line of another one fails. -/
theorem failed_writes_not_published_noticed :
    ∃ hc, runOps (newHashCache 2 4 (fun _ ↦ ⟨0, 0, 0, 0, 0⟩) fun _ ↦ 0)
        [.add [47, 97, 0]] = some hc ∧
      NeverShorter ⟨false, fun i ↦ i == 0, 0, false⟩ hc (some ⟨[47, 98], by decide⟩)
        [[47, 98], [47, 97]] := by
  obtain ⟨hc, hrun, -⟩ := holds_runOps 2 4 (by decide) (fun _ ↦ ⟨0, 0, 0, 0, 0⟩) (fun _ ↦ 0)
    [.add [47, 97, 0]]
  refine ⟨hc, hrun, (failed_writes_not_published 2 4 (by decide) _ _ _ hrun _ _).mpr ?_⟩
  exact Or.inr (Or.inr (Or.inl ⟨⟨0, by decide, rfl⟩, by decide⟩))

/-- The cache holds one directory, and the disk is full when `fclose` writes the buffer out:
a file without lines is published, and the cache is empty. -/
theorem failed_writes_not_published_fails :
    ∃ hc after, runOps (newHashCache 2 4 (fun _ ↦ ⟨0, 0, 0, 0, 0⟩) fun _ ↦ 0)
        [.add [47, 97, 0]] = some hc ∧
      ¬ NeverShorter ⟨false, fun _ ↦ false, 1, false⟩ hc none [[47, 97]] ∧
      flushHashCache ⟨false, fun _ ↦ false, 1, false⟩ (newNotifier [47, 110] hc) none = .ok after ∧
      after.published.map Publication.lines = [[]] ∧ after.hc.hashPos = 0 := by
  obtain ⟨hc, hrun, hholds, -, -⟩ := holds_runOps 2 4 (by decide) (fun _ ↦ ⟨0, 0, 0, 0, 0⟩)
    (fun _ ↦ 0) [.add [47, 97, 0]]
  have hrenamed : renamedFile ⟨false, fun _ ↦ false, 1, false⟩ hc none = .ok (some []) :=
    hholds.renamedFile_of_written (by decide) rfl (by simp [SomeFails])
  have hflush : flushHashCache ⟨false, fun _ ↦ false, 1, false⟩
      (newNotifier [47, 110] hc) none = _ :=
    (flushHashCache_of_renamed hrenamed).trans
      (renameTempFile_ok rfl _ _
        (show (notificationPath [47, 110] 1).length ≠ maxPathLen by decide))
  refine ⟨hc, _, hrun, fun hnever ↦ ?_, hflush, rfl, rfl⟩
  cases hnever _ hrenamed

end DirWatcher.Cache
