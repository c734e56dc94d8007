import DirWatcher.Cache.WriteFailures
import DirWatcher.Foundation.Runs

/-!
The notification directory over several runs of the watcher. A run numbers its files from
one on, and `rename` replaces a file that is there. Within a run no two files have the same
name, so that a file can only be replaced by one of a later run.
-/

set_option autoImplicit false
set_option relaxedAutoImplicit false

namespace DirWatcher.Cache

open Source Foundation.Runs

/-! ### The names of the files -/

/-- The number whose decimal digits are the bytes. -/
def decimalValue (digits : Bytes) : ℕ :=
  Nat.ofDigitChars 10 (digits.map fun byte ↦ Char.ofNat byte.toNat) 0

theorem ofNat_toNat_of_isDigit {char : Char} (hdigit : char.isDigit = true) :
    Char.ofNat (UInt8.ofNat char.toNat).toNat = char := by
  have hrange : char.toNat ≤ 57 := by
    simp only [Char.isDigit, Bool.and_eq_true, decide_eq_true_eq] at hdigit
    exact hdigit.2
  have hbyte : (UInt8.ofNat char.toNat).toNat = char.toNat := by
    rw [UInt8.toNat_ofNat']
    omega
  rw [hbyte, Char.ofNat_toNat]

theorem decimalValue_paddedDecimal (number : ℕ) : decimalValue (paddedDecimal number) = number := by
  have hdigits : (Nat.toDigits 10 number).map
      (fun char ↦ Char.ofNat (UInt8.ofNat char.toNat).toNat) = Nat.toDigits 10 number := by
    rw [List.map_congr_left fun char hchar ↦
      ofNat_toNat_of_isDigit (Nat.isDigit_of_mem_toDigits (by decide) (by decide) hchar)]
    exact List.map_id _
  have hzero : Char.ofNat (UInt8.toNat 48) = '0' := rfl
  simp only [decimalValue, paddedDecimal, List.map_append, List.map_replicate, List.map_map,
    Function.comp_def, hdigits, hzero, Nat.ofDigitChars_append, Nat.ofDigitChars_replicate_zero,
    Nat.mul_zero]
  exact Nat.ofDigitChars_ten_toDigits

theorem notificationPath_injective (notifyDir : Bytes) :
    Function.Injective (notificationPath notifyDir) := by
  intro first second hpaths
  have hnames := List.append_cancel_left hpaths
  have hdigits := List.append_cancel_right (List.tail_eq_of_cons_eq hnames)
  rw [← decimalValue_paddedDecimal first, hdigits, decimalValue_paddedDecimal]

/-! ### One operation of a run -/

variable {io : FlushIo} {notifier after : Notifier}

/-- What an operation of the process does to the files: nothing, or the file with the next
number comes to its place. -/
inductive RenameStep (notifier : Notifier) : Notifier → Prop
  | none (hc : HashCache) : RenameStep notifier { notifier with hc }
  | renames (hc : HashCache) (lines : List Bytes) (hname : ¬ NameOverflows notifier) :
      RenameStep notifier { notifier with
        hc
        notificationCount := notifier.notificationCount + 1
        published := notifier.published ++
          [⟨(notificationPath notifier.notifyDir (notifier.notificationCount + 1)).take
            (maxPathLen - 1), lines⟩] }

theorem renameStep_of_rename {lines : List Bytes}
    (hrename : renameTempFile io notifier lines = .ok after) : RenameStep notifier after := by
  obtain ⟨hname, rfl⟩ := eq_of_renameTempFile_eq_ok hrename
  exact .renames notifier.hc lines hname

theorem RenameStep.of_hc {hc : HashCache} (hstep : RenameStep { notifier with hc } after) :
    RenameStep notifier after := by
  cases hstep with
  | none hc => exact .none hc
  | renames hc lines hname => exact .renames hc lines hname

theorem renameStep_of_flush {parentDir : Option CString}
    (hflush : flushHashCache io notifier parentDir = .ok after) : RenameStep notifier after := by
  rcases renamed_of_flush hflush with rfl | ⟨lines, -, hrename⟩
  · exact .none _
  · exact (renameStep_of_rename hrename).of_hc

theorem renameStep_of_runNotifierOp {op : NotifierOp}
    (hrun : runNotifierOp io notifier op = .ok after) : RenameStep notifier after := by
  cases op with
  | tick => exact renameStep_of_flush hrun
  | report directory =>
    rw [runNotifierOp, reportDirectory] at hrun
    cases hadd : hashCacheAdd notifier.hc directory.terminated with
    | none => simp [hadd] at hrun
    | some added =>
      obtain ⟨result, hc⟩ := added
      simp only [hadd] at hrun
      split_ifs at hrun
      · exact (renameStep_of_flush hrun).of_hc
      · cases hrun
        exact .none hc

/-! ### Runs over one directory -/

/-- A file in the directory, with the number of the run that has put it there. -/
structure PostedFile where
  run : ℕ
  file : Publication
deriving DecidableEq, Repr

/-- The directory, the run that is going on or has been the last one, and its process if it
is still there. `replaced` records the files that `rename` has replaced. -/
structure NotifyDirectory where
  run : ℕ
  process : Option Notifier
  files : List PostedFile
  replaced : List PostedFile

inductive DirectoryLabel
  | start (hc : HashCache)
  | work (io : FlushIo) (op : NotifierOp)
  | stop
  | consume (path : Bytes)

namespace NotifyDirectory

/-- A directory with some files, before the first run. -/
def start (files : List Publication) : NotifyDirectory := ⟨0, none, files.map (⟨0, ·⟩), []⟩

/-- `rename` to the path of the file. -/
def post (s : NotifyDirectory) (file : Publication) : NotifyDirectory :=
  { s with
    files := s.files.filter (·.file.path ≠ file.path) ++ [⟨s.run, file⟩]
    replaced := s.replaced ++ s.files.filter (·.file.path = file.path) }

/-- A run starts with its count at zero when the one before it is over. Its process works as
long as no call stops it, or is stopped by a signal, and the consumer removes files at any
time. -/
def step (notifyDir : Bytes) (s : NotifyDirectory) : DirectoryLabel → Option NotifyDirectory
  | .start hc =>
    match s.process with
    | none => some { s with run := s.run + 1, process := some (newNotifier notifyDir hc) }
    | some _ => none
  | .work io op => s.process.map fun notifier ↦
    match runNotifierOp io notifier op with
    | .error _ => { s with process := none }
    | .ok after => (after.published.drop notifier.published.length).foldl post
        { s with process := some after }
  | .stop => some { s with process := none }
  | .consume path => some { s with files := s.files.filter (·.file.path ≠ path) }

end NotifyDirectory

/-! ### The condition -/

/-- The operation ends with a `rename`. -/
def publishes (io : FlushIo) (notifier : Notifier) (op : NotifierOp) : Bool :=
  match runNotifierOp io notifier op with
  | .error _ => false
  | .ok after => after.notificationCount != notifier.notificationCount

/-- The name of the next file is not cut off, and no file of an earlier run has it. -/
def NumberFree (s : NotifyDirectory) (notifier : Notifier) : Prop :=
  (notificationPath notifier.notifyDir (notifier.notificationCount + 1)).length ≤ maxPathLen ∧
    ∀ posted ∈ s.files, posted.run ≠ s.run →
      posted.file.path ≠ notificationPath notifier.notifyDir (notifier.notificationCount + 1)

instance (s : NotifyDirectory) (notifier : Notifier) : Decidable (NumberFree s notifier) := by
  unfold NumberFree
  infer_instance

/-- Whenever a file is published its number is free. -/
def PublishesFree (s : NotifyDirectory) : DirectoryLabel → Prop
  | .work io op =>
    ∀ notifier ∈ s.process, publishes io notifier op = true → NumberFree s notifier
  | _ => True

instance (s : NotifyDirectory) (label : DirectoryLabel) : Decidable (PublishesFree s label) := by
  cases label <;> unfold PublishesFree <;> infer_instance

/-! ### Runs -/

variable {notifyDir : Bytes} {s : NotifyDirectory}

/-- The files of the run that is going on have numbers up to its count, and no file has
been replaced. -/
structure Numbered (notifyDir : Bytes) (s : NotifyDirectory) : Prop where
  runs : ∀ posted ∈ s.files, posted.run ≤ s.run
  sameDir : ∀ notifier ∈ s.process, notifier.notifyDir = notifyDir
  numbers : ∀ notifier ∈ s.process, ∀ posted ∈ s.files, posted.run = s.run →
    ∃ count ≤ notifier.notificationCount, posted.file.path = notificationPath notifyDir count
  replaced : s.replaced = []

theorem numbered_start (files : List Publication) : Numbered notifyDir (.start files) := by
  constructor <;> simp [NotifyDirectory.start]

/-- The process goes on with the same count, or is there no more. -/
theorem Numbered.withProcess (hnumbered : Numbered notifyDir s) {process : Option Notifier}
    (hprocess : ∀ after ∈ process, ∃ notifier ∈ s.process, after.notifyDir = notifier.notifyDir ∧
      after.notificationCount = notifier.notificationCount) :
    Numbered notifyDir { s with process } where
  runs := hnumbered.runs
  sameDir := by
    intro after hafter
    obtain ⟨notifier, hnotifier, hdir, -⟩ := hprocess after hafter
    exact hdir.trans (hnumbered.sameDir notifier hnotifier)
  numbers := by
    intro after hafter
    obtain ⟨notifier, hnotifier, -, hcount⟩ := hprocess after hafter
    rw [hcount]
    exact hnumbered.numbers notifier hnotifier
  replaced := hnumbered.replaced

theorem Numbered.restart (hnumbered : Numbered notifyDir s) (hc : HashCache) :
    Numbered notifyDir
      { s with run := s.run + 1, process := some (newNotifier notifyDir hc) } where
  runs := fun posted hposted ↦ (hnumbered.runs posted hposted).trans (Nat.le_succ _)
  sameDir := by simp [newNotifier]
  numbers := fun _ _ posted hposted hrun ↦
    absurd hrun (Nat.lt_succ_of_le (hnumbered.runs posted hposted)).ne
  replaced := hnumbered.replaced

theorem Numbered.consume (hnumbered : Numbered notifyDir s) (path : Bytes) :
    Numbered notifyDir { s with files := s.files.filter (·.file.path ≠ path) } where
  runs := fun posted hposted ↦ hnumbered.runs posted (List.mem_of_mem_filter hposted)
  sameDir := hnumbered.sameDir
  numbers := fun notifier hnotifier posted hposted ↦
    hnumbered.numbers notifier hnotifier posted (List.mem_of_mem_filter hposted)
  replaced := hnumbered.replaced

/-- The next file does not replace one of the same run, whose number is lower. -/
theorem Numbered.post (hnumbered : Numbered notifyDir s) {notifier : Notifier}
    (hnotifier : notifier ∈ s.process) (hfree : NumberFree s notifier)
    (hname : ¬ NameOverflows notifier) (hc : HashCache) (lines : List Bytes)
    (published : List Publication) :
    Numbered notifyDir (NotifyDirectory.post
      { s with process := some ⟨hc, notifier.notifyDir, notifier.notificationCount + 1, published⟩ }
      ⟨(notificationPath notifier.notifyDir (notifier.notificationCount + 1)).take
        (maxPathLen - 1), lines⟩) := by
  have hdir := hnumbered.sameDir notifier hnotifier
  rw [NumberFree, hdir] at hfree
  rw [NameOverflows, hdir] at hname
  obtain ⟨hlength, hothers⟩ := hfree
  have htake : (notificationPath notifyDir (notifier.notificationCount + 1)).take
      (maxPathLen - 1) = notificationPath notifyDir (notifier.notificationCount + 1) :=
    List.take_of_length_le (by omega)
  have hnew : ∀ posted ∈ s.files,
      posted.file.path ≠ notificationPath notifyDir (notifier.notificationCount + 1) := by
    intro posted hposted hpath
    by_cases hrun : posted.run = s.run
    · obtain ⟨count, hcount, hold⟩ := hnumbered.numbers notifier hnotifier posted hposted hrun
      have hsame := notificationPath_injective notifyDir (hold.symm.trans hpath)
      omega
    · exact hothers posted hposted hrun hpath
  rw [hdir, htake]
  refine ⟨fun posted hposted ↦ ?_, ?_, ?_, ?_⟩
  · rcases List.mem_append.mp hposted with hold | hlast
    · exact hnumbered.runs posted (List.mem_of_mem_filter hold)
    · rw [List.mem_singleton.mp hlast]
      rfl
  · rintro _ ⟨⟩
    rfl
  · rintro _ ⟨⟩ posted hposted hrun
    rcases List.mem_append.mp hposted with hold | hlast
    · obtain ⟨count, hcount, hpath⟩ :=
        hnumbered.numbers notifier hnotifier posted (List.mem_of_mem_filter hold) hrun
      exact ⟨count, hcount.trans (Nat.le_succ _), hpath⟩
    · rw [List.mem_singleton.mp hlast]
      exact ⟨_, le_rfl, rfl⟩
  · rw [NotifyDirectory.post, hnumbered.replaced]
    simpa using hnew

theorem Numbered.step {label : DirectoryLabel} {next : NotifyDirectory}
    (hnumbered : Numbered notifyDir s) (hfree : PublishesFree s label)
    (hstep : s.step notifyDir label = some next) : Numbered notifyDir next := by
  cases label with
  | start hc =>
    dsimp only [NotifyDirectory.step] at hstep
    split at hstep <;> cases hstep
    exact hnumbered.restart hc
  | stop =>
    cases hstep
    exact hnumbered.withProcess (by simp)
  | consume path =>
    cases hstep
    exact hnumbered.consume path
  | work io op =>
    obtain ⟨notifier, hnotifier, hnext⟩ := Option.map_eq_some_iff.mp hstep
    cases hrun : runNotifierOp io notifier op with
    | error stop =>
      rw [hrun] at hnext
      rw [← hnext]
      exact hnumbered.withProcess (by simp)
    | ok after =>
      rw [hrun] at hnext
      have hpublishes : publishes io notifier op = true →
          NumberFree s notifier := hfree notifier hnotifier
      rw [publishes, hrun] at hpublishes
      cases renameStep_of_runNotifierOp hrun with
      | none hc =>
        simp only [List.drop_length, List.foldl_nil] at hnext
        rw [← hnext]
        exact hnumbered.withProcess (by simpa using ⟨notifier, hnotifier, rfl, rfl⟩)
      | renames hc lines hname =>
        simp only [List.drop_left, List.foldl_cons, List.foldl_nil] at hnext
        rw [← hnext]
        exact hnumbered.post hnotifier (hpublishes (by simp)) hname hc lines _

/-- In any sequence of runs over one notification directory, with any flushes and a consumer
that removes any files at any time, no `rename` replaces a file, as long as a file is only
published when no file of an earlier run is left with its number and its name is not cut
off. -/
theorem notifications_kept (notifyDir : Bytes) (files : List Publication) {s : NotifyDirectory}
    (hreaches : ReachesWhen (NotifyDirectory.step notifyDir) PublishesFree (.start files) s) :
    s.replaced = [] := by
  have hnumbered : Numbered notifyDir s :=
    hreaches.invariant (Numbered notifyDir) (numbered_start files)
      fun _ _ _ hnumbered hfree hstep ↦ hnumbered.step hfree hstep
  exact hnumbered.replaced

/-- The consumer has removed the file of the first run before the second one publishes. -/
theorem notifications_kept_consumed :
    ∃ s : NotifyDirectory, s.files = [⟨2, ⟨literal "/n/00000001.txt", [literal "/b"]⟩⟩] ∧
      s.replaced = [] := by
  have hrun : (runChecked (NotifyDirectory.step (literal "/n"))
      (fun s label ↦ decide (PublishesFree s label)) (.start [])
      [.start (newHashCache 2 4 (fun _ ↦ ⟨0, 0, 0, 0, 0⟩) fun _ ↦ 0),
        .work .faultless (.report ⟨literal "/a", by decide⟩), .work .faultless .tick,
        .consume (literal "/n/00000001.txt"), .stop,
        .start (newHashCache 2 4 (fun _ ↦ ⟨0, 0, 0, 0, 0⟩) fun _ ↦ 0),
        .work .faultless (.report ⟨literal "/b", by decide⟩), .work .faultless .tick]).map
      NotifyDirectory.files = some [⟨2, ⟨literal "/n/00000001.txt", [literal "/b"]⟩⟩] := by
    decide
  obtain ⟨s, hreaches, hfiles⟩ := exists_reachesWhen_of_run hrun
  exact ⟨s, hfiles, notifications_kept _ _ hreaches⟩

/-- The second run publishes before the consumer has come to the file of the first one. -/
theorem notifications_kept_fails :
    ∃ s : NotifyDirectory, Reaches (NotifyDirectory.step (literal "/n")) (.start []) s ∧
      s.files = [⟨2, ⟨literal "/n/00000001.txt", [literal "/b"]⟩⟩] ∧
      s.replaced = [⟨1, ⟨literal "/n/00000001.txt", [literal "/a"]⟩⟩] := by
  have hrun : (run (NotifyDirectory.step (literal "/n")) (.start [])
      [.start (newHashCache 2 4 (fun _ ↦ ⟨0, 0, 0, 0, 0⟩) fun _ ↦ 0),
        .work .faultless (.report ⟨literal "/a", by decide⟩), .work .faultless .tick, .stop,
        .start (newHashCache 2 4 (fun _ ↦ ⟨0, 0, 0, 0, 0⟩) fun _ ↦ 0),
        .work .faultless (.report ⟨literal "/b", by decide⟩), .work .faultless .tick]).map
      (fun s ↦ (s.files, s.replaced)) =
      some ([⟨2, ⟨literal "/n/00000001.txt", [literal "/b"]⟩⟩],
        [⟨1, ⟨literal "/n/00000001.txt", [literal "/a"]⟩⟩]) := by decide
  obtain ⟨s, hreaches, hseen⟩ := exists_reaches_of_run hrun
  simp only [Prod.mk.injEq] at hseen
  exact ⟨s, hreaches, hseen.1, hseen.2⟩

end DirWatcher.Cache
