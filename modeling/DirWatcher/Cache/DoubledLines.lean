import DirWatcher.Cache.AddResults
import DirWatcher.Cache.WriteFailures
import DirWatcher.Foundation.Runs

/-!
Directories that a notification file lists twice. The cache holds each directory once, but
a directory whose add returns zero is written beside everything the cache holds. The tests
for room and load come before the lookup, so it may be one of the directories held.
-/

set_option autoImplicit false
set_option relaxedAutoImplicit false

namespace DirWatcher.Cache

open Source Foundation.FirstOccurrences Foundation.Runs

variable {io : FlushIo} {hc : HashCache} {accepted : List Bytes} {directories : List CString}
  {notifier after : Notifier}

/-! ### Runs of reports and flushes -/

/-- A report or a flush of the timer, with the answers to the calls on the files. -/
def notifierStep (notifier : Notifier) (label : FlushIo × NotifierOp) : Option Notifier :=
  (runNotifierOp label.1 notifier label.2).toOption

/-- One of the two tests with which `hash_cache_add` begins refuses the item. -/
def Full (hc : HashCache) (data : Bytes) : Prop :=
  hc.memSize - hc.memoryPos < data.length ∨ hc.hashSize / 2 < hc.hashPos

instance (hc : HashCache) (data : Bytes) : Decidable (Full hc data) :=
  inferInstanceAs (Decidable (_ ∨ _))

/-- The item of an entry. -/
def itemAt (hc : HashCache) (i : ℕ) : Bytes :=
  readBytes hc.memory (hc.entries i).memoryPos (hc.entries i).datalen

/-- An item that the cache refuses is not in it, and the count of one that it accepts does
not become zero. -/
def AddedAlone (hc : HashCache) (data : Bytes) : Prop :=
  ∀ i < hc.hashPos, itemAt hc i = data → ¬ Full hc data ∧ (hc.entries i).count + 1 ≠ 0

instance (hc : HashCache) (data : Bytes) : Decidable (AddedAlone hc data) :=
  inferInstanceAs (Decidable (∀ i < hc.hashPos, _ → _))

/-- A report is made while its directory can be added alone. -/
def ReportsAlone (notifier : Notifier) (label : FlushIo × NotifierOp) : Prop :=
  ∀ directory, label.2 = .report directory → AddedAlone notifier.hc directory.terminated

instance (notifier : Notifier) (label : FlushIo × NotifierOp) :
    Decidable (ReportsAlone notifier label) :=
  match label with
  | (_, .report directory) =>
    decidable_of_iff (AddedAlone notifier.hc directory.terminated)
      ⟨fun halone _ heq ↦ NotifierOp.report.inj heq ▸ halone, fun halone ↦ halone directory rfl⟩
  | (_, .tick) => isTrue fun _ heq ↦ nomatch heq

/-! ### The files of a flush -/

/-- A flush renames a file with some of the lines it is to write, in their order. -/
theorem Holds.renamedFile_sublist (hholds : Holds hc accepted) {parentDir : Option CString}
    {lines : List Bytes} (hrenamed : renamedFile io hc parentDir = .ok (some lines)) :
    lines.Sublist (flushedLines parentDir accepted) := by
  by_cases hnothing : flushedLines parentDir accepted = []
  · rw [hholds.renamedFile_of_nothing hnothing] at hrenamed
    cases hrenamed
  cases hopen : io.openFails with
  | true =>
    rw [hholds.renamedFile_of_openFails hnothing hopen] at hrenamed
    cases hrenamed
  | false =>
    by_cases hfails : SomeFails io 0 (flushedLines parentDir accepted).length
    · by_cases hitems : distinct accepted = []
      · rw [hholds.renamedFile_of_unnoticed hitems hopen hfails] at hrenamed
        cases hrenamed
        exact List.nil_sublist _
      · rw [hholds.renamedFile_of_noticed hitems hopen hfails] at hrenamed
        cases hrenamed
    · rw [hholds.renamedFile_of_written hnothing hopen hfails] at hrenamed
      cases hrenamed
      exact List.take_sublist _ _

/-- A flush that returns has emptied the cache, and has published nothing or one file. -/
theorem Holds.flushHashCache_ok (hholds : Holds notifier.hc accepted)
    {parentDir : Option CString} (hflush : flushHashCache io notifier parentDir = .ok after) :
    after.hc = Source.hashCacheClear notifier.hc ∧
      (after.published = notifier.published ∨ ∃ file,
        after.published = notifier.published ++ [file] ∧
          file.lines.Sublist (flushedLines parentDir accepted)) := by
  rcases renamed_of_flush hflush with rfl | ⟨lines, hrenamed, hrename⟩
  · exact ⟨rfl, Or.inl rfl⟩
  · obtain ⟨-, rfl⟩ := eq_of_renameTempFile_eq_ok hrename
    exact ⟨rfl, Or.inr ⟨_, rfl, hholds.renamedFile_sublist hrenamed⟩⟩

/-- The lines of a flush are different unless the directory that did not fit is also in the
cache. -/
theorem nodup_flushedLines_iff {parentDir : Option CString} :
    (flushedLines parentDir (directories.map CString.terminated)).Nodup ↔
      ∀ directory ∈ parentDir, directory ∉ directories := by
  rw [flushedLines_terminated, List.nodup_map_iff bytes_injective]
  cases parentDir with
  | none => simpa using nodup_distinct directories
  | some directory => simp [nodup_distinct]

/-! ### One step -/

/-- No file published so far lists a line twice. -/
def ListsOnce (notifier : Notifier) : Prop := ∀ file ∈ notifier.published, file.lines.Nodup

/-- The cache holds some directories, and no file lists a line twice. -/
structure Undoubled (notifier : Notifier) : Prop where
  size : 1 ≤ notifier.hc.hashSize
  holds : ∃ directories : List CString, Holds notifier.hc (directories.map CString.terminated)
  once : ListsOnce notifier

theorem Holds.full_iff (hholds : Holds hc accepted) (data : Bytes) :
    Full hc data ↔ Refuses hc.hashSize hc.memSize accepted data := by
  rw [Full, Refuses, hholds.filled, hholds.used]

/-- The count of an item after another add. -/
theorem ofNat_add_one_eq_zero_iff (n : ℕ) :
    UInt32.ofNat n + 1 = 0 ↔ (n + 1) % 2 ^ 32 = 0 := by
  have hsum : UInt32.ofNat n + 1 = UInt32.ofNat (n + 1) := (UInt32.ofNat_add n 1).symm
  rw [hsum, ← UInt32.toNat_inj, UInt32.toNat_ofNat']
  rfl

/-- What the test for a report says of the items held. -/
theorem Holds.addedAlone_iff (hholds : Holds hc accepted) (data : Bytes) :
    AddedAlone hc data ↔ (data ∈ accepted →
      ¬ Refuses hc.hashSize hc.memSize accepted data ∧
        (accepted.count data + 1) % 2 ^ 32 ≠ 0) := by
  rw [ne_eq, ← ofNat_add_one_eq_zero_iff, ← hholds.full_iff]
  constructor
  · intro halone hmem
    obtain ⟨i, hget⟩ := List.mem_iff_getElem?.mp (mem_distinct.mpr hmem)
    have hentry := hholds.entry i data hget
    have hlt : i < hc.hashPos := hholds.used ▸ (List.getElem?_eq_some_iff.mp hget).1
    have hitem : itemAt hc i = data := by rw [itemAt, hentry.datalen, hentry.bytes]
    rw [← hentry.count]
    exact halone i hlt hitem
  · intro halone i hlt hitem
    obtain ⟨held, hget, hentry⟩ := hholds.entry_of_lt hlt
    rw [itemAt, hentry.datalen, hentry.bytes] at hitem
    subst hitem
    rw [hentry.count]
    exact halone (mem_distinct.mp (List.mem_of_getElem? hget))

theorem eq_ok_of_toOption_eq_some {ε α : Type} {result : Except ε α} {value : α}
    (hsome : result.toOption = some value) : result = .ok value := by
  cases result with
  | error stop => cases hsome
  | ok found => exact congrArg Except.ok (Option.some.inj hsome)

theorem Undoubled.flush (hholds : Holds notifier.hc (directories.map CString.terminated))
    (hsize : 1 ≤ notifier.hc.hashSize) (honce : ListsOnce notifier) {parentDir : Option CString}
    (hnew : ∀ directory ∈ parentDir, directory ∉ directories)
    (hflush : flushHashCache io notifier parentDir = .ok after) : Undoubled after := by
  obtain ⟨hcleared, hpublished⟩ := hholds.flushHashCache_ok hflush
  refine ⟨?_, ⟨[], ?_⟩, ?_⟩
  · rw [hcleared]
    exact hsize.trans_eq (foldl_clearEntry_sizes notifier.hc _).1.symm
  · rw [hcleared]
    exact hholds.hashCacheClear
  · rcases hpublished with hsame | ⟨file, hfile, hsublist⟩
    · rw [ListsOnce, hsame]
      exact honce
    · intro published hmem
      rw [hfile] at hmem
      rcases List.mem_append.mp hmem with hold | hlast
      · exact honce published hold
      · rw [List.mem_singleton.mp hlast]
        exact hsublist.nodup (nodup_flushedLines_iff.mpr hnew)

theorem Undoubled.step {label : FlushIo × NotifierOp} (hundoubled : Undoubled notifier)
    (halone : ReportsAlone notifier label) (hstep : notifierStep notifier label = some after) :
    Undoubled after := by
  obtain ⟨hsize, ⟨directories, hholds⟩, honce⟩ := hundoubled
  obtain ⟨io, op⟩ := label
  have hrun := eq_ok_of_toOption_eq_some hstep
  cases op with
  | tick => exact Undoubled.flush hholds hsize honce (by simp) hrun
  | report directory =>
    have hreport := (hholds.addedAlone_iff _).mp (halone directory rfl)
    rw [List.mem_map_of_injective terminated_injective] at hreport
    rw [runNotifierOp, reportDirectory] at hrun
    by_cases hrefuses : Refuses notifier.hc.hashSize notifier.hc.memSize
        (directories.map CString.terminated) directory.terminated
    · rw [hholds.hashCacheAdd_of_refuses hrefuses] at hrun
      refine Undoubled.flush hholds hsize honce ?_ hrun
      rintro _ ⟨⟩ hmem
      exact (hreport hmem).1 hrefuses
    · obtain ⟨added, hadd, hafter, hsizes, -, -⟩ :=
        hholds.hashCacheAdd_of_not_refuses hsize hrefuses
      rw [count_append_singleton, if_pos rfl] at hadd
      have hresult : (UInt32.ofNat ((directories.map CString.terminated).count
          directory.terminated + 1)).toInt32 ≠ 0 := by
        rw [ne_eq, toInt32_ofNat_eq_zero_iff]
        by_cases hmem : directory ∈ directories
        · exact (hreport hmem).2
        · rw [List.count_eq_zero_of_not_mem]
          · decide
          · rwa [List.mem_map_of_injective terminated_injective]
      simp only [hadd, if_neg hresult] at hrun
      cases hrun
      exact ⟨hsize.trans_eq hsizes.symm, ⟨directories ++ [directory], by simpa using hafter⟩,
        honce⟩

theorem exists_doubled_of_flush
    (hholds : Holds notifier.hc (directories.map CString.terminated)) {directory : CString}
    (hmem : directory ∈ directories) (hname : ¬ NameOverflows notifier) :
    ∃ after, flushHashCache .faultless notifier (some directory) = .ok after ∧
      ¬ ListsOnce after := by
  rcases hholds.flushHashCache_faultless (some directory) with
    ⟨after, hflush, -, -, hlines⟩ | ⟨-, hoverflows⟩
  · refine ⟨after, hflush, fun honce ↦ ?_⟩
    have hlast : flushedLines (some directory) (directories.map CString.terminated) ∈
        after.published.map Publication.lines := by
      rw [hlines, if_neg (by simp [flushedLines])]
      exact List.mem_append_right _ (List.mem_singleton_self _)
    obtain ⟨file, hfile, heq⟩ := List.mem_map.mp hlast
    exact nodup_flushedLines_iff.mp (heq ▸ honce file hfile) directory rfl hmem
  · exact absurd hoverflows hname

/-- A report that cannot add its directory alone publishes a file that lists it twice, if
no call on the files fails. -/
theorem Undoubled.exists_doubled (hundoubled : Undoubled notifier) {directory : CString}
    (halone : ¬ AddedAlone notifier.hc directory.terminated) (hname : ¬ NameOverflows notifier) :
    ∃ after, runNotifierOp .faultless notifier (.report directory) = .ok after ∧
      ¬ ListsOnce after := by
  obtain ⟨hsize, ⟨directories, hholds⟩, -⟩ := hundoubled
  rw [hholds.addedAlone_iff, List.mem_map_of_injective terminated_injective] at halone
  push Not at halone
  obtain ⟨hmem, hcounts⟩ := halone
  rw [runNotifierOp, reportDirectory]
  by_cases hrefuses : Refuses notifier.hc.hashSize notifier.hc.memSize
      (directories.map CString.terminated) directory.terminated
  · rw [hholds.hashCacheAdd_of_refuses hrefuses]
    exact exists_doubled_of_flush hholds hmem hname
  · obtain ⟨added, hadd, hafter, -, -, -⟩ := hholds.hashCacheAdd_of_not_refuses hsize hrefuses
    have hresult := (toInt32_ofNat_eq_zero_iff _).mpr (hcounts hrefuses)
    rw [count_append_singleton, if_pos rfl] at hadd
    simp only [hadd, if_pos hresult]
    have hafter' : Holds added ((directories ++ [directory]).map CString.terminated) := by
      simpa using hafter
    exact exists_doubled_of_flush hafter' (List.mem_append_left _ hmem) hname

/-! ### Runs -/

/-- In a run from a new cache of any sizes, with any answers to the calls on the files, no
file lists a directory twice, as long as no report finds its directory in a cache that
refuses it or has counted it up to the end. -/
theorem published_lines_nodup (hashSize memSize : ℕ) (hsize : 1 ≤ hashSize)
    (entries : ℕ → HashCacheEntry) (memory : ℕ → UInt8) (notifyDir : Bytes)
    (hreaches : ReachesWhen notifierStep ReportsAlone
      (newNotifier notifyDir (newHashCache hashSize memSize entries memory)) after) :
    ∀ file ∈ after.published, file.lines.Nodup := by
  have hstart : Undoubled (newNotifier notifyDir (newHashCache hashSize memSize entries memory)) :=
    ⟨hsize, ⟨[], holds_newHashCache hashSize memSize entries memory⟩, by simp [ListsOnce,
      newNotifier]⟩
  exact (hreaches.invariant Undoubled hstart fun _ _ _ hundoubled halone hstep ↦
    hundoubled.step halone hstep).once

/-- A table of two slots with room for one path. -/
def smallNotifier : Notifier :=
  newNotifier (literal "/n") (newHashCache 2 4 (fun _ ↦ ⟨0, 0, 0, 0, 0⟩) fun _ ↦ 0)

/-- Another directory than the one held is refused, and written beside it. -/
theorem published_lines_nodup_two : ∃ after : Notifier,
    after.published.map Publication.lines = [[literal "/b", literal "/a"]] ∧
      ∀ file ∈ after.published, file.lines.Nodup := by
  have hrun : (runChecked notifierStep (fun notifier label ↦ decide (ReportsAlone notifier label))
      smallNotifier [(.faultless, .report ⟨literal "/a", by decide⟩),
        (.faultless, .report ⟨literal "/b", by decide⟩)]).map
      (fun after ↦ after.published.map Publication.lines) =
        some [[literal "/b", literal "/a"]] := by
    decide
  obtain ⟨after, hreaches, hlines⟩ := exists_reachesWhen_of_run hrun
  exact ⟨after, hlines, published_lines_nodup 2 4 (by decide) _ _ _ hreaches⟩

/-- The directory that is held is refused, and the file lists it twice. -/
theorem published_lines_doubled : ∃ after : Notifier, Reaches notifierStep smallNotifier after ∧
    ∃ file ∈ after.published, ¬ file.lines.Nodup := by
  have hrun : (run notifierStep smallNotifier
      [(.faultless, .report ⟨literal "/a", by decide⟩),
        (.faultless, .report ⟨literal "/a", by decide⟩)]).map
      (fun after ↦ after.published) =
        some [⟨literal "/n/00000001.txt", [literal "/a", literal "/a"]⟩] := by
    decide
  obtain ⟨after, hreaches, hfiles⟩ := exists_reaches_of_run hrun
  exact ⟨after, hreaches, _, hfiles ▸ List.mem_singleton_self _, by decide⟩

end DirWatcher.Cache
