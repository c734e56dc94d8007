import DirWatcher.Cache.Publication
import DirWatcher.Foundation.TextLines
import Mathlib.Data.List.DropRight

/-!
The notification files as their reader sees them. A file has a line for each path, and
nothing in a path is escaped. The reader takes the file line by line and strips the white
space off both ends of each line. It gets back the paths that have no newline in them and
no white space at their ends.
-/

set_option autoImplicit false
set_option relaxedAutoImplicit false

namespace DirWatcher.Cache

open Source Foundation.FirstOccurrences Foundation.TextLines

/-- The bytes of a notification file. -/
def fileText (lines : List Bytes) : Bytes := unlines newline lines

/-- The white space of `str.strip`. -/
def isSpace (byte : UInt8) : Bool := byte == 32 || 9 ≤ byte && byte ≤ 13

def strip (text : Bytes) : Bytes := (text.dropWhile isSpace).rdropWhile isSpace

/-- The loop of `_get_notifications` over the lines of one file. The newline of a line
would be stripped with the rest. -/
def readNotification (text : Bytes) : List Bytes := (lines newline text).map strip

/-- A path without newlines that neither begins nor ends in white space. -/
structure PlainPath (path : Bytes) : Prop where
  newline : newline ∉ path
  strip : strip path = path

instance (path : Bytes) : Decidable (PlainPath path) :=
  decidable_of_iff (newline ∉ path ∧ strip path = path)
    ⟨fun ⟨hnewline, hstrip⟩ ↦ ⟨hnewline, hstrip⟩, fun ⟨hnewline, hstrip⟩ ↦ ⟨hnewline, hstrip⟩⟩

/-! ### Reading back -/

theorem readNotification_fileText {paths : List Bytes} (hnewline : ∀ path ∈ paths, newline ∉ path) :
    readNotification (fileText paths) = paths.map strip := by
  rw [readNotification, fileText, lines_unlines hnewline]

/-- The reader gets the paths back exactly if they are all plain. -/
theorem readNotification_fileText_iff {paths : List Bytes} :
    readNotification (fileText paths) = paths ↔ ∀ path ∈ paths, PlainPath path := by
  constructor
  · intro hread
    have hlength := congrArg List.length hread
    rw [readNotification, fileText, List.length_map, length_lines_unlines] at hlength
    have hcount : paths.flatten.count newline = 0 := by omega
    have hnewline : ∀ path ∈ paths, newline ∉ path := fun path hpath hmem ↦
      List.count_eq_zero.mp hcount (List.mem_flatten_of_mem hpath hmem)
    rw [readNotification_fileText hnewline] at hread
    have hstrip := List.map_inj_left.mp (hread.trans (List.map_id paths).symm)
    exact fun path hpath ↦ ⟨hnewline path hpath, hstrip path hpath⟩
  · intro hplain
    rw [readNotification_fileText fun path hpath ↦ (hplain path hpath).newline]
    exact (List.map_congr_left fun path hpath ↦ (hplain path hpath).strip).trans (List.map_id _)

/-- Paths without newlines are determined by the file. -/
theorem eq_of_fileText_eq {first second : List Bytes} (hfirst : ∀ path ∈ first, newline ∉ path)
    (hsecond : ∀ path ∈ second, newline ∉ path) (hsame : fileText first = fileText second) :
    first = second := by
  rw [← lines_unlines hfirst, ← lines_unlines hsecond]
  exact congrArg (lines newline) hsame

/-! ### The files of a flush -/

variable {notifier : Notifier} {paths : List CString}

/-- The bytes of the files that have been published since. -/
def newFiles (before after : Notifier) : List Bytes :=
  (after.published.drop before.published.length).map fun file ↦ fileText file.lines

/-- A flush of paths without newlines, from a cache that holds them and with one that did
not fit, unless the name of the file fills its buffer: split at its newlines the file gives
the paths back, and the reader gets them without the white space at their ends. Two lists of
such paths never give the same file. -/
theorem flush_reads_back (hholds : Holds notifier.hc (paths.map CString.terminated))
    (hnodup : paths.Nodup) (parentDir : Option CString)
    (hnewline : ∀ path ∈ (parentDir.toList ++ paths).map CString.bytes, newline ∉ path) :
    ((∃ after, flushHashCache .faultless notifier parentDir = .ok after ∧
        (newFiles notifier after).map (lines newline) =
          (if parentDir.toList ++ paths = [] then []
            else [(parentDir.toList ++ paths).map CString.bytes]) ∧
        (newFiles notifier after).map readNotification =
          if parentDir.toList ++ paths = [] then []
          else [((parentDir.toList ++ paths).map CString.bytes).map strip]) ∨
      NameOverflows notifier) ∧
    ∀ other : List Bytes, (∀ path ∈ other, newline ∉ path) →
      fileText other = fileText ((parentDir.toList ++ paths).map CString.bytes) →
      other = (parentDir.toList ++ paths).map CString.bytes := by
  refine ⟨?_, fun other hother hsame ↦ eq_of_fileText_eq hother hnewline hsame⟩
  rcases hholds.flushHashCache_faultless parentDir with
    ⟨after, hflush, -, -, hpublished⟩ | ⟨-, hname⟩
  · have hnew := congrArg (List.drop notifier.published.length) hpublished
    rw [List.drop_left' (by simp), ← List.map_drop, flushedLines_terminated,
      distinct_of_nodup hnodup] at hnew
    have hfiles : newFiles notifier after =
        if parentDir.toList ++ paths = [] then []
        else [fileText ((parentDir.toList ++ paths).map CString.bytes)] := by
      have hmapped := congrArg (List.map fileText) hnew
      rw [List.map_map] at hmapped
      refine hmapped.trans ?_
      by_cases hempty : parentDir.toList ++ paths = []
      · simp [hempty]
      · rw [if_neg (by simpa using hempty), if_neg hempty, List.map_singleton]
    refine Or.inl ⟨after, hflush, ?_, ?_⟩ <;> rw [hfiles, apply_ite (List.map _), List.map_nil,
      List.map_singleton]
    · rw [fileText, lines_unlines hnewline]
    · rw [readNotification_fileText hnewline]
  · exact Or.inr hname

/-- What a run of reports and flushes has written. -/
def filesWritten (ops : List NotifierOp) : Except Stop (List Bytes) :=
  (ops.foldlM (runNotifierOp .faultless)
    (newNotifier (literal "/n") (newHashCache 4 64 (fun _ ↦ ⟨0, 0, 0, 0, 0⟩) fun _ ↦ 0))).map
    fun notifier ↦ notifier.published.map fun file ↦ fileText file.lines

/-- One path with a newline gives the same file as two paths. -/
theorem newline_reads_as_two :
    filesWritten [.report ⟨literal "/a\n/b", by decide⟩, .tick] = .ok [literal "/a\n/b\n"] ∧
      filesWritten [.report ⟨literal "/a", by decide⟩, .report ⟨literal "/b", by decide⟩, .tick] =
        .ok [literal "/a\n/b\n"] ∧
      readNotification (literal "/a\n/b\n") = [literal "/a", literal "/b"] := by
  decide

/-- A flush of two plain paths. -/
theorem flush_reads_back_two : ∃ hc after,
    runOps (newHashCache 4 64 (fun _ ↦ ⟨0, 0, 0, 0, 0⟩) fun _ ↦ 0)
        [.add (literal "/a" ++ [0]), .add (literal "/b" ++ [0])] = some hc ∧
      flushHashCache .faultless (newNotifier (literal "/n") hc) none = .ok after ∧
      (newFiles (newNotifier (literal "/n") hc) after).map readNotification =
        [[literal "/a", literal "/b"]] := by
  obtain ⟨hc, hrun, hholds, -, -⟩ := holds_runOps 4 64 (by decide) (fun _ ↦ ⟨0, 0, 0, 0, 0⟩)
    (fun _ ↦ 0) [.add (literal "/a" ++ [0]), .add (literal "/b" ++ [0])]
  have hname : ¬ NameOverflows (newNotifier (literal "/n") hc) :=
    (by decide : ¬ (notificationPath (literal "/n") 1).length = maxPathLen)
  have hpaths : Holds (newNotifier (literal "/n") hc).hc
      (([⟨literal "/a", by decide⟩, ⟨literal "/b", by decide⟩] : List CString).map
        CString.terminated) := hholds
  have hflush := flush_reads_back hpaths (by decide) none (by decide)
  obtain ⟨after, hafter, -, hread⟩ := hflush.1.resolve_right hname
  exact ⟨hc, after, hrun, hafter, hread⟩

end DirWatcher.Cache
