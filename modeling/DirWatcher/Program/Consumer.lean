import DirWatcher.Cache.FileNames
import DirWatcher.Foundation.Sieve
import DirWatcher.Program.Delivery
import DirWatcher.Program.Published

/-!
The reader of the notification directory, `_get_notifications` of the test script. It takes
the lines of all files whose names have the form of a notification, and leaves out those that
lie below another one. What is left stands for all that has been reported.
-/

set_option autoImplicit false
set_option relaxedAutoImplicit false

namespace DirWatcher.Program

open Source Environment Foundation.Runs Foundation.Sieve Foundation.TextLines
  Foundation.SeparatedPaths Cache Watching

/-! ### `_get_notifications` -/

/-- The match of `^.*\\d{8}.txt$`, for a name with no newline in it. -/
def isNotificationName (name : Bytes) : Bool :=
  let tail := name.drop (name.length - 12)
  decide (12 ≤ name.length) && (tail.take 8).all (fun byte ↦ 48 ≤ byte && byte ≤ 57) &&
    tail.drop 9 == literal "txt"

/-- The lines of the files with such a name. An entry of the directory is a name with the
bytes of the file. -/
def rawNotifications (entries : List (Bytes × Bytes)) : List Bytes :=
  (entries.filter fun entry ↦ isNotificationName entry.1).flatMap fun entry ↦
    readNotification entry.2

/-- The loop that weeds out the lower directories, for at most `fuel` turns. -/
def weedOut : ℕ → List Bytes → List Bytes
  | 0, _ => []
  | _, [] => []
  | fuel + 1, head :: rest =>
    let dups := rest.filter fun raw ↦ (head ++ [slash]).isPrefixOf raw
    head :: weedOut fuel (rest.filter fun raw ↦ !dups.contains raw)

/-- `raw_notifications.sort(key=len)`, and the loop. -/
def getNotifications (entries : List (Bytes × Bytes)) : List Bytes :=
  let sorted := (rawNotifications entries).insertionSort fun first second ↦
    first.length ≤ second.length
  weedOut sorted.length sorted

/-! ### What the loop keeps -/

def coversPath (path other : Bytes) : Bool := (path ++ [slash]).isPrefixOf other

theorem coversPath_iff {path other : Bytes} : coversPath path other = true ↔ AbovePath path other :=
  List.isPrefixOf_iff_prefix

theorem coversPath_eq_false_iff {path other : Bytes} :
    coversPath path other = false ↔ ¬ AbovePath path other := by
  rw [← coversPath_iff, Bool.not_eq_true]

theorem weedOut_eq_sieve (fuel : ℕ) (raw : List Bytes) :
    weedOut fuel raw = sieve coversPath fuel raw := by
  induction fuel generalizing raw with
  | zero => rfl
  | succ fuel ih =>
    cases raw with
    | nil => rfl
    | cons head rest =>
      have hsame : (rest.filter fun raw ↦
          !(rest.filter fun raw ↦ (head ++ [slash]).isPrefixOf raw).contains raw) =
          rest.filter fun other ↦ !coversPath head other := by
        refine List.filter_congr fun other hother ↦ ?_
        rw [Bool.not_inj_iff, Bool.eq_iff_iff, List.contains_iff_mem, List.mem_filter]
        exact and_iff_right hother
      rw [weedOut, hsame, ih, sieve]

theorem ordered_insertionSort (raw : List Bytes) :
    (raw.insertionSort fun first second ↦ first.length ≤ second.length).Pairwise
      fun earlier later ↦ coversPath later earlier = false := by
  refine (List.pairwise_insertionSort _ raw).imp fun hlength ↦ ?_
  rw [coversPath_eq_false_iff]
  exact fun habove ↦ absurd habove.length_lt (not_lt.mpr hlength)

/-- The reader keeps just the lines that no other line lies above. -/
theorem mem_getNotifications_iff {entries : List (Bytes × Bytes)} {path : Bytes} :
    path ∈ getNotifications entries ↔ path ∈ rawNotifications entries ∧
      ∀ other ∈ rawNotifications entries, ¬ AbovePath other path := by
  rw [getNotifications, weedOut_eq_sieve, mem_sieve_iff ?_ ?_ le_rfl (ordered_insertionSort _)]
  · simp only [List.mem_insertionSort, coversPath_eq_false_iff]
  · intro first second third hfirst hsecond
    rw [coversPath_iff] at hfirst hsecond ⊢
    exact hfirst.trans hsecond
  · intro path
    rw [coversPath_eq_false_iff]
    exact not_above_self

/-- Each line is kept, or one above it is. -/
theorem exists_mem_getNotifications {entries : List (Bytes × Bytes)} {path : Bytes}
    (hpath : path ∈ rawNotifications entries) :
    ∃ kept ∈ getNotifications entries, kept = path ∨ AbovePath kept path := by
  obtain ⟨kept, hkept, hcovers⟩ := exists_mem_sieve coversPath le_rfl
    ((List.mem_insertionSort fun first second : Bytes ↦ first.length ≤ second.length).mpr hpath)
  refine ⟨kept, ?_, hcovers.imp_right coversPath_iff.mp⟩
  rwa [getNotifications, weedOut_eq_sieve]

/-! ### The names in the directory -/

theorem isNotificationName_append {front digits : Bytes} (hlength : digits.length = 8)
    (hdigits : ∀ byte ∈ digits, IsDigit byte) :
    isNotificationName (front ++ (digits ++ literal ".txt")) = true := by
  have htail : (digits ++ literal ".txt").length = 12 := by
    rw [List.length_append, hlength]
    rfl
  have hdrop : (front ++ (digits ++ literal ".txt")).drop
      ((front ++ (digits ++ literal ".txt")).length - 12) = digits ++ literal ".txt" := by
    rw [List.length_append, htail, Nat.add_sub_cancel, List.drop_left]
  have hend : (digits ++ literal ".txt").drop 9 = literal "txt" := by
    rw [List.drop_append, List.drop_eq_nil_of_le (by omega), hlength]
    rfl
  rw [isNotificationName, hdrop, List.take_left' hlength, hend, List.length_append, htail]
  simpa [IsDigit, UInt8.le_iff_toNat_le] using hdigits

theorem isNotificationName_numbered (number : ℕ) :
    isNotificationName (paddedDecimal number ++ literal ".txt") = true := by
  have hlength : 8 ≤ (paddedDecimal number).length := by
    simp only [paddedDecimal, List.length_append, List.length_replicate]
    omega
  have hlast : ((paddedDecimal number).drop ((paddedDecimal number).length - 8)).length = 8 := by
    rw [List.length_drop]
    omega
  rw [← List.take_append_drop ((paddedDecimal number).length - 8) (paddedDecimal number),
    List.append_assoc]
  exact isNotificationName_append hlast fun byte hbyte ↦
    isDigit_of_mem_paddedDecimal (List.mem_of_mem_drop hbyte)

/-- The reader takes neither the temporary file nor the file with the errors. -/
theorem not_isNotificationName :
    isNotificationName (literal "temp") = false ∧
      isNotificationName (literal "error.txt") = false := by decide

/-- The published files as entries of the notification directory. -/
def noticeEntries (notifyDir : Bytes) (files : List Publication) : List (Bytes × Bytes) :=
  files.map fun file ↦ (file.path.drop (notifyDir.length + 1), fileText file.lines)

theorem drop_notificationPath (notifyDir : Bytes) (number : ℕ) :
    (notificationPath notifyDir number).drop (notifyDir.length + 1) =
      paddedDecimal number ++ literal ".txt" := by
  rw [notificationPath, joinPath, List.drop_append, List.drop_eq_nil_of_le (by omega)]
  simp

/-- The lines that the reader takes from the published files, and no others. -/
theorem mem_rawNotifications_iff {notifyDir : Bytes} {notifier : Notifier}
    (hnamed : Named notifyDir notifier)
    (hwhole : ∀ number ≤ notifier.published.length,
      (notificationPath notifyDir number).length < maxPathLen)
    {files : List Publication} (hfiles : files ⊆ notifier.published)
    {others listing : List (Bytes × Bytes)}
    (hothers : ∀ entry ∈ others, isNotificationName entry.1 = false)
    (hlisting : listing.Perm (others ++ noticeEntries notifyDir files)) {path : Bytes} :
    path ∈ rawNotifications listing ↔
      ∃ file ∈ files, path ∈ readNotification (fileText file.lines) := by
  have hname : ∀ file ∈ files,
      isNotificationName (file.path.drop (notifyDir.length + 1)) = true := by
    intro file hfile
    obtain ⟨i, hi⟩ := List.getElem?_of_mem (hfiles hfile)
    have hlt := (List.getElem?_eq_some_iff.mp hi).1
    have hfits := hwhole (i + 1) hlt
    rw [hnamed.path i file hi, List.take_of_length_le (by omega), drop_notificationPath]
    exact isNotificationName_numbered _
  simp only [rawNotifications, List.mem_flatMap, List.mem_filter, hlisting.mem_iff,
    List.mem_append, noticeEntries, List.mem_map]
  constructor
  · rintro ⟨entry, ⟨hother | ⟨file, hfile, rfl⟩, hmatch⟩, hpath⟩
    · rw [hothers entry hother] at hmatch
      cases hmatch
    · exact ⟨file, hfile, hpath⟩
  · rintro ⟨file, hfile, hpath⟩
    exact ⟨_, ⟨Or.inr ⟨file, hfile, rfl⟩, hname file hfile⟩, hpath⟩

/-! ### From the reports to the reader -/

/-- The names of the kernel are strings without newlines, and a failed write is noticed. -/
structure ReadableStep {κ α : Type} (p : Process κ) (label : ProcessLabel α) : Prop where
  plain : OnSystem (fun _ label ↦ LabelSpelled Plain label) p label
  notices : OnLoop NoticesFailures p label

instance {κ α : Type} (p : Process κ) (label : ProcessLabel α) : Decidable (ReadableStep p label) :=
  decidable_of_iff (OnSystem (fun _ label ↦ LabelSpelled Plain label) p label ∧
      OnLoop NoticesFailures p label)
    ⟨fun ⟨hplain, hnotices⟩ ↦ ⟨hplain, hnotices⟩, fun ⟨hplain, hnotices⟩ ↦ ⟨hplain, hnotices⟩⟩

variable {κ α : Type} {k : Kernel κ α} {kernel : κ} {p after : Process κ}

end DirWatcher.Program
