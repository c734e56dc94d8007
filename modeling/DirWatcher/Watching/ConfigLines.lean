import DirWatcher.Foundation.TextLines
import DirWatcher.Source.ConfigFiles
import DirWatcher.Source.Watcher
import Mathlib.Data.List.TakeWhile

/-!
The lines that the watcher reads from the config file and from the exclude file.

`fgets` sets the flag for the end of the file while it reads a last line that has no
newline, and the loops test that flag before they use the line. They read the lines that
are ended by a newline, and no others.
-/

set_option autoImplicit false
set_option relaxedAutoImplicit false

namespace DirWatcher.Watching

open Source Foundation.TextLines

variable {content line rest : Bytes} {io : ReadIo} {σ : Type}

/-! ### One call of `fgets` -/

theorem takeLine_of_newline {room : ℕ} (hline : newline ∉ line) (hshort : line.length < room) :
    takeLine room (line ++ newline :: rest) = (line ++ [newline], rest, false) := by
  induction line generalizing room with
  | nil =>
    obtain ⟨room, rfl⟩ := Nat.exists_eq_add_of_lt hshort
    simp [takeLine]
  | cons byte line ih =>
    rw [List.mem_cons, not_or] at hline
    obtain ⟨room, rfl⟩ : ∃ less, room = less + 1 := ⟨room - 1, by simp at hshort; omega⟩
    have hrest := ih hline.2 (Nat.lt_of_succ_lt_succ hshort)
    rw [List.cons_append, takeLine, if_neg (Ne.symm hline.1), hrest]
    rfl

theorem takeLine_of_end {room : ℕ} (hline : newline ∉ line) (hshort : line.length < room) :
    takeLine room line = (line, [], true) := by
  induction line generalizing room with
  | nil =>
    obtain ⟨room, rfl⟩ := Nat.exists_eq_add_of_lt hshort
    rfl
  | cons byte line ih =>
    rw [List.mem_cons, not_or] at hline
    obtain ⟨room, rfl⟩ : ∃ less, room = less + 1 := ⟨room - 1, by simp at hshort; omega⟩
    rw [takeLine, if_neg (Ne.symm hline.1), ih hline.2 (Nat.lt_of_succ_lt_succ hshort)]

theorem length_takeLine_le (room : ℕ) (content : Bytes) :
    (takeLine room content).1.length ≤ room := by
  induction room generalizing content with
  | zero => simp [takeLine]
  | succ room ih =>
    cases content with
    | nil => simp [takeLine]
    | cons byte content =>
      rw [takeLine]
      split_ifs
      · simp
      · exact Nat.succ_le_succ (ih content)

/-- A line in the buffer is used as the string it is. -/
theorem cutNewline_append (hline : newline ∉ line) :
    cutNewline (line ++ [newline]) = stringAt line := by
  have hne : ∀ byte ∈ line, (byte != newline) = true := by
    intro byte hmem
    simpa using fun heq : byte = newline ↦ hline (heq ▸ hmem)
  by_cases hzero : ∀ byte ∈ line, (byte != 0) = true
  · have hbuffer : stringAt (line ++ [newline]) = line ++ [newline] := by
      refine List.takeWhile_eq_self_iff.mpr fun byte hmem ↦ ?_
      rcases List.mem_append.mp hmem with hline | hlast
      · exact hzero byte hline
      · rw [List.mem_singleton.mp hlast]
        decide
    rw [cutNewline, hbuffer, List.takeWhile_append_of_pos hne, stringAt,
      List.takeWhile_eq_self_iff.mpr hzero]
    simp
  · have hbuffer : stringAt (line ++ [newline]) = stringAt line := by
      rw [stringAt, List.takeWhile_append, if_neg]
      · rfl
      · intro hlength
        have hwhole := (List.takeWhile_prefix _).eq_of_length hlength
        exact hzero (List.takeWhile_eq_self_iff.mp hwhole)
    rw [cutNewline, hbuffer]
    exact List.takeWhile_eq_self_iff.mpr fun byte hmem ↦
      hne byte ((List.takeWhile_prefix _).subset hmem)

theorem stringAt_of_not_mem (hline : 0 ∉ line) : stringAt line = line := by
  refine List.takeWhile_eq_self_iff.mpr fun byte hmem ↦ ?_
  simpa using fun heq : byte = 0 ↦ hline (heq ▸ hmem)

/-! ### The loops -/

/-- A content that ends with its last line. -/
def Terminated (content : Bytes) : Prop := content = [] ∨ content.getLast? = some newline

instance (content : Bytes) : Decidable (Terminated content) :=
  inferInstanceAs (Decidable (content = [] ∨ content.getLast? = some newline))

/-- Every line is shorter than what a call of `fgets` can take with its newline. -/
def ShortLines (content : Bytes) : Prop :=
  ∀ line ∈ lines newline content, line.length < maxPathLen - 1

instance (content : Bytes) : Decidable (ShortLines content) :=
  inferInstanceAs (Decidable (∀ line ∈ lines newline content, line.length < maxPathLen - 1))

theorem fgets_of_newline {reads : ℕ} (hreads : ∀ n, io.readFails n = false)
    (hline : newline ∉ line) (hshort : line.length < maxPathLen - 1) :
    fgets io maxPathLen ⟨line ++ newline :: rest, false, false, reads⟩ =
      (line ++ [newline], ⟨rest, false, false, reads + 1⟩) := by
  simp [fgets, hreads, takeLine_of_newline hline hshort]

theorem fgets_of_end {reads : ℕ} (hreads : ∀ n, io.readFails n = false)
    (hline : newline ∉ line) (hshort : line.length < maxPathLen - 1) :
    fgets io maxPathLen ⟨line, false, false, reads⟩ = (line, ⟨[], true, false, reads + 1⟩) := by
  simp [fgets, hreads, takeLine_of_end hline hshort]

theorem length_fgets_lt (io : ReadIo) (file : ReadFile) :
    (fgets io maxPathLen file).1.length < maxPathLen := by
  rw [fgets]
  split_ifs
  · exact (by decide : 0 < maxPathLen)
  · exact Nat.lt_of_le_pred (by decide) (length_takeLine_le _ _)

theorem length_cutNewline_le (buffer : Bytes) : (cutNewline buffer).length ≤ buffer.length :=
  ((List.takeWhile_prefix _).trans (List.takeWhile_prefix _)).length_le

/-- The calls of the loop are made for the lines that are ended, in their order. -/
theorem readLoop_eq_foldlM {errorCode : ℤ} {use : σ → Bytes → Except Stop σ} {fuel reads : ℕ}
    (hreads : ∀ n, io.readFails n = false) (hshort : ShortLines content)
    (hfuel : content.length < fuel) (s : σ) :
    readLoop io errorCode use fuel ⟨content, false, false, reads⟩ s =
      ((terminatedLines newline content).map stringAt).foldlM use s := by
  induction content using text_induction newline generalizing fuel reads s with
  | hlast line hline =>
    obtain ⟨fuel, rfl⟩ : ∃ less, fuel = less + 1 := ⟨fuel - 1, by omega⟩
    have hlength : line.length < maxPathLen - 1 := by
      rcases line with _ | ⟨byte, line⟩
      · decide
      · refine hshort _ ?_
        simp [lines, lastLine_of_not_mem hline]
    rw [readLoop, fgets_of_end hreads hline hlength, terminatedLines_of_not_mem hline]
    rfl
  | hcons line rest hline ih =>
    obtain ⟨fuel, rfl⟩ : ∃ less, fuel = less + 1 := ⟨fuel - 1, by omega⟩
    rw [ShortLines, lines_cons hline, List.forall_mem_cons] at hshort
    rw [List.length_append, List.length_cons] at hfuel
    rw [readLoop, fgets_of_newline hreads hline hshort.1, terminatedLines_cons hline,
      List.map_cons, List.foldlM_cons, ← cutNewline_append hline]
    exact bind_congr fun next ↦ ih hshort.2 (by omega) next

/-- What holds before the loop and is kept by the use of the line in a buffer holds after
it, whatever the file contains. -/
theorem readLoop_invariant {errorCode : ℤ} {use : σ → Bytes → Except Stop σ} {fuel : ℕ}
    {file : ReadFile} {s after : σ} (holds : σ → Prop)
    (huse : ∀ before buffer next, holds before → buffer.length < maxPathLen →
      use before (cutNewline buffer) = .ok next → holds next)
    (hstart : holds s) (hrun : readLoop io errorCode use fuel file s = .ok after) :
    holds after := by
  induction fuel generalizing file s with
  | zero => cases hrun
  | succ fuel ih =>
    have hfits := length_fgets_lt io file
    rw [readLoop] at hrun
    rcases hfgets : fgets io maxPathLen file with ⟨buffer, read⟩
    rw [hfgets] at hrun hfits
    simp only at hrun
    split_ifs at hrun
    · cases hrun
      exact hstart
    · cases hnext : use s (cutNewline buffer) with
      | error stop =>
        rw [hnext] at hrun
        cases hrun
      | ok next =>
        rw [hnext] at hrun
        exact ih (huse s buffer next hstart hfits hnext) hrun

/-! ### Which lines are read -/

/-- `add_watch` put aside: the lines it is called for. -/
def recordCall (calls : List Bytes) (_ : Wd) (line : Bytes) : Except Stop (ℤ × List Bytes) :=
  .ok (0, calls ++ [line])

theorem foldlM_append (pieces start : List Bytes) :
    pieces.foldlM (fun calls line ↦ (.ok (calls ++ [line]) : Except Stop (List Bytes))) start =
      .ok (start ++ pieces) := by
  induction pieces generalizing start with
  | nil => simp [pure, Except.pure]
  | cons piece pieces ih =>
    rw [List.foldlM_cons]
    exact (ih (start ++ [piece])).trans (by simp)

theorem foldlM_storeExclude {pieces start : List Bytes} (hallocs : ∀ n, io.callocFails n = false)
    (hcount : (start ++ pieces).length ≤ maxExcludes) :
    pieces.foldlM (storeExclude io) start = .ok (start ++ pieces) := by
  induction pieces generalizing start with
  | nil => simp [pure, Except.pure]
  | cons piece pieces ih =>
    have hroom : ¬ maxExcludes ≤ start.length := by
      rw [List.length_append, List.length_cons] at hcount
      omega
    have hstore : storeExclude io start piece = .ok (start ++ [piece]) := by
      simp [storeExclude, hroom, hallocs]
    rw [List.foldlM_cons, hstore]
    exact (ih (by simpa using hcount)).trans (by simp)

/-- `load_excludes` stores the lines that are ended. -/
theorem loadExcludes_eq (hshort : ShortLines content)
    (hcount : (terminatedLines newline content).length ≤ maxExcludes) :
    loadExcludes .faultless content = .ok ((terminatedLines newline content).map stringAt) := by
  rw [loadExcludes, if_neg (by decide), ReadFile.opened,
    readLoop_eq_foldlM (fun _ ↦ rfl) hshort (Nat.lt_succ_self _),
    foldlM_storeExclude (fun _ ↦ rfl) (by simpa using hcount), List.nil_append]

/-- `load_top_level_paths` calls `add_watch` for the lines that are ended. -/
theorem loadTopLevelPaths_eq (hshort : ShortLines content)
    (addWatch : σ → Wd → Bytes → Except Stop (ℤ × σ)) (s : σ) :
    loadTopLevelPaths .faultless addWatch content s =
      ((terminatedLines newline content).map stringAt).foldlM (watchTopLevel addWatch) s := by
  rw [loadTopLevelPaths, if_neg (by decide), ReadFile.opened,
    readLoop_eq_foldlM (fun _ ↦ rfl) hshort (Nat.lt_succ_self _)]

/-- Without zero bytes the lines are used as they are. -/
theorem map_stringAt_terminatedLines (hzero : 0 ∉ content) :
    (terminatedLines newline content).map stringAt = terminatedLines newline content := by
  refine (List.map_congr_left fun line hline ↦ ?_).trans (List.map_id _)
  exact stringAt_of_not_mem fun hmem ↦ hzero (subset_of_mem_terminatedLines hline hmem)

/-- Every line of a config file is handed to `add_watch`, and every line of an exclude
file is stored, exactly if the file ends with its last line. -/
theorem lines_read_iff_terminated (hzero : 0 ∉ content) (hshort : ShortLines content) :
    ((∀ (σ : Type) (addWatch : σ → Wd → Bytes → Except Stop (ℤ × σ)) (s : σ),
        loadTopLevelPaths .faultless addWatch content s =
          (lines newline content).foldlM (watchTopLevel addWatch) s) ↔ Terminated content) ∧
      ((lines newline content).length ≤ maxExcludes →
        (loadExcludes .faultless content = .ok (lines newline content) ↔ Terminated content)) := by
  have hread := map_stringAt_terminatedLines hzero
  constructor
  · constructor
    · intro hcalls
      have hrecord := hcalls (List Bytes) recordCall []
      rw [loadTopLevelPaths_eq hshort, hread] at hrecord
      have hsame := (foldlM_append (terminatedLines newline content) []).symm.trans
        (hrecord.trans (foldlM_append (lines newline content) []))
      exact lines_eq_terminatedLines_iff.mp (Except.ok.inj hsame).symm
    · intro hterminated σ addWatch s
      rw [loadTopLevelPaths_eq hshort, hread, lines_eq_terminatedLines_iff.mpr hterminated]
  · intro hcount
    rw [loadExcludes_eq hshort (terminatedLines_prefix_lines.length_le.trans hcount), hread,
      Except.ok.injEq, eq_comm]
    exact lines_eq_terminatedLines_iff

/-- A top level path and another one without a newline after it. -/
def unterminatedConfig : Bytes := literal "/home\n/data"

/-- The second path is not watched, and as an exclude it is not stored. -/
theorem unterminatedConfig_not_read :
    0 ∉ unterminatedConfig ∧ ShortLines unterminatedConfig ∧
      loadTopLevelPaths .faultless recordCall unterminatedConfig [] ≠
        (lines newline unterminatedConfig).foldlM (watchTopLevel recordCall) [] ∧
      loadExcludes .faultless unterminatedConfig ≠ .ok (lines newline unterminatedConfig) := by
  decide

/-- With a newline at the end both lines are stored. -/
theorem lines_read_terminatedConfig :
    loadExcludes .faultless (literal "/home\n/data\n") = .ok [literal "/home", literal "/data"] :=
  ((lines_read_iff_terminated (by decide) (by decide)).2 (by decide)).mpr (by decide)

/-! ### The configuration of the watcher -/

theorem length_lt_of_loadTopLevelPaths {calls : List Bytes}
    (hload : loadTopLevelPaths io recordCall content [] = .ok calls) :
    ∀ path ∈ calls, path.length < maxPathLen := by
  rw [loadTopLevelPaths] at hload
  split_ifs at hload
  refine readLoop_invariant (fun calls ↦ ∀ path ∈ calls, path.length < maxPathLen) ?_ (by simp)
    hload
  intro before buffer next hbefore hbuffer huse
  cases huse
  intro path hpath
  rcases List.mem_append.mp hpath with hold | hlast
  · exact hbefore path hold
  · rw [List.mem_singleton.mp hlast]
    exact (length_cutNewline_le buffer).trans_lt hbuffer

/-- The configuration that the two files give, whatever they contain. -/
def configOf {config exclude : Bytes} {topLevelPaths excludes : List Bytes}
    (hconfig : loadTopLevelPaths io recordCall config [] = .ok topLevelPaths)
    (_ : loadExcludes io exclude = .ok excludes) : Config where
  topLevelPaths := topLevelPaths
  excludes := excludes
  fits := length_lt_of_loadTopLevelPaths hconfig

/-- For two files of short lines it has the lines that are ended. -/
theorem configOf_eq {config exclude : Bytes} {topLevelPaths excludes : List Bytes}
    (hconfig : loadTopLevelPaths .faultless recordCall config [] = .ok topLevelPaths)
    (hexclude : loadExcludes .faultless exclude = .ok excludes)
    (hshort : ShortLines config) (hshortExclude : ShortLines exclude)
    (hcount : (terminatedLines newline exclude).length ≤ maxExcludes) :
    (configOf hconfig hexclude).topLevelPaths =
        (terminatedLines newline config).map stringAt ∧
      (configOf hconfig hexclude).excludes = (terminatedLines newline exclude).map stringAt := by
  constructor
  · rw [loadTopLevelPaths_eq hshort] at hconfig
    exact Except.ok.inj (hconfig.symm.trans ((foldlM_append _ []).trans (by simp)))
  · rw [loadExcludes_eq hshortExclude hcount] at hexclude
    exact (Except.ok.inj hexclude).symm

end DirWatcher.Watching
