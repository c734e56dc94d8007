import DirWatcher.Watching.ConfigLines
import DirWatcher.Watching.Scope
import Mathlib.Data.List.DropRight

/-!
Which paths the exclude file turns away. The test of `add_watch` compares an entry with
the front of the path and looks at the byte after it. That is the relation of a directory
to the paths in it, except for two kinds of lines: an empty one turns away every path, and
one that ends in a slash turns away none.
-/

set_option autoImplicit false
set_option relaxedAutoImplicit false

namespace DirWatcher.Watching

open Source Foundation.TextLines Foundation.SeparatedPaths

variable {path line : Bytes}

/-! ### Lines read as directories -/

/-- A path from the root, without empty components and without a slash at its end. -/
structure CleanPath (path : Bytes) : Prop where
  absolute : Absolute path
  nonempty : ∀ name ∈ (components slash path).tail, name ≠ []

instance (path : Bytes) : Decidable (CleanPath path) :=
  decidable_of_iff (Absolute path ∧ ∀ name ∈ (components slash path).tail, name ≠ [])
    ⟨fun ⟨habsolute, hnonempty⟩ ↦ ⟨habsolute, hnonempty⟩,
      fun ⟨habsolute, hnonempty⟩ ↦ ⟨habsolute, hnonempty⟩⟩

/-- The directory that a line stands for: its string without the slashes at its end. -/
def directoryOf (line : Bytes) : Bytes := (stringAt line).rdropWhile (· == slash)

def Blank (line : Bytes) : Prop := stringAt line = []

instance (line : Bytes) : Decidable (Blank line) :=
  inferInstanceAs (Decidable (stringAt line = []))

/-- The line is not blank, and its directory is the path or lies above it. -/
structure Names (line path : Bytes) : Prop where
  notBlank : ¬ Blank line
  above : path = directoryOf line ∨ Above slash (directoryOf line) path

instance (line path : Bytes) : Decidable (Names line path) :=
  decidable_of_iff (¬ Blank line ∧ (path = directoryOf line ∨ Above slash (directoryOf line) path))
    ⟨fun ⟨hblank, habove⟩ ↦ ⟨hblank, habove⟩, fun ⟨hblank, habove⟩ ↦ ⟨hblank, habove⟩⟩

/-- The string of the line ends in a slash. -/
def SlashEnded (line : Bytes) : Prop := (stringAt line).getLast? = some slash

instance (line : Bytes) : Decidable (SlashEnded line) :=
  inferInstanceAs (Decidable ((stringAt line).getLast? = some slash))

/-! ### The test for one line -/

theorem excludedBy_of_blank (hpath : CleanPath path) (hblank : Blank line) :
    excludedBy path (stringAt line) = true := by
  obtain ⟨rest, rfl⟩ := List.head?_eq_some_iff.mp hpath.absolute
  rw [Blank.eq_1] at hblank
  rw [hblank, excludedBy_iff]
  exact Or.inr (by simp)

/-- A string that ends in a slash is neither a clean path nor followed by a slash in one. -/
theorem not_excludedBy_of_slashEnded (hpath : CleanPath path) (hslash : SlashEnded line) :
    excludedBy path (stringAt line) = false := by
  obtain ⟨front, hfront⟩ := List.getLast?_eq_some_iff.mp hslash
  rw [Bool.eq_false_iff, ne_eq, excludedBy_iff, hfront]
  have hempty : ∀ after, path = front ++ slash :: after → [] ∉ components slash after := by
    intro after hsplit hmem
    refine hpath.nonempty [] ?_ rfl
    rw [hsplit, components_join, List.tail_append_of_ne_nil (components_ne_nil front)]
    exact List.mem_append_right _ hmem
  rintro (heq | ⟨rest, heq⟩)
  · exact hempty [] heq (by simp [components])
  · refine hempty (slash :: rest) (by simpa using heq.symm) ?_
    simp [components]

/-- For every other line the test is the relation to the directory of the line. -/
theorem excludedBy_iff_names (hblank : ¬ Blank line) (hslash : ¬ SlashEnded line) :
    excludedBy path (stringAt line) = true ↔ Names line path := by
  have hdirectory : directoryOf line = stringAt line := by
    refine List.rdropWhile_eq_self_iff.mpr fun hne hlast ↦ hslash ?_
    rw [SlashEnded, List.getLast?_eq_some_getLast hne, eq_of_beq hlast]
  rw [excludedBy_iff, ← hdirectory]
  exact ⟨fun habove ↦ ⟨hblank, habove⟩, fun hnames ↦ hnames.above⟩

/-! ### The test for a whole file -/

/-- The test turns a path away for a blank line, and for a line without a slash at its end
that names the path. -/
theorem any_excludedBy_iff {lines : List Bytes} (hpath : CleanPath path) :
    (lines.map stringAt).any (excludedBy path) = true ↔
      (∃ line ∈ lines, Blank line) ∨ ∃ line ∈ lines, ¬ SlashEnded line ∧ Names line path := by
  rw [List.any_map, List.any_eq_true]
  constructor
  · rintro ⟨line, hline, htest⟩
    by_cases hblank : Blank line
    · exact Or.inl ⟨line, hline, hblank⟩
    by_cases hslash : SlashEnded line
    · rw [Function.comp, not_excludedBy_of_slashEnded hpath hslash] at htest
      cases htest
    · exact Or.inr ⟨line, hline, hslash, (excludedBy_iff_names hblank hslash).mp htest⟩
  · rintro (⟨line, hline, hblank⟩ | ⟨line, hline, hslash, hnames⟩)
    · exact ⟨line, hline, excludedBy_of_blank hpath hblank⟩
    · exact ⟨line, hline, (excludedBy_iff_names hnames.notBlank hslash).mpr hnames⟩

/-- The lines of the exclude file name the path, or one of its ancestors. -/
def Excluded (lines : List Bytes) (path : Bytes) : Prop := ∃ line ∈ lines, Names line path

instance (lines : List Bytes) (path : Bytes) : Decidable (Excluded lines path) :=
  inferInstanceAs (Decidable (∃ line ∈ lines, Names line path))

/-- A line without a slash at its end names the path, or there is a blank line exactly if
a line with a slash at its end names it. -/
def DecidedByPlainLines (lines : List Bytes) (path : Bytes) : Prop :=
  (∃ line ∈ lines, ¬ SlashEnded line ∧ Names line path) ∨
    ((∃ line ∈ lines, Blank line) ↔ ∃ line ∈ lines, SlashEnded line ∧ Names line path)

instance (lines : List Bytes) (path : Bytes) : Decidable (DecidedByPlainLines lines path) :=
  inferInstanceAs (Decidable ((∃ line ∈ lines, ¬ SlashEnded line ∧ Names line path) ∨
    ((∃ line ∈ lines, Blank line) ↔ ∃ line ∈ lines, SlashEnded line ∧ Names line path)))

/-- The lines of a file that the loop can take one by one, and not too many of them. -/
structure ExcludeLines (lines : List Bytes) : Prop where
  newline : ∀ line ∈ lines, newline ∉ line
  short : ∀ line ∈ lines, line.length < maxPathLen - 1
  count : lines.length ≤ maxExcludes

instance (lines : List Bytes) : Decidable (ExcludeLines lines) :=
  decidable_of_iff ((∀ line ∈ lines, newline ∉ line) ∧
      (∀ line ∈ lines, line.length < maxPathLen - 1) ∧ lines.length ≤ maxExcludes)
    ⟨fun ⟨hnewline, hshort, hcount⟩ ↦ ⟨hnewline, hshort, hcount⟩,
      fun ⟨hnewline, hshort, hcount⟩ ↦ ⟨hnewline, hshort, hcount⟩⟩

theorem loadExcludes_unlines {lines : List Bytes} (hlines : ExcludeLines lines) :
    loadExcludes .faultless (unlines newline lines) = .ok (lines.map stringAt) := by
  have hterminated := terminatedLines_unlines hlines.newline
  rw [loadExcludes_eq, hterminated]
  · rw [ShortLines, lines_unlines hlines.newline]
    exact hlines.short
  · rw [hterminated]
    exact hlines.count

/-- After `load_excludes` the test agrees with the directories that the lines name exactly
if the lines without a slash at their end decide, or blank lines and lines with a slash
make up for each other. -/
theorem excluded_iff_decidedByPlainLines {lines : List Bytes} (hlines : ExcludeLines lines)
    (hpath : CleanPath path) :
    ∃ excludes, loadExcludes .faultless (unlines newline lines) = .ok excludes ∧
      ((excludes.any (excludedBy path) = true ↔ Excluded lines path) ↔
        DecidedByPlainLines lines path) := by
  refine ⟨_, loadExcludes_unlines hlines, ?_⟩
  have hsplit : Excluded lines path ↔
      (∃ line ∈ lines, ¬ SlashEnded line ∧ Names line path) ∨
        ∃ line ∈ lines, SlashEnded line ∧ Names line path := by
    constructor
    · rintro ⟨line, hline, hnames⟩
      by_cases hslash : SlashEnded line
      · exact Or.inr ⟨line, hline, hslash, hnames⟩
      · exact Or.inl ⟨line, hline, hslash, hnames⟩
    · rintro (⟨line, hline, -, hnames⟩ | ⟨line, hline, -, hnames⟩) <;>
        exact ⟨line, hline, hnames⟩
  rw [any_excludedBy_iff hpath, hsplit, DecidedByPlainLines]
  by_cases hplain : ∃ line ∈ lines, ¬ SlashEnded line ∧ Names line path
  · simp only [hplain, or_true, true_or]
  · simp only [hplain, or_false, false_or]

/-- A blank line turns away a path that no line names, and a line with a slash at its end
does not turn away a path below it. -/
theorem blank_line_excludes :
    loadExcludes .faultless (unlines newline [[]]) = .ok [[]] ∧ CleanPath (literal "/home") ∧
      ¬ Excluded [[]] (literal "/home") ∧ [[]].any (excludedBy (literal "/home")) = true ∧
      loadExcludes .faultless (unlines newline [literal "/home/"]) = .ok [literal "/home/"] ∧
      CleanPath (literal "/home/data") ∧ Excluded [literal "/home/"] (literal "/home/data") ∧
      [literal "/home/"].any (excludedBy (literal "/home/data")) = false := by
  decide

/-- A plain line turns away what lies below its directory. -/
theorem excluded_below_plain_line :
    ∃ excludes, loadExcludes .faultless (unlines newline [literal "/home"]) = .ok excludes ∧
      excludes.any (excludedBy (literal "/home/data")) = true := by
  have hlines : ExcludeLines [literal "/home"] := by decide
  have hpath : CleanPath (literal "/home/data") := by decide
  obtain ⟨excludes, hload, hiff⟩ := excluded_iff_decidedByPlainLines hlines hpath
  exact ⟨excludes, hload, (hiff.mpr (by decide)).mpr (by decide)⟩

end DirWatcher.Watching
