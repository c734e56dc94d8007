import Mathlib.Data.List.Basic
import Mathlib.Data.List.Induction

/-!
Lists read as texts of lines: each line is ended by a separator, and what comes after the
last separator is a line without an end, unless it is empty.
-/

set_option autoImplicit false
set_option relaxedAutoImplicit false

namespace DirWatcher.Foundation.TextLines

variable {α : Type*} {sep : α} {text line : List α}

/-- The text of some lines, each of them ended. -/
def unlines (sep : α) (lines : List (List α)) : List α := lines.flatMap (· ++ [sep])

@[simp] theorem unlines_cons (line : List α) (rest : List (List α)) :
    unlines sep (line :: rest) = line ++ sep :: unlines sep rest := by
  simp [unlines]

variable [BEq α]

/-- The lines of a text that are ended by a separator. -/
def terminatedLines (sep : α) (text : List α) : List (List α) := (text.splitOn sep).dropLast

/-- What comes after the last separator. -/
def lastLine (sep : α) (text : List α) : List α :=
  (text.splitOn sep).getLast (List.splitOn_ne_nil sep text)

/-- All the lines of a text, a last one without an end included. -/
def lines (sep : α) (text : List α) : List (List α) :=
  if (lastLine sep text).isEmpty then terminatedLines sep text
  else terminatedLines sep text ++ [lastLine sep text]

theorem terminatedLines_prefix_lines : terminatedLines sep text <+: lines sep text := by
  unfold lines
  split_ifs
  · exact List.prefix_refl _
  · exact List.prefix_append _ _

variable [LawfulBEq α]

theorem terminatedLines_of_not_mem (hline : sep ∉ line) : terminatedLines sep line = [] := by
  rw [terminatedLines, List.splitOn_eq_singleton hline]
  rfl

theorem lastLine_of_not_mem (hline : sep ∉ line) : lastLine sep line = line := by
  simp [lastLine, List.splitOn_eq_singleton hline]

theorem terminatedLines_cons (hline : sep ∉ line) :
    terminatedLines sep (line ++ sep :: text) = line :: terminatedLines sep text := by
  rw [terminatedLines, List.splitOn_append_cons_self_of_not_mem hline,
    List.dropLast_cons_of_ne_nil (List.splitOn_ne_nil sep text)]
  rfl

theorem lastLine_cons (hline : sep ∉ line) :
    lastLine sep (line ++ sep :: text) = lastLine sep text := by
  simp only [lastLine, List.splitOn_append_cons_self_of_not_mem hline]
  exact List.getLast_cons (List.splitOn_ne_nil sep text)

theorem lines_cons (hline : sep ∉ line) :
    lines sep (line ++ sep :: text) = line :: lines sep text := by
  rw [lines, lines, lastLine_cons hline, terminatedLines_cons hline]
  split_ifs <;> rfl

/-- A text is a line without an end, or begins with a line that is ended. -/
theorem not_mem_or_eq_cons (sep : α) (text : List α) :
    sep ∉ text ∨ ∃ line rest, sep ∉ line ∧ text = line ++ sep :: rest := by
  by_cases hmem : sep ∈ text
  · obtain ⟨line, rest, hsplit, hline⟩ := List.eq_append_cons_of_mem hmem
    exact Or.inr ⟨line, rest, hline, hsplit⟩
  · exact Or.inl hmem

/-- Induction on the lines of a text. -/
theorem text_induction (sep : α) {holds : List α → Prop}
    (hlast : ∀ line, sep ∉ line → holds line)
    (hcons : ∀ line rest, sep ∉ line → holds rest → holds (line ++ sep :: rest))
    (text : List α) : holds text := by
  induction hlength : text.length using Nat.strongRecOn generalizing text with
  | _ length ih =>
    rcases not_mem_or_eq_cons sep text with hline | ⟨line, rest, hline, rfl⟩
    · exact hlast text hline
    · refine hcons line rest hline (ih rest.length ?_ rest rfl)
      rw [← hlength, List.length_append, List.length_cons]
      omega

/-- All lines are ended exactly if the text is empty or ends in a separator. -/
theorem lines_eq_terminatedLines_iff :
    lines sep text = terminatedLines sep text ↔ text = [] ∨ text.getLast? = some sep := by
  induction text using text_induction sep with
  | hlast line hline =>
    rw [lines, lastLine_of_not_mem hline, terminatedLines_of_not_mem hline]
    have hend : line.getLast? ≠ some sep := fun heq ↦ hline (List.mem_of_getLast? heq)
    cases line <;> simp_all
  | hcons line rest hline ih =>
    rw [lines_cons hline, terminatedLines_cons hline, List.cons_inj_right, ih]
    cases rest <;> simp

/-- A line consists of elements of the text. -/
theorem subset_of_mem_terminatedLines (hline : line ∈ terminatedLines sep text) : line ⊆ text := by
  induction text using text_induction sep with
  | hlast whole hwhole =>
    rw [terminatedLines_of_not_mem hwhole] at hline
    cases hline
  | hcons first rest hfirst ih =>
    rw [terminatedLines_cons hfirst, List.mem_cons] at hline
    intro element helement
    rcases hline with rfl | hrest
    · exact List.mem_append_left _ helement
    · exact List.mem_append_right _ (List.mem_cons_of_mem _ (ih hrest helement))

/-- Splitting undoes joining for lines without separators. -/
theorem terminatedLines_unlines {pieces : List (List α)} (hpieces : ∀ piece ∈ pieces, sep ∉ piece) :
    terminatedLines sep (unlines sep pieces) = pieces := by
  induction pieces with
  | nil => exact terminatedLines_of_not_mem List.not_mem_nil
  | cons piece pieces ih =>
    rw [unlines_cons, terminatedLines_cons (hpieces piece List.mem_cons_self),
      ih fun other hother ↦ hpieces other (List.mem_cons_of_mem _ hother)]

theorem lines_unlines {pieces : List (List α)} (hpieces : ∀ piece ∈ pieces, sep ∉ piece) :
    lines sep (unlines sep pieces) = pieces := by
  induction pieces with
  | nil => simp [lines, unlines, terminatedLines_of_not_mem, lastLine_of_not_mem]
  | cons piece pieces ih =>
    rw [unlines_cons, lines_cons (hpieces piece List.mem_cons_self),
      ih fun other hother ↦ hpieces other (List.mem_cons_of_mem _ hother)]

/-- A separator in a piece that is joined makes one more line of it. -/
theorem length_lines_append (piece rest : List α) :
    (lines sep (piece ++ sep :: rest)).length =
      piece.count sep + 1 + (lines sep rest).length := by
  induction piece using text_induction sep with
  | hlast line hline =>
    rw [lines_cons hline, List.length_cons, List.count_eq_zero_of_not_mem hline]
    omega
  | hcons line more hline ih =>
    rw [List.append_assoc, List.cons_append, lines_cons hline, List.length_cons, ih,
      List.count_append, List.count_cons_self, List.count_eq_zero_of_not_mem hline]
    omega

theorem length_lines_unlines (pieces : List (List α)) :
    (lines sep (unlines sep pieces)).length = pieces.length + pieces.flatten.count sep := by
  induction pieces with
  | nil => simp [lines, unlines, terminatedLines_of_not_mem, lastLine_of_not_mem]
  | cons piece pieces ih =>
    rw [unlines_cons, length_lines_append, ih, List.length_cons, List.flatten_cons,
      List.count_append]
    omega

end DirWatcher.Foundation.TextLines
