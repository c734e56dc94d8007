import Mathlib.Data.List.Basic
import Mathlib.Data.List.Infix

/-!
Lists read as paths: names joined by a separator. The name after the last separator
and the path before it are determined by the whole, and one path lies above another
when it is followed in it by a separator.
-/

set_option autoImplicit false
set_option relaxedAutoImplicit false

namespace DirWatcher.Foundation.SeparatedPaths

variable {α : Type*} {sep : α} {path dir other name : List α}

/-- The second path lies strictly below the first. -/
def Above (sep : α) (path below : List α) : Prop := path ++ [sep] <+: below

instance [DecidableEq α] (path below : List α) : Decidable (Above sep path below) := by
  unfold Above
  infer_instance

theorem Above.length_lt (habove : Above sep path other) : path.length < other.length := by
  have hlength := habove.length_le
  simp at hlength
  omega

theorem not_above_self : ¬ Above sep path path := fun habove ↦ lt_irrefl _ habove.length_lt

theorem above_join : Above sep dir (dir ++ sep :: name) := ⟨name, by simp⟩

theorem Above.trans {low : List α} (hfirst : Above sep path dir) (hsecond : Above sep dir low) :
    Above sep path low :=
  List.IsPrefix.trans hfirst (List.IsPrefix.trans (List.prefix_append _ _) hsecond)

/-- Two paths above a third are equal, or one of them is above the other. -/
theorem Above.comparable {low : List α} (hpath : Above sep path low)
    (hother : Above sep other low) :
    path = other ∨ Above sep path other ∨ Above sep other path := by
  rcases List.prefix_or_prefix_of_prefix hpath hother with hle | hle
  · rcases List.prefix_concat_iff.mp hle with heq | habove
    · exact Or.inl (List.append_cancel_right heq)
    · exact Or.inr (Or.inl habove)
  · rcases List.prefix_concat_iff.mp hle with heq | habove
    · exact Or.inl (List.append_cancel_right heq).symm
    · exact Or.inr (Or.inr habove)

theorem Above.join (habove : Above sep path dir) : Above sep path (dir ++ sep :: name) :=
  List.IsPrefix.trans habove (List.prefix_append _ _)

theorem Above.of_join (habove : Above sep (dir ++ sep :: name) path) : Above sep dir path := by
  obtain ⟨rest, rfl⟩ := habove
  exact ⟨name ++ sep :: rest, by simp⟩

/-- The first element of two equal tails that are split off at different places. -/
theorem eq_of_cons_eq_append {first : α} {tail front : List α}
    (hsep : sep ∉ tail) (heq : first :: tail = front ++ sep :: name) : front = [] := by
  cases front with
  | nil => rfl
  | cons head front =>
    rw [List.cons_append, List.cons.injEq] at heq
    exact absurd (heq.2 ▸ by simp) hsep

/-- The last name of a path and what is before it are determined by the path. -/
theorem join_inj {name' : List α} (hname : sep ∉ name) (hname' : sep ∉ name')
    (heq : dir ++ sep :: name = other ++ sep :: name') : dir = other ∧ name = name' := by
  rcases List.append_eq_append_iff.mp heq with ⟨front, rfl, hrest⟩ | ⟨front, rfl, hrest⟩
  · obtain rfl := eq_of_cons_eq_append hname hrest
    simpa [eq_comm] using hrest
  · obtain rfl := eq_of_cons_eq_append hname' hrest
    simpa [eq_comm] using hrest

/-- A path above a path with one more name is that path or lies above it. -/
theorem eq_or_above_of_above_join (hname : sep ∉ name)
    (habove : Above sep path (dir ++ sep :: name)) : dir = path ∨ Above sep path dir := by
  obtain ⟨rest, heq⟩ := habove
  rw [List.append_assoc, List.singleton_append] at heq
  rcases List.append_eq_append_iff.mp heq with ⟨front, rfl, hrest⟩ | ⟨front, rfl, hrest⟩
  · cases front with
    | nil => exact Or.inl (by simp)
    | cons head front =>
      rw [List.cons_append, List.cons.injEq] at hrest
      exact Or.inr ⟨front, by simp [hrest.1]⟩
  · obtain rfl := eq_of_cons_eq_append hname hrest
    exact Or.inl (by simp)

/-! ### Components -/

/-- The pieces of a list between its separators. -/
def components [DecidableEq α] (sep : α) : List α → List (List α)
  | [] => [[]]
  | first :: rest =>
    if first = sep then [] :: components sep rest
    else
      match components sep rest with
      | [] => [[first]]
      | piece :: pieces => (first :: piece) :: pieces

variable [DecidableEq α]

theorem components_ne_nil (path : List α) : components sep path ≠ [] := by
  cases path with
  | nil => simp [components]
  | cons first rest =>
    unfold components
    split_ifs
    · simp
    · split <;> simp

theorem components_join (path name : List α) :
    components sep (path ++ sep :: name) = components sep path ++ components sep name := by
  induction path with
  | nil => simp [components]
  | cons first rest ih =>
    rw [List.cons_append, components, components, ih]
    split_ifs
    · rfl
    · cases hpieces : components sep rest with
      | nil => exact absurd hpieces (components_ne_nil rest)
      | cons piece pieces => rfl

theorem components_of_not_mem (hname : sep ∉ name) : components sep name = [name] := by
  induction name with
  | nil => rfl
  | cons first rest ih =>
    rw [List.mem_cons, not_or] at hname
    rw [components, if_neg (Ne.symm hname.1), ih hname.2]

end DirWatcher.Foundation.SeparatedPaths
