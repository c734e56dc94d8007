import Mathlib.Data.List.Induction
import Mathlib.Data.List.Nodup

/-!
The distinct elements of a list, each kept at its first occurrence. Reading the
list from the left, an element already met adds nothing and a new element goes
to the end.
-/

set_option autoImplicit false
set_option relaxedAutoImplicit false

namespace DirWatcher.Foundation.FirstOccurrences

variable {α : Type*} [DecidableEq α]

/-- Keeps an element already present and appends a new one. -/
def keep (seen : List α) (item : α) : List α := if item ∈ seen then seen else seen ++ [item]

/-- The distinct elements of a list in the order of their first occurrence. -/
def distinct (items : List α) : List α := items.foldl keep []

@[simp] theorem distinct_nil : distinct ([] : List α) = [] := rfl

@[simp] theorem distinct_append_singleton (items : List α) (item : α) :
    distinct (items ++ [item]) = keep (distinct items) item := by
  simp [distinct]

theorem keep_of_mem {seen : List α} {item : α} (hmem : item ∈ seen) : keep seen item = seen := by
  simp [keep, hmem]

theorem keep_of_not_mem {seen : List α} {item : α} (hnew : item ∉ seen) :
    keep seen item = seen ++ [item] := by
  simp [keep, hnew]

@[simp] theorem mem_keep {seen : List α} {item other : α} :
    other ∈ keep seen item ↔ other ∈ seen ∨ other = item := by
  by_cases hmem : item ∈ seen
  · rw [keep_of_mem hmem]
    constructor
    · exact Or.inl
    · rintro (hother | rfl) <;> assumption
  · simp [keep_of_not_mem hmem]

@[simp] theorem mem_distinct {items : List α} {item : α} :
    item ∈ distinct items ↔ item ∈ items := by
  induction items using List.reverseRecOn with
  | nil => simp
  | append_singleton items last ih => simp [ih]

theorem nodup_distinct (items : List α) : (distinct items).Nodup := by
  induction items using List.reverseRecOn with
  | nil => simp
  | append_singleton items last ih =>
    rw [distinct_append_singleton]
    by_cases hmem : last ∈ distinct items
    · rwa [keep_of_mem hmem]
    · rw [keep_of_not_mem hmem]
      exact List.nodup_append.mpr ⟨ih, List.nodup_singleton _, by
        intro item hitem other hother
        rw [List.mem_singleton.mp hother]
        rintro rfl
        exact hmem hitem⟩

theorem distinct_of_nodup {items : List α} (hnodup : items.Nodup) : distinct items = items := by
  induction items using List.reverseRecOn with
  | nil => rfl
  | append_singleton items last ih =>
    obtain ⟨hitems, -, hdisjoint⟩ := List.nodup_append.mp hnodup
    rw [distinct_append_singleton, ih hitems, keep_of_not_mem]
    exact fun hmem ↦ hdisjoint last hmem last (List.mem_singleton_self last) rfl

theorem distinct_map {β : Type*} [DecidableEq β] {f : α → β} (hf : Function.Injective f)
    (items : List α) : distinct (items.map f) = (distinct items).map f := by
  induction items using List.reverseRecOn with
  | nil => rfl
  | append_singleton items last ih =>
    rw [List.map_append, List.map_singleton, distinct_append_singleton, ih,
      distinct_append_singleton]
    by_cases hmem : last ∈ distinct items
    · rw [keep_of_mem hmem, keep_of_mem (List.mem_map_of_mem hmem)]
    · have hnew : f last ∉ (distinct items).map f := fun hold ↦
        hmem ((List.mem_map_of_injective hf).mp hold)
      rw [keep_of_not_mem hmem, keep_of_not_mem hnew, List.map_append, List.map_singleton]

theorem distinct_replicate_succ (n : ℕ) (item : α) :
    distinct (List.replicate (n + 1) item) = [item] := by
  induction n with
  | zero => rfl
  | succ n ih =>
    rw [List.replicate_succ', distinct_append_singleton, ih]
    exact keep_of_mem (List.mem_singleton_self item)

end DirWatcher.Foundation.FirstOccurrences
