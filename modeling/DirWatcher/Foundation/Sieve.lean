import Mathlib.Data.List.Sort

/-!
Keeping the least elements of a list. The first element is kept and takes out of the rest
all that it covers, and so on. In a list where no element covers an earlier one, what is kept
is just what no element covers.
-/

set_option autoImplicit false
set_option relaxedAutoImplicit false

namespace DirWatcher.Foundation.Sieve

variable {α : Type*} (covers : α → α → Bool)

/-- At most `fuel` elements are kept. -/
def sieve : ℕ → List α → List α
  | 0, _ => []
  | _, [] => []
  | fuel + 1, head :: rest => head :: sieve fuel (rest.filter fun other ↦ !covers head other)

variable {covers}

theorem mem_sieve_iff (htrans : ∀ first second third, covers first second = true →
      covers second third = true → covers first third = true)
    (hirrefl : ∀ element, covers element element = false) {fuel : ℕ} {list : List α}
    (hfuel : list.length ≤ fuel)
    (hordered : list.Pairwise fun earlier later ↦ covers later earlier = false) {element : α} :
    element ∈ sieve covers fuel list ↔
      element ∈ list ∧ ∀ other ∈ list, covers other element = false := by
  induction fuel generalizing list with
  | zero =>
    obtain rfl : list = [] := List.length_eq_zero_iff.mp (Nat.le_zero.mp hfuel)
    simp [sieve]
  | succ fuel ih =>
    cases list with
    | nil => simp [sieve]
    | cons head rest =>
      obtain ⟨hhead, hrest⟩ := List.pairwise_cons.mp hordered
      have hsub : (rest.filter fun other ↦ !covers head other).Sublist rest := List.filter_sublist
      rw [sieve, List.mem_cons, ih (hsub.length_le.trans (by simpa using hfuel))
        (hrest.sublist hsub)]
      simp only [List.mem_filter, Bool.not_eq_true', List.mem_cons, forall_eq_or_imp, and_imp]
      constructor
      · rintro (rfl | ⟨⟨hmem, hcovered⟩, hall⟩)
        · exact ⟨Or.inl rfl, hirrefl element, fun other hother ↦ hhead other hother⟩
        · refine ⟨Or.inr hmem, hcovered, fun other hother ↦ ?_⟩
          by_contra hcovers
          rw [Bool.not_eq_false] at hcovers
          cases hother' : covers head other with
          | false => simp [hall other hother hother'] at hcovers
          | true => simp [htrans _ _ _ hother' hcovers] at hcovered
      · rintro ⟨rfl | hmem, hcovered, hall⟩
        · exact Or.inl rfl
        · exact Or.inr ⟨⟨hmem, hcovered⟩, fun other hother _ ↦ hall other hother⟩

/-- Each element is kept, or one that is kept covers it. -/
theorem exists_mem_sieve (covers : α → α → Bool) {fuel : ℕ} {list : List α}
    (hfuel : list.length ≤ fuel) {element : α} (hmem : element ∈ list) :
    ∃ kept ∈ sieve covers fuel list, kept = element ∨ covers kept element = true := by
  induction fuel generalizing list with
  | zero =>
    obtain rfl : list = [] := List.length_eq_zero_iff.mp (Nat.le_zero.mp hfuel)
    cases hmem
  | succ fuel ih =>
    cases list with
    | nil => cases hmem
    | cons head rest =>
      rw [sieve]
      rcases List.mem_cons.mp hmem with rfl | hrest
      · exact ⟨element, List.mem_cons_self, Or.inl rfl⟩
      · cases hcovers : covers head element with
        | true => exact ⟨head, List.mem_cons_self, Or.inr hcovers⟩
        | false =>
          have hsub : (rest.filter fun other ↦ !covers head other).Sublist rest :=
            List.filter_sublist
          obtain ⟨kept, hkept, hcovered⟩ :=
            ih (hsub.length_le.trans (by simpa using hfuel))
              (List.mem_filter.mpr ⟨hrest, by simp [hcovers]⟩)
          exact ⟨kept, List.mem_cons_of_mem _ hkept, hcovered⟩

end DirWatcher.Foundation.Sieve
