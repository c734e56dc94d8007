import Mathlib.Data.List.Basic

/-!
Queues in which each element of one kind has one of another kind behind it. Taking
the first element keeps this, and so does putting elements at the end, unless an
element of the first kind comes without the second.
-/

set_option autoImplicit false
set_option relaxedAutoImplicit false

namespace DirWatcher.Foundation.Followed

variable {α : Type*} {first second : α → Prop} {queue news rest : List α} {front : α}

/-- Each element of the first kind has one of the second kind behind it. -/
def EachFollowed (first second : α → Prop) : List α → Prop
  | [] => True
  | head :: rest => (first head → ∃ later ∈ rest, second later) ∧ EachFollowed first second rest

theorem EachFollowed.head (hqueue : EachFollowed first second (front :: rest))
    (hfront : first front) : ∃ later ∈ rest, second later := hqueue.1 hfront

theorem EachFollowed.tail (hqueue : EachFollowed first second (front :: rest)) :
    EachFollowed first second rest := hqueue.2

theorem EachFollowed.exists_of_mem {element : α} (hqueue : EachFollowed first second queue)
    (hmem : element ∈ queue) (hfirst : first element) : ∃ later ∈ queue, second later := by
  induction queue with
  | nil => cases hmem
  | cons head rest ih =>
    have hlater : ∃ later ∈ rest, second later := by
      rcases List.mem_cons.mp hmem with rfl | hrest
      · exact hqueue.head hfirst
      · exact ih hqueue.tail hrest
    obtain ⟨later, hmemLater, hsecond⟩ := hlater
    exact ⟨later, List.mem_cons_of_mem _ hmemLater, hsecond⟩

theorem eachFollowed_of_not (hnone : ∀ element ∈ queue, ¬ first element) :
    EachFollowed first second queue := by
  induction queue with
  | nil => trivial
  | cons head rest ih =>
    refine ⟨fun hhead ↦ absurd hhead (hnone head List.mem_cons_self), ih fun element helement ↦ ?_⟩
    exact hnone element (List.mem_cons_of_mem _ helement)

/-- Nothing of the first kind is put at the end. -/
theorem EachFollowed.append (hqueue : EachFollowed first second queue)
    (hnone : ∀ element ∈ news, ¬ first element) : EachFollowed first second (queue ++ news) := by
  induction queue with
  | nil => exact eachFollowed_of_not hnone
  | cons head rest ih =>
    refine ⟨fun hhead ↦ ?_, ih hqueue.tail⟩
    obtain ⟨later, hlater, hsecond⟩ := hqueue.head hhead
    exact ⟨later, List.mem_append_left _ hlater, hsecond⟩

/-- Something of the second kind is put at the end, and nothing of the first. -/
theorem eachFollowed_append_of_exists (hnone : ∀ element ∈ news, ¬ first element)
    (hsecond : ∃ later ∈ news, second later) : EachFollowed first second (queue ++ news) := by
  induction queue with
  | nil => exact eachFollowed_of_not hnone
  | cons head rest ih =>
    obtain ⟨later, hlater, hlast⟩ := hsecond
    exact ⟨fun _ ↦ ⟨later, List.mem_append_right _ hlater, hlast⟩, ih⟩

end DirWatcher.Foundation.Followed
