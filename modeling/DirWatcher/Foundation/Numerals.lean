import Mathlib.Data.List.Lex
import Mathlib.Data.Nat.Notation
import Mathlib.Tactic.Ring

/-!
Numerals: lists of digits with the most significant one first. Numerals of one length come in
the order of their values.
-/

set_option autoImplicit false
set_option relaxedAutoImplicit false

namespace DirWatcher.Foundation.Numerals

/-- The value of the digits after those whose value is `high`. -/
def value (base high : ℕ) (digits : List ℕ) : ℕ :=
  digits.foldl (fun sum digit ↦ base * sum + digit) high

variable {base high other : ℕ} {first second : List ℕ}

/-- What comes first decides. -/
theorem value_lt_of_high_lt (hlength : first.length = second.length)
    (hfirst : ∀ digit ∈ first, digit < base) (hhigh : high < other) :
    value base high first < value base other second := by
  induction first generalizing second high other with
  | nil =>
    obtain rfl := List.length_eq_zero_iff.mp hlength.symm
    exact hhigh
  | cons digit first ih =>
    cases second with
    | nil => cases hlength
    | cons digit' second =>
      have hdigit := hfirst digit List.mem_cons_self
      have hnext : base * high + digit < base * other + digit' :=
        calc base * high + digit < base * high + base := Nat.add_lt_add_left hdigit _
          _ = base * (high + 1) := by ring
          _ ≤ base * other := Nat.mul_le_mul_left _ hhigh
          _ ≤ base * other + digit' := Nat.le_add_right _ _
      have hlength' : first.length = second.length := by simpa using hlength
      change value base (base * high + digit) first < value base (base * other + digit') second
      exact ih hlength' (fun digit hdigit ↦ hfirst digit (List.mem_cons_of_mem _ hdigit)) hnext

theorem lex_of_value_lt (hlength : first.length = second.length)
    (hsecond : ∀ digit ∈ second, digit < base)
    (hvalue : value base high first < value base high second) :
    List.Lex (· < ·) first second := by
  induction first generalizing second high with
  | nil =>
    obtain rfl := List.length_eq_zero_iff.mp hlength.symm
    exact absurd hvalue (lt_irrefl _)
  | cons digit first ih =>
    cases second with
    | nil => cases hlength
    | cons digit' second =>
      have hrest : ∀ digit ∈ second, digit < base := fun digit hdigit ↦
        hsecond digit (List.mem_cons_of_mem _ hdigit)
      rcases lt_trichotomy digit digit' with hlt | rfl | hgt
      · exact .rel hlt
      · exact .cons (ih (by simpa using hlength) hrest hvalue)
      · have hlength' : second.length = first.length := by simpa using hlength.symm
        have hreverse := value_lt_of_high_lt hlength' hrest (Nat.add_lt_add_left hgt (base * high))
        exact absurd hvalue hreverse.le.not_gt

end DirWatcher.Foundation.Numerals
