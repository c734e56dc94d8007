import Mathlib.Data.Fintype.EquivFin
import Mathlib.Data.Nat.ModEq
import Mathlib.Order.Interval.Finset.Nat

/-!
Linear probing around a circular table of positions. A probe starts at a home
position and moves to the next position, wrapping at the end of the table,
until it meets a position where it may stop. The position it returns is the
first admissible one in circular order, and a full round meets every position.
-/

set_option autoImplicit false
set_option relaxedAutoImplicit false

namespace DirWatcher.Foundation.LinearProbing

/-- Probes at most `fuel` positions of a table of the given size, the first of
them `pos`, and returns the first position satisfying `stop`. -/
def probe (stop : ℕ → Bool) (size : ℕ) : ℕ → ℕ → Option ℕ
  | 0, _ => none
  | fuel + 1, pos => if stop pos then some pos else probe stop size fuel ((pos + 1) % size)

variable {stop : ℕ → Bool} {size : ℕ}

/-- The position reached from `pos` after `steps` moves. -/
def advance (size pos steps : ℕ) : ℕ := (pos + steps) % size

theorem advance_lt (hsize : 0 < size) (pos steps : ℕ) : advance size pos steps < size :=
  Nat.mod_lt _ hsize

theorem advance_zero {pos : ℕ} (hpos : pos < size) : advance size pos 0 = pos := by
  simp [advance, Nat.mod_eq_of_lt hpos]

theorem advance_succ (pos steps : ℕ) :
    advance size ((pos + 1) % size) steps = advance size pos (steps + 1) := by
  simp only [advance, Nat.mod_add_mod]
  congr 1
  omega

/-- The probe returns the first admissible position in circular order. -/
theorem probe_eq_some_iff {fuel pos found : ℕ} (hpos : pos < size) :
    probe stop size fuel pos = some found ↔
      ∃ steps < fuel, found = advance size pos steps ∧ stop found = true ∧
        ∀ earlier < steps, stop (advance size pos earlier) = false := by
  induction fuel generalizing pos with
  | zero => simp [probe]
  | succ fuel ih =>
    have hsize : 0 < size := lt_of_le_of_lt (Nat.zero_le _) hpos
    by_cases hstop : stop pos = true
    · simp only [probe, hstop, if_true, Option.some.injEq]
      constructor
      · rintro rfl
        exact ⟨0, Nat.succ_pos _, (advance_zero hpos).symm, hstop, by simp⟩
      · rintro ⟨steps, _, hfound, _, hearlier⟩
        rcases Nat.eq_zero_or_pos steps with rfl | hsteps
        · rw [hfound, advance_zero hpos]
        · have := hearlier 0 hsteps
          rw [advance_zero hpos, hstop] at this
          simp at this
    · simp only [probe, hstop, if_false, Bool.false_eq_true]
      rw [ih (Nat.mod_lt _ hsize)]
      constructor
      · rintro ⟨steps, hsteps, hfound, hat, hearlier⟩
        refine ⟨steps + 1, by omega, by rw [hfound, advance_succ], hat, ?_⟩
        intro earlier hlt
        cases earlier with
        | zero => rw [advance_zero hpos]; simpa using hstop
        | succ earlier =>
          rw [← advance_succ]
          exact hearlier earlier (by omega)
      · rintro ⟨steps, hsteps, hfound, hat, hearlier⟩
        cases steps with
        | zero =>
          rw [advance_zero hpos] at hfound
          rw [hfound] at hat
          exact absurd hat hstop
        | succ steps =>
          refine ⟨steps, by omega, by rw [hfound, advance_succ], hat, ?_⟩
          intro earlier hlt
          rw [advance_succ]
          exact hearlier (earlier + 1) (by omega)

/-- The positions that a probe tests, the last of them the one where it stops. -/
def visited (stop : ℕ → Bool) (size : ℕ) : ℕ → ℕ → List ℕ
  | 0, _ => []
  | fuel + 1, pos => if stop pos then [pos] else pos :: visited stop size fuel ((pos + 1) % size)

/-- A probe that may go on for longer tests the same positions. -/
theorem visited_eq_map_advance {fuel pos steps : ℕ} (hpos : pos < size) (hfuel : steps < fuel)
    (hstop : stop (advance size pos steps) = true)
    (hearlier : ∀ earlier < steps, stop (advance size pos earlier) = false) :
    visited stop size fuel pos = (List.range (steps + 1)).map (advance size pos) := by
  induction steps generalizing fuel pos with
  | zero =>
    obtain ⟨fuel, rfl⟩ : ∃ rest, fuel = rest + 1 := ⟨fuel - 1, by omega⟩
    rw [advance_zero hpos] at hstop
    simp [visited, hstop, advance_zero hpos]
  | succ steps ih =>
    obtain ⟨fuel, rfl⟩ : ∃ rest, fuel = rest + 1 := ⟨fuel - 1, by omega⟩
    have hfirst : stop pos = false := by
      simpa [advance_zero hpos] using hearlier 0 (Nat.succ_pos _)
    have hsize : 0 < size := lt_of_le_of_lt (Nat.zero_le _) hpos
    have hrest : visited stop size fuel ((pos + 1) % size) =
        (List.range (steps + 1)).map (advance size ((pos + 1) % size)) := by
      refine ih (Nat.mod_lt _ hsize) (Nat.lt_of_succ_lt_succ hfuel) ?_ fun earlier hlt ↦ ?_
      · rwa [advance_succ]
      · rw [advance_succ]
        exact hearlier (earlier + 1) (Nat.succ_lt_succ hlt)
    have hshift : advance size pos ∘ Nat.succ = advance size ((pos + 1) % size) :=
      funext fun later ↦ (advance_succ pos later).symm
    rw [visited, if_neg (by simp [hfirst]), hrest, @List.range_succ_eq_map (steps + 1),
      List.map_cons, List.map_map, hshift, advance_zero hpos]

/-- Fewer than a full round of moves never returns to the same position. -/
theorem advance_injOn {pos first second : ℕ} (hfirst : first < size) (hsecond : second < size)
    (heq : advance size pos first = advance size pos second) : first = second := by
  have hmod : Nat.ModEq size (pos + first) (pos + second) := heq
  have hcancel : Nat.ModEq size first second := Nat.ModEq.add_left_cancel' pos hmod
  rwa [Nat.ModEq, Nat.mod_eq_of_lt hfirst, Nat.mod_eq_of_lt hsecond] at hcancel

/-- A full round of moves meets every position of the table. -/
theorem exists_advance_eq {pos target : ℕ} (htarget : target < size) :
    ∃ steps < size, advance size pos steps = target := by
  have hsize : 0 < size := lt_of_le_of_lt (Nat.zero_le _) htarget
  let move : Fin size → Fin size := fun steps ↦ ⟨advance size pos steps, advance_lt hsize _ _⟩
  have hinjective : Function.Injective move := by
    intro first second heq
    exact Fin.ext (advance_injOn first.isLt second.isLt (congrArg Fin.val heq))
  obtain ⟨steps, hsteps⟩ := Finite.surjective_of_injective hinjective ⟨target, htarget⟩
  exact ⟨steps, steps.isLt, congrArg Fin.val hsteps⟩

/-- A probe of a whole round stops when some position is admissible. -/
theorem exists_probe_eq_some {pos target : ℕ} (hpos : pos < size) (htarget : target < size)
    (hstop : stop target = true) : ∃ found, probe stop size size pos = some found := by
  classical
  obtain ⟨steps, hsteps, hreach⟩ : ∃ steps < size, advance size pos steps = target :=
    exists_advance_eq htarget
  have hexists : ∃ n, stop (advance size pos n) = true := ⟨steps, by rw [hreach]; exact hstop⟩
  refine ⟨advance size pos (Nat.find hexists), (probe_eq_some_iff hpos).mpr
    ⟨Nat.find hexists, ?_, rfl, Nat.find_spec hexists, fun earlier hlt ↦ ?_⟩⟩
  · exact lt_of_le_of_lt (Nat.find_min' hexists (by rw [hreach]; exact hstop)) hsteps
  · simpa using Nat.find_min hexists hlt

/-- A table with fewer occupied positions than positions has a free one. -/
theorem exists_free (occupied : ℕ → Bool)
    (hcount : ((Finset.range size).filter (fun pos ↦ occupied pos = true)).card < size) :
    ∃ pos < size, occupied pos = false := by
  by_contra hall
  have hfull : (Finset.range size).filter (fun pos ↦ occupied pos = true) =
      Finset.range size := by
    refine Finset.filter_true_of_mem fun pos hpos ↦ ?_
    by_contra hfree
    exact hall ⟨pos, Finset.mem_range.mp hpos, by simpa using hfree⟩
  rw [hfull, Finset.card_range] at hcount
  exact lt_irrefl _ hcount

end DirWatcher.Foundation.LinearProbing
