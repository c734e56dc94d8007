import DirWatcher.Cache.HashCacheRefinement

/-!
The result of `hash_cache_add`, by which its caller tells a directory that is recorded from
one that is refused. It is the count of the item, which wraps: after `2 ^ 32` adds of one
item since the last clear the result is zero, and the item is recorded.
-/

set_option autoImplicit false
set_option relaxedAutoImplicit false

namespace DirWatcher.Cache

open Source Foundation.FirstOccurrences

/-- The cache has counted one more add. -/
def Recorded (before after : HashCache) : Prop := after.counter = before.counter + 1

/-- The add returns, its result is zero if and only if it has not been recorded, and then
nothing of the cache has changed. -/
def ZeroMeansRefused (hc : HashCache) (data : Bytes) : Prop :=
  ∃ result after, hashCacheAdd hc data = some (result, after) ∧
    (result = 0 ↔ ¬ Recorded hc after) ∧ (result = 0 → after = hc)

variable {hc : HashCache} {accepted : List Bytes} {data : Bytes}

theorem toInt32_ofNat_eq_zero_iff (n : ℕ) : (UInt32.ofNat n).toInt32 = 0 ↔ n % 2 ^ 32 = 0 := by
  have hconvert : (UInt32.ofNat n).toInt32 = 0 ↔ UInt32.ofNat n = 0 :=
    ⟨congrArg Int32.toUInt32, congrArg UInt32.toInt32⟩
  rw [hconvert, ← UInt32.toNat_inj, UInt32.toNat_ofNat']
  rfl

theorem not_recorded_self (hc : HashCache) : ¬ Recorded hc hc :=
  fun hrecorded ↦ add_one_ne_self hc.counter hrecorded.symm

theorem Holds.zeroMeansRefused_of_refuses (hholds : Holds hc accepted)
    (hrefuses : Refuses hc.hashSize hc.memSize accepted data) : ZeroMeansRefused hc data :=
  ⟨0, hc, hholds.hashCacheAdd_of_refuses hrefuses, iff_of_true rfl (not_recorded_self hc),
    fun _ ↦ rfl⟩

/-- An add that is not refused returns the number of the adds of its item. -/
theorem Holds.zeroMeansRefused_iff_of_not_refuses (hholds : Holds hc accepted)
    (hsize : 1 ≤ hc.hashSize) (haccepts : ¬ Refuses hc.hashSize hc.memSize accepted data) :
    ZeroMeansRefused hc data ↔ (accepted.count data + 1) % 2 ^ 32 ≠ 0 := by
  obtain ⟨after, hadd, -, -, -, hcounter⟩ := hholds.hashCacheAdd_of_not_refuses hsize haccepts
  rw [count_append_singleton, if_pos rfl] at hadd
  have hzero := toInt32_ofNat_eq_zero_iff (accepted.count data + 1)
  constructor
  · rintro ⟨result, after', hadd', hiff, -⟩ hwrapped
    obtain ⟨rfl, rfl⟩ := Prod.mk.inj (Option.some.inj (hadd.symm.trans hadd'))
    exact hiff.mp (hzero.mpr hwrapped) hcounter
  · intro hcount
    have hresult : (UInt32.ofNat (accepted.count data + 1)).toInt32 ≠ 0 :=
      fun heq ↦ hcount (hzero.mp heq)
    exact ⟨_, after, hadd, iff_of_false hresult (not_not_intro hcounter),
      fun heq ↦ absurd heq hresult⟩

/-- After any adds and clears, a zero means that the add is refused exactly if it is refused
or its item has not come to a multiple of `2 ^ 32` acceptances with it. -/
theorem zeroMeansRefused_iff (hashSize memSize : ℕ) (hsize : 1 ≤ hashSize)
    (entries : ℕ → HashCacheEntry) (memory : ℕ → UInt8) (ops : List CacheOp) (data : Bytes) :
    ∃ hc, runOps (newHashCache hashSize memSize entries memory) ops = some hc ∧
      (ZeroMeansRefused hc data ↔
        Refuses hashSize memSize (acceptedItems hashSize memSize ops) data ∨
          ((acceptedItems hashSize memSize ops).count data + 1) % 2 ^ 32 ≠ 0) := by
  obtain ⟨hc, hrun, hholds, hsizes, hmem⟩ :=
    holds_runOps hashSize memSize hsize entries memory ops
  refine ⟨hc, hrun, ?_⟩
  rw [← hsizes, ← hmem] at hholds ⊢
  by_cases hrefuses :
      Refuses hc.hashSize hc.memSize (acceptedItems hc.hashSize hc.memSize ops) data
  · exact iff_of_true (hholds.zeroMeansRefused_of_refuses hrefuses) (Or.inl hrefuses)
  · rw [hholds.zeroMeansRefused_iff_of_not_refuses (hsizes ▸ hsize) hrefuses,
      or_iff_right hrefuses]

/-! ### The wrapping count -/

/-- Another add of an item of one byte is never refused. -/
theorem not_refuses_replicate (n : ℕ) : ¬ Refuses 2 4 (List.replicate n [1]) [1] := by
  cases n with
  | zero => decide
  | succ n =>
    rw [Refuses, distinct_replicate_succ]
    decide

theorem acceptedItems_replicate (n : ℕ) :
    acceptedItems 2 4 (List.replicate n (.add [1])) = List.replicate n [1] := by
  induction n with
  | zero => rfl
  | succ n ih =>
    rw [List.replicate_succ', acceptedItems, List.foldl_append, ← acceptedItems, ih,
      List.replicate_succ', List.foldl_cons, List.foldl_nil, acceptOp,
      if_neg (not_refuses_replicate n)]

theorem not_zeroMeansRefused_replicate {n : ℕ} (hwraps : (n + 1) % 2 ^ 32 = 0) :
    ∃ hc, runOps (newHashCache 2 4 (fun _ ↦ ⟨0, 0, 0, 0, 0⟩) fun _ ↦ 0)
        (List.replicate n (.add [1])) = some hc ∧ ¬ ZeroMeansRefused hc [1] := by
  obtain ⟨hc, hrun, hholds, hsizes, hmem⟩ := holds_runOps 2 4 (by decide)
    (fun _ ↦ ⟨0, 0, 0, 0, 0⟩) (fun _ ↦ 0) (List.replicate n (.add [1]))
  rw [acceptedItems_replicate] at hholds
  have haccepts : ¬ Refuses hc.hashSize hc.memSize (List.replicate n [1]) [1] := by
    rw [hsizes, hmem]
    exact not_refuses_replicate n
  refine ⟨hc, hrun, fun hzero ↦ ?_⟩
  have hcount := (hholds.zeroMeansRefused_iff_of_not_refuses (by omega) haccepts).mp hzero
  rw [List.count_replicate_self] at hcount
  exact hcount hwraps

/-- The add that brings the count to `2 ^ 32` is recorded, and returns zero. -/
theorem not_zeroMeansRefused_of_wrap :
    ∃ hc, runOps (newHashCache 2 4 (fun _ ↦ ⟨0, 0, 0, 0, 0⟩) fun _ ↦ 0)
        (List.replicate (2 ^ 32 - 1) (.add [1])) = some hc ∧ ¬ ZeroMeansRefused hc [1] :=
  not_zeroMeansRefused_replicate (by omega)

/-- The first add of an item to a new cache returns one. -/
theorem zeroMeansRefused_first_add :
    ZeroMeansRefused (newHashCache 2 4 (fun _ ↦ ⟨0, 0, 0, 0, 0⟩) fun _ ↦ 0) [1] := by
  obtain ⟨hc, hrun, hiff⟩ := zeroMeansRefused_iff 2 4 (by decide)
    (fun _ ↦ ⟨0, 0, 0, 0, 0⟩) (fun _ ↦ 0) [] [1]
  obtain rfl := Option.some.inj hrun
  exact hiff.mpr (Or.inr (by decide))

end DirWatcher.Cache
