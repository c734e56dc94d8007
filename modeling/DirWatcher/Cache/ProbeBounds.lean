import DirWatcher.Cache.HashCacheRefinement

/-!
The end of the probing loop and the bounds of the arrays. An add that passes the tests on
the room and on the load finds a place to stop within one round of the table, and with it
the indices at which it writes. A clear writes the slots of the used entries.
-/

set_option autoImplicit false
set_option relaxedAutoImplicit false

namespace DirWatcher.Cache

open Source Foundation.LinearProbing Foundation.FirstOccurrences

/-! ### What an add and a clear write -/

/-- What `hash_cache_add` does at the slot where its loop has stopped. An empty slot gets the
next entry, and the bytes are copied behind the others; the entry of an equal item is counted. -/
inductive AddsAt (hc : HashCache) (data : Bytes) (pos : ℕ) : HashCache → Prop
  | inserts (hempty : hc.hash pos = none) (hentry : hc.hashPos < hc.hashSize)
      (hbytes : hc.memoryPos + data.length ≤ hc.memSize) :
      AddsAt hc data pos
        (countEntry (insertNew hc (defaultHashFunction data) data pos) hc.hashPos)
  | counts {i : ℕ} (hslot : hc.hash pos = some i) (hentry : i < hc.hashSize)
      (hequal : readBytes hc.memory (hc.entries i).memoryPos (hc.entries i).datalen = data) :
      AddsAt hc data pos (countEntry hc i)

/-- The probing loop of `hash_cache_add` visits the slots and no others, however many turns it
may take, and the rest of the function works at the last of them. -/
structure AddInRange (hc : HashCache) (data : Bytes) (slots : List ℕ) (after : HashCache) :
    Prop where
  visits : ∀ turns, hc.hashSize ≤ turns →
    visited (stopsAt hc (defaultHashFunction data) data) hc.hashSize turns (home hc data) = slots
  length : slots.length ≤ hc.hashSize
  inTable : ∀ slot ∈ slots, slot < hc.hashSize
  adds : ∃ pos ∈ slots.getLast?, AddsAt hc data pos after

/-- The slots that the loop of `hash_cache_clear` writes, turn by turn. -/
def clearedSlots (hc : HashCache) : List ℕ :=
  (List.range hc.hashPos).map fun i ↦ (((List.range i).foldl clearEntry hc).entries i).hashPos

variable {hc : HashCache} {accepted : List Bytes}

/-! ### The bounds -/

/-- Every used entry has a slot of its own, so that there are at most as many as slots. -/
theorem Holds.hashPos_le_hashSize (hholds : Holds hc accepted) : hc.hashPos ≤ hc.hashSize := by
  have hcard : (Finset.range hc.hashPos).card ≤ (Finset.range hc.hashSize).card := by
    refine Finset.card_le_card_of_injOn (fun i ↦ (hc.entries i).hashPos) ?_ ?_
    · intro i hi
      obtain ⟨data, -, hentry⟩ := hholds.entry_of_lt (Finset.mem_range.mp hi)
      exact Finset.mem_coe.mpr (Finset.mem_range.mpr hentry.inTable)
    · intro first hfirst second hsecond heq
      obtain ⟨data, -, hentry⟩ := hholds.entry_of_lt (Finset.mem_range.mp hfirst)
      obtain ⟨other, -, hother⟩ := hholds.entry_of_lt (Finset.mem_range.mp hsecond)
      have hslot := hentry.pointed
      rw [show (hc.entries first).hashPos = (hc.entries second).hashPos from heq,
        hother.pointed] at hslot
      exact (Option.some.inj hslot).symm
  simpa using hcard

/-- What is done at the slot where the probe has stopped. -/
theorem Holds.exists_addsAt (hholds : Holds hc accepted) (hsize : 1 ≤ hc.hashSize) {data : Bytes}
    (hroom : data.length ≤ hc.memSize - hc.memoryPos) (hload : hc.hashPos ≤ hc.hashSize / 2)
    {pos : ℕ} (hstop : stopsAt hc (defaultHashFunction data) data pos = true)
    (hprobe : probe (stopsAt hc (defaultHashFunction data) data) hc.hashSize hc.hashSize
      (home hc data) = some pos) :
    ∃ after, Cache.runOp hc (.add data) = some after ∧ AddsAt hc data pos after := by
  have hfits := hholds.fits
  cases hslot : hc.hash pos with
  | none =>
    refine ⟨_, ?_, .inserts hslot (by omega) (by omega)⟩
    rw [Cache.runOp, hashCacheAdd_of_empty hroom hload hprobe hslot, Option.map_some]
  | some i =>
    have hused : i < hc.hashPos := (hholds.slot pos i hslot).1
    have hentry := hholds.entry i data (hholds.found_eq hstop hslot)
    refine ⟨_, ?_, .counts hslot (hused.trans_le hholds.hashPos_le_hashSize) ?_⟩
    · rw [Cache.runOp, hashCacheAdd_of_slot hroom hload hprobe hslot, Option.map_some]
    · rw [hentry.datalen, hentry.bytes]

/-- An add that passes both tests stops probing within one round and stays in the arrays. -/
theorem Holds.exists_addInRange (hholds : Holds hc accepted) (hsize : 1 ≤ hc.hashSize)
    {data : Bytes} (hroom : data.length ≤ hc.memSize - hc.memoryPos)
    (hload : hc.hashPos ≤ hc.hashSize / 2) :
    ∃ slots after, Cache.runOp hc (.add data) = some after ∧ AddInRange hc data slots after := by
  have hhome := home_lt hsize data
  obtain ⟨pos, hprobe⟩ := hholds.exists_probe hsize hload data
  obtain ⟨steps, hsteps, hpos, hstop, hearlier⟩ := (probe_eq_some_iff hhome).mp hprobe
  obtain ⟨after, hadd, hadds⟩ := hholds.exists_addsAt hsize hroom hload hstop hprobe
  subst hpos
  refine ⟨(List.range (steps + 1)).map (advance hc.hashSize (home hc data)), after, hadd,
    fun turns hturns ↦ ?_, ?_, ?_, _, ?_, hadds⟩
  · exact visited_eq_map_advance hhome (hsteps.trans_le hturns) hstop hearlier
  · simpa [Nat.succ_le_iff] using hsteps
  · intro slot hslot
    obtain ⟨move, -, rfl⟩ := List.mem_map.mp hslot
    exact advance_lt hsize _ _
  · simp [List.range_succ]

theorem Holds.lt_hashSize_of_mem_clearedSlots (hholds : Holds hc accepted) {slot : ℕ}
    (hslot : slot ∈ clearedSlots hc) : slot < hc.hashSize := by
  obtain ⟨i, hi, rfl⟩ := List.mem_map.mp hslot
  obtain ⟨data, -, hentry⟩ := hholds.entry_of_lt (List.mem_range.mp hi)
  rw [(foldl_clearEntry hc i).1]
  exact hentry.inTable

/-- From a new cache, after any adds and clears: an add is refused before it probes, or its
loop stops after at most `hash_size` slots, all of them in the table, at an empty slot or at
the one of an equal item, and the entry and the bytes that it writes lie in their arrays. A
clear reads the used entries, which are at most `hash_size`, writes slots below `hash_size`
only, and leaves all slots empty. -/
theorem probes_end_in_range (hashSize memSize : ℕ) (hsize : 1 ≤ hashSize)
    (entries : ℕ → HashCacheEntry) (memory : ℕ → UInt8) (ops : List CacheOp) :
    ∃ hc, runOps (newHashCache hashSize memSize entries memory) ops = some hc ∧
      hc.hashSize = hashSize ∧ hc.memSize = memSize ∧
      (∀ data, (memSize - hc.memoryPos < data.length ∨ hashSize / 2 < hc.hashPos) ∧
          hashCacheAdd hc data = some (0, hc) ∨
        ∃ slots after, runOp hc (.add data) = some after ∧ AddInRange hc data slots after) ∧
      hc.hashPos ≤ hashSize ∧ (∀ slot ∈ clearedSlots hc, slot < hashSize) ∧
      ∀ pos, (hashCacheClear hc).hash pos = none := by
  obtain ⟨hc, hrun, hholds, rfl, rfl⟩ := holds_runOps hashSize memSize hsize entries memory ops
  refine ⟨hc, hrun, rfl, rfl, fun data ↦ ?_, hholds.hashPos_le_hashSize,
    fun slot ↦ hholds.lt_hashSize_of_mem_clearedSlots, hholds.hashCacheClear_hash⟩
  by_cases hrefuses : Refuses hc.hashSize hc.memSize
      (acceptedItems hc.hashSize hc.memSize ops) data
  · refine Or.inl ⟨?_, hholds.hashCacheAdd_of_refuses hrefuses⟩
    rwa [Refuses, ← hholds.filled, ← hholds.used] at hrefuses
  · rw [Refuses, ← hholds.filled, ← hholds.used, not_or, not_lt, not_lt] at hrefuses
    exact Or.inr (hholds.exists_addInRange hsize hrefuses.1 hrefuses.2)

/-- A table of one slot is empty again after a clear, and the next add finds a place in it. -/
theorem probes_end_in_range_one :
    ∃ hc, runOps (newHashCache 1 4 (fun _ ↦ ⟨0, 0, 0, 0, 0⟩) fun _ ↦ 0)
        [.add [1], .add [2], .clear] = some hc ∧
      (∃ slots after, runOp hc (.add [2, 3]) = some after ∧ AddInRange hc [2, 3] slots after) ∧
      hc.hashPos ≤ 1 ∧ (∀ slot ∈ clearedSlots hc, slot < 1) ∧
      ∀ pos, (hashCacheClear hc).hash pos = none := by
  obtain ⟨hc, hrun, -, -, hadd, hrest⟩ := probes_end_in_range 1 4 (by decide)
    (fun _ ↦ ⟨0, 0, 0, 0, 0⟩) (fun _ ↦ 0) [.add [1], .add [2], .clear]
  refine ⟨hc, hrun, (hadd [2, 3]).resolve_left ?_, hrest⟩
  have hcleared : (runOps (newHashCache 1 4 (fun _ ↦ ⟨0, 0, 0, 0, 0⟩) fun _ ↦ 0)
      [.add [1], .add [2], .clear]).map (fun hc ↦ (hc.hashPos, hc.memoryPos)) = some (0, 0) := by
    decide
  rw [hrun, Option.map_some, Option.some_inj, Prod.mk.injEq] at hcleared
  rw [hcleared.1, hcleared.2]
  exact fun hrefused ↦ absurd hrefused.1 (by decide)

end DirWatcher.Cache
