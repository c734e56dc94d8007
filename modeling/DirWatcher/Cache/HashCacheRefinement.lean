import DirWatcher.Foundation.FirstOccurrences
import DirWatcher.Source.HashCache

/-!
The hash cache refines an insertion-ordered counted set. The abstract state is
the list of the items accepted since the last clear, repetitions included: the
cache holds its distinct items in the order of their first acceptance, each with
the number of its acceptances modulo `2 ^ 32`.

`Holds` relates a cache to such a list. Besides the contents of the entries it
carries the open-addressing invariant: between the home of an item and its slot
every slot is taken, so that a probe for the item cannot stop before it.
-/

set_option autoImplicit false
set_option relaxedAutoImplicit false

namespace DirWatcher.Cache

open Source Foundation.LinearProbing Foundation.FirstOccurrences

/-! ### Blocks of bytes -/

theorem readBytes_congr {first second : ℕ → UInt8} {pos len : ℕ}
    (hagree : ∀ i, pos ≤ i → i < pos + len → first i = second i) :
    readBytes first pos len = readBytes second pos len := by
  refine List.map_congr_left fun i hi ↦ ?_
  have hlt := List.mem_range.mp hi
  exact hagree (pos + i) (by omega) (by omega)

theorem readBytes_writeBytes_self (memory : ℕ → UInt8) (pos : ℕ) (data : Bytes) :
    readBytes (writeBytes memory pos data) pos data.length = data := by
  refine List.ext_getElem (by simp [readBytes]) fun i hleft hright ↦ ?_
  simp [readBytes, writeBytes, hright]

theorem readBytes_writeBytes_before (memory : ℕ → UInt8) {pos start len : ℕ} (data : Bytes)
    (hbefore : start + len ≤ pos) :
    readBytes (writeBytes memory pos data) start len = readBytes memory start len := by
  refine readBytes_congr fun i _ hi ↦ ?_
  rw [writeBytes, if_neg (by omega)]

/-! ### The abstract set and the relation to the cache -/

/-- The total length of the items of a list. -/
def heldBytes (items : List Bytes) : ℕ := (items.map List.length).sum

@[simp] theorem heldBytes_nil : heldBytes [] = 0 := rfl

@[simp] theorem heldBytes_append (first second : List Bytes) :
    heldBytes (first ++ second) = heldBytes first + heldBytes second := by
  simp [heldBytes]

@[simp] theorem heldBytes_singleton (data : Bytes) : heldBytes [data] = data.length := by
  simp [heldBytes]

/-- The items before one of a list and that item fit in the length of the list. -/
theorem heldBytes_take_add_le {items : List Bytes} {i : ℕ} {data : Bytes}
    (hget : items[i]? = some data) : heldBytes (items.take i) + data.length ≤ heldBytes items := by
  obtain ⟨hlt, rfl⟩ := List.getElem?_eq_some_iff.mp hget
  have hsplit : items = items.take (i + 1) ++ items.drop (i + 1) :=
    (List.take_append_drop _ _).symm
  have htake : items.take (i + 1) = items.take i ++ [items[i]] := by simp
  calc heldBytes (items.take i) + items[i].length
      = heldBytes (items.take (i + 1)) := by
        rw [htake, heldBytes_append, heldBytes_singleton]
    _ ≤ heldBytes (items.take (i + 1)) + heldBytes (items.drop (i + 1)) := Nat.le_add_right _ _
    _ = heldBytes items := by rw [← heldBytes_append, ← hsplit]

/-- The slot where the probe for an item starts. -/
def home (hc : HashCache) (data : Bytes) : ℕ := (defaultHashFunction data).toNat % hc.hashSize

theorem home_lt {hc : HashCache} (hsize : 1 ≤ hc.hashSize) (data : Bytes) :
    home hc data < hc.hashSize := Nat.mod_lt _ hsize

/-- Entry `i` of the cache stands for the item `data`, the `i`-th distinct item
of the accepted ones. -/
structure EntryHolds (hc : HashCache) (accepted : List Bytes) (i : ℕ) (data : Bytes) : Prop where
  hash : (hc.entries i).hash = defaultHashFunction data
  datalen : (hc.entries i).datalen = data.length
  memoryPos : (hc.entries i).memoryPos = heldBytes ((distinct accepted).take i)
  bytes : readBytes hc.memory (hc.entries i).memoryPos data.length = data
  count : (hc.entries i).count = UInt32.ofNat (accepted.count data)
  inTable : (hc.entries i).hashPos < hc.hashSize
  pointed : hc.hash (hc.entries i).hashPos = some i
  reached : ∃ steps, (hc.entries i).hashPos = advance hc.hashSize (home hc data) steps ∧
    ∀ earlier < steps, hc.hash (advance hc.hashSize (home hc data) earlier) ≠ none

/-- The cache holds exactly the accepted items. -/
structure Holds (hc : HashCache) (accepted : List Bytes) : Prop where
  used : hc.hashPos = (distinct accepted).length
  filled : hc.memoryPos = heldBytes (distinct accepted)
  fits : hc.memoryPos ≤ hc.memSize
  entry : ∀ i data, (distinct accepted)[i]? = some data → EntryHolds hc accepted i data
  slot : ∀ pos i, hc.hash pos = some i → i < hc.hashPos ∧ (hc.entries i).hashPos = pos

theorem holds_newHashCache (hashSize memSize : ℕ) (entries : ℕ → HashCacheEntry)
    (memory : ℕ → UInt8) : Holds (newHashCache hashSize memSize entries memory) [] where
  used := rfl
  filled := rfl
  fits := Nat.zero_le _
  entry := by simp
  slot := by simp [newHashCache]

variable {hc : HashCache} {accepted : List Bytes}

/-- Distinct items have distinct entries. -/
theorem index_unique {i j : ℕ} {data : Bytes} (hi : (distinct accepted)[i]? = some data)
    (hj : (distinct accepted)[j]? = some data) : i = j :=
  (nodup_distinct accepted).getElem_inj_iff.mp
    ((List.getElem?_eq_some_iff.mp hi).2.trans (List.getElem?_eq_some_iff.mp hj).2.symm)

theorem Holds.entry_of_lt (hholds : Holds hc accepted) {i : ℕ} (hi : i < hc.hashPos) :
    ∃ data, (distinct accepted)[i]? = some data ∧ EntryHolds hc accepted i data := by
  rw [hholds.used] at hi
  exact ⟨_, List.getElem?_eq_getElem hi, hholds.entry _ _ (List.getElem?_eq_getElem hi)⟩

/-- As long as the load test passes the table has an empty slot. -/
theorem Holds.exists_empty (hholds : Holds hc accepted) (hsize : 1 ≤ hc.hashSize)
    (hload : hc.hashPos ≤ hc.hashSize / 2) : ∃ pos < hc.hashSize, hc.hash pos = none := by
  have hcount : ((Finset.range hc.hashSize).filter
      (fun pos ↦ (hc.hash pos).isSome = true)).card ≤ (Finset.range hc.hashPos).card := by
    refine Finset.card_le_card_of_injOn (fun pos ↦ (hc.hash pos).getD 0) ?_ ?_
    · intro pos hpos
      obtain ⟨i, hi⟩ := Option.isSome_iff_exists.mp (Finset.mem_filter.mp hpos).2
      simpa [hi] using (hholds.slot pos i hi).1
    · intro first hfirst second hsecond heq
      obtain ⟨i, hi⟩ := Option.isSome_iff_exists.mp (Finset.mem_filter.mp hfirst).2
      obtain ⟨j, hj⟩ := Option.isSome_iff_exists.mp (Finset.mem_filter.mp hsecond).2
      have hij : i = j := by simpa [hi, hj] using heq
      rw [← (hholds.slot first i hi).2, ← (hholds.slot second j hj).2, hij]
  rw [Finset.card_range] at hcount
  obtain ⟨pos, hpos, hfree⟩ := exists_free (fun pos ↦ (hc.hash pos).isSome)
    (lt_of_le_of_lt hcount (by omega))
  exact ⟨pos, hpos, by simpa using hfree⟩

/-- The probing loop of `hash_cache_add` stops within one round. -/
theorem Holds.exists_probe (hholds : Holds hc accepted) (hsize : 1 ≤ hc.hashSize)
    (hload : hc.hashPos ≤ hc.hashSize / 2) (data : Bytes) :
    ∃ pos, probe (stopsAt hc (defaultHashFunction data) data) hc.hashSize hc.hashSize
      (home hc data) = some pos := by
  obtain ⟨pos, hpos, hempty⟩ := hholds.exists_empty hsize hload
  exact exists_probe_eq_some (home_lt hsize data) hpos (by simp [stopsAt, hempty])

/-- A probe that stops at a used slot has found the item itself. -/
theorem Holds.found_eq (hholds : Holds hc accepted) {data : Bytes} {pos i : ℕ}
    (hstop : stopsAt hc (defaultHashFunction data) data pos = true)
    (hpos : hc.hash pos = some i) : (distinct accepted)[i]? = some data := by
  obtain ⟨found, hget, hentry⟩ := hholds.entry_of_lt (hholds.slot pos i hpos).1
  simp only [stopsAt, hpos, Bool.and_eq_true, beq_iff_eq] at hstop
  have hlength : found.length = data.length := hentry.datalen.symm.trans hstop.1.2
  have hbytes : found = data := by rw [← hentry.bytes, hlength, hstop.2]
  rw [hget, hbytes]

/-- A probe for an item that the cache holds stops at the slot of the item. -/
theorem Holds.probe_eq_slot (hholds : Holds hc accepted) (hsize : 1 ≤ hc.hashSize)
    {data : Bytes} {i pos : ℕ} (hget : (distinct accepted)[i]? = some data)
    (hprobe : probe (stopsAt hc (defaultHashFunction data) data) hc.hashSize hc.hashSize
      (home hc data) = some pos) : pos = (hc.entries i).hashPos := by
  have hentry := hholds.entry i data hget
  have hstop : stopsAt hc (defaultHashFunction data) data (hc.entries i).hashPos = true := by
    simp [stopsAt, hentry.pointed, hentry.hash, hentry.datalen, hentry.bytes]
  obtain ⟨steps, -, hfound, hat, hearlier⟩ :=
    (probe_eq_some_iff (home_lt hsize data)).mp hprobe
  obtain ⟨distance, hslot, htaken⟩ := hentry.reached
  rcases lt_trichotomy steps distance with hlt | heq | hgt
  · obtain ⟨j, hj⟩ := Option.ne_none_iff_exists'.mp (htaken steps hlt)
    rw [← hfound] at hj
    have hsame := hholds.found_eq hat hj
    rw [index_unique hget hsame, (hholds.slot pos j hj).2]
  · rw [hfound, hslot, heq]
  · have hmissed := hearlier distance hgt
    rw [← hslot, hstop] at hmissed
    simp at hmissed

/-! ### The operations keep the relation -/

theorem count_append_singleton (accepted : List Bytes) (data other : Bytes) :
    (accepted ++ [data]).count other = accepted.count other + if data = other then 1 else 0 := by
  by_cases heq : data = other <;> simp [List.count_append, heq]

/-- An entry keeps standing for its item when a cache changes nothing of it but
the count, keeps its bytes and only fills empty slots. -/
theorem EntryHolds.transfer {after : HashCache} {acceptedAfter : List Bytes} {i : ℕ} {data : Bytes}
    (hentry : EntryHolds hc accepted i data) (hsize : after.hashSize = hc.hashSize)
    (hsame : after.entries i =
      { hc.entries i with count := UInt32.ofNat (acceptedAfter.count data) })
    (hbytes : readBytes after.memory (hc.entries i).memoryPos data.length =
      readBytes hc.memory (hc.entries i).memoryPos data.length)
    (htable : ∀ pos, hc.hash pos ≠ none → after.hash pos = hc.hash pos)
    (htake : (distinct acceptedAfter).take i = (distinct accepted).take i) :
    EntryHolds after acceptedAfter i data where
  hash := by rw [hsame]; exact hentry.hash
  datalen := by rw [hsame]; exact hentry.datalen
  memoryPos := by rw [hsame, htake]; exact hentry.memoryPos
  bytes := by rw [hsame]; exact hbytes.trans hentry.bytes
  count := by rw [hsame]
  inTable := by rw [hsame, hsize]; exact hentry.inTable
  pointed := by
    rw [hsame]
    exact (htable _ (by rw [hentry.pointed]; simp)).trans hentry.pointed
  reached := by
    obtain ⟨steps, hslot, htaken⟩ := hentry.reached
    refine ⟨steps, by simpa only [hsame, hsize, home] using hslot, fun earlier hlt ↦ ?_⟩
    have hused := htaken earlier hlt
    rw [home, hsize, ← home, htable _ hused]
    exact hused

/-- Counting an item that the cache holds. -/
theorem Holds.countEntry (hholds : Holds hc accepted) {data : Bytes} {i : ℕ}
    (hget : (distinct accepted)[i]? = some data) :
    Holds (countEntry hc i) (accepted ++ [data]) := by
  have hsame : distinct (accepted ++ [data]) = distinct accepted := by
    rw [distinct_append_singleton, keep_of_mem (List.mem_of_getElem? hget)]
  refine ⟨by rw [hsame]; exact hholds.used, by rw [hsame]; exact hholds.filled, hholds.fits,
    fun j other hother ↦ ?_, fun pos j hpos ↦ ?_⟩
  · rw [hsame] at hother
    have hentry := hholds.entry j other hother
    refine hentry.transfer rfl ?_ rfl (fun _ _ ↦ rfl) (by rw [hsame])
    by_cases hji : j = i
    · subst hji
      obtain rfl : data = other := Option.some.inj (hget.symm.trans hother)
      simp only [Source.countEntry, Function.update_self]
      rw [count_append_singleton, if_pos rfl, hentry.count, UInt32.ofNat_add]
      rfl
    · have hne : data ≠ other := by
        rintro rfl
        exact hji (index_unique hother hget)
      simp only [Source.countEntry, Function.update_of_ne hji]
      rw [count_append_singleton, if_neg hne, Nat.add_zero, ← hentry.count]
  · obtain ⟨hlt, hat⟩ := hholds.slot pos j hpos
    refine ⟨hlt, ?_⟩
    by_cases hji : j = i
    · subst hji; simpa [Source.countEntry] using hat
    · simpa [Source.countEntry, Function.update_of_ne hji] using hat

section InsertNew

variable {data : Bytes} {pos : ℕ}

theorem distinct_append_new (hnew : data ∉ distinct accepted) :
    distinct (accepted ++ [data]) = distinct accepted ++ [data] := by
  rw [distinct_append_singleton, keep_of_not_mem hnew]

/-- An older entry keeps its bytes, since the new ones lie behind all of them. -/
theorem Holds.insertNew_older (hholds : Holds hc accepted) (hnew : data ∉ distinct accepted)
    (hempty : hc.hash pos = none) {j : ℕ} {other : Bytes}
    (hother : (distinct accepted)[j]? = some other) :
    EntryHolds (Source.countEntry (insertNew hc (defaultHashFunction data) data pos) hc.hashPos)
      (accepted ++ [data]) j other := by
  have hlength : j < (distinct accepted).length := (List.getElem?_eq_some_iff.mp hother).1
  have hbefore : j ≠ hc.hashPos := ne_of_lt (hholds.used ▸ hlength)
  have hentry := hholds.entry j other hother
  have hne : data ≠ other := by
    rintro rfl
    exact hnew (List.mem_of_getElem? hother)
  refine hentry.transfer rfl ?_ ?_ (fun slot hslot ↦ ?_) ?_
  · simp only [Source.countEntry, Source.insertNew, Function.update_of_ne hbefore]
    rw [count_append_singleton, if_neg hne, Nat.add_zero, ← hentry.count]
  · refine readBytes_writeBytes_before _ _ ?_
    rw [hentry.memoryPos, hholds.filled]
    exact heldBytes_take_add_le hother
  · have hne : slot ≠ pos := by
      rintro rfl
      exact hslot hempty
    simp [Source.countEntry, Source.insertNew, Function.update_of_ne hne]
  · rw [distinct_append_new hnew, List.take_append_of_le_length (le_of_lt hlength)]

/-- The new entry: its slot is the first empty one on its probe. -/
theorem Holds.insertNew_newest (hholds : Holds hc accepted) (hsize : 1 ≤ hc.hashSize)
    (hnew : data ∉ distinct accepted)
    (hprobe : probe (stopsAt hc (defaultHashFunction data) data) hc.hashSize hc.hashSize
      (home hc data) = some pos) (hempty : hc.hash pos = none) :
    EntryHolds (Source.countEntry (insertNew hc (defaultHashFunction data) data pos) hc.hashPos)
      (accepted ++ [data]) hc.hashPos data := by
  obtain ⟨steps, -, hfound, -, hearlier⟩ := (probe_eq_some_iff (home_lt hsize data)).mp hprobe
  have hcount : accepted.count data = 0 :=
    List.count_eq_zero_of_not_mem fun hmem ↦ hnew (mem_distinct.mpr hmem)
  refine ⟨?_, ?_, ?_, ?_, ?_, ?_, ?_, steps, ?_, fun earlier hlt ↦ ?_⟩ <;>
    simp only [Source.countEntry, Source.insertNew, Function.update_self]
  · rw [distinct_append_new hnew, hholds.used, List.take_left, hholds.filled]
  · exact readBytes_writeBytes_self _ _ _
  · rw [count_append_singleton, if_pos rfl, hcount]
    rfl
  · rw [hfound]
    exact advance_lt hsize _ _
  · exact hfound
  · have hskip := hearlier earlier hlt
    have hused : hc.hash (advance hc.hashSize (home hc data) earlier) ≠ none := by
      intro hnone
      rw [stopsAt, hnone] at hskip
      simp at hskip
    have hne : advance hc.hashSize (home hc data) earlier ≠ pos := by
      intro heq
      exact hused (heq ▸ hempty)
    exact (Function.update_of_ne hne _ _).trans_ne hused

/-- Inserting and counting an item that the cache does not hold, at the empty
slot where its probe has stopped. -/
theorem Holds.insertNew (hholds : Holds hc accepted) (hsize : 1 ≤ hc.hashSize)
    (hnew : data ∉ distinct accepted) (hroom : data.length ≤ hc.memSize - hc.memoryPos)
    (hprobe : probe (stopsAt hc (defaultHashFunction data) data) hc.hashSize hc.hashSize
      (home hc data) = some pos) (hempty : hc.hash pos = none) :
    Holds (Source.countEntry (insertNew hc (defaultHashFunction data) data pos) hc.hashPos)
      (accepted ++ [data]) := by
  have hitems := distinct_append_new hnew
  have hfits := hholds.fits
  refine ⟨by simp [hitems, Source.countEntry, Source.insertNew, hholds.used],
    by simp [hitems, Source.countEntry, Source.insertNew, hholds.filled],
    by simp only [Source.countEntry, Source.insertNew]; omega,
    fun j other hother ↦ ?_, fun at' j hat ↦ ?_⟩
  · rw [hitems, List.getElem?_append] at hother
    split_ifs at hother with hold
    · exact hholds.insertNew_older hnew hempty hother
    · obtain ⟨hj, rfl⟩ : j = (distinct accepted).length ∧ data = other := by
        rw [List.getElem?_singleton] at hother
        split_ifs at hother with hlast
        exact ⟨by omega, Option.some_inj.mp hother⟩
      rw [hj, ← hholds.used]
      exact hholds.insertNew_newest hsize hnew hprobe hempty
  · by_cases hpos : at' = pos
    · subst hpos
      obtain rfl : hc.hashPos = j := by
        simpa [Source.countEntry, Source.insertNew] using hat
      simp [Source.countEntry, Source.insertNew]
    · have hold : hc.hash at' = some j := by
        simpa [Source.countEntry, Source.insertNew, Function.update_of_ne hpos] using hat
      obtain ⟨hlt, hslot⟩ := hholds.slot at' j hold
      refine ⟨Nat.lt_succ_of_lt hlt, ?_⟩
      simpa [Source.countEntry, Source.insertNew, Function.update_of_ne (ne_of_lt hlt)] using hslot

end InsertNew

/-! ### Clearing -/

theorem clearEntry_entries_hashPos (hc : HashCache) (i j : ℕ) :
    ((clearEntry hc i).entries j).hashPos = (hc.entries j).hashPos := by
  by_cases hji : j = i
  · subst hji; simp [clearEntry]
  · simp [clearEntry, Function.update_of_ne hji]

/-- The loop of `hash_cache_clear` empties the slots of the first `n` entries and
touches no other slot. -/
theorem foldl_clearEntry (hc : HashCache) (n : ℕ) :
    (∀ j, (((List.range n).foldl clearEntry hc).entries j).hashPos = (hc.entries j).hashPos) ∧
      ∀ pos, ((List.range n).foldl clearEntry hc).hash pos =
        if ∃ i < n, (hc.entries i).hashPos = pos then none else hc.hash pos := by
  induction n with
  | zero => simp
  | succ n ih =>
    obtain ⟨hentries, hslots⟩ := ih
    rw [List.range_succ, List.foldl_append, List.foldl_cons, List.foldl_nil]
    refine ⟨fun j ↦ by rw [clearEntry_entries_hashPos, hentries], fun pos ↦ ?_⟩
    simp only [clearEntry, hentries]
    by_cases hlast : pos = (hc.entries n).hashPos
    · rw [hlast, Function.update_self, if_pos ⟨n, Nat.lt_succ_self n, rfl⟩]
    · rw [Function.update_of_ne hlast, hslots]
      have hiff : (∃ i < n, (hc.entries i).hashPos = pos) ↔
          ∃ i < n + 1, (hc.entries i).hashPos = pos := by
        constructor
        · rintro ⟨i, hi, hat⟩
          exact ⟨i, Nat.lt_succ_of_lt hi, hat⟩
        · rintro ⟨i, hi, hat⟩
          rcases Nat.lt_succ_iff_lt_or_eq.mp hi with hlt | rfl
          · exact ⟨i, hlt, hat⟩
          · exact absurd hat.symm hlast
      simp only [hiff]

theorem foldl_clearEntry_sizes (hc : HashCache) (indices : List ℕ) :
    (indices.foldl clearEntry hc).hashSize = hc.hashSize ∧
      (indices.foldl clearEntry hc).memSize = hc.memSize := by
  induction indices generalizing hc with
  | nil => exact ⟨rfl, rfl⟩
  | cons i rest ih => exact ih (clearEntry hc i)

/-- `hash_cache_clear` leaves every slot of the table empty. -/
theorem Holds.hashCacheClear_hash (hholds : Holds hc accepted) (pos : ℕ) :
    (hashCacheClear hc).hash pos = none := by
  simp only [hashCacheClear, (foldl_clearEntry hc hc.hashPos).2]
  split_ifs with hused
  · rfl
  · cases hslot : hc.hash pos with
    | none => rfl
    | some i => exact absurd ⟨i, hholds.slot pos i hslot⟩ hused

theorem Holds.hashCacheClear (hholds : Holds hc accepted) : Holds (hashCacheClear hc) [] where
  used := rfl
  filled := rfl
  fits := Nat.zero_le _
  entry := by simp
  slot := by
    intro pos i hpos
    rw [hholds.hashCacheClear_hash] at hpos
    cases hpos

/-! ### Adding -/

/-- The items accepted so far leave no room for `data`, or there are more than
half a table of them. -/
def Refuses (hashSize memSize : ℕ) (accepted : List Bytes) (data : Bytes) : Prop :=
  memSize - heldBytes (distinct accepted) < data.length ∨
    hashSize / 2 < (distinct accepted).length

instance (hashSize memSize : ℕ) (accepted : List Bytes) (data : Bytes) :
    Decidable (Refuses hashSize memSize accepted data) := by
  unfold Refuses
  infer_instance

theorem Holds.hashCacheAdd_of_refuses (hholds : Holds hc accepted) {data : Bytes}
    (hrefuses : Refuses hc.hashSize hc.memSize accepted data) :
    hashCacheAdd hc data = some (0, hc) := by
  rw [Refuses, ← hholds.filled, ← hholds.used] at hrefuses
  unfold hashCacheAdd
  split_ifs with hroom hload
  · rfl
  · rfl
  · exact absurd hrefuses (not_or.mpr ⟨hroom, hload⟩)

section Probed

variable {data : Bytes} {pos : ℕ} (hroom : data.length ≤ hc.memSize - hc.memoryPos)
  (hload : hc.hashPos ≤ hc.hashSize / 2)
  (hprobe : probe (stopsAt hc (defaultHashFunction data) data) hc.hashSize hc.hashSize
    (home hc data) = some pos)

include hroom hload hprobe

/-- An add whose probe has stopped at an empty slot. -/
theorem hashCacheAdd_of_empty (hempty : hc.hash pos = none) :
    hashCacheAdd hc data =
      let after := countEntry (insertNew hc (defaultHashFunction data) data pos) hc.hashPos
      some ((after.entries hc.hashPos).count.toInt32, after) := by
  rw [home] at hprobe
  simp only [hashCacheAdd, if_neg (not_lt.mpr hroom), if_neg (not_lt.mpr hload), hprobe, hempty]

/-- An add whose probe has stopped at the slot of an entry. -/
theorem hashCacheAdd_of_slot {i : ℕ} (hslot : hc.hash pos = some i) :
    hashCacheAdd hc data =
      some (((countEntry hc i).entries i).count.toInt32, countEntry hc i) := by
  rw [home] at hprobe
  simp only [hashCacheAdd, if_neg (not_lt.mpr hroom), if_neg (not_lt.mpr hload), hprobe, hslot]

end Probed

/-- An add that is not refused returns, counts its item and keeps the relation. -/
theorem Holds.hashCacheAdd_of_not_refuses (hholds : Holds hc accepted) (hsize : 1 ≤ hc.hashSize)
    {data : Bytes} (haccepts : ¬ Refuses hc.hashSize hc.memSize accepted data) :
    ∃ after, hashCacheAdd hc data =
        some ((UInt32.ofNat ((accepted ++ [data]).count data)).toInt32, after) ∧
      Holds after (accepted ++ [data]) ∧ after.hashSize = hc.hashSize ∧
      after.memSize = hc.memSize ∧ after.counter = hc.counter + 1 := by
  rw [Refuses, ← hholds.filled, ← hholds.used, not_or, not_lt, not_lt] at haccepts
  obtain ⟨hroom, hload⟩ := haccepts
  obtain ⟨pos, hprobe⟩ := hholds.exists_probe hsize hload data
  have hstop := ((probe_eq_some_iff (home_lt hsize data)).mp hprobe)
  obtain ⟨steps, -, -, hat, -⟩ := hstop
  cases hslot : hc.hash pos with
  | none =>
    have hnew : data ∉ distinct accepted := by
      intro hmem
      obtain ⟨i, hget⟩ := List.mem_iff_getElem?.mp hmem
      have hpos := hholds.probe_eq_slot hsize hget hprobe
      rw [hpos, (hholds.entry i data hget).pointed] at hslot
      cases hslot
    have hafter := hholds.insertNew hsize hnew hroom hprobe hslot
    have hget : (distinct (accepted ++ [data]))[hc.hashPos]? = some data := by
      rw [distinct_append_new hnew, hholds.used]
      simp
    refine ⟨_, ?_, hafter, rfl, rfl, rfl⟩
    rw [← (hafter.entry _ _ hget).count, hashCacheAdd_of_empty hroom hload hprobe hslot]
  | some i =>
    have hget := hholds.found_eq hat hslot
    have hafter := hholds.countEntry hget
    have hgetAfter : (distinct (accepted ++ [data]))[i]? = some data := by
      rwa [distinct_append_singleton, keep_of_mem (List.mem_of_getElem? hget)]
    refine ⟨_, ?_, hafter, rfl, rfl, rfl⟩
    rw [← (hafter.entry _ _ hgetAfter).count, hashCacheAdd_of_slot hroom hload hprobe hslot]

theorem add_one_ne_self (counter : UInt32) : counter + 1 ≠ counter := by
  intro heq
  have hnat := congrArg UInt32.toNat heq
  rw [UInt32.toNat_add, show (1 : UInt32).toNat = 1 from rfl] at hnat
  have hlt := counter.toNat_lt
  omega

/-- An add is refused, with the result `0` and the cache untouched, exactly when
there is no room or too many items are held. -/
theorem Holds.refused_iff (hholds : Holds hc accepted) (hsize : 1 ≤ hc.hashSize) (data : Bytes) :
    hashCacheAdd hc data = some (0, hc) ↔ Refuses hc.hashSize hc.memSize accepted data := by
  refine ⟨fun hrefused ↦ ?_, hholds.hashCacheAdd_of_refuses⟩
  by_contra haccepts
  obtain ⟨after, hadd, -, -, -, hcounter⟩ := hholds.hashCacheAdd_of_not_refuses hsize haccepts
  rw [hadd, Option.some.injEq, Prod.mk.injEq] at hrefused
  rw [hrefused.2] at hcounter
  exact add_one_ne_self hc.counter hcounter.symm

/-! ### Iterating -/

/-- What the iteration hands out for a list of accepted items. -/
def heldItems (accepted : List Bytes) : List Item :=
  (distinct accepted).map fun data ↦ ⟨data, data.length, UInt32.ofNat (accepted.count data)⟩

/-- Before its end the iteration hands out the next of the distinct items. -/
theorem Holds.exists_iter (hholds : Holds hc accepted) {pos : ℕ} (hpos : pos < hc.hashPos) :
    ∃ data, hashCacheIter hc pos =
        some (pos + 1, ⟨data, data.length, UInt32.ofNat (accepted.count data)⟩) ∧
      (distinct accepted).drop pos = data :: (distinct accepted).drop (pos + 1) := by
  obtain ⟨data, hget, hentry⟩ := hholds.entry_of_lt hpos
  obtain ⟨hlt, hat⟩ := List.getElem?_eq_some_iff.mp hget
  refine ⟨data, ?_, by rw [List.drop_eq_getElem_cons hlt, hat]⟩
  simp [hashCacheIter, not_le.mpr hpos, hentry.datalen, hentry.bytes, hentry.count]

theorem Holds.drop_eq_nil (hholds : Holds hc accepted) {pos : ℕ} (hpos : hc.hashPos ≤ pos) :
    (distinct accepted).drop pos = [] :=
  List.drop_eq_nil_of_le (by rw [← hholds.used]; exact hpos)

theorem Holds.iterateFrom_eq (hholds : Holds hc accepted) {fuel pos : ℕ}
    (hpos : pos ≤ hc.hashPos) (hfuel : hc.hashPos < fuel + pos) :
    iterateFrom hc fuel pos = some ((heldItems accepted).drop pos) := by
  rw [heldItems, ← List.map_drop]
  induction fuel generalizing pos with
  | zero => omega
  | succ fuel ih =>
    rw [iterateFrom]
    by_cases hend : hc.hashPos ≤ pos
    · simp [hashCacheIter, hend, hholds.drop_eq_nil hend]
    · obtain ⟨data, hiter, hdrop⟩ := hholds.exists_iter (not_le.mp hend)
      simp [hiter, hdrop, ih (by omega : pos + 1 ≤ hc.hashPos) (by omega)]

/-! ### Sequences of operations -/

inductive CacheOp
  | add (data : Bytes)
  | clear
deriving DecidableEq, Repr

def runOp (hc : HashCache) : CacheOp → Option HashCache
  | .add data => (hashCacheAdd hc data).map Prod.snd
  | .clear => some (hashCacheClear hc)

/-- The cache after a sequence of operations, if each of them returns. -/
def runOps (hc : HashCache) (ops : List CacheOp) : Option HashCache := ops.foldlM runOp hc

/-- One operation on the abstract state, the items accepted since the last clear. -/
def acceptOp (hashSize memSize : ℕ) (accepted : List Bytes) : CacheOp → List Bytes
  | .add data => if Refuses hashSize memSize accepted data then accepted else accepted ++ [data]
  | .clear => []

/-- The items accepted since the last clear of a sequence of operations. -/
def acceptedItems (hashSize memSize : ℕ) (ops : List CacheOp) : List Bytes :=
  ops.foldl (acceptOp hashSize memSize) []

theorem Holds.runOp (hholds : Holds hc accepted) (hsize : 1 ≤ hc.hashSize) (op : CacheOp) :
    ∃ after, runOp hc op = some after ∧
      Holds after (acceptOp hc.hashSize hc.memSize accepted op) ∧
      after.hashSize = hc.hashSize ∧ after.memSize = hc.memSize := by
  cases op with
  | add data =>
    by_cases hrefuses : Refuses hc.hashSize hc.memSize accepted data
    · refine ⟨hc, ?_, ?_, rfl, rfl⟩
      · rw [Cache.runOp, hholds.hashCacheAdd_of_refuses hrefuses, Option.map_some]
      · rwa [acceptOp, if_pos hrefuses]
    · obtain ⟨after, hadd, hafter, hsizes, hmem, -⟩ :=
        hholds.hashCacheAdd_of_not_refuses hsize hrefuses
      refine ⟨after, ?_, ?_, hsizes, hmem⟩
      · rw [Cache.runOp, hadd, Option.map_some]
      · rwa [acceptOp, if_neg hrefuses]
  | clear =>
    obtain ⟨hsizes, hmem⟩ := foldl_clearEntry_sizes hc (List.range hc.hashPos)
    exact ⟨_, rfl, hholds.hashCacheClear, hsizes, hmem⟩

theorem holds_runOps (hashSize memSize : ℕ) (hsize : 1 ≤ hashSize)
    (entries : ℕ → HashCacheEntry) (memory : ℕ → UInt8) (ops : List CacheOp) :
    ∃ after, runOps (newHashCache hashSize memSize entries memory) ops = some after ∧
      Holds after (acceptedItems hashSize memSize ops) ∧
      after.hashSize = hashSize ∧ after.memSize = memSize := by
  induction ops using List.reverseRecOn with
  | nil => exact ⟨_, rfl, holds_newHashCache hashSize memSize entries memory, rfl, rfl⟩
  | append_singleton ops op ih =>
    obtain ⟨before, hrun, hholds, hsizes, hmem⟩ := ih
    obtain ⟨after, hop, hafter, hsizes', hmem'⟩ := hholds.runOp (hsizes ▸ hsize) op
    rw [hsizes, hmem] at hafter
    refine ⟨after, ?_, ?_, hsizes'.trans hsizes, hmem'.trans hmem⟩
    · rw [runOps, List.foldlM_append]
      exact (congrArg (Option.bind · _) hrun).trans (by simpa using hop)
    · simpa [acceptedItems] using hafter

/-- From a new cache, every sequence of adds and clears returns. Iterating then
hands out exactly the distinct items accepted since the last clear, in the order
of their first acceptance, with their bytes, their lengths and the number of
their acceptances modulo `2 ^ 32`, and the next add is refused exactly when it
is longer than the room left or more than half a table of items is held. -/
theorem hashCache_refines_countedSet (hashSize memSize : ℕ) (hsize : 1 ≤ hashSize)
    (entries : ℕ → HashCacheEntry) (memory : ℕ → UInt8) (ops : List CacheOp) :
    ∃ hc, runOps (newHashCache hashSize memSize entries memory) ops = some hc ∧
      iterateFrom hc (hc.hashPos + 1) 0 = some (heldItems (acceptedItems hashSize memSize ops)) ∧
      ∀ data, hashCacheAdd hc data = some (0, hc) ↔
        memSize - heldBytes (distinct (acceptedItems hashSize memSize ops)) < data.length ∨
          hashSize / 2 < (distinct (acceptedItems hashSize memSize ops)).length := by
  obtain ⟨hc, hrun, hholds, hsizes, hmem⟩ :=
    holds_runOps hashSize memSize hsize entries memory ops
  refine ⟨hc, hrun, ?_, fun data ↦ ?_⟩
  · simpa using hholds.iterateFrom_eq (Nat.zero_le _) (Nat.lt_succ_self hc.hashPos)
  · have hiff := hholds.refused_iff (hsizes.symm ▸ hsize) data
    rwa [hsizes, hmem] at hiff

/-- In a table of two slots for four bytes, after a clear, an item added twice
and an empty item. -/
theorem hashCache_refines_countedSet_two :
    ∃ hc, runOps (newHashCache 2 4 (fun _ ↦ ⟨0, 0, 0, 0, 0⟩) fun _ ↦ 0)
        [.add [1], .clear, .add [2, 3], .add [2, 3], .add []] = some hc ∧
      iterateFrom hc (hc.hashPos + 1) 0 = some [⟨[2, 3], 2, 2⟩, ⟨[], 0, 1⟩] := by
  obtain ⟨hc, hrun, hitems, -⟩ := hashCache_refines_countedSet 2 4 (by decide)
    (fun _ ↦ ⟨0, 0, 0, 0, 0⟩) (fun _ ↦ 0)
    [.add [1], .clear, .add [2, 3], .add [2, 3], .add []]
  exact ⟨hc, hrun, hitems.trans (by decide)⟩

end DirWatcher.Cache
