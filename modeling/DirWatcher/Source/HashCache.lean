import DirWatcher.Foundation.LinearProbing
import Mathlib.Logic.Function.Basic

/-!
`hash_cache.c`: a hash table with open addressing over a fixed block of memory.
The table holds pointers into an array of entries that is filled from the
front, and the bytes of the items lie one after the other in the memory block.

The arrays of `malloc` are functions of the index, and a pointer into one of
them is an index. The contents `malloc` leaves in a block are parameters of
`newHashCache`, so that nothing can depend on them.
-/

set_option autoImplicit false
set_option relaxedAutoImplicit false

namespace DirWatcher.Source

open Foundation.LinearProbing

abbrev Bytes := List UInt8

structure HashCacheEntry where
  count : UInt32
  hash : UInt32
  hashPos : ℕ
  datalen : ℕ
  memoryPos : ℕ
deriving DecidableEq, Repr

structure HashCache where
  hashSize : ℕ
  memSize : ℕ
  hash : ℕ → Option ℕ
  memory : ℕ → UInt8
  entries : ℕ → HashCacheEntry
  memoryPos : ℕ
  counter : UInt32
  hashPos : ℕ

/-- The loop of `default_hash_function` from index `i` on. -/
def hashFrom : UInt32 → UInt32 → Bytes → UInt32
  | _, hash, [] => hash
  | i, hash, byte :: rest => hashFrom (i + 1) (hash + (i ^^^ byte.toUInt32)) rest

def defaultHashFunction (data : Bytes) : UInt32 := hashFrom 0 0 data

/-- `memset(hc->hash, 0, ...)` clears the table. The entries and the memory are
left as `malloc` returned them. -/
def newHashCache (hashSize memSize : ℕ) (entries : ℕ → HashCacheEntry) (memory : ℕ → UInt8) :
    HashCache where
  hashSize := hashSize
  memSize := memSize
  hash := fun _ ↦ none
  memory := memory
  entries := entries
  memoryPos := 0
  counter := 0
  hashPos := 0

/-- The `len` bytes of a block from `pos` on. -/
def readBytes (memory : ℕ → UInt8) (pos len : ℕ) : Bytes :=
  (List.range len).map fun i ↦ memory (pos + i)

/-- `memcpy` of `data` to offset `pos` of a block. -/
def writeBytes (memory : ℕ → UInt8) (pos : ℕ) (data : Bytes) : ℕ → UInt8 := fun i ↦
  if pos ≤ i ∧ i < pos + data.length then data.getD (i - pos) 0 else memory i

/-- The probing loop stops at an empty slot and at the slot of an equal item. -/
def stopsAt (hc : HashCache) (hash : UInt32) (data : Bytes) (pos : ℕ) : Bool :=
  match hc.hash pos with
  | none => true
  | some i =>
    (hc.entries i).hash == hash && (hc.entries i).datalen == data.length &&
      readBytes hc.memory (hc.entries i).memoryPos data.length == data

/-- The branch of `hash_cache_add` for a new element, which is put in the free
slot the probe has found. -/
def insertNew (hc : HashCache) (hash : UInt32) (data : Bytes) (pos : ℕ) : HashCache :=
  { hc with
    hash := Function.update hc.hash pos (some hc.hashPos)
    entries := Function.update hc.entries hc.hashPos
      { count := 0, hash := hash, hashPos := pos, datalen := data.length,
        memoryPos := hc.memoryPos }
    memory := writeBytes hc.memory hc.memoryPos data
    memoryPos := hc.memoryPos + data.length
    hashPos := hc.hashPos + 1 }

/-- `hc->counter++` and the increment of the count of entry `i`. -/
def countEntry (hc : HashCache) (i : ℕ) : HashCache :=
  { hc with
    counter := hc.counter + 1
    entries := Function.update hc.entries i
      { hc.entries i with count := (hc.entries i).count + 1 } }

/-- `hash_cache_add`, with its result converted to `int`. The probing loop has
no bound in the source: `none` is a loop that has gone once around the table
without a place to stop, and then never stops. -/
def hashCacheAdd (hc : HashCache) (data : Bytes) : Option (Int32 × HashCache) :=
  if hc.memSize - hc.memoryPos < data.length then some (0, hc)
  else if hc.hashSize / 2 < hc.hashPos then some (0, hc)
  else
    let hash := defaultHashFunction data
    match probe (stopsAt hc hash data) hc.hashSize hc.hashSize (hash.toNat % hc.hashSize) with
    | none => none
    | some pos =>
      match hc.hash pos with
      | none =>
        let after := countEntry (insertNew hc hash data pos) hc.hashPos
        some ((after.entries hc.hashPos).count.toInt32, after)
      | some i =>
        let after := countEntry hc i
        some ((after.entries i).count.toInt32, after)

/-- One turn of the loop of `hash_cache_clear`. -/
def clearEntry (hc : HashCache) (i : ℕ) : HashCache :=
  { hc with
    entries := Function.update hc.entries i { hc.entries i with count := 0 }
    hash := Function.update hc.hash (hc.entries i).hashPos none }

def hashCacheClear (hc : HashCache) : HashCache :=
  { (List.range hc.hashPos).foldl clearEntry hc with
    hashPos := 0
    counter := 0
    memoryPos := 0 }

/-- What one call of `hash_cache_iter` hands out. -/
structure Item where
  data : Bytes
  datalen : ℕ
  count : UInt32
deriving DecidableEq, Repr

/-- `hash_cache_iter`: `none` is the result `0`, the end of the iteration.
Otherwise the next position is returned with the item, read off the memory. -/
def hashCacheIter (hc : HashCache) (pos : ℕ) : Option (ℕ × Item) :=
  if hc.hashPos ≤ pos then none
  else
    let entry := hc.entries pos
    some (pos + 1, ⟨readBytes hc.memory entry.memoryPos entry.datalen, entry.datalen, entry.count⟩)

/-- The loop `for(pos = 0; (pos = hash_cache_iter(...)) != 0;)` from `pos` on,
for at most `fuel` calls of `hash_cache_iter`. -/
def iterateFrom (hc : HashCache) : ℕ → ℕ → Option (List Item)
  | 0, _ => none
  | fuel + 1, pos =>
    match hashCacheIter hc pos with
    | none => some []
    | some (next, item) => (iterateFrom hc fuel next).map (item :: ·)

end DirWatcher.Source
