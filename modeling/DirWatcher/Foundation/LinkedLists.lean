import Mathlib.Data.List.Perm.Basic
import Mathlib.Data.List.Nodup

/-!
Singly linked lists of blocks that are allocated and freed one by one. All lists in memory
are owned together: no block is in two of them or twice in one, and every block that has not
been freed is in one of them. So what a list holds stays as it is while others come and go,
and when no list is left, nothing has been forgotten.
-/

set_option autoImplicit false
set_option relaxedAutoImplicit false

namespace DirWatcher.Foundation.LinkedLists

variable {α : Type}

/-- The address of a block. `none` is `NULL`. -/
abbrev Pointer := Option ℕ

structure Node (α : Type) where
  value : α
  next : Pointer

/-- The blocks that have been allocated and not been freed. -/
abbrev Heap (α : Type) := ℕ → Option (Node α)

/-- `calls` counts the calls of the allocator. -/
structure Memory (α : Type) where
  heap : Heap α
  calls : ℕ

/-- An allocator, which may fail at any call and otherwise picks the address of a block that
is not in use. -/
structure Allocator (α : Type) where
  pick : ℕ → Heap α → Pointer
  fresh : ∀ {call : ℕ} {heap : Heap α} {address : ℕ},
    pick call heap = some address → heap address = none

namespace Memory

def empty : Memory α := ⟨fun _ ↦ none, 0⟩

def set (memory : Memory α) (address : ℕ) (block : Option (Node α)) : Memory α :=
  { memory with heap := fun other ↦ if other = address then block else memory.heap other }

/-- A new block with a value and no successor, if there is one. -/
def allocate (allocator : Allocator α) (value : α) (memory : Memory α) : Pointer × Memory α :=
  let pointer := allocator.pick memory.calls memory.heap
  let counted := { memory with calls := memory.calls + 1 }
  match pointer with
  | none => (none, counted)
  | some address => (pointer, counted.set address (some ⟨value, none⟩))

/-- The block at an address. There is none at `NULL` or where the block has been freed. -/
def load (memory : Memory α) (pointer : Pointer) : Option (Node α) := pointer.bind memory.heap

def setNext (memory : Memory α) (pointer next : Pointer) : Option (Memory α) := do
  let address ← pointer
  let block ← memory.heap address
  return memory.set address (some { block with next })

def setValue (memory : Memory α) (pointer : Pointer) (value : α) : Option (Memory α) := do
  let address ← pointer
  let block ← memory.heap address
  return memory.set address (some { block with value })

/-- A block can be freed once. -/
def free (memory : Memory α) (pointer : Pointer) : Option (Memory α) := do
  let address ← pointer
  let _ ← memory.heap address
  return memory.set address none

@[simp] theorem set_heap_self (memory : Memory α) (address : ℕ) (block : Option (Node α)) :
    (memory.set address block).heap address = block := if_pos rfl

@[simp] theorem set_heap_of_ne {memory : Memory α} {address other : ℕ} {block : Option (Node α)}
    (hother : other ≠ address) : (memory.set address block).heap other = memory.heap other :=
  if_neg hother

@[simp] theorem set_calls (memory : Memory α) (address : ℕ) (block : Option (Node α)) :
    (memory.set address block).calls = memory.calls := rfl

end Memory

/-! ### The lists in memory -/

/-- The pointer to a list of blocks, given by their addresses and values. -/
def headOf (list : List (ℕ × α)) : Pointer := list.head?.map Prod.fst

/-- The blocks are linked in their order. -/
def Linked (heap : Heap α) : List (ℕ × α) → Prop
  | [] => True
  | (address, value) :: rest => heap address = some ⟨value, headOf rest⟩ ∧ Linked heap rest

def addresses (lists : List (List (ℕ × α))) : List ℕ := lists.flatten.map Prod.fst

structure Owns (memory : Memory α) (lists : List (List (ℕ × α))) : Prop where
  linked : ∀ list ∈ lists, Linked memory.heap list
  apart : (addresses lists).Nodup
  live : ∀ address, memory.heap address ≠ none → address ∈ addresses lists
  counted : (addresses lists).length ≤ memory.calls

variable {heap changed : Heap α} {memory : Memory α} {lists rest : List (List (ℕ × α))}
  {list before after second : List (ℕ × α)} {address : ℕ} {value new : α}

theorem Linked.congr (hlinked : Linked heap list)
    (hsame : ∀ block ∈ list, changed block.1 = heap block.1) : Linked changed list := by
  induction list with
  | nil => trivial
  | cons block rest ih =>
    obtain ⟨hblock, hrest⟩ := hlinked
    exact ⟨by rw [hsame block List.mem_cons_self, hblock],
      ih hrest fun later hlater ↦ hsame later (List.mem_cons_of_mem _ hlater)⟩

theorem linked_append : Linked heap (before ++ after) → Linked heap after := by
  induction before with
  | nil => exact id
  | cons block rest ih => exact fun hlinked ↦ ih hlinked.2

/-- The block in the middle of a list. -/
theorem Linked.block (hlinked : Linked heap (before ++ (address, value) :: after)) :
    heap address = some ⟨value, headOf after⟩ := (linked_append hlinked).1

/-- A block changes, and with it what comes after. -/
theorem Linked.change (hlinked : Linked heap (before ++ (address, value) :: after))
    (hnodup : ((before ++ (address, value) :: after).map Prod.fst).Nodup)
    (hsame : ∀ other ≠ address, changed other = heap other)
    (hchanged : Linked changed ((address, new) :: second)) :
    Linked changed (before ++ (address, new) :: second) := by
  induction before with
  | nil => exact hchanged
  | cons first rest ih =>
    obtain ⟨hfirst, hrest⟩ := hlinked
    rw [List.cons_append, List.map_cons, List.nodup_cons] at hnodup
    have hne : first.1 ≠ address := by
      rintro rfl
      exact hnodup.1 (by simp)
    have hhead : headOf (rest ++ (address, new) :: second) =
        headOf (rest ++ (address, value) :: after) := by cases rest <;> rfl
    exact ⟨by rw [hsame _ hne, hfirst, List.append_eq, List.append_eq, hhead],
      ih hrest hnodup.2⟩

/-! ### What is owned -/

theorem owns_empty : Owns (Memory.empty : Memory α) [] :=
  ⟨by simp, by simp [addresses], fun _ hlive ↦ absurd rfl hlive, by simp [addresses]⟩

theorem Owns.perm {reordered : List (List (ℕ × α))} (howns : Owns memory lists)
    (hperm : lists.Perm reordered) : Owns memory reordered := by
  have haddresses : (addresses lists).Perm (addresses reordered) := hperm.flatten.map _
  exact ⟨fun list hlist ↦ howns.linked list (hperm.mem_iff.mpr hlist),
    haddresses.nodup_iff.mp howns.apart,
    fun address hlive ↦ haddresses.mem_iff.mp (howns.live address hlive),
    haddresses.length_eq ▸ howns.counted⟩

theorem owns_cons_nil : Owns memory ([] :: lists) ↔ Owns memory lists := by
  constructor
  · intro howns
    exact ⟨fun list hlist ↦ howns.linked list (List.mem_cons_of_mem _ hlist), howns.apart,
      howns.live, howns.counted⟩
  · intro howns
    exact ⟨List.forall_mem_cons.mpr ⟨trivial, howns.linked⟩, howns.apart, howns.live,
      howns.counted⟩

/-- When no list is left, no block is. -/
theorem Owns.heap_eq_none (howns : Owns memory []) (address : ℕ) : memory.heap address = none := by
  by_contra hlive
  simpa [addresses] using howns.live address hlive

theorem addresses_cons (list : List (ℕ × α)) (lists : List (List (ℕ × α))) :
    addresses (list :: lists) = list.map Prod.fst ++ addresses lists := by
  rw [addresses, List.flatten_cons, List.map_append, addresses]

theorem mem_addresses {block : ℕ × α} (hlist : list ∈ lists) (hblock : block ∈ list) :
    block.1 ∈ addresses lists :=
  List.mem_map_of_mem (List.mem_flatten.mpr ⟨list, hlist, hblock⟩)

/-- The lists are not touched at the addresses of another one. -/
theorem Owns.others (howns : Owns memory (list :: lists))
    (hsame : ∀ address ∉ list.map Prod.fst, changed address = memory.heap address) :
    ∀ other ∈ lists, Linked changed other := by
  intro other hother
  refine (howns.linked other (List.mem_cons_of_mem _ hother)).congr fun block hblock ↦ ?_
  have hapart := howns.apart
  rw [addresses_cons, List.nodup_append] at hapart
  exact hsame _ fun hmem ↦ hapart.2.2 _ hmem _ (mem_addresses hother hblock) rfl

theorem Linked.live (hlinked : Linked heap list) {block : ℕ × α} (hblock : block ∈ list) :
    heap block.1 ≠ none := by
  obtain ⟨before, after, rfl⟩ := List.append_of_mem hblock
  simp [hlinked.block]

/-- A block that is not in use is in no list. -/
theorem Owns.not_mem_addresses (howns : Owns memory lists) (hfree : memory.heap address = none) :
    address ∉ addresses lists := by
  intro hmem
  obtain ⟨block, hblock, rfl⟩ := List.mem_map.mp hmem
  obtain ⟨list, hlist, hblock⟩ := List.mem_flatten.mp hblock
  exact (howns.linked list hlist).live hblock hfree

theorem Owns.nodup (howns : Owns memory (list :: lists)) : (list.map Prod.fst).Nodup := by
  have hapart := howns.apart
  rw [addresses_cons] at hapart
  exact (List.nodup_append.mp hapart).1

/-! ### The operations -/

theorem Owns.add (howns : Owns memory lists) (hfree : memory.heap address = none) (value : α) :
    Owns ({ memory with calls := memory.calls + 1 }.set address (some ⟨value, none⟩))
      ([(address, value)] :: lists) := by
  have hnew := howns.not_mem_addresses hfree
  refine ⟨List.forall_mem_cons.mpr ⟨⟨by simp [headOf], trivial⟩, fun list hlist ↦ ?_⟩, ?_,
    fun other hlive ↦ ?_, ?_⟩
  · refine (howns.linked list hlist).congr fun block hblock ↦ ?_
    refine Memory.set_heap_of_ne ?_
    rintro rfl
    exact hnew (mem_addresses hlist hblock)
  · rw [addresses_cons]
    exact List.nodup_cons.mpr ⟨hnew, howns.apart⟩
  · rw [addresses_cons]
    by_cases hother : other = address
    · exact List.mem_append_left _ (by simp [hother])
    · rw [Memory.set_heap_of_ne hother] at hlive
      exact List.mem_append_right _ (howns.live other hlive)
  · rw [addresses_cons, List.length_append]
    have hcounted := howns.counted
    simp only [List.map_cons, List.map_nil, List.length_singleton, Memory.set_calls]
    omega

/-- The list of a new block, if there is one. -/
def newList (pointer : Pointer) (value : α) : List (ℕ × α) :=
  pointer.toList.map fun address ↦ (address, value)

theorem headOf_newList (pointer : Pointer) (value : α) :
    headOf (newList pointer value) = pointer := by
  cases pointer <;> rfl

theorem Owns.allocate {allocator : Allocator α} {pointer : Pointer} {grown : Memory α}
    (howns : Owns memory lists)
    (hallocate : memory.allocate allocator value = (pointer, grown)) :
    Owns grown (newList pointer value :: lists) := by
  unfold Memory.allocate at hallocate
  cases hpick : allocator.pick memory.calls memory.heap with
  | none =>
    rw [hpick, Prod.mk.injEq] at hallocate
    obtain ⟨rfl, rfl⟩ := hallocate
    exact owns_cons_nil.mpr
      ⟨howns.linked, howns.apart, howns.live, Nat.le_succ_of_le howns.counted⟩
  | some picked =>
    rw [hpick, Prod.mk.injEq] at hallocate
    obtain ⟨rfl, rfl⟩ := hallocate
    exact howns.add (allocator.fresh hpick) value

theorem Owns.load (howns : Owns memory ((before ++ (address, value) :: after) :: lists)) :
    memory.load (some address) = some ⟨value, headOf after⟩ :=
  (howns.linked _ List.mem_cons_self).block

theorem addresses_first (address : ℕ) (value : α) (after : List (ℕ × α))
    (lists : List (List (ℕ × α))) :
    addresses (((address, value) :: after) :: lists) = address :: addresses (after :: lists) := by
  simp [addresses]

theorem addresses_middle (before after : List (ℕ × α)) (address : ℕ) (value : α)
    (lists : List (List (ℕ × α))) :
    addresses ((before ++ (address, value) :: after) :: lists) =
      before.map Prod.fst ++ address :: addresses (after :: lists) := by
  simp [addresses]

/-- A block gets a value or a successor, and with it what comes after. -/
theorem Owns.change (howns : Owns memory ((before ++ (address, value) :: after) :: lists))
    (haddresses : addresses (second :: rest) = addresses (after :: lists))
    (hlinked : ∀ list ∈ second :: rest, Linked memory.heap list) :
    Owns (memory.set address (some ⟨new, headOf second⟩))
      ((before ++ (address, new) :: second) :: rest) := by
  have hall : addresses ((before ++ (address, new) :: second) :: rest) =
      addresses ((before ++ (address, value) :: after) :: lists) := by
    rw [addresses_middle, addresses_middle, haddresses]
  have hapart := howns.apart
  rw [addresses_middle, List.nodup_append, List.nodup_cons] at hapart
  have hkept : ∀ list ∈ second :: rest,
      Linked (memory.set address (some ⟨new, headOf second⟩)).heap list := by
    refine fun list hlist ↦ (hlinked list hlist).congr fun block hblock ↦ ?_
    refine Memory.set_heap_of_ne ?_
    rintro rfl
    exact hapart.2.1.1 (haddresses ▸ mem_addresses hlist hblock)
  refine ⟨List.forall_mem_cons.mpr ⟨?_, fun list hlist ↦ hkept list (List.mem_cons_of_mem _ hlist)⟩,
    hall ▸ howns.apart, fun other hlive ↦ ?_, hall ▸ howns.counted⟩
  · exact (howns.linked _ List.mem_cons_self).change howns.nodup
      (fun _ hother ↦ Memory.set_heap_of_ne hother)
      ⟨Memory.set_heap_self _ _ _, hkept second List.mem_cons_self⟩
  · rw [hall]
    by_cases hother : other = address
    · rw [hother, addresses_middle]
      exact List.mem_append_right _ List.mem_cons_self
    · rw [Memory.set_heap_of_ne hother] at hlive
      exact howns.live other hlive

theorem Owns.setValue (howns : Owns memory ((before ++ (address, value) :: after) :: lists))
    (new : α) : ∃ changed, memory.setValue (some address) new = some changed ∧
      Owns changed ((before ++ (address, new) :: after) :: lists) := by
  have hload : memory.heap address = some ⟨value, headOf after⟩ := howns.load
  refine ⟨memory.set address (some ⟨new, headOf after⟩), by simp [Memory.setValue, hload], ?_⟩
  refine howns.change rfl (List.forall_mem_cons.mpr ⟨?_, fun list hlist ↦ ?_⟩)
  · exact (linked_append (howns.linked _ List.mem_cons_self)).2
  · exact howns.linked list (List.mem_cons_of_mem _ hlist)

/-- A list is hung on the last block of another one. -/
theorem Owns.join (howns : Owns memory ((before ++ [(address, value)]) :: second :: lists)) :
    ∃ joined, memory.setNext (some address) (headOf second) = some joined ∧
      Owns joined ((before ++ (address, value) :: second) :: lists) := by
  have hload : memory.heap address = some ⟨value, none⟩ := howns.load
  refine ⟨memory.set address (some ⟨value, headOf second⟩), by simp [Memory.setNext, hload], ?_⟩
  exact howns.change rfl fun list hlist ↦ howns.linked list (List.mem_cons_of_mem _ hlist)

/-- The first block of a list is freed. -/
theorem Owns.free (howns : Owns memory (((address, value) :: after) :: lists)) :
    ∃ freed, memory.free (some address) = some freed ∧ Owns freed (after :: lists) := by
  have hload : memory.heap address = some ⟨value, headOf after⟩ :=
    (howns.linked _ List.mem_cons_self).1
  have hapart := howns.apart
  rw [addresses_first, List.nodup_cons] at hapart
  have hcounted := howns.counted
  rw [addresses_first, List.length_cons] at hcounted
  refine ⟨memory.set address none, by simp [Memory.free, hload], fun list hlist ↦ ?_, hapart.2,
    fun other hlive ↦ ?_, Nat.le_of_succ_le hcounted⟩
  · have hlinked : Linked memory.heap list := by
      rcases List.mem_cons.mp hlist with rfl | hlist
      · exact (howns.linked _ List.mem_cons_self).2
      · exact howns.linked list (List.mem_cons_of_mem _ hlist)
    refine hlinked.congr fun block hblock ↦ Memory.set_heap_of_ne fun heq ↦ ?_
    exact hapart.1 (heq ▸ mem_addresses hlist hblock)
  · have hother : other ≠ address := by
      rintro rfl
      simp at hlive
    rw [Memory.set_heap_of_ne hother] at hlive
    have hmem := howns.live other hlive
    rw [addresses_first] at hmem
    exact (List.mem_cons.mp hmem).resolve_left hother

end DirWatcher.Foundation.LinkedLists
