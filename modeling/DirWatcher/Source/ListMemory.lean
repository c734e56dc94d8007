import DirWatcher.Foundation.LinkedLists
import DirWatcher.Source.ListSubDirs
import DirWatcher.Source.WdDirectory

/-!
The linked lists of `wd_directory.c` and `list_sub_dirs.c` in memory: how they are built with
`calloc`, walked through and released. Which calls of `calloc` fail, and what addresses the
others return, is left to the allocator. An access to memory that has not been allocated, or
that has been freed, has no meaning.
-/

set_option autoImplicit false
set_option relaxedAutoImplicit false

namespace DirWatcher.Source

open Foundation.LinkedLists

/-- What a node holds besides `next_p`. -/
inductive Block
  | wdListNode (wd : Wd)
  | subDirNode (dName : Bytes)
deriving DecidableEq, Repr

/-- How a function fails to return: by an access without a meaning, or by the end of the
process. -/
inductive Halt
  | invalidAccess
  | stop (stop : Stop)
deriving DecidableEq, Repr

def access {β : Type} : Option β → Except Halt β
  | none => .error .invalidAccess
  | some value => .ok value

namespace Pointers

/-! ### A list that is built at its tail -/

/-- `head_p` and `node_p` of `find_children` and `list_sub_dirs`. -/
structure Building where
  memory : Memory Block
  headP : Pointer
  nodeP : Pointer

/-- The test of `node_p`, and the value of the new node. -/
def fillNode (value : Block) (list : Building) : Except Halt Building :=
  match list.nodeP with
  | none => .error (.stop (.exited (-1)))
  | some _ => do
    let memory ← access (list.memory.setValue list.nodeP value)
    return { list with memory }

/-- A new node: the head of the list, or the one after `node_p`. `zero` is a block of zero
bytes, as `calloc` returns it. -/
def appendNode (allocator : Allocator Block) (zero : Block) (list : Building) (value : Block) :
    Except Halt Building := do
  let (fresh, memory) := list.memory.allocate allocator zero
  match list.headP with
  | none => fillNode value ⟨memory, fresh, fresh⟩
  | some _ =>
    let linked ← access (memory.setNext list.nodeP fresh)
    let node ← access (linked.load list.nodeP)
    fillNode value ⟨linked, list.headP, node.next⟩

def buildList (allocator : Allocator Block) (zero : Block) (memory : Memory Block)
    (values : List Block) : Except Halt (Memory Block × Pointer) := do
  let built ← values.foldlM (appendNode allocator zero) ⟨memory, none, none⟩
  return (built.memory, built.headP)

/-- The list that `find_children` makes of the rows of its query. -/
def findChildren (allocator : Allocator Block) (memory : Memory Block) (table : Table) (wd : Wd) :
    Except Halt (Memory Block × Pointer) :=
  buildList allocator (.wdListNode 0) memory ((Source.findChildren table wd).map .wdListNode)

/-- The list that `list_sub_dirs` makes of the names it comes to. -/
def listSubDirs (allocator : Allocator Block) (memory : Memory Block) (names : List Bytes) :
    Except Halt (Memory Block × Pointer) :=
  buildList allocator (.subDirNode []) memory
    (names.map fun name ↦ .subDirNode (strncpy name dirNameSize))

/-! ### `prune_wd_directory` -/

def wdOf : Block → Except Halt Wd
  | .wdListNode wd => .ok wd
  | .subDirNode _ => .error .invalidAccess

def dNameOf : Block → Except Halt Bytes
  | .wdListNode _ => .error .invalidAccess
  | .subDirNode dName => .ok dName

/-- The loop that takes `tail_p` to the end of the list, for at most `turns` turns. -/
def lastFrom (memory : Memory Block) : ℕ → Pointer → Except Halt Pointer
  | 0, _ => .error (.stop .loops)
  | turns + 1, tailP => do
    let node ← access (memory.load tailP)
    match node.next with
    | none => return tailP
    | some _ => lastFrom memory turns node.next

/-- The loop that makes the list. As for `traverse`, `turns` bounds the loop where the source
does not; a list in memory has at most as many nodes as `calloc` has been called for. -/
def collect (allocator : Allocator Block) (table : Table) :
    ℕ → Memory Block → Pointer → Pointer → Except Halt (Memory Block)
  | _, memory, none, _ => return memory
  | 0, _, some _, _ => .error (.stop .loops)
  | turns + 1, memory, some current, tailP => do
    let last ← lastFrom memory memory.calls tailP
    let node ← access (memory.load (some current))
    let wd ← wdOf node.value
    let (grown, children) ← findChildren allocator memory table wd
    let joined ← access (grown.setNext last children)
    let after ← access (joined.load (some current))
    collect allocator table turns joined after.next last

/-- The loop that removes the rows. -/
def removeRows (memory : Memory Block) : ℕ → Pointer → Table → Except Halt Table
  | _, none, table => return table
  | 0, some _, _ => .error (.stop .loops)
  | turns + 1, some current, table => do
    let node ← access (memory.load (some current))
    let wd ← wdOf node.value
    removeRows memory turns node.next (removeWdDirectory table wd)

def pruneWdDirectory (allocator : Allocator Block) (memory : Memory Block) (table : Table)
    (wd : Wd) : Except Halt (Memory Block × Pointer × Table) := do
  let (headP, allocated) := memory.allocate allocator (.wdListNode 0)
  match headP with
  | none => .error (.stop (.exited (-1)))
  | some _ =>
    let filled ← access (allocated.setValue headP (.wdListNode wd))
    let collected ← collect allocator table (table.length + 1) filled headP headP
    let pruned ← removeRows collected collected.calls headP table
    return (collected, headP, pruned)

/-! ### The release of a list -/

def releaseFrom : ℕ → Memory Block → Pointer → Except Halt (Memory Block)
  | _, memory, none => return memory
  | 0, _, some _ => .error (.stop .loops)
  | turns + 1, memory, some current => do
    let node ← access (memory.load (some current))
    let freed ← access (memory.free (some current))
    releaseFrom turns freed node.next

def releaseWdList (memory : Memory Block) (headP : Pointer) : Except Halt (Memory Block) :=
  releaseFrom memory.calls memory headP

def releaseSubDirList (memory : Memory Block) (headP : Pointer) : Except Halt (Memory Block) :=
  releaseFrom memory.calls memory headP

end Pointers

end DirWatcher.Source
