import DirWatcher.Source.Paths

/-!
`list_sub_dirs.c`: the sub-directories of a directory, as a linked list that is built at its
tail. A pointer to a node is the number of the call of `calloc` that has returned it.

What the calls on the directory answer, what they leave in `errno` when they succeed, and
which calls of `calloc` fail, is left open.
-/

set_option autoImplicit false
set_option relaxedAutoImplicit false

namespace DirWatcher.Source

def enoent : ℕ := 2
def ebadf : ℕ := 9
def enotdir : ℕ := 20

def dtUnknown : UInt8 := 0
def dtDir : UInt8 := 4

def dirNameSize : ℕ := 256

/-- `struct dirent`, with the fields that are read. -/
structure Dirent where
  dName : Bytes
  dType : UInt8
deriving DecidableEq, Repr

/-- A directory that has been opened: the entries that `readdir` returns, each with the value of
`errno` at the end of its turn of the loop, and then the error of the last call. Without an error
that call has come to the end of the directory and leaves `errno` as it is. -/
structure DirStream where
  entries : List (Dirent × ℕ)
  failure : Option ℕ
deriving DecidableEq, Repr

/-- The result of `opendir`. A call that succeeds leaves some value in `errno`, too. -/
inductive Opendir
  | failed (errno : ℕ)
  | opened (errno : ℕ) (stream : DirStream)
deriving DecidableEq, Repr

/-- `struct SUB_DIR_NODE`. -/
structure SubDirNode where
  nextP : Option ℕ
  dName : Bytes
deriving DecidableEq, Repr

/-- `head_p` and `node_p`, with the nodes they point into. -/
structure SubDirList where
  nodes : List SubDirNode
  headP : Option ℕ
  nodeP : Option ℕ
deriving DecidableEq, Repr

def SubDirList.empty : SubDirList := ⟨[], none, none⟩

/-- `calloc` of a node. -/
def callocNode (fails : ℕ → Bool) (nodes : List SubDirNode) : Option ℕ × List SubDirNode :=
  if fails nodes.length then (none, nodes) else (some nodes.length, nodes ++ [⟨none, []⟩])

/-- `node_p->next_p = ...`. -/
def setNext (nodes : List SubDirNode) (nodeP nextP : Option ℕ) : List SubDirNode :=
  match nodeP with
  | none => nodes
  | some node => nodes.modify node fun old ↦ { old with nextP }

/-- A new node: the head of the list, or the one after `node_p`. -/
def SubDirList.addNode (fails : ℕ → Bool) (list : SubDirList) : SubDirList :=
  let (fresh, nodes) := callocNode fails list.nodes
  match list.headP with
  | none => ⟨nodes, fresh, fresh⟩
  | some _ => { list with nodes := setNext nodes list.nodeP fresh, nodeP := fresh }

/-- `strncpy`, for a buffer that is zero behind the `size` bytes. -/
def strncpy (text : Bytes) (size : ℕ) : Bytes := text.take size

/-- The body of the loop for an entry. -/
def listEntry (fails : ℕ → Bool) (list : SubDirList) (entry : Dirent) : Except Stop SubDirList :=
  if entry.dType = dtDir then
    if entry.dName = literal "." then .ok list
    else if entry.dName = literal ".." then .ok list
    else
      let added := list.addNode fails
      match added.nodeP with
      | none => .error (.exited (-1))
      | some node => .ok { added with
          nodes := added.nodes.modify node fun old ↦
            { old with dName := strncpy entry.dName dirNameSize } }
  else .ok list

/-- The loop, with the value of `errno` before the next call of `readdir`. When it returns `NULL`,
every `errno` but `EBADF` is taken for the end of the directory. -/
def readdirLoop (fails : ℕ → Bool) (failure : Option ℕ) :
    List (Dirent × ℕ) → ℕ → SubDirList → Except Stop SubDirList
  | [], errno, list =>
    if failure.getD errno ≠ ebadf then .ok list else .error (.exited (-1))
  | (entry, errno) :: rest, _, list => do
    let next ← listEntry fails list entry
    readdirLoop fails failure rest errno next

def listSubDirs (fails : ℕ → Bool) : Opendir → Except Stop SubDirList
  | .failed errno =>
    if errno = enoent then .ok .empty
    else if errno = enotdir then .ok .empty
    else .error (.exited (-1))
  | .opened errno stream => readdirLoop fails stream.failure stream.entries errno .empty

/-- The names that the loop of `add_watch` over the list comes to from a node on, in so many
turns. `none` is a loop that goes on. -/
def namesFrom (nodes : List SubDirNode) : ℕ → Option ℕ → Option (List Bytes)
  | _, none => some []
  | 0, some _ => none
  | turns + 1, some node =>
    match nodes[node]? with
    | none => none
    | some ⟨nextP, dName⟩ => (namesFrom nodes turns nextP).map (dName :: ·)

/-- The names of the list that `head_p` points to. -/
def SubDirList.names (list : SubDirList) : Option (List Bytes) :=
  namesFrom list.nodes list.nodes.length list.headP

end DirWatcher.Source
