import DirWatcher.Environment.Interface
import DirWatcher.Source.ListMemory

/-!
The watcher with its linked lists in memory. Its places and frames carry no lists here: what
the loops over the lists come to is read from the nodes that their pointers lead to.
-/

set_option autoImplicit false
set_option relaxedAutoImplicit false

namespace DirWatcher.Environment

open Source Foundation.LinkedLists

/-- `wd_list_p` of `prune_wd_and_clean_up`, `node_p` of `remove_pruned_wds`, and `head_p` and
`node_p` of each call of `add_watch` that has come to its loop, the innermost one first. -/
structure ListVars where
  memory : Memory Block
  wdListP : Pointer
  nodeP : Pointer
  subDirs : List (Pointer × Pointer)

/-- `fault` records an access to memory that has no meaning. -/
structure PointerSystem (κ : Type) where
  system : System κ
  vars : ListVars
  fault : Bool

namespace PointerSystem

variable {κ α : Type}

def start (cfg : Config) (kernel : κ) : PointerSystem κ :=
  ⟨System.start cfg kernel, ⟨.empty, none, none, []⟩, false⟩

/-- The state after a function on the lists. -/
def after {β : Type} (s : PointerSystem κ) (result : Except Halt β) (next : β → PointerSystem κ) :
    PointerSystem κ :=
  match result with
  | .ok value => next value
  | .error .invalidAccess => { s with fault := true }
  | .error (.stop stop) => { s with system.watcher.place := .stopped stop }

/-- The state in which the watcher is at a place, with what its lists have become. -/
def atPlace (s : PointerSystem κ) (place : Place) (vars : ListVars) : PointerSystem κ :=
  { s with system.watcher.place := place, vars }

/-- The calls of `prune_wd_directory` and `list_sub_dirs` in a step make their lists in
memory. `table` is the one before the step. A prune without end has stopped the watcher by then
and makes no list. -/
def makeLists (allocator : Allocator Block) (table : Table) (s : PointerSystem κ) :
    PointerSystem κ :=
  match s.system.watcher.place with
  | .removePrunedWds (wd :: _) row =>
    s.after (Pointers.pruneWdDirectory allocator s.vars.memory table wd)
      fun (memory, headP, pruned) ↦
        { s with system.watcher.table := pruned }.atPlace (.removePrunedWds [] row)
          { s.vars with memory, wdListP := headP, nodeP := headP }
  | .subDirs wd path names =>
    s.after (Pointers.listSubDirs allocator s.vars.memory names) fun (memory, headP) ↦
      s.atPlace (.subDirs wd path [])
        { s.vars with memory, subDirs := (headP, headP) :: s.vars.subDirs }
  | _ => s

/-- The test of the loop over the sub-directories, and its body for the name of a node. At the
end the list is released. -/
def subDirTurn (s : PointerSystem κ) (wd : Wd) (path : Bytes) : Option (PointerSystem κ) :=
  match s.vars.subDirs with
  | [] => none
  | (headP, none) :: rest =>
    some <| s.after (Pointers.releaseSubDirList s.vars.memory headP) fun memory ↦
      { s with
        system.watcher := s.system.watcher.watchSubDir wd path []
        vars := { s.vars with memory, subDirs := rest } }
  | (_, some node) :: _ =>
    some <| s.after (access (s.vars.memory.load (some node)) >>= fun block ↦
      Pointers.dNameOf block.value) fun name ↦
        { s with system.watcher := s.system.watcher.watchSubDir wd path [name] }

/-- `node_p = node_p->next_p` of the loop over the sub-directories, after a call of
`add_watch` in it has returned. -/
def nextSubDir (s : PointerSystem κ) : PointerSystem κ :=
  match s.system.watcher.place, s.vars.subDirs with
  | .subDirs _ _ _, (headP, nodeP) :: rest =>
    s.after (access (s.vars.memory.load nodeP)) fun block ↦
      { s with vars.subDirs := (headP, block.next) :: rest }
  | _, _ => s

/-- A step without a system call. After the last watch has been removed, the list is
released. -/
def internal (cfg : Config) (allocator : Allocator Block) (s : PointerSystem κ) :
    Option (PointerSystem κ) :=
  match s.system.watcher.place with
  | .subDirs wd path _ => s.subDirTurn wd path
  | .removePrunedWds _ _ =>
    match s.vars.nodeP with
    | some _ => none
    | none => (s.system.watcher.internal cfg).map fun watcher ↦
        s.after (Pointers.releaseWdList s.vars.memory s.vars.wdListP) fun memory ↦
          { s with system.watcher := watcher, vars.memory := memory }
  | .returned _ => (s.system.watcher.internal cfg).map fun watcher ↦
      { s with system.watcher := watcher }.nextSubDir
  | _ => (s.system.watcher.internal cfg).map fun watcher ↦
      { s with system.watcher := watcher }.makeLists allocator s.system.watcher.table

/-- The answer to a system call. The watch descriptor that is to be removed is read from the
node of the list. -/
def answer (cfg : Config) (k : Kernel κ α) (allocator : Allocator Block) (s : PointerSystem κ)
    (answer : Answer) : Option (PointerSystem κ) :=
  match s.system.watcher.place with
  | .removePrunedWds _ row =>
    match s.vars.nodeP with
    | none => none
    | some node =>
      match access (s.vars.memory.load (some node)) >>= fun block ↦
        (Pointers.wdOf block.value).map fun wd ↦ (wd, block.next) with
      | .error _ => some { s with fault := true }
      | .ok (wd, next) =>
        ({ s.system with watcher.place := .removePrunedWds [wd] row }.step cfg k
          (.answer answer : Label α)).map fun system ↦ { s with system, vars.nodeP := next }
  | _ => (s.system.step cfg k (.answer answer : Label α)).map fun system ↦
      { s with system }.makeLists allocator s.system.watcher.table

def step (cfg : Config) (k : Kernel κ α) (allocator : Allocator Block) (s : PointerSystem κ)
    (label : Label α) : Option (PointerSystem κ) :=
  if s.fault then none
  else match label with
    | .act action => (s.system.step cfg k (.act action)).map fun system ↦ { s with system }
    | .internal => s.internal cfg allocator
    | .answer answer => s.answer cfg k allocator answer

end PointerSystem

end DirWatcher.Environment
