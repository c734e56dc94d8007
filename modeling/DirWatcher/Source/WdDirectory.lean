import DirWatcher.Foundation.ParentLinks
import DirWatcher.Source.Paths

/-!
`wd_directory.c`: the table that connects a watch descriptor with the path of the
directory it watches and with the watch descriptor of the directory above. It is
a table of sqlite with `wd` as its primary key and a unique index on `path`; a
query without an order gives its rows here in the order of their insertion.
-/

set_option autoImplicit false
set_option relaxedAutoImplicit false

namespace DirWatcher.Source

open Foundation.ParentLinks

/-- A watch descriptor, an `int`. -/
abbrev Wd := ℤ

/-- The parent of the top level directories, and the result of a failed lookup. -/
def nullWd : Wd := 0

structure Row where
  wd : Wd
  parentWd : Wd
  path : Bytes
deriving DecidableEq, Repr

abbrev Table := List Row

/-- `add_wd_directory`. `none` is an `INSERT` that the primary key or the unique
index on the path refuses. -/
def addWdDirectory (table : Table) (row : Row) : Option Table :=
  if table.any (fun old ↦ old.wd == row.wd || old.path == row.path) then none
  else some (table ++ [row])

def wdDirectoryExists (table : Table) (wd : Wd) : Bool := table.any (·.wd == wd)

/-- `find_wd_directory`: `strncpy` copies at most `maxLen` bytes. -/
def findWdDirectory (table : Table) (wd : Wd) (maxLen : ℕ) : Option Bytes :=
  (table.find? (·.wd == wd)).map fun row ↦ row.path.take maxLen

def findDirectoryWd (table : Table) (path : Bytes) : Wd :=
  match table.find? (·.path == path) with
  | none => nullWd
  | some row => row.wd

def removeWdDirectory (table : Table) (wd : Wd) : Table := table.filter (·.wd != wd)

/-- The children in the order of their insertion. With the index on `parent_wd` SQLite gives
them in the order of `wd`, and the list of a prune and its calls of `inotify_rm_watch` then
come in another order. -/
def findChildren (table : Table) (wd : Wd) : List Wd :=
  (table.filter (·.parentWd == wd)).map Row.wd

/-- `prune_wd_directory`: the list of the removed watch descriptors and the table
without their rows. The loop that makes the list has no bound in the source:
`none` is a loop that has not ended after one turn for each row and one more. -/
def pruneWdDirectory (table : Table) (wd : Wd) : Option (List Wd × Table) :=
  (traverse (findChildren table) (table.length + 1) [wd]).map fun wds ↦
    (wds, wds.foldl removeWdDirectory table)

/-! ### The loop of `prune_wd_directory` -/

/-- The list that `prune_wd_directory` makes, with the places of `current_p` and `tail_p`
in it. `current_p` is `NULL` when its place is the length of the list. -/
structure PruneList where
  nodes : List Wd
  current : ℕ
  tail : ℕ
deriving DecidableEq, Repr

def PruneList.start (wd : Wd) : PruneList := ⟨[wd], 0, 0⟩

/-- The loop that takes `tail_p` to the end of the list, with the nodes that come after it. -/
def toLast : List Wd → ℕ → ℕ
  | [], tail => tail
  | _ :: rest, tail => toLast rest (tail + 1)

/-- One turn of the loop, if `current_p` is not `NULL`. The assignment to `tail_p->next_p`
drops what has come after `tail_p`. -/
def PruneList.turn (table : Table) (list : PruneList) : Option PruneList :=
  list.nodes[list.current]?.map fun wd ↦
    let tail := toLast (list.nodes.drop (list.tail + 1)) list.tail
    ⟨list.nodes.take (tail + 1) ++ findChildren table wd, list.current + 1, tail⟩

end DirWatcher.Source
