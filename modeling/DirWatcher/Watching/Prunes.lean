import DirWatcher.Watching.Tables

/-!
The loop of `prune_wd_directory` on any table. Nothing is lost when the children of a
node are hung on the end of the list, and the loop ends just when it does not start on a
cycle of `parent_wd` links. What it has listed then is one subtree, and only its rows are
removed.
-/

set_option autoImplicit false
set_option relaxedAutoImplicit false

namespace DirWatcher.Watching

open Source Foundation Foundation.ParentLinks

variable {table : Table} {wd : Wd} {list next : PruneList}

/-! ### One turn -/

theorem toLast_eq (rest : List Wd) (tail : ℕ) : toLast rest tail = tail + rest.length := by
  induction rest generalizing tail with
  | nil => rfl
  | cons first rest ih =>
    rw [toLast, ih, List.length_cons]
    omega

/-- `tail_p` is a node of the list, and `current_p` is one or `NULL`. -/
structure ListFits (list : PruneList) : Prop where
  tail : list.tail < list.nodes.length
  current : list.current ≤ list.nodes.length

theorem listFits_start (wd : Wd) : ListFits (.start wd) :=
  ⟨by simp [PruneList.start], by simp [PruneList.start]⟩

/-- The children are hung on the last node of the list, and `current_p` goes on by one. -/
theorem ListFits.turn_eq (hfits : ListFits list) {node : Wd}
    (hnode : list.nodes[list.current]? = some node) :
    list.turn table = some ⟨list.nodes ++ findChildren table node, list.current + 1,
      list.nodes.length - 1⟩ := by
  have htail := hfits.tail
  have hlast : toLast (list.nodes.drop (list.tail + 1)) list.tail = list.nodes.length - 1 := by
    rw [toLast_eq, List.length_drop]
    omega
  have hwhole : list.nodes.take (list.nodes.length - 1 + 1) = list.nodes :=
    List.take_of_length_le (by omega)
  rw [PruneList.turn, hnode, Option.map_some]
  dsimp only
  rw [hlast, hwhole]

theorem turn_eq_none_iff : list.turn table = none ↔ list.nodes.drop list.current = [] := by
  rw [PruneList.turn, Option.map_eq_none_iff, List.getElem?_eq_none_iff, List.drop_eq_nil_iff]

theorem ListFits.turn (hfits : ListFits list) (hturn : list.turn table = some next) :
    ListFits next := by
  obtain ⟨node, hnode, -⟩ := Option.map_eq_some_iff.mp hturn
  rw [hfits.turn_eq hnode, Option.some_inj] at hturn
  have hlt := (List.getElem?_eq_some_iff.mp hnode).1
  rw [← hturn]
  constructor <;> simp only [List.length_append] <;> omega

/-- A turn takes the node at the front of what is left and puts its children at the end. -/
theorem ListFits.turn_cons (hfits : ListFits list) (table : Table) {node : Wd} {later : List Wd}
    (hleft : list.nodes.drop list.current = node :: later) :
    ∃ next, list.turn table = some next ∧
      next.nodes.drop next.current = later ++ findChildren table node ∧
      next.nodes.take next.current = list.nodes.take list.current ++ [node] := by
  have hlt : list.current < list.nodes.length := by
    by_contra hge
    simp [List.drop_eq_nil_of_le (not_lt.mp hge)] at hleft
  have hsplit := List.drop_eq_getElem_cons hlt
  rw [hleft, List.cons.injEq] at hsplit
  obtain ⟨hnode, hlater⟩ := hsplit
  have hget : list.nodes[list.current]? = some node := by
    rw [List.getElem?_eq_getElem hlt, hnode]
  refine ⟨_, hfits.turn_eq hget, ?_, ?_⟩
  · rw [List.drop_append_of_le_length hlt, hlater]
  · rw [List.take_append_of_le_length hlt, List.take_succ_eq_append_getElem hlt, ← hnode]

/-! ### The loop -/

/-- Turns of the loop. -/
def Turns (table : Table) : PruneList → PruneList → Prop :=
  Relation.ReflTransGen fun list next ↦ list.turn table = some next

/-- The loop of `prune_wd_directory` ends with the list. -/
def EndsWith (table : Table) (wd : Wd) (list : PruneList) : Prop :=
  Turns table (.start wd) list ∧ list.turn table = none

/-- A list that has been walked through is left as it is. -/
theorem turns_of_end (hleft : list.nodes.drop list.current = []) :
    ∃ last, Turns table list last ∧ last.turn table = none ∧
      last.nodes = list.nodes.take list.current ++ [] := by
  refine ⟨list, Relation.ReflTransGen.refl, turn_eq_none_iff.mpr hleft, ?_⟩
  rw [← hleft, List.take_append_drop]

/-- A walk of what is left of the list is made by turns of the loop. -/
theorem turns_of_traverse {fuel : ℕ} {rest : List Wd} (hfits : ListFits list)
    (hwalk : traverse (findChildren table) fuel (list.nodes.drop list.current) = some rest) :
    ∃ last, Turns table list last ∧ last.turn table = none ∧
      last.nodes = list.nodes.take list.current ++ rest := by
  induction fuel generalizing list rest with
  | zero =>
    cases hleft : list.nodes.drop list.current with
    | nil =>
      obtain rfl : [] = rest := by simpa [hleft, ParentLinks.traverse] using hwalk
      exact turns_of_end hleft
    | cons node later => simp [hleft, ParentLinks.traverse] at hwalk
  | succ fuel ih =>
    cases hleft : list.nodes.drop list.current with
    | nil =>
      obtain rfl : [] = rest := by simpa [hleft, ParentLinks.traverse] using hwalk
      exact turns_of_end hleft
    | cons node later =>
      rw [hleft] at hwalk
      obtain ⟨more, hmore, rfl⟩ := Option.map_eq_some_iff.mp hwalk
      obtain ⟨next, hturn, hdrop, htake⟩ := hfits.turn_cons table hleft
      obtain ⟨last, hturns, hend, hnodes⟩ := ih (hfits.turn hturn) (hdrop ▸ hmore)
      exact ⟨last, Relation.ReflTransGen.head hturn hturns, hend, by rw [hnodes, htake]; simp⟩

/-- Turns of the loop up to its end walk what is left of the list. -/
theorem traverse_of_turns {last : PruneList} (hfits : ListFits list)
    (hturns : Turns table list last) (hend : last.turn table = none) :
    ∃ fuel rest, traverse (findChildren table) fuel (list.nodes.drop list.current) = some rest ∧
      last.nodes = list.nodes.take list.current ++ rest := by
  induction hturns using Relation.ReflTransGen.head_induction_on with
  | refl =>
    have hleft := turn_eq_none_iff.mp hend
    exact ⟨0, [], by rw [hleft, ParentLinks.traverse], by rw [← hleft, List.take_append_drop]⟩
  | @head list next hturn _ ih =>
    cases hleft : list.nodes.drop list.current with
    | nil => simp [turn_eq_none_iff.mpr hleft] at hturn
    | cons node later =>
      obtain ⟨other, hother, hdrop, htake⟩ := hfits.turn_cons table hleft
      obtain rfl := Option.some_inj.mp (hturn.symm.trans hother)
      obtain ⟨fuel, rest, hwalk, hnodes⟩ := ih (hfits.turn hturn)
      refine ⟨fuel + 1, node :: rest, ?_, by rw [hnodes, htake]; simp⟩
      rw [ParentLinks.traverse, ← hdrop, hwalk, Option.map_some]

/-- The loop ends with a list just when a walk from the watch descriptor ends with it. -/
theorem exists_endsWith_iff {wds : List Wd} :
    (∃ list, EndsWith table wd list ∧ list.nodes = wds) ↔
      ∃ fuel, traverse (findChildren table) fuel [wd] = some wds := by
  constructor
  · rintro ⟨list, ⟨hturns, hend⟩, rfl⟩
    obtain ⟨fuel, rest, hwalk, hnodes⟩ := traverse_of_turns (listFits_start wd) hturns hend
    obtain rfl : list.nodes = rest := hnodes
    exact ⟨fuel, hwalk⟩
  · rintro ⟨fuel, hwalk⟩
    obtain ⟨last, hturns, hend, hnodes⟩ := turns_of_traverse (listFits_start wd) hwalk
    exact ⟨last, ⟨hturns, hend⟩, hnodes⟩

/-- On any table whose primary key holds, the loop of `prune_wd_directory` ends just when
the watch descriptor is not on a cycle of `parent_wd` links. The list it ends with begins
with the watch descriptor and holds just what is linked below it, each once and after its
parent, and only the rows of the list are removed. -/
theorem prune_removes_subtree (table : Table) (wd : Wd) (hwds : (table.map Row.wd).Nodup) :
    ((∃ list, EndsWith table wd list) ↔ ¬ OnWdCycle table wd) ∧
      ∀ list, EndsWith table wd list →
        pruneWdDirectory table wd = some (list.nodes, table.filter (·.wd ∉ list.nodes)) ∧
        list.nodes.head? = some wd ∧ list.nodes.Nodup ∧
        (∀ other, other ∈ list.nodes ↔ BelowWd table wd other) ∧
        ∀ parent ∈ list.nodes, ∀ child ∈ findChildren table parent,
          list.nodes.idxOf parent < list.nodes.idxOf child := by
  have hforest := forest_of_nodup hwds
  refine ⟨⟨fun ⟨list, hends⟩ ↦ ?_, fun hcycle ↦ ?_⟩, fun list hends ↦ ?_⟩
  · obtain ⟨fuel, hwalk⟩ := exists_endsWith_iff.mp ⟨list, hends, rfl⟩
    exact not_onCycle_of_traverse hwalk
  · obtain ⟨wds, hwalk⟩ := exists_traverse hforest hcycle le_rfl
    obtain ⟨list, hends, -⟩ := exists_endsWith_iff.mpr ⟨_, hwalk⟩
    exact ⟨list, hends⟩
  · obtain ⟨fuel, hwalk⟩ := exists_endsWith_iff.mp ⟨list, hends, rfl⟩
    have hcycle := not_onCycle_of_traverse hwalk
    obtain ⟨hnodup, hled⟩ := (walking_start (findChildren table) wd).finish hforest hcycle
      (led_start _ wd) hwalk
    rw [List.nil_append] at hnodup hled
    have hmem : ∀ other, other ∈ list.nodes ↔ BelowWd table wd other := fun other ↦
      mem_traverse_iff hwalk
    obtain ⟨wds, hwds'⟩ := exists_traverse hforest hcycle
      (by simp : (table.map Row.wd).length + 1 ≤ table.length + 1)
    refine ⟨?_, ?_, hnodup, hmem, fun parent hparent child hchild ↦ ?_⟩
    · rw [pruneWdDirectory, hwds', Option.map_some, foldl_removeWdDirectory_eq,
        traverse_unique hwds' hwalk]
    · rw [traverse_eq_append_flatMap hwalk]
      rfl
    · have hbelow := (hmem parent).mp hparent
      refine hled.idxOf_lt hnodup ((hmem child).mpr (hbelow.tail hchild)) ?_
        fun other hother ↦ hforest.oneParent other parent child hother hchild
      rintro rfl
      exact hcycle (Relation.TransGen.tail' hbelow hchild)

/-- The tree of the test of `wd_directory.c`. -/
def smallTree : Table :=
  [⟨10, nullWd, literal "aaa"⟩, ⟨11, 10, literal "aaa/bbb"⟩, ⟨12, 10, literal "aaa/ccc"⟩,
    ⟨13, 11, literal "aaa/bbb/ddd"⟩, ⟨14, 11, literal "aaa/bbb/eee"⟩,
    ⟨15, 12, literal "aaa/ccc/fff"⟩, ⟨16, 12, literal "aaa/ccc/ggg"⟩]

theorem prune_removes_subtree_smallTree :
    EndsWith smallTree 12 ⟨[12, 15, 16], 3, 2⟩ ∧ ¬ OnWdCycle smallTree 12 ∧
      pruneWdDirectory smallTree 12 = some ([12, 15, 16], smallTree.take 2 ++
        [⟨13, 11, literal "aaa/bbb/ddd"⟩, ⟨14, 11, literal "aaa/bbb/eee"⟩]) ∧
      ∀ other, other ∈ [12, 15, 16] ↔ BelowWd smallTree 12 other := by
  have hends : EndsWith smallTree 12 ⟨[12, 15, 16], 3, 2⟩ := by
    have hfirst : PruneList.turn smallTree (.start 12) = some ⟨[12, 15, 16], 1, 0⟩ := by decide
    have hsecond : PruneList.turn smallTree ⟨[12, 15, 16], 1, 0⟩ = some ⟨[12, 15, 16], 2, 2⟩ := by
      decide
    have hthird : PruneList.turn smallTree ⟨[12, 15, 16], 2, 2⟩ = some ⟨[12, 15, 16], 3, 2⟩ := by
      decide
    exact ⟨.head hfirst (.head hsecond (.single hthird)), by decide⟩
  obtain ⟨hcycle, hlist⟩ := prune_removes_subtree smallTree 12 (by decide)
  obtain ⟨hprune, -, -, hmem, -⟩ := hlist _ hends
  exact ⟨hends, hcycle.mp ⟨_, hends⟩, hprune.trans (by decide), hmem⟩

end DirWatcher.Watching
