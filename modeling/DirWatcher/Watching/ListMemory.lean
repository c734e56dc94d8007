import DirWatcher.Source.ListMemory
import DirWatcher.Watching.Tables

/-!
The lists in memory hold what the lists of the model hold. Building one adds it to those that
are there, walking through it comes to its values in their order, and its release gives back
just its own nodes.
-/

set_option autoImplicit false
set_option relaxedAutoImplicit false

namespace DirWatcher.Watching

open Source Foundation Foundation.ParentLinks Foundation.LinkedLists

/-! ### Functions that may run out of memory -/

/-- What a function returns is as it should be, unless a call of `calloc` has failed and ended
the process. No access is invalid. -/
inductive Outcome {β : Type} (good : β → Prop) : Except Halt β → Prop
  | returns {value : β} (hgood : good value) : Outcome good (.ok value)
  | outOfMemory : Outcome good (.error (.stop (.exited (-1))))

variable {β γ : Type} {good : β → Prop} {better : γ → Prop}

theorem Outcome.bind {first : Except Halt β} {rest : β → Except Halt γ}
    (hfirst : Outcome good first) (hrest : ∀ value, good value → Outcome better (rest value)) :
    Outcome better (first >>= rest) := by
  cases hfirst with
  | returns hgood => exact hrest _ hgood
  | outOfMemory => exact .outOfMemory

theorem Outcome.mono {weaker : β → Prop} {result : Except Halt β} (hresult : Outcome good result)
    (hweaker : ∀ value, good value → weaker value) : Outcome weaker result := by
  cases hresult with
  | returns hgood => exact .returns (hweaker _ hgood)
  | outOfMemory => exact .outOfMemory

/-- A valid access. -/
theorem outcome_access {result : Option β} {value : β} (hresult : result = some value)
    {rest : β → Except Halt γ} (hrest : Outcome better (rest value)) :
    Outcome better (access result >>= rest) := by
  subst hresult
  exact hrest

variable {allocator : Allocator Block} {memory : Memory Block}
  {lists : List (List (ℕ × Block))} {list : List (ℕ × Block)}

/-! ### Building a list -/

/-- `node_p` is the last node of a list that has a node. -/
structure BuildsAt (lists : List (List (ℕ × Block))) (built : Pointers.Building)
    (values : List Block) : Prop where
  holds : ∃ list, Owns built.memory (list :: lists) ∧ list.map Prod.snd = values ∧
    built.headP = headOf list ∧ (list.map Prod.fst).getLast? = built.nodeP

theorem outcome_fillNode {before : List (ℕ × Block)} {address : ℕ} {zero : Block}
    (building : Pointers.Building)
    (howns : Owns building.memory ((before ++ [(address, zero)]) :: lists))
    (hhead : building.headP = headOf (before ++ [(address, zero)]))
    (hnode : building.nodeP = some address) (value : Block) :
    Outcome (fun built ↦ BuildsAt lists built (before.map Prod.snd ++ [value]))
      (Pointers.fillNode value building) := by
  obtain ⟨changed, hset, howns⟩ := howns.setValue value
  unfold Pointers.fillNode
  rw [hnode]
  refine outcome_access hset (.returns ⟨_, howns, by simp, ?_, by simp⟩)
  change building.headP = _
  rw [hhead]
  cases before <;> rfl

theorem outcome_appendNode {built : Pointers.Building} {values : List Block}
    (hbuilds : BuildsAt lists built values) (zero value : Block) :
    Outcome (fun built ↦ BuildsAt lists built (values ++ [value]))
      (Pointers.appendNode allocator zero built value) := by
  obtain ⟨list, howns, rfl, hhead, hnode⟩ := hbuilds.holds
  unfold Pointers.appendNode
  cases hallocate : built.memory.allocate allocator zero with
  | mk fresh grown =>
    have hnew := (howns.allocate hallocate).perm (List.Perm.swap _ _ _)
    cases list using List.reverseRecOn with
    | nil =>
      rw [hhead]
      cases fresh with
      | none => exact .outOfMemory
      | some address =>
        exact outcome_fillNode ⟨grown, some address, some address⟩ (owns_cons_nil.mp hnew) rfl rfl
          value
    | append_singleton before last _ =>
      obtain ⟨address, old⟩ := last
      have hsome : built.headP ≠ none := by
        rw [hhead]
        cases before <;> simp [headOf]
      obtain ⟨first, hfirst⟩ := Option.ne_none_iff_exists'.mp hsome
      have hlast : built.nodeP = some address := by simpa using hnode.symm
      obtain ⟨joined, hset, howns⟩ := hnew.join
      rw [headOf_newList] at hset
      rw [hfirst, hlast]
      refine outcome_access hset (outcome_access howns.load ?_)
      rw [headOf_newList]
      cases fresh with
      | none => exact .outOfMemory
      | some new =>
        have hsplit : before ++ (address, old) :: newList (some new) zero =
            (before ++ [(address, old)]) ++ [(new, zero)] := by simp [newList]
        rw [hsplit] at howns
        have hsame : some first = headOf ((before ++ [(address, old)]) ++ [(new, zero)]) := by
          rw [← hfirst, hhead]
          cases before <;> rfl
        exact outcome_fillNode ⟨joined, some first, some new⟩ howns hsame rfl value

/-- The list of all the values is added to the lists that are there. -/
theorem outcome_buildList (howns : Owns memory lists) (zero : Block) (values : List Block) :
    Outcome (fun result ↦ ∃ list, Owns result.1 (list :: lists) ∧ list.map Prod.snd = values ∧
      result.2 = headOf list) (Pointers.buildList allocator zero memory values) := by
  have hfold : ∀ (more done : List Block) (built : Pointers.Building),
      BuildsAt lists built done →
      Outcome (fun built ↦ BuildsAt lists built (done ++ more))
        (more.foldlM (Pointers.appendNode allocator zero) built) := by
    intro more
    induction more with
    | nil =>
      intro done built hbuilt
      rw [List.append_nil]
      exact .returns hbuilt
    | cons value rest ih =>
      intro done built hbuilt
      rw [List.foldlM_cons]
      refine (outcome_appendNode hbuilt zero value).bind fun next hnext ↦ ?_
      simpa using ih _ next hnext
  have hstart : BuildsAt lists ⟨memory, none, none⟩ [] :=
    ⟨[], owns_cons_nil.mpr howns, rfl, rfl, rfl⟩
  refine (hfold values [] _ hstart).bind fun built hbuilt ↦ ?_
  obtain ⟨list, howns, hvalues, hhead, -⟩ := hbuilt.holds
  exact .returns ⟨list, howns, hvalues, hhead⟩

/-! ### The list of `prune_wd_directory` -/

theorem length_le_calls (howns : Owns memory (list :: lists)) : list.length ≤ memory.calls := by
  have hcounted := howns.counted
  rw [addresses_cons, List.length_append, List.length_map] at hcounted
  omega

/-- `tail_p` comes to the last node. -/
theorem lastFrom_eq {before after : List (ℕ × Block)} {address : ℕ} {value : Block}
    (howns : Owns memory ((before ++ (address, value) :: after) :: lists)) {turns : ℕ}
    (hturns : after.length < turns) :
    Pointers.lastFrom memory turns (some address) =
      .ok (((before ++ (address, value) :: after).map Prod.fst).getLast?) := by
  induction turns generalizing before after address value with
  | zero => exact absurd hturns (Nat.not_lt_zero _)
  | succ turns ih =>
    rw [Pointers.lastFrom, howns.load]
    cases after with
    | nil => simp [access, headOf]; rfl
    | cons second rest =>
      obtain ⟨next, other⟩ := second
      have hsplit : before ++ (address, value) :: (next, other) :: rest =
          (before ++ [(address, value)]) ++ (next, other) :: rest := by simp
      rw [hsplit] at howns ⊢
      exact ih howns (Nat.lt_of_succ_lt_succ hturns)

theorem outcome_findChildren (howns : Owns memory lists) (table : Table) (wd : Wd) :
    Outcome (fun result ↦ ∃ list, Owns result.1 (list :: lists) ∧
      list.map Prod.snd = (findChildren table wd).map Block.wdListNode ∧ result.2 = headOf list)
      (Pointers.findChildren allocator memory table wd) := outcome_buildList howns _ _

/-- One turn of the loop hangs the list of the children on the last node. -/
theorem outcome_turn {table : Table} {turns : ℕ} {wd : Wd} {before cells : List (ℕ × Block)}
    {current tailP : ℕ} {good : Memory Block → Prop}
    (howns : Owns memory ((before ++ (current, .wdListNode wd) :: cells) :: lists))
    (htail : tailP ∈ (before ++ (current, Block.wdListNode wd) :: cells).map Prod.fst)
    (hrest : ∀ joined children last,
      Owns joined ((before ++ (current, .wdListNode wd) :: (cells ++ children)) :: lists) →
      children.map Prod.snd = (findChildren table wd).map Block.wdListNode →
      last ∈ (before ++ (current, Block.wdListNode wd) :: cells).map Prod.fst →
      Outcome good (Pointers.collect allocator table turns joined (headOf (cells ++ children))
        (some last))) :
    Outcome good
      (Pointers.collect allocator table (turns + 1) memory (some current) (some tailP)) := by
  obtain ⟨⟨tail, value⟩, hnode, rfl⟩ := List.mem_map.mp htail
  obtain ⟨front, back, hwhole⟩ := List.append_of_mem hnode
  obtain ⟨init, ⟨last, old⟩, hinit⟩ : ∃ init last,
      before ++ (current, Block.wdListNode wd) :: cells = init ++ [last] :=
    ⟨_, _, (List.dropLast_concat_getLast (by simp)).symm⟩
  have hlast : Pointers.lastFrom memory memory.calls (some tail) = .ok (some last) := by
    have hlength := length_le_calls howns
    rw [hwhole, List.length_append, List.length_cons] at hlength
    rw [lastFrom_eq (hwhole ▸ howns) (by omega), ← hwhole, hinit, List.map_append,
      List.map_singleton, List.getLast?_concat]
  rw [Pointers.collect, hlast]
  refine outcome_access howns.load ?_
  refine (outcome_findChildren howns table wd).bind fun result hresult ↦ ?_
  obtain ⟨grown, headP⟩ := result
  obtain ⟨children, hgrown, hchildren, rfl⟩ := hresult
  have hpair := hgrown.perm (List.Perm.swap _ _ _)
  rw [hinit] at hpair
  obtain ⟨joined, hset, hjoined⟩ := hpair.join
  have hsplit : init ++ (last, old) :: children =
      before ++ (current, .wdListNode wd) :: (cells ++ children) := by
    rw [← List.cons_append, ← List.append_assoc, hinit]
    simp
  rw [hsplit] at hjoined
  refine outcome_access hset (outcome_access hjoined.load ?_)
  exact hrest joined children last hjoined hchildren (by simp [hinit])

/-- The nodes from `current_p` on are what is left of the walk, and in the end the list holds
all that the walk comes to. -/
theorem outcome_collect {table : Table} {turns : ℕ} {wds rest : List Wd}
    {before cells : List (ℕ × Block)} {tailP : ℕ}
    (howns : Owns memory ((before ++ cells) :: lists))
    (hcells : cells.map Prod.snd = wds.map Block.wdListNode)
    (htail : tailP ∈ (before ++ cells).map Prod.fst)
    (hwalk : traverse (findChildren table) turns wds = some rest) :
    Outcome (fun final ↦ ∃ later, Owns final ((before ++ cells ++ later) :: lists) ∧
      (cells ++ later).map Prod.snd = rest.map Block.wdListNode)
      (Pointers.collect allocator table turns memory (headOf cells) (some tailP)) := by
  induction turns generalizing memory wds rest before cells tailP with
  | zero =>
    cases wds with
    | nil =>
      obtain rfl := List.map_eq_nil_iff.mp hcells
      obtain rfl : [] = rest := by simpa [ParentLinks.traverse] using hwalk
      exact .returns ⟨[], by simpa using howns, rfl⟩
    | cons wd more => simp [ParentLinks.traverse] at hwalk
  | succ turns ih =>
    cases wds with
    | nil =>
      obtain rfl := List.map_eq_nil_iff.mp hcells
      obtain rfl : [] = rest := by simpa [ParentLinks.traverse] using hwalk
      exact .returns ⟨[], by simpa using howns, rfl⟩
    | cons wd more =>
      obtain ⟨⟨current, _⟩, cells, rfl, rfl, hmore⟩ := List.map_eq_cons_iff.mp hcells
      obtain ⟨walked, hwalked, rfl⟩ := Option.map_eq_some_iff.mp hwalk
      refine outcome_turn howns htail fun joined children last hjoined hchildren hlast ↦ ?_
      rw [List.append_cons] at hjoined
      have hvalues : (cells ++ children).map Prod.snd =
          (more ++ findChildren table wd).map Block.wdListNode := by
        rw [List.map_append, List.map_append, hmore, hchildren]
      refine (ih hjoined hvalues ?_ hwalked).mono ?_
      · simp only [List.map_append, List.mem_append, List.map_cons, List.mem_cons] at hlast ⊢
        tauto
      · rintro final ⟨later, hfinal, hlater⟩
        refine ⟨children ++ later, by simpa using hfinal, ?_⟩
        rw [← List.append_assoc, List.cons_append, List.cons_append, List.map_cons, hlater,
          List.map_cons]

/-- The rows of the nodes from one on are removed. -/
theorem removeRows_eq {turns : ℕ} {wds : List Wd} {before cells : List (ℕ × Block)}
    (howns : Owns memory ((before ++ cells) :: lists))
    (hcells : cells.map Prod.snd = wds.map Block.wdListNode) (hturns : cells.length ≤ turns)
    (table : Table) :
    Pointers.removeRows memory turns (headOf cells) table =
      .ok (wds.foldl removeWdDirectory table) := by
  induction turns generalizing wds before cells table with
  | zero =>
    obtain rfl := List.length_eq_zero_iff.mp (Nat.le_zero.mp hturns)
    obtain rfl := List.map_eq_nil_iff.mp hcells.symm
    rfl
  | succ turns ih =>
    cases wds with
    | nil =>
      obtain rfl := List.map_eq_nil_iff.mp hcells
      rfl
    | cons wd more =>
      obtain ⟨⟨current, _⟩, cells, rfl, rfl, hmore⟩ := List.map_eq_cons_iff.mp hcells
      change Pointers.removeRows memory (turns + 1) (some current) table = _
      rw [Pointers.removeRows, howns.load]
      rw [List.append_cons] at howns
      exact ih howns hmore (Nat.le_of_succ_le_succ hturns) (removeWdDirectory table wd)

/-- The list holds the watch descriptors that are removed, and the table is the one without
their rows. -/
theorem outcome_pruneWdDirectory (howns : Owns memory lists) {table pruned : Table} {wd : Wd}
    {wds : List Wd} (hprune : pruneWdDirectory table wd = some (wds, pruned)) :
    Outcome (fun result ↦ ∃ list, Owns result.1 (list :: lists) ∧
      list.map Prod.snd = wds.map Block.wdListNode ∧ result.2.1 = headOf list ∧
      result.2.2 = pruned)
      (Pointers.pruneWdDirectory allocator memory table wd) := by
  obtain ⟨walked, hwalk, hresult⟩ := Option.map_eq_some_iff.mp hprune
  obtain ⟨rfl, rfl⟩ := Prod.mk.inj hresult
  unfold Pointers.pruneWdDirectory
  cases hallocate : memory.allocate allocator (.wdListNode 0) with
  | mk headP allocated =>
    cases headP with
    | none => exact .outOfMemory
    | some address =>
      have hallocated : Owns allocated (([] ++ [(address, .wdListNode 0)]) :: lists) :=
        howns.allocate hallocate
      obtain ⟨filled, hset, hfilled⟩ := hallocated.setValue (.wdListNode wd)
      refine outcome_access hset ?_
      refine (outcome_collect hfilled rfl List.mem_cons_self hwalk).bind fun final hfinal ↦ ?_
      obtain ⟨later, hfinal, hvalues⟩ := hfinal
      rw [List.append_assoc] at hfinal
      have hremove := removeRows_eq hfinal hvalues (length_le_calls hfinal) table
      change Pointers.removeRows final final.calls (some address) table = _ at hremove
      rw [hremove]
      exact .returns ⟨_, hfinal, hvalues, rfl, rfl⟩

/-! ### The release -/

/-- Each node of the list is freed once, and the other lists stay. -/
theorem exists_release {turns : ℕ} (howns : Owns memory (list :: lists))
    (hturns : list.length ≤ turns) :
    ∃ freed, Pointers.releaseFrom turns memory (headOf list) = .ok freed ∧ Owns freed lists := by
  induction turns generalizing memory list with
  | zero =>
    obtain rfl := List.length_eq_zero_iff.mp (Nat.le_zero.mp hturns)
    exact ⟨memory, rfl, owns_cons_nil.mp howns⟩
  | succ turns ih =>
    cases list with
    | nil => exact ⟨memory, rfl, owns_cons_nil.mp howns⟩
    | cons block rest =>
      obtain ⟨address, value⟩ := block
      obtain ⟨freed, hfree, hfreed⟩ := howns.free
      have hload : memory.load (some address) = some ⟨value, headOf rest⟩ :=
        (howns.linked _ List.mem_cons_self).1
      obtain ⟨released, hrelease, howns⟩ := ih hfreed (Nat.le_of_succ_le_succ hturns)
      refine ⟨released, ?_, howns⟩
      change Pointers.releaseFrom (turns + 1) memory (some address) = _
      rw [Pointers.releaseFrom, hload, hfree]
      exact hrelease

end DirWatcher.Watching
