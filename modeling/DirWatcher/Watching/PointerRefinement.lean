import DirWatcher.Environment.ListPointers
import DirWatcher.Watching.Control
import DirWatcher.Watching.ListMemory
import DirWatcher.Watching.Mapped
import DirWatcher.Watching.Prunes

/-!
The watcher with its lists in memory takes the steps of the one that carries them. Each list
is read before it is released, and is released before the watcher asks for the next event.
-/

set_option autoImplicit false
set_option relaxedAutoImplicit false

namespace DirWatcher.Watching

open Source Environment Foundation Foundation.Runs Foundation.LinkedLists

/-! ### The watcher without its lists -/

def barePlace : Place → Place
  | .subDirs wd path _ => .subDirs wd path []
  | .removePrunedWds _ row => .removePrunedWds [] row
  | place => place

def bareFrame : Frame → Frame
  | .subDirs wd path _ => .subDirs wd path []
  | frame => frame

def bareFrames : Watcher → Watcher := mapped bareFrame id

def bare (w : Watcher) : Watcher := { bareFrames w with place := barePlace w.place }

variable {cfg : Config} {w next : Watcher}

@[simp] theorem bareFrames_place (w : Watcher) : (bareFrames w).place = w.place := rfl

theorem keepsCalls_bareFrame : KeepsCalls bareFrame := by
  intro frame hframe
  cases frame with
  | subDirs wd path names => exact absurd rfl (hframe wd path names)
  | _ => rfl

/-- Outside of the loops over the lists, the frames are carried along. -/
theorem internal_bareFrames (hreturned : ∀ result, w.place ≠ .returned result)
    (hsubDirs : ∀ wd path names, w.place ≠ .subDirs wd path names) :
    (bareFrames w).internal cfg = (w.internal cfg).map bareFrames :=
  internal_mapped keepsCalls_bareFrame (Or.inr hreturned) (Or.inr hsubDirs) (Or.inl rfl)

/-! ### The lists that are open -/

/-- A list with its head and a node from which on it holds the values. -/
def HoldsFrom (values : List Block) (list : List (ℕ × Block)) (headP nodeP : Pointer) : Prop :=
  ∃ done rest, list = done ++ rest ∧ headP = headOf list ∧ nodeP = headOf rest ∧
    rest.map Prod.snd = values

/-- The lists of the calls of `add_watch` on the stack. Each is at the name that the call in
it is for. -/
inductive LoopsAt : List Frame → List (Pointer × Pointer) → List (List (ℕ × Block)) → Prop
  | nil : LoopsAt [] [] []
  | loop {wd : Wd} {path name : Bytes} {names : List Bytes} {stack : List Frame}
      {headP nodeP : Pointer} {pointers : List (Pointer × Pointer)} {list : List (ℕ × Block)}
      {lists : List (List (ℕ × Block))}
      (hlist : HoldsFrom ((name :: names).map .subDirNode) list headP nodeP)
      (hloops : LoopsAt stack pointers lists) :
      LoopsAt (.subDirs wd path names :: stack) ((headP, nodeP) :: pointers) (list :: lists)
  | call {frame : Frame} {stack : List Frame} {pointers : List (Pointer × Pointer)}
      {lists : List (List (ℕ × Block))} (hframe : ∀ wd path names, frame ≠ .subDirs wd path names)
      (hloops : LoopsAt stack pointers lists) : LoopsAt (frame :: stack) pointers lists

/-- A loop over a list is at work. -/
def hasList : Place → Bool
  | .subDirs _ _ _ => true
  | .removePrunedWds _ _ => true
  | _ => false

/-- The lists at a place in the code. -/
inductive ListsAt : Place → List Frame → ListVars → List (List (ℕ × Block)) → Prop
  | listing {wd : Wd} {path : Bytes} {names : List Bytes} {stack : List Frame} {vars : ListVars}
      {headP nodeP : Pointer} {pointers : List (Pointer × Pointer)} {list : List (ℕ × Block)}
      {lists : List (List (ℕ × Block))} (hvars : vars.subDirs = (headP, nodeP) :: pointers)
      (hlist : HoldsFrom (names.map .subDirNode) list headP nodeP)
      (hloops : LoopsAt stack pointers lists) :
      ListsAt (.subDirs wd path names) stack vars (list :: lists)
  | pruning {wds : List Wd} {row : Option Row} {stack : List Frame} {vars : ListVars}
      {list : List (ℕ × Block)} {lists : List (List (ℕ × Block))}
      (hlist : HoldsFrom (wds.map .wdListNode) list vars.wdListP vars.nodeP)
      (hloops : LoopsAt stack vars.subDirs lists) :
      ListsAt (.removePrunedWds wds row) stack vars (list :: lists)
  | elsewhere {place : Place} {stack : List Frame} {vars : ListVars}
      {lists : List (List (ℕ × Block))} (hplace : hasList place = false)
      (hloops : LoopsAt stack vars.subDirs lists) : ListsAt place stack vars lists

variable {κ α : Type} {k : Kernel κ α} {allocator : Allocator Block}

/-- The lists of the watcher are in memory, and nothing else is. -/
structure InMemory (model : System κ) (s : PointerSystem κ) : Prop where
  system : s.system = ⟨bare model.watcher, model.kernel⟩
  valid : s.fault = false
  lists : (∃ stop, model.watcher.place = .stopped stop) ∨ ∃ lists, Owns s.vars.memory lists ∧
    ListsAt model.watcher.place model.watcher.stack s.vars lists

/-- A call of `calloc` has ended the process. -/
structure OutOfMemory (s : PointerSystem κ) : Prop where
  exited : s.system.watcher.place = .stopped (.exited (-1))
  valid : s.fault = false

def Keeps (model : System κ) (s : PointerSystem κ) : Prop := InMemory model s ∨ OutOfMemory s

theorem inMemory_start (cfg : Config) (kernel : κ) :
    InMemory (System.start cfg kernel) (PointerSystem.start cfg kernel) :=
  ⟨rfl, rfl, Or.inr ⟨[], owns_empty, .elsewhere rfl .nil⟩⟩

/-! ### The lists are made -/

variable {model : System κ} {s : PointerSystem κ} {vars : ListVars}
  {pointers : List (Pointer × Pointer)} {lists : List (List (ℕ × Block))}

theorem keeps_after {β : Type} {good : β → Prop} {result : Except Halt β}
    {rest : β → PointerSystem κ} (hvalid : s.fault = false) (hresult : Outcome good result)
    (hrest : ∀ value, good value → InMemory model (rest value)) :
    Keeps model (s.after result rest) := by
  cases hresult with
  | returns hgood => exact Or.inl (hrest _ hgood)
  | outOfMemory => exact Or.inr ⟨rfl, hvalid⟩

theorem bare_eq {w : Watcher} (hplace : barePlace w.place = w.place) : bare w = bareFrames w := by
  rw [bare, hplace]
  rfl

theorem barePlace_eq {place : Place} (hplace : hasList place = false) :
    barePlace place = place := by
  cases place with
  | subDirs | removePrunedWds => cases hplace
  | _ => rfl

theorem inMemory_elsewhere (hplace : hasList model.watcher.place = false)
    (howns : Owns vars.memory lists) (hloops : LoopsAt model.watcher.stack vars.subDirs lists) :
    InMemory model ⟨⟨bareFrames model.watcher, model.kernel⟩, vars, false⟩ :=
  ⟨by rw [bare_eq (barePlace_eq hplace)], rfl, Or.inr ⟨lists, howns, .elsewhere hplace hloops⟩⟩

/-- What a step of the watcher leaves to the functions that make its lists. -/
structure Makes (table : Table) (w : Watcher) : Prop where
  prune : ∀ wds row, w.place = .removePrunedWds wds row →
    ∃ wd, pruneWdDirectory table wd = some (wds, w.table)
  listing : ∀ wd path names, w.place = .subDirs wd path names →
    ∀ name ∈ names, name.length ≤ dirNameSize

theorem keeps_makeLists {table : Table} (hmakes : Makes table model.watcher)
    (howns : Owns vars.memory lists) (hloops : LoopsAt model.watcher.stack vars.subDirs lists) :
    Keeps model (PointerSystem.makeLists allocator table
      ⟨⟨bareFrames model.watcher, model.kernel⟩, vars, false⟩) := by
  obtain ⟨w, kernel⟩ := model
  unfold PointerSystem.makeLists
  dsimp only [bareFrames_place] at *
  cases hplace : w.place with
  | removePrunedWds wds row =>
    obtain ⟨wd, hprune⟩ := hmakes.prune wds row hplace
    obtain ⟨walked, hwalk, hresult⟩ := Option.map_eq_some_iff.mp hprune
    obtain ⟨rfl, -⟩ := Prod.mk.inj hresult
    rw [ParentLinks.traverse_eq_append_flatMap hwalk]
    refine keeps_after rfl (outcome_pruneWdDirectory howns hprune) ?_
    rintro ⟨memory, headP, pruned⟩ ⟨list, howns, hvalues, rfl, rfl⟩
    refine ⟨?_, rfl, Or.inr ⟨list :: lists, howns, ?_⟩⟩
    · simp [PointerSystem.atPlace, bare, bareFrames, mapped, barePlace, hplace]
    · dsimp only
      rw [hplace]
      exact .pruning ⟨[], list, rfl, rfl, rfl, hvalues⟩ hloops
  | subDirs wd path names =>
    have hcopied : names.map (fun name ↦ Block.subDirNode (strncpy name dirNameSize)) =
        names.map .subDirNode := List.map_congr_left fun name hname ↦ by
      rw [strncpy, List.take_of_length_le (hmakes.listing wd path names hplace name hname)]
    refine keeps_after rfl (outcome_buildList howns _ _) ?_
    rintro ⟨memory, headP⟩ ⟨list, howns, hvalues, rfl⟩
    refine ⟨?_, rfl, Or.inr ⟨list :: lists, howns, ?_⟩⟩
    · simp [PointerSystem.atPlace, bare, bareFrames, mapped, barePlace, hplace]
    · dsimp only
      rw [hplace]
      exact .listing rfl ⟨[], list, rfl, rfl, rfl, hvalues.trans hcopied⟩ hloops
  | _ =>
    exact Or.inl (inMemory_elsewhere (hplace ▸ rfl) howns hloops)

/-! ### What the steps leave -/

theorem makes_elsewhere {table : Table} {w : Watcher} (hplace : hasList w.place = false) :
    Makes table w :=
  ⟨fun _ _ hother ↦ by simp [hother, hasList] at hplace,
    fun _ _ _ hother ↦ by simp [hother, hasList] at hplace⟩

theorem makes_of_prune {wd : Wd} {row : Option Row} (hstep : PruneStep w wd row next) :
    Makes w.table next := by
  cases hstep with
  | loops => exact makes_elsewhere rfl
  | removes hprune =>
    refine ⟨fun wds row hplace ↦ ⟨wd, ?_⟩, by simp⟩
    obtain ⟨rfl, -⟩ := Place.removePrunedWds.inj hplace
    exact hprune

theorem makes_of_insert {table : Table} {row : Row} (hstep : InsertStep w row next) :
    Makes table next := by
  cases hstep <;> exact makes_elsewhere rfl

theorem makes_of_internal (hstep : InternalStep cfg w next)
    (hreturned : ∀ result, w.place ≠ .returned result) : Makes w.table next := by
  cases hstep with
  | takesEvent _ _ hdispatch =>
    cases hdispatch with
    | prunes _ _ _ _ _ hprune => simpa using makes_of_prune hprune
    | _ => exact makes_elsewhere rfl
  | insertsPruned _ hinsert => exact makes_of_insert hinsert
  | returns hplace => exact absurd hplace (hreturned _)
  | reports =>
    rw [report_eq]
    exact makes_elsewhere rfl
  | _ => exact makes_elsewhere rfl

/-- The names fit into `d_name`. -/
def ListedFit : Label α → Prop
  | .answer (.names names) => ∀ name ∈ names, name.length ≤ dirNameSize
  | _ => True

instance : DecidablePred (ListedFit (α := α))
  | .answer (.names names) =>
    List.decidableBAll (fun name : Bytes ↦ name.length ≤ dirNameSize) names
  | .act _ | .internal | .answer .done | .answer (.watch _) | .answer (.events _)
  | .answer (.error _) => .isTrue trivial

theorem makes_of_resume {answer : Answer} (hstep : ResumeStep w answer next)
    (hplace : ∀ wds row, w.place ≠ .removePrunedWds wds row)
    (hfits : ListedFit (.answer answer : Label α)) : Makes w.table next := by
  cases hstep with
  | reuses _ _ hprune => exact makes_of_prune hprune
  | adds _ _ hinsert => exact makes_of_insert hinsert
  | removes _ hother => exact absurd hother (hplace _ _)
  | opensNothing | lists =>
    refine ⟨by simp, fun _ _ names hnext ↦ ?_⟩
    obtain ⟨-, -, rfl⟩ := Place.subDirs.inj hnext
    first | exact hfits | simp
  | _ => exact makes_elsewhere rfl

theorem loopsAt_of_internal (hstep : InternalStep cfg w next)
    (hreturned : ∀ result, w.place ≠ .returned result)
    (hsubDirs : ∀ wd path names, w.place ≠ .subDirs wd path names)
    (hloops : LoopsAt w.stack pointers lists) : LoopsAt next.stack pointers lists := by
  cases hstep with
  | readsLine => exact .call (by simp) hloops
  | @takesEvent event rest _ _ _ hdispatch =>
    have htaken : LoopsAt ({ w with batch := rest }.findParent event).stack pointers lists := by
      simpa using hloops
    cases hdispatch with
    | watches _ frame hframe =>
      refine .call ?_ htaken
      rcases hframe with ⟨-, rfl⟩ | ⟨-, rfl⟩ <;> simp
    | prunes _ _ _ _ _ hprune => cases hprune <;> exact htaken
    | _ => exact htaken
  | insertsPruned _ hinsert => cases hinsert <;> exact hloops
  | descends hplace => exact absurd hplace (hsubDirs _ _ _)
  | returns hplace => exact absurd hplace (hreturned _)
  | reports =>
    rw [report_eq]
    exact hloops
  | _ => exact hloops

/-! ### The loops over the lists -/

theorem watchSubDir_bare (w : Watcher) (wd : Wd) (path name : Bytes) (names : List Bytes) :
    (bare w).watchSubDir wd path [name] = bare (w.watchSubDir wd path (name :: names)) := by
  unfold Watcher.watchSubDir
  dsimp only
  split_ifs <;> rfl

/-- A turn of the loop over the sub-directories. -/
theorem keeps_subDirs {wd : Wd} {path : Bytes} {names : List Bytes}
    (hplace : model.watcher.place = .subDirs wd path names) (howns : Owns vars.memory lists)
    (hlists : ListsAt (.subDirs wd path names) model.watcher.stack vars lists) :
    Option.Rel Keeps (model.step cfg k .internal)
      (PointerSystem.internal cfg allocator ⟨⟨bare model.watcher, model.kernel⟩, vars, false⟩) := by
  obtain ⟨w, kernel⟩ := model
  obtain ⟨memory, wdListP, nodeP, subDirs⟩ := vars
  dsimp only at hplace
  cases hlists with
  | elsewhere hother => cases hother
  | @listing _ _ _ _ _ headP node pointers list lists hvars hlist hloops =>
  obtain rfl : subDirs = (headP, node) :: pointers := hvars
  obtain ⟨done, rest, rfl, rfl, rfl, hvalues⟩ := hlist
  have hmodel : System.step cfg k ⟨w, kernel⟩ .internal =
      some ⟨w.watchSubDir wd path names, kernel⟩ := by
    simp [System.step, Watcher.internal, hplace]
  have hpointers : PointerSystem.internal cfg allocator ⟨⟨bare w, kernel⟩,
      ⟨memory, wdListP, nodeP, (headOf (done ++ rest), headOf rest) :: pointers⟩, false⟩ =
      PointerSystem.subDirTurn ⟨⟨bare w, kernel⟩,
        ⟨memory, wdListP, nodeP, (headOf (done ++ rest), headOf rest) :: pointers⟩, false⟩
        wd path := by
    simp [PointerSystem.internal, bare, barePlace, hplace]
  rw [hmodel, hpointers]
  cases names with
  | nil =>
    obtain rfl := List.map_eq_nil_iff.mp hvalues
    obtain ⟨freed, hrelease, hfreed⟩ := exists_release howns (length_le_calls howns)
    refine .some ?_
    dsimp only [headOf, List.head?, Option.map] at hrelease ⊢
    unfold Pointers.releaseSubDirList
    rw [hrelease]
    exact Or.inl ⟨rfl, rfl, Or.inr ⟨lists, hfreed, .elsewhere rfl hloops⟩⟩
  | cons name names =>
    obtain ⟨⟨node, _⟩, more, rfl, rfl, hmore⟩ := List.map_eq_cons_iff.mp hvalues
    refine .some ?_
    dsimp only [headOf, List.head?, Option.map]
    rw [howns.load]
    refine Or.inl ⟨?_, rfl, ?_⟩
    · exact congrArg (System.mk · kernel) (watchSubDir_bare w wd path name names)
    · change (∃ stop, (w.watchSubDir wd path (name :: names)).place = _) ∨
        ∃ lists, _ ∧ ListsAt (w.watchSubDir wd path (name :: names)).place
          (w.watchSubDir wd path (name :: names)).stack _ lists
      unfold Watcher.watchSubDir
      dsimp only
      split_ifs
      · exact Or.inl ⟨_, rfl⟩
      · have hlist : HoldsFrom ((name :: names).map .subDirNode)
            (done ++ (node, .subDirNode name) :: more)
            (headOf (done ++ (node, .subDirNode name) :: more)) (some node) :=
          ⟨done, _, rfl, rfl, rfl, congrArg _ hmore⟩
        exact Or.inr ⟨_, howns, .elsewhere rfl (.loop hlist hloops)⟩

/-- The end of `remove_pruned_wds`. -/
theorem keeps_removed {wds : List Wd} {row : Option Row}
    (hplace : model.watcher.place = .removePrunedWds wds row) (howns : Owns vars.memory lists)
    (hlists : ListsAt (.removePrunedWds wds row) model.watcher.stack vars lists) :
    Option.Rel Keeps (model.step cfg k .internal)
      (PointerSystem.internal cfg allocator ⟨⟨bare model.watcher, model.kernel⟩, vars, false⟩) := by
  obtain ⟨w, kernel⟩ := model
  obtain ⟨memory, wdListP, nodeP, subDirs⟩ := vars
  dsimp only at hplace
  cases hlists with
  | elsewhere hother => cases hother
  | pruning hlist hloops =>
  obtain ⟨done, rest, rfl, rfl, rfl, hvalues⟩ := hlist
  cases wds with
  | nil =>
    obtain rfl := List.map_eq_nil_iff.mp hvalues
    obtain ⟨freed, hrelease, hfreed⟩ := exists_release howns (length_le_calls howns)
    have hpointers : PointerSystem.internal cfg allocator ⟨⟨bare w, kernel⟩,
        ⟨memory, headOf (done ++ []), none, subDirs⟩, false⟩ =
        (w.internal cfg).map fun next ↦
          ⟨⟨bareFrames next, kernel⟩, ⟨freed, headOf (done ++ []), none, subDirs⟩, false⟩ := by
      have hbare : bare w = bareFrames w := bare_eq (by rw [hplace]; rfl)
      simp only [PointerSystem.internal, hbare, bareFrames_place, hplace]
      rw [internal_bareFrames (by simp [hplace]) (by simp [hplace]), Option.map_map]
      unfold Pointers.releaseWdList
      rw [hrelease]
      rfl
    change Option.Rel Keeps _ (PointerSystem.internal cfg allocator ⟨⟨bare w, kernel⟩,
        ⟨memory, headOf (done ++ []), none, subDirs⟩, false⟩)
    rw [hpointers]
    refine rel_map fun next hinternal ↦ Or.inl ?_
    cases row with
    | none =>
      obtain rfl : { w with place := .report } = next := by
        simpa [Watcher.internal, hplace] using hinternal
      exact inMemory_elsewhere rfl hfreed hloops
    | some row =>
      have hnext : w.insertRow row = next := by simpa [Watcher.internal, hplace] using hinternal
      have hinsert : InsertStep w row next := hnext ▸ insertStep w row
      cases hinsert with
      | clashes => exact inMemory_elsewhere rfl hfreed hloops
      | inserts => exact inMemory_elsewhere rfl hfreed hloops
  | cons wd wds =>
    obtain ⟨⟨node, _⟩, more, rfl, rfl, hmore⟩ := List.map_eq_cons_iff.mp hvalues
    have hmodel : System.step cfg k ⟨w, kernel⟩ .internal = none := by
      simp [System.step, Watcher.internal, hplace]
    have hpointers : PointerSystem.internal cfg allocator ⟨⟨bare w, kernel⟩,
        ⟨memory, headOf (done ++ (node, .wdListNode wd) :: more), some node, subDirs⟩,
        false⟩ = none := by
      simp [PointerSystem.internal, bare, barePlace, hplace]
    rw [hmodel]
    exact hpointers ▸ .none

theorem internal_elsewhere (hplace : ∀ result, s.system.watcher.place ≠ .returned result)
    (hsubDirs : ∀ wd path names, s.system.watcher.place ≠ .subDirs wd path names)
    (hprune : ∀ wds row, s.system.watcher.place ≠ .removePrunedWds wds row) :
    s.internal cfg allocator = (s.system.watcher.internal cfg).map fun watcher ↦
      { s with system.watcher := watcher }.makeLists allocator s.system.watcher.table := by
  unfold PointerSystem.internal
  split
  case h_1 hother => exact absurd hother (hsubDirs _ _ _)
  case h_2 hother => exact absurd hother (hprune _ _)
  case h_3 hother => exact absurd hother (hplace _)
  case h_4 => rfl

theorem keeps_elsewhere (hreturned : ∀ result, model.watcher.place ≠ .returned result)
    (hsubDirs : ∀ wd path names, model.watcher.place ≠ .subDirs wd path names)
    (hprune : ∀ wds row, model.watcher.place ≠ .removePrunedWds wds row)
    (howns : Owns vars.memory lists) (hloops : LoopsAt model.watcher.stack vars.subDirs lists) :
    Option.Rel Keeps (model.step cfg k .internal)
      (PointerSystem.internal cfg allocator
        ⟨⟨bareFrames model.watcher, model.kernel⟩, vars, false⟩) := by
  rw [internal_elsewhere hreturned hsubDirs hprune, internal_bareFrames hreturned hsubDirs,
    Option.map_map]
  refine rel_map fun next hinternal ↦ ?_
  have hstep := internalStep hinternal
  have hmakes : Makes model.watcher.table next := makes_of_internal hstep hreturned
  exact keeps_makeLists hmakes howns (loopsAt_of_internal hstep hreturned hsubDirs hloops)

/-- The return of a call of `add_watch`, in the loop of another one to its next node. -/
theorem keeps_returned {result : ℤ} (hplace : model.watcher.place = .returned result)
    (howns : Owns vars.memory lists) (hloops : LoopsAt model.watcher.stack vars.subDirs lists) :
    Option.Rel Keeps (model.step cfg k .internal)
      (PointerSystem.internal cfg allocator
        ⟨⟨bareFrames model.watcher, model.kernel⟩, vars, false⟩) := by
  obtain ⟨w, kernel⟩ := model
  obtain ⟨memory, wdListP, nodeP, subDirs⟩ := vars
  dsimp only at hplace hloops
  have hpointers : PointerSystem.internal cfg allocator ⟨⟨bareFrames w, kernel⟩,
      ⟨memory, wdListP, nodeP, subDirs⟩, false⟩ =
      ((bareFrames w).internal cfg).map fun next ↦ PointerSystem.nextSubDir
        ⟨⟨next, kernel⟩, ⟨memory, wdListP, nodeP, subDirs⟩, false⟩ := by
    simp only [PointerSystem.internal, bareFrames_place, hplace]
  rw [hpointers]
  cases hstack : w.stack with
  | nil =>
    have hmodel : System.step cfg k ⟨w, kernel⟩ .internal = none := by
      simp [System.step, Watcher.internal, hplace, hstack]
    have hnone : (bareFrames w).internal cfg = none := by
      simp [Watcher.internal, hplace, hstack, bareFrames, mapped]
    rw [hmodel, hnone]
    exact .none
  | cons frame stack =>
    have hmodel : System.step cfg k ⟨w, kernel⟩ .internal =
        some ⟨{ w with stack }.returnTo result frame, kernel⟩ := by
      simp [System.step, Watcher.internal, hplace, hstack]
    have hnext : (bareFrames w).internal cfg =
        some ((bareFrames { w with stack }).returnTo result (bareFrame frame)) := by
      simp [Watcher.internal, hplace, hstack, bareFrames, mapped]
    rw [hmodel, hnext, Option.map_some]
    rw [hstack] at hloops
    refine .some (Or.inl ?_)
    cases hloops with
    | loop hlist hloops =>
      obtain ⟨done, rest, rfl, rfl, rfl, hvalues⟩ := hlist
      obtain ⟨⟨node, _⟩, more, rfl, rfl, hmore⟩ := List.map_eq_cons_iff.mp hvalues
      change InMemory _ (PointerSystem.after _ (access (memory.load (some node))) _)
      rw [howns.load]
      refine ⟨rfl, rfl, Or.inr ⟨_, howns, .listing rfl ?_ hloops⟩⟩
      exact ⟨_, more, List.append_cons _ _ _, rfl, rfl, hmore⟩
    | call hframe hloops =>
      cases frame with
      | subDirs wd path names => exact absurd rfl (hframe _ _ _)
      | topLevel path => exact inMemory_elsewhere rfl howns hloops
      | created =>
        by_cases hresult : result = 0
        · subst hresult
          exact inMemory_elsewhere rfl howns hloops
        · have hbare : bareFrame .created = .created := rfl
          rw [hbare, Watcher.returnTo, Watcher.returnTo, if_pos hresult]
          exact inMemory_elsewhere rfl howns hloops
      | movedTo => exact inMemory_elsewhere rfl howns hloops

theorem internal_keeps (hin : InMemory model s) :
    Option.Rel Keeps (model.step cfg k .internal) (s.internal cfg allocator) := by
  obtain ⟨system, vars, fault⟩ := s
  obtain ⟨rfl, rfl, hlists⟩ := hin
  rcases hlists with ⟨stop, hplace⟩ | ⟨lists, howns, hlists⟩
  · have hmodel : model.step cfg k .internal = none := by
      simp [System.step, Watcher.internal, hplace]
    have hpointers : PointerSystem.internal cfg allocator
        ⟨⟨bare model.watcher, model.kernel⟩, vars, false⟩ = none := by
      simp [PointerSystem.internal, Watcher.internal, bare, barePlace, hplace]
    rw [hmodel, hpointers]
    exact .none
  · cases hplace : model.watcher.place with
    | subDirs wd path names => exact keeps_subDirs hplace howns (hplace ▸ hlists)
    | removePrunedWds wds row => exact keeps_removed hplace howns (hplace ▸ hlists)
    | returned result =>
      rw [bare_eq (by rw [hplace]; rfl)]
      rw [hplace] at hlists
      cases hlists with
      | elsewhere _ hloops => exact keeps_returned hplace howns hloops
    | _ =>
      rw [bare_eq (by rw [hplace]; rfl)]
      rw [hplace] at hlists
      cases hlists with
      | elsewhere _ hloops =>
        exact keeps_elsewhere (by simp [hplace]) (by simp [hplace]) (by simp [hplace]) howns hloops

/-! ### The answers -/

theorem answer_elsewhere {answer : Answer}
    (hprune : ∀ wds row, s.system.watcher.place ≠ .removePrunedWds wds row) :
    s.answer cfg k allocator answer =
      (s.system.step cfg k (.answer answer : Label α)).map fun system ↦
        { s with system }.makeLists allocator s.system.watcher.table := by
  unfold PointerSystem.answer
  split
  case h_1 hother => exact absurd hother (hprune _ _)
  case h_2 => rfl

theorem rel_of_no_call {w : Watcher} {kernel : κ} {answer : Answer}
    (hprune : ∀ wds row, (bare w).place ≠ .removePrunedWds wds row)
    (hcall : w.call = none) (hbare : (bare w).call = none) :
    Option.Rel Keeps (System.step cfg k ⟨w, kernel⟩ (.answer answer))
      (PointerSystem.answer cfg k allocator ⟨⟨bare w, kernel⟩, vars, false⟩ answer) := by
  rw [answer_elsewhere hprune]
  simp [System.step, hcall, hbare]

/-- The answer to `inotify_rm_watch` is taken with the first watch descriptor alone as it is
with all that are left. -/
theorem step_answer_removes {w : Watcher} {wd : Wd} {wds : List Wd} {row : Option Row}
    (hplace : w.place = .removePrunedWds (wd :: wds) row) (kernel : κ) (answer : Answer) :
    System.step cfg k ⟨{ bare w with place := .removePrunedWds [wd] row }, kernel⟩
        (.answer answer) =
      (System.step cfg k ⟨w, kernel⟩ (.answer answer)).map fun next ↦
        ⟨bare next.watcher, next.kernel⟩ := by
  have hresume : Watcher.resume { bare w with place := .removePrunedWds [wd] row } answer =
      (w.resume answer).map bare := by
    cases answer with
    | done => simp [Watcher.resume, hplace, bare, bareFrames, mapped, barePlace]
    | error errno =>
      by_cases herrno : errno = .einval <;>
        simp [Watcher.resume, hplace, herrno, Watcher.exit, bare, bareFrames, mapped, barePlace]
    | _ => simp [Watcher.resume, hplace]
  have hcall : w.call = some (.inotifyRmWatch wd) := by simp [Watcher.call, hplace]
  unfold System.step
  dsimp only [Watcher.call]
  rw [hresume]
  change _ = Option.map _ (w.call >>= _)
  rw [hcall]
  cases hserve : k.serve kernel (.inotifyRmWatch wd) answer with
  | none => simp [hserve]
  | some kernel => cases w.resume answer <;> simp [hserve]

/-- The answer to `inotify_rm_watch`, for the watch descriptor of a node. -/
theorem keeps_removes {wds : List Wd} {row : Option Row} (answer : Answer)
    (hplace : model.watcher.place = .removePrunedWds wds row) (howns : Owns vars.memory lists)
    (hlists : ListsAt (.removePrunedWds wds row) model.watcher.stack vars lists) :
    Option.Rel Keeps (model.step cfg k (.answer answer))
      (PointerSystem.answer cfg k allocator ⟨⟨bare model.watcher, model.kernel⟩, vars, false⟩
        answer) := by
  obtain ⟨w, kernel⟩ := model
  obtain ⟨memory, wdListP, nodeP, subDirs⟩ := vars
  dsimp only at hplace
  cases hlists with
  | elsewhere hother => cases hother
  | pruning hlist hloops =>
  obtain ⟨done, rest, rfl, rfl, rfl, hvalues⟩ := hlist
  cases wds with
  | nil =>
    obtain rfl := List.map_eq_nil_iff.mp hvalues
    have hmodel : System.step cfg k ⟨w, kernel⟩ (.answer answer) = none := by
      simp [System.step, Watcher.call, hplace]
    have hpointers : PointerSystem.answer cfg k allocator ⟨⟨bare w, kernel⟩,
        ⟨memory, headOf (done ++ []), none, subDirs⟩, false⟩ answer = none := by
      simp [PointerSystem.answer, bare, barePlace, hplace]
    rw [hmodel]
    exact hpointers ▸ .none
  | cons wd wds =>
    obtain ⟨⟨node, _⟩, more, rfl, rfl, hmore⟩ := List.map_eq_cons_iff.mp hvalues
    have hpointers : PointerSystem.answer cfg k allocator ⟨⟨bare w, kernel⟩,
        ⟨memory, headOf (done ++ (node, .wdListNode wd) :: more), some node, subDirs⟩,
        false⟩ answer =
        (System.step cfg k ⟨w, kernel⟩ (.answer answer)).map fun next ↦
          ⟨⟨bare next.watcher, next.kernel⟩,
            ⟨memory, headOf (done ++ (node, .wdListNode wd) :: more), headOf more, subDirs⟩,
            false⟩ := by
      have hbare : (bare w).place = .removePrunedWds [] row := by simp [bare, barePlace, hplace]
      simp only [PointerSystem.answer, hbare, howns.load]
      dsimp only [access, Pointers.wdOf, Except.map, bind, Except.bind]
      rw [step_answer_removes hplace, Option.map_map]
      rfl
    change Option.Rel Keeps _ (PointerSystem.answer cfg k allocator ⟨⟨bare w, kernel⟩,
        ⟨memory, headOf (done ++ (node, .wdListNode wd) :: more), some node, subDirs⟩,
        false⟩ answer)
    rw [hpointers]
    refine rel_map_right fun next hnext ↦ Or.inl ⟨rfl, rfl, ?_⟩
    obtain ⟨w', kernel'⟩ := next
    obtain ⟨_, -, -, hresume⟩ := System.step_answer hnext
    have hstep := resumeStep hresume
    cases hstep with
    | exits => exact Or.inl ⟨_, rfl⟩
    | removes _ hother =>
      obtain ⟨heq, rfl⟩ := Place.removePrunedWds.inj (hplace.symm.trans hother)
      obtain ⟨-, rfl⟩ := List.cons.inj heq
      exact Or.inr ⟨_, howns, .pruning ⟨_, more, List.append_cons _ _ _, rfl, rfl, hmore⟩ hloops⟩
    | reads _ hother | reuses hother | adds hother | missed _ hother | opens hother
    | opensNothing _ hother | lists _ hother => cases hplace.symm.trans hother

theorem answer_keeps {answer : Answer} (hfits : ListedFit (.answer answer : Label α))
    (hin : InMemory model s) :
    Option.Rel Keeps (model.step cfg k (.answer answer)) (s.answer cfg k allocator answer) := by
  obtain ⟨system, vars, fault⟩ := s
  obtain ⟨rfl, rfl, hlists⟩ := hin
  obtain ⟨w, kernel⟩ := model
  rcases hlists with ⟨stop, hplace⟩ | ⟨lists, howns, hlists⟩
  · dsimp only at hplace
    exact rel_of_no_call (by simp [bare, barePlace, hplace]) (by simp [Watcher.call, hplace])
      (by simp [Watcher.call, bare, barePlace, hplace])
  · dsimp only at hlists
    cases hplace : w.place with
    | removePrunedWds wds row => exact keeps_removes answer hplace howns (hplace ▸ hlists)
    | subDirs wd path names =>
      exact rel_of_no_call (by simp [bare, barePlace, hplace]) (by simp [Watcher.call, hplace])
        (by simp [Watcher.call, bare, barePlace, hplace])
    | _ =>
      rw [hplace] at hlists
      cases hlists with
      | elsewhere _ hloops =>
        have hprune : ∀ wds row, w.place ≠ .removePrunedWds wds row := by simp [hplace]
        rw [bare_eq (by rw [hplace]; rfl), answer_elsewhere hprune, bareFrames,
          step_answer_mapped (Or.inl rfl), Option.map_map]
        refine rel_map_right fun next hnext ↦ ?_
        obtain ⟨_, -, -, hresume⟩ := System.step_answer hnext
        have hstep := resumeStep hresume
        have hmakes : Makes w.table next.watcher := makes_of_resume hstep hprune hfits
        rw [← stack_of_resume hstep] at hloops
        exact keeps_makeLists hmakes howns hloops

theorem step_keeps {label : Label α} (hfits : ListedFit label) (hin : InMemory model s) :
    Option.Rel Keeps (model.step cfg k label) (s.step cfg k allocator label) := by
  unfold PointerSystem.step
  rw [if_neg (by simp [hin.valid])]
  cases label with
  | internal => exact internal_keeps hin
  | answer answer => exact answer_keeps hfits hin
  | act action =>
    obtain ⟨system, vars, fault⟩ := s
    obtain ⟨rfl, rfl, hlists⟩ := hin
    have hpointers : (System.step cfg k ⟨bare model.watcher, model.kernel⟩ (.act action)).map
          (fun system ↦ (⟨system, vars, false⟩ : PointerSystem κ)) =
        (k.act model.kernel action).map fun kernel ↦ ⟨⟨bare model.watcher, kernel⟩, vars, false⟩ :=
      Option.map_map _ _ _
    change Option.Rel Keeps _ (Option.map _ (System.step _ _ _ _))
    rw [hpointers]
    exact rel_map fun kernel _ ↦ Or.inl ⟨rfl, rfl, hlists⟩

theorem outOfMemory_stays {label : Label α} {after : PointerSystem κ} (hout : OutOfMemory s)
    (hstep : s.step cfg k allocator label = some after) : OutOfMemory after := by
  obtain ⟨⟨w, kernel⟩, vars, fault⟩ := s
  obtain ⟨hplace, rfl⟩ := hout
  dsimp only at hplace
  unfold PointerSystem.step at hstep
  rw [if_neg (by simp)] at hstep
  cases label with
  | internal => simp [PointerSystem.internal, Watcher.internal, hplace] at hstep
  | answer answer => simp [PointerSystem.answer, System.step, Watcher.call, hplace] at hstep
  | act action =>
    obtain ⟨system, hact, rfl⟩ := Option.map_eq_some_iff.mp hstep
    exact ⟨by rw [(System.step_act hact).2, hplace], rfl⟩

/-! ### The runs -/

theorem control_of_reachesWhen {condition : System κ → Label α → Prop} {kernel : κ}
    {after : System κ}
    (hruns : ReachesWhen (System.step cfg k) condition (System.start cfg kernel) after) :
    Control after.watcher := by
  refine hruns.invariant (fun state ↦ Control state.watcher) (control_start cfg)
    fun state label next hcontrol _ hstep ↦ ?_
  cases label with
  | act action => rwa [(System.step_act hstep).2]
  | internal => exact hcontrol.internal (internalStep (System.step_internal hstep).1)
  | answer answer =>
    obtain ⟨_, -, -, hresume⟩ := System.step_answer hstep
    exact hcontrol.resume (resumeStep hresume)

/-- Outside of `add_watch` and of `prune_wd_and_clean_up`. -/
def OutsideLists (place : Place) : Prop :=
  place ∈ [.loadTopLevelPaths, .poll, .nextEvent, .report]

instance : DecidablePred OutsideLists := fun place ↦
  inferInstanceAs (Decidable (place ∈ [.loadTopLevelPaths, .poll, .nextEvent, .report]))

theorem LoopsAt.eq_nil (hloops : LoopsAt [] pointers lists) : lists = [] := by
  cases hloops
  rfl

/-- The lists have all been released. -/
theorem InMemory.heap_eq_none (hin : InMemory model s) (hcontrol : Control model.watcher)
    (hrest : OutsideLists s.system.watcher.place) (address : ℕ) :
    s.vars.memory.heap address = none := by
  have hbare : s.system.watcher.place = barePlace model.watcher.place := by rw [hin.system]; rfl
  have hfits := hcontrol.fits
  have hlists := hin.lists
  rw [hbare] at hrest
  cases hplace : model.watcher.place with
  | loadTopLevelPaths | poll | nextEvent | report =>
    rw [hplace] at hfits hlists
    obtain ⟨lists, howns, hat⟩ := hlists.resolve_left (by simp)
    have hstack : model.watcher.stack = [] := hfits
    rw [hstack] at hat
    cases hat with
    | elsewhere _ hloops => exact (hloops.eq_nil ▸ howns).heap_eq_none address
  | _ => simp [hplace, barePlace, OutsideLists] at hrest

/-- The watcher with its lists in memory does just what the one that carries them does, unless
a call of `calloc` fails, whatever the allocator and the kernel answer. No access to memory is
without a meaning: no list is read after its release, and none is released twice. And outside
of `add_watch` and `prune_wd_and_clean_up` no list is left in memory, however many directories
have been scanned and pruned. -/
theorem lists_released (cfg : Config) (k : Kernel κ α) (allocator : Allocator Block)
    (kernel : κ) :
    (∀ s, ReachesWhen (PointerSystem.step cfg k allocator) (fun _ label ↦ ListedFit label)
        (PointerSystem.start cfg kernel) s →
      s.fault = false ∧
        (OutOfMemory s ∨ ∃ model, ReachesWhen (System.step cfg k) (fun _ label ↦ ListedFit label)
          (System.start cfg kernel) model ∧ InMemory model s) ∧
        (OutsideLists s.system.watcher.place → ∀ address, s.vars.memory.heap address = none)) ∧
      ∀ model, ReachesWhen (System.step cfg k) (fun _ label ↦ ListedFit label)
          (System.start cfg kernel) model →
        ∃ s, ReachesWhen (PointerSystem.step cfg k allocator) (fun _ label ↦ ListedFit label)
            (PointerSystem.start cfg kernel) s ∧ (InMemory model s ∨ OutOfMemory s) := by
  have hsteps : ∀ (model : System κ) (s : PointerSystem κ) (label : Label α), InMemory model s →
      ListedFit label →
      Option.Rel Keeps (model.step cfg k label) (s.step cfg k allocator label) :=
    fun _ _ _ hin hfits ↦ step_keeps hfits hin
  refine ⟨fun s hruns ↦ ?_, fun model hruns ↦
    hruns.exists_rel_of hsteps (inMemory_start cfg kernel)⟩
  rcases hruns.exists_rel hsteps (fun _ _ _ ↦ outOfMemory_stays) (inMemory_start cfg kernel) with
    ⟨model, hreaches, hin⟩ | hout
  · exact ⟨hin.valid, Or.inr ⟨model, hreaches, hin⟩,
      hin.heap_eq_none (control_of_reachesWhen hreaches)⟩
  · exact ⟨hout.valid, Or.inl hout, fun hrest ↦ by simp [hout.exited, OutsideLists] at hrest⟩

/-- The nodes are placed one after the other. -/
def oneByOne : Allocator Block where
  pick call heap := if (heap call).isNone then some call else none
  fresh {call heap address} hpick := by
    split at hpick
    · next hnone =>
      cases hpick
      simpa using hnone
    · cases hpick

/-- `/d` is scanned with `a`, `a/c` and `b` in it, and `a` is then moved away. -/
theorem lists_released_moved :
    ∃ s : PointerSystem Unit, ReachesWhen
      (PointerSystem.step ⟨[literal "/d"], [], by decide⟩ anyAnswer oneByOne)
      (fun _ label ↦ ListedFit label) (.start ⟨[literal "/d"], [], by decide⟩ ()) s ∧
      s.system.watcher.place = .report ∧ s.vars.memory.calls = 5 ∧ s.fault = false ∧
      ∀ address, s.vars.memory.heap address = none := by
  have hrun : (runChecked (PointerSystem.step ⟨[literal "/d"], [], by decide⟩ anyAnswer oneByOne)
      (fun _ label ↦ decide (ListedFit label)) (.start ⟨[literal "/d"], [], by decide⟩ ())
      [.internal, .internal, .answer (.watch 1), .answer .done,
        .answer (.names [literal "a", literal "b"]), .internal, .internal, .answer (.watch 2),
        .answer .done, .answer (.names [literal "c"]), .internal, .internal, .answer (.watch 3),
        .answer .done, .answer (.names []), .internal, .internal, .internal, .internal,
        .internal, .internal, .answer (.watch 4), .answer .done, .answer (.names []), .internal,
        .internal, .internal, .internal, .internal,
        .answer (.events [⟨1, inMovedFrom ||| inIsdir, 5, literal "a"⟩]), .internal,
        .answer .done, .answer .done, .internal]).map
      (fun s ↦ (s.system.watcher.place, s.vars.memory.calls)) = some (.report, 5) := by decide
  obtain ⟨s, hreaches, hseen⟩ := exists_reachesWhen_of_run hrun
  obtain ⟨hplace, hcalls⟩ := Prod.mk.inj hseen
  obtain ⟨hvalid, -, hreleased⟩ := (lists_released _ _ _ _).1 s hreaches
  exact ⟨s, hreaches, hplace, hcalls, hvalid, hreleased (by rw [hplace]; decide)⟩

end DirWatcher.Watching
