import DirWatcher.Watching.Pairing
import DirWatcher.Watching.Subtrees

/-!
Runs that keep the table rooted. The conditions on the steps are that a row is
inserted where it fits, that an `IN_IGNORED` is processed only when no row names its
watch descriptor as the parent, and that the path joined for a new directory is not
cut off. Then the calls of `add_watch` on the stack follow the parent links of the
table, and the memoised path is the recorded one.
-/

set_option autoImplicit false
set_option relaxedAutoImplicit false

namespace DirWatcher.Watching

open Source Environment Foundation.ParentLinks Foundation.SeparatedPaths Foundation.Runs

/-! ### The conditions -/

section Conditions

variable {α : Type}

/-- The row that a step inserts. -/
def insertedRow (w : Watcher) : Label α → Option Row
  | .answer (.watch wd) =>
    match w.place with
    | .inotifyAddWatch parentWd path =>
      if wdDirectoryExists w.table wd then none else some ⟨wd, parentWd, path⟩
    | _ => none
  | .internal =>
    match w.place with
    | .removePrunedWds [] row => row
    | _ => none
  | _ => none

/-- The event that a step takes from the batch. -/
def takenEvent (w : Watcher) : Label α → Option Event
  | .internal =>
    match w.place with
    | .nextEvent => w.batch.head?
    | _ => none
  | _ => none

theorem batch_of_takenEvent {w : Watcher} {event : Event}
    (htaken : takenEvent w (.internal : Label α) = some event) :
    ∃ rest, w.place = .nextEvent ∧ w.batch = event :: rest := by
  have hplace : w.place = .nextEvent := by
    by_contra hother
    unfold takenEvent at htaken
    split at htaken <;> simp_all
  simp only [takenEvent, hplace] at htaken
  exact ⟨_, hplace, List.eq_cons_of_mem_head? htaken⟩

/-- What the table must be like for an event, once its directory has been looked up. -/
structure EventFits (w : Watcher) (event : Event) : Prop where
  leaf : event.branch = .ignored → ∀ row ∈ w.table, row.parentWd ≠ event.wd
  whole : Arrival event → (eventPath w event).length ≤ maxPathLen

instance (w : Watcher) (event : Event) : Decidable (EventFits w event) :=
  decidable_of_iff ((event.branch = .ignored → ∀ row ∈ w.table, row.parentWd ≠ event.wd) ∧
      (Arrival event → (eventPath w event).length ≤ maxPathLen))
    ⟨fun ⟨hleaf, hwhole⟩ ↦ ⟨hleaf, hwhole⟩, fun ⟨hleaf, hwhole⟩ ↦ ⟨hleaf, hwhole⟩⟩

structure Orderly (w : Watcher) (label : Label α) : Prop where
  inserts : ∀ row ∈ insertedRow w label, RowFits w.table row
  events : ∀ event ∈ takenEvent w label, EventFits (w.findParent event) event

instance (w : Watcher) (label : Label α) : Decidable (Orderly w label) :=
  decidable_of_iff ((∀ row ∈ insertedRow w label, RowFits w.table row) ∧
      ∀ event ∈ takenEvent w label, EventFits (w.findParent event) event)
    ⟨fun ⟨hinserts, hevents⟩ ↦ ⟨hinserts, hevents⟩, fun ⟨hinserts, hevents⟩ ↦ ⟨hinserts, hevents⟩⟩

end Conditions

/-! ### Arrivals -/

section Arrivals

variable {w after : Watcher} {event : Event}

/-- The buffer of `watch_new_directory` holds the whole path. -/
theorem take_eventPath (hwhole : (eventPath w event).length ≤ maxPathLen)
    (hlength : (eventPath w event).length ≠ maxPathLen) :
    (eventPath w event).take (maxPathLen - 1) = eventPath w event :=
  List.take_of_length_le (by omega)

/-- The event that says that a directory has come asks for a watch on it. -/
theorem asks_of_arrival (harrival : Arrival event) (hstep : DispatchStep event w after)
    (hwhole : (eventPath w event).length ≤ maxPathLen) (hruns : ¬ Stopped after) :
    ∃ cookie frame, (frame = .created ∨ frame = .movedTo) ∧
      after = { w with
        prevCookie := cookie
        place := .addWatch event.wd (eventPath w event)
        stack := frame :: w.stack } := by
  cases hstep with
  | exits => exact absurd ⟨_, rfl⟩ hruns
  | watches cookie frame hframe hlength =>
    exact ⟨cookie, frame, hframe.imp And.right And.right, by rw [take_eventPath hwhole hlength]⟩
  | skips hother | forgets hother | movesUnrecorded _ hother | prunes _ hother =>
    rcases harrival with hbranch | ⟨hbranch, -⟩ <;> simp [hbranch] at hother
  | reports _ hother hmoved =>
    rcases harrival with hbranch | ⟨hbranch, hisdir⟩
    · simp [hbranch] at hother
    · simp [hbranch, hisdir] at hmoved

end Arrivals

/-! ### The stack follows the links -/

/-- The calls of `add_watch` on the stack are for the row of `wd` and the rows above
it, as far as these are in the table. The outermost call comes from the config file,
or is for the directory of the event being processed. -/
def Follows (table : Table) (prevWd : Wd) : Wd → List Frame → Prop
  | _, [] => True
  | wd, .subDirs frameWd path names :: rest =>
    wd = frameWd ∧ wd ≠ nullWd ∧ (∀ name ∈ names, ValidName name) ∧
      ∀ row ∈ table, row.wd = wd → row.path = path ∧ Follows table prevWd row.parentWd rest
  | wd, .topLevel _ :: _ => wd = nullWd
  | wd, _ :: _ => wd = prevWd ∧ wd ≠ nullWd

variable {table after : Table} {prevWd wd : Wd} {stack : List Frame}

theorem Follows.subset (hfollows : Follows table prevWd wd stack) (hsub : after ⊆ table) :
    Follows after prevWd wd stack := by
  induction stack generalizing wd with
  | nil => trivial
  | cons frame rest ih =>
    cases frame with
    | subDirs frameWd path names =>
      obtain ⟨heq, hne, hnames, hrows⟩ := hfollows
      refine ⟨heq, hne, hnames, fun row hrow hwd ↦ ?_⟩
      obtain ⟨hpath, hrest⟩ := hrows row (hsub hrow) hwd
      exact ⟨hpath, ih hrest⟩
    | _ => exact hfollows

theorem Rooted.parent_cases (hrooted : Rooted table) {row : Row} (hrow : row ∈ table) :
    row.parentWd = nullWd ∨ ∃ parent ∈ table, parent.wd = row.parentWd := by
  rcases hrooted row hrow with hroot | ⟨parent, hparent, hof⟩
  · exact Or.inl hroot.link
  · exact Or.inr ⟨parent, hparent, hof.link.symm⟩

/-- A new row does not come between the rows that the stack is about. -/
theorem Follows.insert (hfollows : Follows table prevWd wd stack) (hrooted : Rooted table)
    {new : Row} (hfree : Free table new) (hrow : wd = nullWd ∨ ∃ row ∈ table, row.wd = wd) :
    Follows (table ++ [new]) prevWd wd stack := by
  induction stack generalizing wd with
  | nil => trivial
  | cons frame rest ih =>
    cases frame with
    | subDirs frameWd path names =>
      obtain ⟨heq, hne, hnames, hrows⟩ := hfollows
      refine ⟨heq, hne, hnames, fun row hmem hwd ↦ ?_⟩
      have hold : row ∈ table := by
        rcases List.mem_append.mp hmem with hold | hnew
        · exact hold
        · obtain rfl := List.mem_singleton.mp hnew
          obtain ⟨other, hother, hotherWd⟩ := hrow.resolve_left hne
          exact absurd (hotherWd.trans hwd.symm) (hfree other hother).1
      obtain ⟨hpath, hrest⟩ := hrows row hold hwd
      exact ⟨hpath, ih hrest (hrooted.parent_cases hold)⟩
    | _ => exact hfollows

/-- When the innermost call is for a row, so is every other, down to the event. -/
theorem Follows.exists_prevWd (hfollows : Follows table prevWd wd stack) (hrooted : Rooted table)
    (hnested : Nested stack) (hevent : ∀ path, .topLevel path ∉ stack)
    (hrow : ∃ row ∈ table, row.wd = wd) : ∃ row ∈ table, row.wd = prevWd := by
  induction stack generalizing wd with
  | nil => exact absurd hnested id
  | cons frame rest ih =>
    cases frame with
    | subDirs frameWd path names =>
      obtain ⟨-, -, -, hrows⟩ := hfollows
      obtain ⟨row, hmem, hwd⟩ := hrow
      obtain ⟨-, hrest⟩ := hrows row hmem hwd
      have hrestEvent : ∀ path, .topLevel path ∉ rest := fun path hpath ↦
        hevent path (List.mem_cons_of_mem _ hpath)
      rcases hrooted.parent_cases hmem with hnull | hparent
      · rw [hnull] at hrest
        cases rest with
        | nil => exact absurd hnested id
        | cons next later =>
          cases next with
          | subDirs => exact absurd rfl hrest.2.1
          | topLevel path => exact absurd List.mem_cons_self (hrestEvent path)
          | created => exact absurd rfl hrest.2
          | movedTo => exact absurd rfl hrest.2
      · exact ih hrest hnested hrestEvent hparent
    | topLevel path => exact absurd List.mem_cons_self (hevent path)
    | created => exact hfollows.1 ▸ hrow
    | movedTo => exact hfollows.1 ▸ hrow

end DirWatcher.Watching
