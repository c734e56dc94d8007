import DirWatcher.Watching.Orderly

/-!
What holds in all states of an orderly run: the table is rooted, the calls of
`add_watch` in progress follow its links, and the memoised path is the recorded one.
-/

set_option autoImplicit false
set_option relaxedAutoImplicit false

namespace DirWatcher.Watching

open Source Environment Foundation.ParentLinks Foundation.SeparatedPaths Foundation.Runs

/-! ### The calls in progress -/

/-- The path is a name in the directory of `parentWd`, as far as this is recorded. -/
def Extends (table : Table) (parentWd : Wd) (path : Bytes) : Prop :=
  ∀ parent ∈ table, parent.wd = parentWd → ∃ name, ValidName name ∧ path = joinPath parent.path name

/-- The directory whose sub-directories are looped over is recorded. -/
def LoopRecorded (table : Table) (wd : Wd) : List Frame → Prop
  | .subDirs _ _ _ :: _ => ∃ row ∈ table, row.wd = wd
  | _ => True

/-- The calls that are about to go on with the row of `wd`. -/
structure Calls (table : Table) (prevWd wd : Wd) (stack : List Frame) : Prop where
  follows : Follows table prevWd wd stack
  recorded : LoopRecorded table wd stack

/-- What the innermost call of `add_watch` knows about the table. -/
def Task (table : Table) (prevWd : Wd) (stack : List Frame) : Place → Prop
  | .addWatch parentWd path | .inotifyAddWatch parentWd path =>
    Calls table prevWd parentWd stack ∧ Extends table parentWd path
  | .removePrunedWds _ (some row) =>
    Follows table prevWd row.parentWd stack ∧ Extends table row.parentWd row.path
  | .opendir wd path | .readdir wd path => Calls table prevWd wd (.subDirs wd path [] :: stack)
  | .subDirs wd path names => Calls table prevWd wd (.subDirs wd path names :: stack)
  | .returned _ => ∃ wd, Calls table prevWd wd stack
  | _ => True

section Tables

variable {table after : Table} {prevWd wd : Wd} {stack : List Frame} {path : Bytes}

theorem Extends.subset (hextends : Extends table wd path) (hsub : after ⊆ table) :
    Extends after wd path := fun parent hparent hwd ↦ hextends parent (hsub hparent) hwd

theorem Extends.parentOf (hextends : Extends table wd path) {new : Row} (hwd : new.parentWd = wd)
    (hpath : new.path = path) :
    ∀ parent ∈ table, parent.wd = new.parentWd → ParentOf parent new := by
  subst hwd hpath
  exact fun parent hparent hwd ↦ ⟨hwd.symm, hextends parent hparent hwd⟩

/-- The call around a loop over sub-directories is for the row above. -/
theorem Calls.pop (hrooted : Rooted table) {frameWd : Wd} {names : List Bytes}
    (hcalls : Calls table prevWd wd (.subDirs frameWd path names :: stack)) :
    ∃ other, Calls table prevWd other stack := by
  obtain ⟨row, hrow, hwd⟩ := hcalls.recorded
  obtain ⟨-, -, -, hrows⟩ := hcalls.follows
  obtain ⟨-, hfollows⟩ := hrows row hrow hwd
  refine ⟨row.parentWd, hfollows, ?_⟩
  cases stack with
  | nil => trivial
  | cons frame rest =>
    cases frame with
    | subDirs => exact (hrooted.parent_cases hrow).resolve_left hfollows.2.1
    | _ => trivial

theorem RowFits.exists_parent {new : Row} (hfits : RowFits table new) :
    new.parentWd = nullWd ∨ ∃ parent ∈ table, parent.wd = new.parentWd := by
  unfold RowFits at hfits
  split_ifs at hfits with hnull
  · exact Or.inl hnull
  · exact Or.inr hfits

end Tables

/-! ### The memoised path -/

/-- There may be more events for the watch. -/
def Heard (s : System Inotify) (wd : Wd) : Prop :=
  wd ∈ s.kernel.live ∨ ∃ event ∈ pending s, event.wd = wd

/-- The process goes on, and no row is about to be inserted. -/
def Settled (w : Watcher) : Prop := ¬ Stopped w ∧ ∀ row, ¬ Inserting w row

structure Memo (s : System Inotify) : Prop where
  known : Known s.kernel s.watcher.prevWd
  path : ∀ row ∈ s.watcher.table, row.wd = s.watcher.prevWd → s.watcher.parentDir = some row.path
  row : Settled s.watcher → ∀ path, s.watcher.parentDir = some path →
    Heard s s.watcher.prevWd → ∃ row ∈ s.watcher.table, row.wd = s.watcher.prevWd
  loading : Loading s.watcher → s.watcher.prevWd = nullWd ∧ s.watcher.parentDir = none

/-- The table, the calls and the memoised path agree. -/
structure Agreeing (s : System Inotify) : Prop where
  rooted : Rooted s.watcher.table
  task : Task s.watcher.table s.watcher.prevWd s.watcher.stack s.watcher.place
  memo : Memo s

theorem agreeing_start (cfg : Config) : Agreeing (System.start cfg .start) where
  rooted := rooted_nil
  task := trivial
  memo := by
    constructor <;> simp [System.start, Watcher.start, Known]

/-- A new event is for a watch that the kernel has had. -/
theorem Heard.of_append {w : Watcher} {k kernel : Inotify} {event : Event} {wd : Wd}
    (hpending : pending ⟨w, kernel⟩ = pending ⟨w, k⟩ ++ [event])
    (hkept : kernel.live ⊆ k.live) (hlive : event.wd ∈ k.live)
    (hheard : Heard ⟨w, kernel⟩ wd) : Heard ⟨w, k⟩ wd := by
  rcases hheard with hold | ⟨other, hother, hwd⟩
  · exact Or.inl (hkept hold)
  · rw [hpending] at hother
    rcases List.mem_append.mp hother with hold | hnew
    · exact Or.inr ⟨other, hold, hwd⟩
    · rw [List.mem_singleton.mp hnew] at hwd
      exact Or.inl (hwd ▸ hlive)

theorem Heard.of_emit {w : Watcher} {k : Inotify} {event : Event} {wd : Wd}
    (hlive : event.wd ∈ k.live) (hheard : Heard ⟨w, k.emit event⟩ wd) : Heard ⟨w, k⟩ wd :=
  hheard.of_append (pending_emit w k event) (List.Subset.refl _) hlive

theorem Heard.of_kill {w : Watcher} {k : Inotify} {dead wd : Wd} (hlive : dead ∈ k.live)
    (hheard : Heard ⟨w, k.kill dead⟩ wd) : Heard ⟨w, k⟩ wd :=
  hheard.of_append (pending_kill w k dead) List.filter_sublist.subset hlive

theorem Memo.act {s : System Inotify} {action : InotifyAct} {kernel : Inotify} (hmemo : Memo s)
    (hact : inotify.act s.kernel action = some kernel) : Memo { s with kernel } := by
  cases action with
  | emit event =>
    simp only [inotify] at hact
    split_ifs at hact with hemit
    cases hact
    exact ⟨hmemo.known, hmemo.path,
      fun hsettled path hpath hheard ↦ hmemo.row hsettled path hpath (hheard.of_emit hemit.1),
      hmemo.loading⟩
  | die wd =>
    simp only [inotify] at hact
    split_ifs at hact with hlive
    cases hact
    exact ⟨hmemo.known, hmemo.path,
      fun hsettled path hpath hheard ↦ hmemo.row hsettled path hpath (hheard.of_kill hlive),
      hmemo.loading⟩

/-! ### Processing an event -/

/-- The directory of the event has been looked up. -/
structure Looked (w : Watcher) (event : Event) : Prop where
  prevWd : w.prevWd = event.wd
  path : ∀ row ∈ w.table, row.wd = event.wd → w.parentDir = some row.path
  row : ∀ path, w.parentDir = some path → ∃ row ∈ w.table, row.wd = event.wd

theorem Agreeing.looked {s : System Inotify} (hagreeing : Agreeing s) (hordered : Ordered s)
    {event : Event} {rest : List Event} (hplace : s.watcher.place = .nextEvent)
    (hbatch : s.watcher.batch = event :: rest) :
    Looked ({ s.watcher with batch := rest }.findParent event) event := by
  rw [findParent_withBatch]
  unfold Watcher.findParent
  split_ifs with hsame
  · refine ⟨hsame.symm, hsame ▸ hagreeing.memo.path, fun path hpath ↦ ?_⟩
    have hheard : Heard s s.watcher.prevWd := by
      refine Or.inr ⟨event, ?_, hsame⟩
      rw [pending, hbatch]
      exact List.mem_append_left _ List.mem_cons_self
    exact hsame ▸ hagreeing.memo.row (by simp [Settled, Stopped, Inserting, hplace]) path hpath
      hheard
  · refine ⟨rfl, fun row hrow hwd ↦ ?_, fun path hpath ↦ ?_⟩
    · have hfound := hordered.keys.keyed.findWdDirectory_eq hrow maxPathLen
      rwa [List.take_of_length_le (hordered.keys.short row hrow).le, hwd] at hfound
    · obtain ⟨row, hrow, hwd, -⟩ := exists_of_findWdDirectory_eq_some hpath
      exact ⟨row, hrow, hwd⟩

theorem Looked.eventPath_eq {w : Watcher} {event : Event} (hlooked : Looked w event) {parent : Row}
    (hparent : parent ∈ w.table) (hwd : parent.wd = event.wd) :
    eventPath w event = joinPath parent.path event.name := by
  rw [eventPath, hlooked.path parent hparent hwd]
  rfl

/-- The path joined for an event is a name in its directory. -/
theorem Looked.extends {w : Watcher} {event : Event} (hlooked : Looked w event)
    (hname : ValidName event.name) : Extends w.table event.wd (eventPath w event) :=
  fun _ hparent hwd ↦ ⟨event.name, hname, hlooked.eventPath_eq hparent hwd⟩

/-- A row below a name in a directory is not the row of the directory. -/
theorem Rooted.not_belowWd {table : Table} (hrooted : Rooted table) (hkeyed : Keyed table)
    {parent child : Row} (hparent : parent ∈ table) (hchild : child ∈ table) {name : Bytes}
    (hpath : child.path = joinPath parent.path name) : ¬ BelowWd table child.wd parent.wd := by
  intro hbelow
  obtain ⟨row, hrow, hwd, hle⟩ := hrooted.length_le_of_belowWd hkeyed hchild hbelow
  obtain rfl := hkeyed.eq_of_wd hrow hparent hwd
  rw [hpath, length_joinPath] at hle
  omega

/-- A prune of a name in the directory of the event leaves the row of the directory. -/
theorem Looked.row_of_prune {w : Watcher} {event : Event} (hlooked : Looked w event)
    (hrooted : Rooted w.table) (hkeyed : Keyed w.table) {wds : List Wd} {table : Table}
    (hfind : findDirectoryWd w.table (eventPath w event) ≠ nullWd)
    (hprune : pruneWdDirectory w.table (findDirectoryWd w.table (eventPath w event)) =
      some (wds, table)) {path : Bytes} (hpath : w.parentDir = some path) :
    ∃ row ∈ table, row.wd = event.wd := by
  obtain ⟨parent, hparent, hwd⟩ := hlooked.row path hpath
  obtain ⟨child, hchild, hchildPath, hchildWd⟩ := exists_of_findDirectoryWd_ne hfind
  obtain ⟨hwds, hmem, -⟩ := pruneWdDirectory_spec hprune
  refine ⟨parent, (hmem parent).mpr ⟨hparent, fun hremoved ↦ ?_⟩, hwd⟩
  have hbelow := (hwds parent.wd).mp hremoved
  rw [← hchildWd] at hbelow
  exact hrooted.not_belowWd hkeyed hparent hchild
    (hchildPath.trans (hlooked.eventPath_eq hparent hwd)) hbelow

/-- The table, the calls and the memo at the places outside of `add_watch`. -/
theorem agreeing_of_looked {w after : Watcher} {k : Inotify} {event : Event}
    (hlooked : Looked w event)
    (hprevWd : after.prevWd = w.prevWd) (hparentDir : after.parentDir = w.parentDir)
    (hsub : after.table ⊆ w.table) (hknown : Known k event.wd) (hrooted : Rooted after.table)
    (htask : Task after.table after.prevWd after.stack after.place)
    (hrow : ∀ path, w.parentDir = some path → Heard ⟨after, k⟩ event.wd →
      ∃ row ∈ after.table, row.wd = event.wd)
    (hloading : ¬ Loading after) : Agreeing ⟨after, k⟩ := by
  have hwd : after.prevWd = event.wd := hprevWd.trans hlooked.prevWd
  refine ⟨hrooted, htask, ?_, fun row hmem hsame ↦ ?_, fun _ path hpath hheard ↦ ?_,
    fun hload ↦ absurd hload hloading⟩
  · exact hwd ▸ hknown
  · exact hparentDir.trans (hlooked.path row (hsub hmem) (hsame.trans hwd))
  · change ∃ row ∈ after.table, row.wd = after.prevWd
    rw [hwd]
    exact hrow path (hparentDir ▸ hpath) (hwd ▸ hheard)

theorem Agreeing.dispatch {s : System Inotify} (hordered : Ordered s) (hagreeing : Agreeing s)
    {event : Event} {rest : List Event} {after : Watcher} (hplace : s.watcher.place = .nextEvent)
    (hbatch : s.watcher.batch = event :: rest)
    (hfits : EventFits (s.watcher.findParent event) event)
    (hstep : DispatchStep event ({ s.watcher with batch := rest }.findParent event) after) :
    Agreeing { s with watcher := after } := by
  have hlooked := hagreeing.looked hordered hplace hbatch
  have hstack : s.watcher.stack = [] := by
    have hfits := hordered.control.fits
    rwa [hplace] at hfits
  have hpending := pending_of_dispatch hbatch hstep
  have hdelivered := hordered.delivered
  rw [hpending] at hdelivered
  have hused := hdelivered.used event List.mem_cons_self
  have hleaf := hfits.leaf
  have hwhole := hfits.whole
  have hrooted := hagreeing.rooted
  have hkeyed := hordered.keys.keyed
  rw [findParent_table] at hleaf
  rw [findParent_withBatch] at hstep hlooked
  generalize hv : s.watcher.findParent event = v at hlooked hwhole hstep
  have hvTable : v.table = s.watcher.table := by rw [← hv, findParent_table]
  have hvStack : v.stack = [] := by rw [← hv, findParent_stack, hstack]
  rw [← hvTable] at hleaf hrooted hkeyed
  cases hstep with
  | exits | skips | reports | movesUnrecorded =>
    exact agreeing_of_looked hlooked rfl rfl (List.Subset.refl _) (Or.inr hused) hrooted trivial
      (fun path hpath _ ↦ hlooked.row path hpath) (by simp [Loading, hvStack])
  | forgets hbranch =>
    refine agreeing_of_looked hlooked rfl rfl removeWdDirectory_sublist.subset (Or.inr hused)
      (hrooted.remove (hleaf hbranch)) trivial (fun path _ hheard ↦ ?_)
      (by simp [Loading, hvStack])
    have hignored := has_inIgnored_of_branch hbranch
    rcases hheard with hlive | ⟨later, hlater, hwd⟩
    · exact absurd hlive (hdelivered.ignored event List.mem_cons_self hignored).2
    · exact absurd hwd ((List.pairwise_cons.mp hdelivered.last).1 later hlater hignored)
  | watches cookie frame hframe hlength =>
    have harrival : Arrival event := hframe.imp And.left And.left
    have hpath : (eventPath v event).take (maxPathLen - 1) = eventPath v event :=
      take_eventPath (hwhole harrival) hlength
    refine agreeing_of_looked hlooked rfl rfl (List.Subset.refl _) (Or.inr hused) hrooted
      ⟨⟨?_, ?_⟩, ?_⟩ (fun path hpath _ ↦ hlooked.row path hpath) ?_
    · have hne : event.wd ≠ nullWd := ne_of_gt (hdelivered.positive _ hused)
      rcases hframe with ⟨-, rfl⟩ | ⟨-, rfl⟩ <;> exact ⟨hlooked.prevWd.symm, hne⟩
    · rcases hframe with ⟨-, rfl⟩ | ⟨-, rfl⟩ <;> trivial
    · change Extends v.table event.wd ((eventPath v event).take (maxPathLen - 1))
      rw [hpath]
      exact hlooked.extends (hdelivered.names event List.mem_cons_self harrival.isdir)
    · rcases hframe with ⟨-, rfl⟩ | ⟨-, rfl⟩ <;> simp [Loading, hvStack]
  | prunes cookie _ _ _ hfind hprune =>
    cases hprune with
    | loops =>
      exact agreeing_of_looked hlooked rfl rfl (List.Subset.refl _) (Or.inr hused) hrooted trivial
        (fun path hpath _ ↦ hlooked.row path hpath) (by simp [Loading, hvStack])
    | removes hprune =>
      exact agreeing_of_looked hlooked rfl rfl (pruneWdDirectory_spec hprune).2.2.subset
        (Or.inr hused) (hrooted.prune hprune) trivial
        (fun path hpath _ ↦ hlooked.row_of_prune hrooted hkeyed hfind hprune hpath)
        (by simp [Loading, hvStack])

/-! ### The other steps -/

/-- While a row is inserted, the event that is processed has its row. -/
theorem Follows.loading_or_exists {table : Table} {prevWd : Wd} {stack : List Frame} {new : Row}
    (hfollows : Follows table prevWd new.parentWd stack) (hrooted : Rooted table)
    (hnested : Nested stack) (hfits : RowFits table new) :
    (∃ path, .topLevel path ∈ stack) ∨ ∃ row ∈ table, row.wd = prevWd := by
  by_cases htop : ∃ path, .topLevel path ∈ stack
  · exact Or.inl htop
  have hevent : ∀ path, .topLevel path ∉ stack := fun path hpath ↦ htop ⟨path, hpath⟩
  rcases hfits.exists_parent with hnull | hparent
  · rw [hnull] at hfollows
    cases stack with
    | nil => exact absurd hnested id
    | cons frame rest =>
      cases frame with
      | subDirs => exact absurd rfl hfollows.2.1
      | topLevel path => exact absurd List.mem_cons_self (hevent path)
      | created => exact absurd rfl hfollows.2
      | movedTo => exact absurd rfl hfollows.2
  · exact Or.inr (hfollows.exists_prevWd hrooted hnested hevent hparent)

theorem Agreeing.insert {s : System Inotify} (hagreeing : Agreeing s) {kernel : Inotify}
    {new : Row} {after : Watcher} (hnested : Nested s.watcher.stack) (hpositive : 0 < new.wd)
    (hfree : Free s.watcher.table new) (hknown : Known kernel s.watcher.prevWd)
    (hfollows : Follows s.watcher.table s.watcher.prevWd new.parentWd s.watcher.stack)
    (hextends : Extends s.watcher.table new.parentWd new.path)
    (hfits : RowFits s.watcher.table new) (hstep : InsertStep s.watcher new after) :
    Agreeing ⟨after, kernel⟩ := by
  have hrooted := hagreeing.rooted
  have hevent := hfollows.loading_or_exists hrooted hnested hfits
  have hother : new.wd ≠ s.watcher.prevWd := by
    rcases hevent with htop | ⟨row, hrow, hwd⟩
    · rw [(hagreeing.memo.loading (Or.inr htop)).1]
      exact ne_of_gt hpositive
    · exact hwd ▸ (hfree row hrow).1.symm
  obtain rfl := hstep.eq_of_free hfree
  refine ⟨hrooted.insert hfits (hextends.parentOf rfl rfl), ?_, hknown, ?_, ?_, ?_⟩
  · refine ⟨⟨rfl, ne_of_gt hpositive, by simp, fun row hrow hwd ↦ ?_⟩, new, by simp, rfl⟩
    rcases List.mem_append.mp hrow with hold | hnew
    · exact absurd hwd (hfree row hold).1
    · rw [List.mem_singleton.mp hnew]
      exact ⟨rfl, hfollows.insert hrooted hfree hfits.exists_parent⟩
  · intro row hrow hwd
    rcases List.mem_append.mp hrow with hold | hnew
    · exact hagreeing.memo.path row hold hwd
    · rw [List.mem_singleton.mp hnew] at hwd
      exact absurd hwd hother
  · intro _ path hpath hheard
    rcases hevent with htop | ⟨row, hrow, hwd⟩
    · rw [(hagreeing.memo.loading (Or.inr htop)).2] at hpath
      cases hpath
    · exact ⟨row, List.mem_append_left _ hrow, hwd⟩
  · rintro (⟨⟨⟩⟩ | htop)
    exact hagreeing.memo.loading (Or.inr htop)

/-- A step that does not touch the table or the memoised path. -/
theorem Agreeing.stay {s : System Inotify} (hagreeing : Agreeing s) {after : Watcher}
    {kernel : Inotify} (htable : after.table = s.watcher.table)
    (hprevWd : after.prevWd = s.watcher.prevWd) (hparentDir : after.parentDir = s.watcher.parentDir)
    (hknown : Known s.kernel s.watcher.prevWd → Known kernel s.watcher.prevWd)
    (hheard : Heard ⟨after, kernel⟩ s.watcher.prevWd → Heard s s.watcher.prevWd)
    (hsettled : Settled after → Settled s.watcher)
    (hloading : Loading after → Loading s.watcher)
    (htask : Task s.watcher.table s.watcher.prevWd after.stack after.place) :
    Agreeing ⟨after, kernel⟩ := by
  have hmemo := hagreeing.memo
  refine ⟨htable ▸ hagreeing.rooted, by rw [htable, hprevWd]; exact htask, ?_, ?_, ?_, ?_⟩
  · exact hprevWd ▸ hknown hmemo.known
  · change ∀ row ∈ after.table, row.wd = after.prevWd → after.parentDir = some row.path
    rw [htable, hprevWd, hparentDir]
    exact hmemo.path
  · intro hafter path hpath
    change Heard _ after.prevWd → ∃ row ∈ after.table, row.wd = after.prevWd
    rw [htable, hprevWd]
    exact fun hheardAfter ↦ hmemo.row (hsettled hafter) path (hparentDir ▸ hpath)
      (hheard hheardAfter)
  · intro hload
    change after.prevWd = nullWd ∧ after.parentDir = none
    rw [hprevWd, hparentDir]
    exact hmemo.loading (hloading hload)

theorem Agreeing.internal {cfg : Config} {s : System Inotify} {after : Watcher}
    (hordered : Ordered s)
    (hagreeing : Agreeing s) (horderly : Orderly s.watcher (.internal : Label InotifyAct))
    (hstep : InternalStep cfg s.watcher after) : Agreeing { s with watcher := after } := by
  have htask := hagreeing.task
  have hfits := hordered.control.fits
  cases hstep with
  | readsLine hplace hlines =>
    rw [hplace] at hfits
    refine hagreeing.stay rfl rfl rfl id id (by simp [Settled, Stopped, Inserting, hplace])
      (fun _ ↦ Or.inl hplace) ⟨⟨rfl, trivial⟩, fun parent hparent hwd ↦ ?_⟩
    exact absurd hwd (ne_of_gt (hordered.keys.keyed.positive parent hparent))
  | startsPolling hplace =>
    refine hagreeing.stay rfl rfl rfl id id ?_ (loading_of_stack (by simp) fun _ ↦ id) trivial
    rcases hplace with ⟨hplace, -⟩ | ⟨hplace, -⟩ <;> simp [Settled, Stopped, Inserting, hplace]
  | takesEvent hplace hbatch hdispatch =>
    refine hagreeing.dispatch hordered hplace hbatch ?_ hdispatch
    exact horderly.events _ (by simp [takenEvent, hplace, hbatch])
  | refuses hplace =>
    rw [hplace] at htask
    exact hagreeing.stay rfl rfl rfl id id (by simp [Settled, Stopped, Inserting, hplace])
      (loading_of_stack (by simp) fun _ ↦ id) ⟨_, htask.1⟩
  | requests hplace =>
    rw [hplace] at htask
    exact hagreeing.stay rfl rfl rfl id id (by simp [Settled, Stopped, Inserting, hplace])
      (loading_of_stack (by simp) fun _ ↦ id) htask
  | finishesPrune hplace =>
    exact hagreeing.stay rfl rfl rfl id id (by simp [Settled, Stopped, Inserting, hplace])
      (loading_of_stack (by simp) fun _ ↦ id) trivial
  | @insertsPruned row _ hplace hinsert =>
    have hchecked := hordered.keys.checked
    rw [hplace] at htask hfits hchecked
    exact hagreeing.insert hfits hchecked.1 hchecked.2.2 hagreeing.memo.known htask.1 htask.2
      (horderly.inserts row (by simp [insertedRow, hplace])) hinsert
  | finishesSubDirs hplace =>
    rw [hplace] at htask
    exact hagreeing.stay rfl rfl rfl id id (by simp [Settled, Stopped, Inserting, hplace])
      (loading_of_stack (by simp) fun _ ↦ id) (htask.pop hagreeing.rooted)
  | @descends wd path name rest hplace hlength =>
    rw [hplace] at htask
    obtain ⟨heq, hne, hnames, hrows⟩ := htask.follows
    refine hagreeing.stay rfl rfl rfl id id (by simp [Settled, Stopped, Inserting, hplace])
      (loading_of_stack (by simp) fun _ ↦ by simp) ⟨⟨⟨heq, hne, ?_, hrows⟩, htask.recorded⟩, ?_⟩
    · exact fun other hother ↦ hnames other (List.mem_cons_of_mem _ hother)
    · intro parent hparent hwd
      exact ⟨name, hnames name List.mem_cons_self, by rw [(hrows parent hparent hwd).1]⟩
  | overflows hplace =>
    exact hagreeing.stay rfl rfl rfl id id (by simp [Settled, Stopped, Inserting, hplace])
      (loading_of_stack (by simp [Watcher.exit]) fun _ ↦ id) trivial
  | @returns result frame rest hplace hstack =>
    rw [hplace, hstack] at htask
    obtain ⟨wd, hcalls⟩ := htask
    have hrest : ∀ path, .topLevel path ∈ rest → .topLevel path ∈ s.watcher.stack := fun path hmem ↦
      hstack ▸ List.mem_cons_of_mem _ hmem
    cases frame with
    | subDirs frameWd path names =>
      obtain rfl : wd = frameWd := hcalls.follows.1
      exact hagreeing.stay rfl rfl rfl id id (by simp [Settled, Stopped, Inserting, hplace])
        (loading_of_stack (by simp [Watcher.returnTo]) hrest) hcalls
    | topLevel path =>
      refine hagreeing.stay rfl rfl rfl id id (by simp [Settled, Stopped, Inserting, hplace])
        (fun _ ↦ ?_) trivial
      exact Or.inr ⟨path, hstack ▸ List.mem_cons_self⟩
    | created =>
      by_cases hzero : result = 0 <;>
        exact hagreeing.stay rfl rfl rfl id id (by simp [Settled, Stopped, Inserting, hplace])
          (loading_of_stack (by simp [Watcher.returnTo, hzero]) hrest)
          (by simp [Watcher.returnTo, hzero, Task])
    | movedTo =>
      exact hagreeing.stay rfl rfl rfl id id (by simp [Settled, Stopped, Inserting, hplace])
        (loading_of_stack (by simp [Watcher.returnTo]) hrest) trivial
  | reports hplace =>
    rw [report_eq]
    exact hagreeing.stay rfl rfl rfl id id (by simp [Settled, Stopped, Inserting, hplace])
      (loading_of_stack (by simp) fun _ ↦ id) trivial

theorem Agreeing.answer {s after : System Inotify} (hagreeing : Agreeing s) (hordered : Ordered s)
    (hpaired : Paired s) {answer : Answer}
    (horderly : Orderly s.watcher (.answer answer : Label InotifyAct))
    (hstep : AnswerStep s.watcher s.kernel answer after.watcher after.kernel) : Agreeing after := by
  obtain ⟨watcher, kernel⟩ := after
  have htask := hagreeing.task
  have hfits := hordered.control.fits
  have hchecked := hordered.keys.checked
  cases hstep with
  | reads =>
    refine ⟨hagreeing.rooted, trivial, Or.inl rfl, fun row hrow hwd ↦ ?_, ?_, fun _ ↦ ⟨rfl, rfl⟩⟩
    · exact absurd hwd (ne_of_gt (hordered.keys.keyed.positive row hrow))
    · rintro - path ⟨⟩
  | exits =>
    exact hagreeing.stay rfl rfl rfl id id (fun hsettled ↦ absurd ⟨_, rfl⟩ hsettled.1)
      (loading_of_stack (by simp) fun _ ↦ id) trivial
  | reuses hplace hlive hexists hprune =>
    rw [hplace] at htask
    cases hprune with
    | loops =>
      exact hagreeing.stay rfl rfl rfl id id (fun hsettled ↦ absurd ⟨_, rfl⟩ hsettled.1)
        (loading_of_stack (by simp) fun _ ↦ id) trivial
    | removes hprune =>
      have hsub := (pruneWdDirectory_spec hprune).2.2.subset
      refine ⟨hagreeing.rooted.prune hprune,
        ⟨htask.1.follows.subset hsub, htask.2.subset hsub⟩, hagreeing.memo.known,
        fun row hrow ↦ hagreeing.memo.path row (hsub hrow),
        fun hsettled ↦ absurd ⟨_, rfl⟩ (hsettled.2 _), ?_⟩
      rintro (⟨⟨⟩⟩ | htop)
      exact hagreeing.memo.loading (Or.inr htop)
  | addsAgain hplace hlive hnew => exact absurd hnew (hpaired.not_new hplace hlive)
  | @adds parentWd path wd _ hplace hpositive hfresh hinsert =>
    rw [hplace] at htask hfits hchecked
    have hnew : ∀ row ∈ s.watcher.table, row.wd ≠ wd := fun row hrow hwd ↦
      hfresh (hwd ▸ hordered.rowsUsed.table row hrow)
    have hinserted : insertedRow s.watcher (.answer (.watch wd) : Label InotifyAct) =
        some ⟨wd, parentWd, path⟩ := by
      simp [insertedRow, hplace, wdDirectoryExists_eq_false_iff.mpr hnew]
    exact hagreeing.insert hfits hpositive (fun row hrow ↦ ⟨hnew row hrow, hchecked.2 row hrow⟩)
      (hagreeing.memo.known.imp id (List.mem_cons_of_mem _)) htask.1.follows htask.2
      (horderly.inserts _ hinserted) hinsert
  | missed _ hplace =>
    rw [hplace] at htask
    exact hagreeing.stay rfl rfl rfl id id (by simp [Settled, Stopped, Inserting, hplace])
      (loading_of_stack (by simp) fun _ ↦ id) ⟨_, htask.1⟩
  | @kills wd rest row hplace hlive =>
    rw [hplace] at htask
    refine hagreeing.stay rfl rfl rfl id (Heard.of_kill hlive)
      (by simp [Settled, Stopped, Inserting, hplace]) (loading_of_stack (by simp) fun _ ↦ id) ?_
    cases row <;> exact htask
  | @killed wd rest row hplace =>
    rw [hplace] at htask
    refine hagreeing.stay rfl rfl rfl id id (by simp [Settled, Stopped, Inserting, hplace])
      (loading_of_stack (by simp) fun _ ↦ id) ?_
    cases row <;> exact htask
  | opens hplace | opensNothing _ hplace =>
    rw [hplace] at htask
    exact hagreeing.stay rfl rfl rfl id id (by simp [Settled, Stopped, Inserting, hplace])
      (loading_of_stack (by simp) fun _ ↦ id) htask
  | lists hplace hnames =>
    rw [hplace] at htask
    obtain ⟨⟨heq, hne, -, hrows⟩, hrecorded⟩ := htask
    exact hagreeing.stay rfl rfl rfl id id (by simp [Settled, Stopped, Inserting, hplace])
      (loading_of_stack (by simp) fun _ ↦ id) ⟨⟨heq, hne, hnames, hrows⟩, hrecorded⟩

theorem Agreeing.step {cfg : Config} {s after : System Inotify} {label : Label InotifyAct}
    (hagreeing : Agreeing s) (hordered : Ordered s) (hpaired : Paired s)
    (horderly : Orderly s.watcher label) (hstep : s.step cfg inotify label = some after) :
    Agreeing after := by
  cases label with
  | act action =>
    obtain ⟨hact, hwatcher⟩ := System.step_act hstep
    have hafter : Agreeing ⟨s.watcher, after.kernel⟩ :=
      ⟨hagreeing.rooted, hagreeing.task, hagreeing.memo.act hact⟩
    rw [← hwatcher] at hafter
    exact hafter
  | internal =>
    obtain ⟨watcher, hinternal, rfl⟩ := System.exists_watcher hstep
    exact hagreeing.internal hordered horderly (internalStep hinternal)
  | answer answer =>
    obtain ⟨call, hcall, hserve, hresume⟩ := System.step_answer hstep
    exact hagreeing.answer hordered hpaired horderly
      (answerStep hordered.rowsUsed.table hcall (serveStep hserve) (resumeStep hresume))

/-! ### What an `IN_MOVED_FROM` leaves -/

/-- The rows below a recorded directory by path are linked below it. -/
theorem Rooted.belowWd_of_above {table : Table} (hrooted : Rooted table) (hkeyed : Keyed table)
    {top row : Row} (htop : top ∈ table) (hrow : row ∈ table)
    (habove : AbovePath top.path row.path) : BelowWd table top.wd row.wd := by
  induction hlength : row.path.length using Nat.strong_induction_on generalizing row with
  | _ length ih =>
    rcases hrooted row hrow with hroot | ⟨parent, hparent, hof⟩
    · exact absurd habove (hroot.path top htop)
    · obtain ⟨name, hname, hjoin⟩ := hof.path
      have hlink : BelowWd table parent.wd row.wd :=
        Relation.ReflTransGen.single (mem_findChildren.mpr ⟨row, hrow, rfl, hof.link⟩)
      rw [hjoin] at habove
      rcases eq_or_above_of_above_join hname.slash habove with hsame | hhigher
      · rwa [hkeyed.eq_of_path hparent htop hsame] at hlink
      · exact (ih _ (hlength ▸ hof.length_lt) hparent hhigher rfl).trans hlink

theorem Looked.departed {w after : Watcher} {event : Event} (hlooked : Looked w event)
    (hrooted : Rooted w.table) (hkeyed : Keyed w.table) (hdeparture : Departure event)
    {path : Bytes} (hpath : w.parentDir = some path) (hstep : DispatchStep event w after)
    (hruns : ¬ Stopped after) :
    ∀ row ∈ after.table, ¬ AtOrBelow (joinPath path event.name) row := by
  obtain ⟨hbranch, hisdir⟩ := hdeparture
  obtain ⟨parent, hparent, hwd⟩ := hlooked.row path hpath
  obtain rfl : parent.path = path := by
    simpa [hpath, eq_comm] using hlooked.path parent hparent hwd
  have hevent := hlooked.eventPath_eq hparent hwd
  intro row hrow hbelow
  obtain ⟨top, htop, htopPath, hlinks⟩ :=
    hrooted.exists_belowWd hparent (mem_table_of_dispatch hstep hrow) hbelow
  rw [← hevent] at htopPath
  cases hstep with
  | exits => exact hruns ⟨_, rfl⟩
  | skips hother => exact hother (by simp [hbranch])
  | forgets hother => simp [hbranch] at hother
  | reports _ _ hmoved => simp [hbranch, hisdir] at hmoved
  | watches _ _ hframe => simp [hbranch] at hframe
  | movesUnrecorded _ _ _ _ hfind =>
    exact hkeyed.not_recorded_of_findDirectoryWd hfind htop htopPath
  | prunes _ _ _ _ _ hprune =>
    cases hprune with
    | loops => exact hruns ⟨_, rfl⟩
    | removes hprune =>
      obtain ⟨hwds, hmem, -⟩ := pruneWdDirectory_spec hprune
      refine ((hmem row).mp hrow).2 ((hwds row.wd).mpr ?_)
      change BelowWd w.table (findDirectoryWd w.table (eventPath w event)) row.wd
      rwa [← htopPath, hkeyed.findDirectoryWd_eq htop]

end DirWatcher.Watching
