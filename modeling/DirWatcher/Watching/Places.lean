import DirWatcher.Foundation.Followed
import DirWatcher.Watching.WatchedTrees

/-!
What the pending events say about a place, a name in a watched directory. When there is
a directory at the place, an event that one has left it is followed by an event that
one has come to it, and so is the announcement that the watch of the row for the place
has died. The second takes that a removed directory has been freed before another one
comes to its place.
-/

set_option autoImplicit false
set_option relaxedAutoImplicit false

namespace DirWatcher.Watching

open Source Environment Foundation.Followed Foundation.SeparatedPaths

variable {cfg : Config} {s after : System FileSystem}

/-- The event says that a directory has come to the place. -/
def Arrives (wd : Wd) (name : Bytes) (event : Event) : Prop :=
  Arrival event ∧ event.wd = wd ∧ event.name = name

/-- The event says that a directory has left the place. -/
def Departs (wd : Wd) (name : Bytes) (event : Event) : Prop :=
  Departure event ∧ event.wd = wd ∧ event.name = name

/-- The name is the last one of the path. -/
def EndsIn (path name : Bytes) : Prop := slash :: name <:+ path

instance (path name : Bytes) : Decidable (EndsIn path name) := by
  unfold EndsIn
  infer_instance

theorem endsIn_iff {path name : Bytes} : EndsIn path name ↔ ∃ dir, path = joinPath dir name :=
  exists_congr fun _ ↦ eq_comm

/-- The place of a watched directory that has been removed is free while its watch
lives. -/
def Vacant (table : Table) (fs : FileSystem) : Prop :=
  ∀ row ∈ table, ∀ watch ∈ fs.watches, watch.wd = row.wd → ¬ fs.tree.Attached watch.dir →
    ∀ entry ∈ fs.tree.entries, EndsIn row.path entry.name →
      ⟨row.parentWd, entry.parent⟩ ∉ fs.watches

instance (table : Table) (fs : FileSystem) : Decidable (Vacant table fs) := by
  unfold Vacant
  infer_instance

structure Places (s : System FileSystem) : Prop where
  vacant : Vacant s.watcher.table s.kernel
  returned : ∀ entry ∈ s.kernel.tree.entries, ∀ wd, ⟨wd, entry.parent⟩ ∈ s.kernel.watches →
    EachFollowed (Departs wd entry.name) (Arrives wd entry.name) (pending s.inotify)
  replaced : ∀ row ∈ s.watcher.table, row.wd ∉ s.kernel.live →
    ∀ entry ∈ s.kernel.tree.entries, EndsIn row.path entry.name →
      ⟨row.parentWd, entry.parent⟩ ∈ s.kernel.watches →
      EachFollowed (· = ignoredEvent row.wd) (Arrives row.parentWd entry.name) (pending s.inotify)

theorem places_start (cfg : Config) (tree : DirTree) : Places (System.start cfg (.start tree)) := by
  constructor <;> simp [System.start, Watcher.start, FileSystem.start, Vacant]

theorem not_departure_ignoredEvent (wd : Wd) : ¬ Departure (ignoredEvent wd) :=
  not_departure_of_mask (by simp)

/-- The death of the watch of a row is announced once. -/
theorem not_announced_again (hpaired : Paired s.inotify) {news : List Event} {k : Inotify}
    (hdelivered : Delivered k (pending s.inotify ++ news)) {row : Row}
    (hrow : row ∈ s.watcher.table) (hdead : row.wd ∉ s.kernel.live) :
    ∀ event ∈ news, event ≠ ignoredEvent row.wd := by
  have hannounced := (hpaired.announced row hrow).resolve_left hdead
  have hlast := (List.pairwise_append.mp hdelivered.last).2.2
  rintro event hevent rfl
  exact hlast _ hannounced _ hevent (ignoredEvent_has row.wd) rfl

theorem Places.act {kernel : FileSystem} {news : List Event} (hplaces : Places s)
    (hpaired : Paired s.inotify) (hdelivered : Delivered kernel.inotify (pending s.inotify ++ news))
    (hchanges : Changes s.kernel news kernel) (hvacant : Vacant s.watcher.table kernel) :
    Places { s with kernel } := by
  have hpending := pending_of_queue hchanges.queue
  refine ⟨hvacant, fun entry hentry wd hwatch ↦ ?_, fun row hrow hdead entry hentry hends hwatch ↦
    ?_⟩
  · have hnone : ∀ event ∈ news, ¬ Departs wd entry.name event := by
      rintro event hevent ⟨hdeparture, hwd, hname⟩
      exact hchanges.departed entry hentry wd (hchanges.watches hwatch) event hevent hdeparture hwd
        hname
    rw [hpending]
    rcases hchanges.arrived entry hentry with hold | hnew
    · exact (hplaces.returned entry hold wd (hchanges.watches hwatch)).append hnone
    · exact eachFollowed_append_of_exists hnone (hnew wd (hchanges.watches hwatch))
  · change row.wd ∉ kernel.live at hdead
    by_cases hlive : row.wd ∈ s.kernel.live
    · obtain ⟨dir, hown⟩ := FileSystem.mem_live.mp hlive
      rcases hchanges.dying _ hown with hleft | ⟨hremoved, htree⟩
      · exact absurd (FileSystem.mem_live.mpr ⟨dir, hleft⟩) hdead
      · change entry ∈ kernel.tree.entries at hentry
        rw [htree] at hentry
        exact absurd (hchanges.watches hwatch)
          (hplaces.vacant row hrow _ hown rfl hremoved entry hentry hends)
    · have hnone := not_announced_again hpaired hdelivered hrow hlive
      rw [hpending]
      rcases hchanges.arrived entry hentry with hold | hnew
      · exact (hplaces.replaced row hrow hlive entry hold hends (hchanges.watches hwatch)).append
          hnone
      · exact eachFollowed_append_of_exists hnone (hnew row.parentWd (hchanges.watches hwatch))

theorem Places.shrink (hplaces : Places s) (hpaired : Paired s.inotify)
    (hdelivered : Delivered after.inotify.kernel (pending after.inotify))
    (hshrinks : Shrinks s after) : Places after := by
  obtain ⟨news, hpending, hnews⟩ := hshrinks.announces
  rw [hpending] at hdelivered
  refine ⟨fun row hrow watch hwatch hwd hremoved entry hentry hends hparent ↦ ?_,
    fun entry hentry wd hwatch ↦ ?_, fun row hrow hdead entry hentry hends hwatch ↦ ?_⟩
  · rw [hshrinks.tree] at hremoved hentry
    exact hplaces.vacant row (hshrinks.table hrow) watch (hshrinks.watches hwatch) hwd hremoved
      entry hentry hends (hshrinks.watches hparent)
  · rw [hshrinks.tree] at hentry
    rw [hpending]
    refine (hplaces.returned entry hentry wd (hshrinks.watches hwatch)).append ?_
    rintro event hevent ⟨hdeparture, -⟩
    obtain ⟨other, rfl⟩ := hnews event hevent
    exact not_departure_ignoredEvent other hdeparture
  · have hold : row.wd ∉ s.kernel.live := fun hlive ↦ hdead (hshrinks.kept row hrow hlive)
    rw [hshrinks.tree] at hentry
    rw [hpending]
    refine (hplaces.replaced row (hshrinks.table hrow) hold entry hentry hends
      (hshrinks.watches hwatch)).append ?_
    exact not_announced_again hpaired hdelivered (hshrinks.table hrow) hold

/-- The parent of a row has not been watched just now. -/
theorem FreshWatch.parent_watched {new : Row} {dir other : Dir}
    (hfresh : FreshWatch s new dir after)
    (hregular : Regular s.inotify) {row : Row} (hrow : row ∈ s.watcher.table)
    (hwatch : ⟨row.parentWd, other⟩ ∈ after.kernel.watches) :
    ⟨row.parentWd, other⟩ ∈ s.kernel.watches := by
  refine (hfresh.mem_watches.mp hwatch).resolve_left fun hsame ↦ ?_
  have hwd : row.parentWd = new.wd := congrArg Watch.wd hsame
  rcases hregular.agreeing.rooted.parent_cases hrow with hnull | ⟨parent, hparent, hlink⟩
  · exact absurd (hwd.symm.trans hnull) (ne_of_gt hfresh.positive)
  · exact (hfresh.free hregular.toSteady parent hparent).1 (hlink.trans hwd)

theorem Places.fresh {new : Row} {dir : Dir} (hplaces : Places s) (hregular : Regular s.inotify)
    (hfresh : FreshWatch s new dir after) : Places after := by
  have hfree := hfresh.free hregular.toSteady
  have hrows : ∀ row ∈ after.watcher.table, row ∈ s.watcher.table ∨ row = new := by
    rw [table_of_insert hfree hfresh.insert]
    simp
  have htree := hfresh.tree
  refine ⟨fun row hrow watch hwatch hwd hremoved entry hentry hends hparent ↦ ?_,
    fun entry hentry wd hwatch ↦ ?_, fun row hrow hdead entry hentry hends hwatch ↦ ?_⟩
  · rw [htree] at hremoved hentry
    rcases hrows row hrow with hold | rfl
    · rcases hfresh.mem_watches.mp hwatch with rfl | holdWatch
      · exact (hfree row hold).1 hwd.symm
      · exact hplaces.vacant row hold watch holdWatch hwd hremoved entry hentry hends
          (hfresh.parent_watched hregular hold hparent)
    · obtain ⟨path, hpath⟩ := endsIn_iff.mp hends
      have hown : ⟨row.wd, watch.dir⟩ ∈ after.kernel.watches := by rwa [← hwd]
      obtain rfl := FileSystem.dir_eq_of_wd hown (hfresh.mem_watches.mpr (Or.inl rfl))
      have hresolve := hfresh.resolve
      rw [hpath] at hresolve
      exact hremoved (DirTree.attached_of_resolve_joinPath (s.kernel.tree.names entry hentry)
        hresolve)
  · rw [htree] at hentry
    rw [hfresh.pending_eq]
    rcases hfresh.mem_watches.mp hwatch with hsame | hold
    · obtain rfl : wd = new.wd := congrArg Watch.wd hsame
      refine eachFollowed_of_not ?_
      rintro event hevent ⟨-, hwd, -⟩
      exact hfresh.fresh (hwd ▸ hregular.ordered.delivered.used event hevent)
    · exact hplaces.returned entry hentry wd hold
  · rw [htree] at hentry
    rw [hfresh.pending_eq]
    have hlive : ∀ wd ∈ s.kernel.live, wd ∈ after.kernel.live := by
      intro wd hwd
      obtain ⟨other, hother⟩ := FileSystem.mem_live.mp hwd
      exact FileSystem.mem_live.mpr ⟨other, hfresh.mem_watches.mpr (Or.inr hother)⟩
    rcases hrows row hrow with hold | rfl
    · exact hplaces.replaced row hold (fun hbefore ↦ hdead (hlive _ hbefore)) entry hentry hends
        (hfresh.parent_watched hregular hold hwatch)
    · exact absurd (FileSystem.mem_live.mpr ⟨dir, hfresh.mem_watches.mpr (Or.inl rfl)⟩) hdead

theorem Places.internal {watcher : Watcher} (hplaces : Places s)
    (hstep : InternalStep cfg s.watcher watcher) (hrows : watcher.table ⊆ s.watcher.table) :
    Places { s with watcher } := by
  have hkept : ∀ first second : Event → Prop, EachFollowed first second (pending s.inotify) →
      EachFollowed first second (pending ({ s with watcher } : System FileSystem).inotify) := by
    intro first second hpending
    change EachFollowed first second (s.watcher.batch ++ s.kernel.queue) at hpending
    change EachFollowed first second (watcher.batch ++ s.kernel.queue)
    rcases batch_of_internal hstep with hsame | ⟨event, htaken⟩
    · rwa [hsame]
    · rw [htaken] at hpending
      exact hpending.tail
  refine ⟨fun row hrow ↦ hplaces.vacant row (hrows hrow), fun entry hentry wd hwatch ↦ ?_,
    fun row hrow hdead entry hentry hends hwatch ↦ ?_⟩
  · exact hkept _ _ (hplaces.returned entry hentry wd hwatch)
  · exact hkept _ _ (hplaces.replaced row (hrows hrow) hdead entry hentry hends hwatch)

/-! ### Rows that an event removes -/

theorem Keyed.below_cases {table : Table} (hkeyed : Keyed table) {row : Row} (hrow : row ∈ table)
    {top : Wd} (hbelow : BelowWd table top row.wd) :
    top = row.wd ∨ BelowWd table top row.parentWd := by
  rcases Relation.ReflTransGen.cases_tail hbelow with hsame | ⟨other, hother, hlink⟩
  · exact Or.inl hsame.symm
  · obtain ⟨found, hfound, hwd, rfl⟩ := mem_findChildren.mp hlink
    rw [hkeyed.eq_of_wd hfound hrow hwd] at hother
    exact Or.inr hother

/-- A row is removed by the announcement that its watch has died, or it is pruned. -/
theorem removed_of_dispatch {w after : Watcher} {event : Event} {row : Row}
    (hstep : DispatchStep event w after) (hrow : row ∈ w.table) (hgone : row ∉ after.table) :
    event.branch = .ignored ∧ row.wd = event.wd ∨
      Departure event ∧ ∃ top ∈ w.table, top.path = eventPath w event ∧
        BelowWd w.table top.wd row.wd ∧ ∀ left ∈ after.table, ¬ BelowWd w.table top.wd left.wd := by
  cases hstep with
  | forgets hbranch =>
    refine Or.inl ⟨hbranch, ?_⟩
    by_contra hother
    exact hgone (mem_removeWdDirectory.mpr ⟨hrow, hother⟩)
  | prunes _ hbranch hisdir _ hfind hprune =>
    obtain ⟨top, htop, hpath, hwd⟩ := exists_of_findDirectoryWd_ne hfind
    cases hprune with
    | loops => exact absurd hrow hgone
    | removes hprune =>
      obtain ⟨hwds, hmem, -⟩ := pruneWdDirectory_spec hprune
      rw [← hwd] at hwds
      refine Or.inr ⟨⟨hbranch, hisdir⟩, top, htop, hpath, (hwds row.wd).mp ?_, fun left hleft ↦ ?_⟩
      · by_contra hkept
        exact hgone ((hmem row).mpr ⟨hrow, hkept⟩)
      · exact fun hbelow ↦ ((hmem left).mp hleft).2 ((hwds left.wd).mpr hbelow)
  | _ => exact absurd hrow hgone

/-- A move out of a directory that is not recorded takes no recorded directory along. -/
def MovesKnown (w : Watcher) (event : Event) : Prop :=
  Departure event → w.parentDir = none → ∀ row ∈ w.table, row.path ≠ eventPath w event

instance (w : Watcher) (event : Event) : Decidable (MovesKnown w event) := by
  unfold MovesKnown
  infer_instance

section Removed

variable {event : Event} {rest : List Event} {watcher : Watcher} {row : Row}

/-- A row that is pruned at the top of its subtree is for the directory that has moved,
in the directory of the event. -/
theorem departed_of_removed (hregular : Regular s.inotify) (hplace : s.watcher.place = .nextEvent)
    (hbatch : s.watcher.batch = event :: rest)
    (hmoves : MovesKnown (s.watcher.findParent event) event)
    (hdispatch : DispatchStep event ({ s.watcher with batch := rest }.findParent event) watcher)
    (hrow : row ∈ s.watcher.table) (hgone : row ∉ watcher.table)
    (hleft : row.parentWd = nullWd ∨ ∃ parent ∈ watcher.table, parent.wd = row.parentWd)
    (hignored : ¬ (event.branch = .ignored ∧ row.wd = event.wd)) :
    Departure event ∧ ∃ parent ∈ s.watcher.table, parent.wd = event.wd ∧
      row.path = joinPath parent.path event.name := by
  have hkeyed : Keyed s.watcher.table := hregular.ordered.keys.keyed
  have hlooked := hregular.agreeing.looked hregular.ordered hplace hbatch
  rcases removed_of_dispatch hdispatch (by simpa using hrow) hgone with
    hother | ⟨hdeparture, top, htop, hpath, hbelow, hkept⟩
  · exact absurd hother hignored
  simp only [findParent_table] at htop hbelow hkept
  obtain hwd | habove := hkeyed.below_cases hrow hbelow
  · obtain rfl := hkeyed.eq_of_wd htop hrow hwd
    refine ⟨hdeparture, ?_⟩
    rw [findParent_withBatch] at hpath hlooked
    cases hparentDir : (s.watcher.findParent event).parentDir with
    | none =>
      have hne := hmoves hdeparture hparentDir top
      rw [findParent_table] at hne
      exact absurd hpath (hne htop)
    | some path =>
      obtain ⟨parent, hparent, hparentWd⟩ := hlooked.row path hparentDir
      refine ⟨parent, ?_, hparentWd, hpath.trans (hlooked.eventPath_eq hparent hparentWd)⟩
      rwa [findParent_withBatch, findParent_table] at hparent
  · exfalso
    rcases hleft with hnull | ⟨parent, hparent, hlink⟩
    · rw [hnull] at habove
      rcases Relation.ReflTransGen.cases_tail habove with hsame | ⟨other, -, hlink⟩
      · exact absurd hsame (ne_of_lt (hkeyed.positive top htop))
      · obtain ⟨found, hfound, hwd, -⟩ := mem_findChildren.mp hlink
        exact absurd hwd (ne_of_gt (hkeyed.positive found hfound))
    · exact hkept parent hparent (hlink ▸ habove)

/-- A row without a parent is only removed when its watch has died. -/
theorem ignored_of_removed (hregular : Regular s.inotify) (hplace : s.watcher.place = .nextEvent)
    (hbatch : s.watcher.batch = event :: rest)
    (hmoves : MovesKnown (s.watcher.findParent event) event)
    (hdispatch : DispatchStep event ({ s.watcher with batch := rest }.findParent event) watcher)
    (hrow : row ∈ s.watcher.table) (hgone : row ∉ watcher.table) (hnull : row.parentWd = nullWd) :
    event.branch = .ignored ∧ row.wd = event.wd := by
  by_contra hignored
  obtain ⟨-, parent, hparent, -, hpath⟩ :=
    departed_of_removed hregular hplace hbatch hmoves hdispatch hrow hgone (Or.inl hnull) hignored
  rcases hregular.agreeing.rooted row hrow with hroot | ⟨other, hother, hof⟩
  · exact hroot.path parent hparent (hpath ▸ above_join)
  · have hpositive := hregular.ordered.keys.keyed.positive other hother
    rw [← hof.link, hnull] at hpositive
    exact lt_irrefl _ hpositive

/-- When a row is removed and that of its parent stays, but there is a directory at its
place, then another event is to come for the place. -/
theorem Places.arrives_of_removed (hplaces : Places s) (hregular : Regular s.inotify)
    (hplace : s.watcher.place = .nextEvent) (hbatch : s.watcher.batch = event :: rest)
    (hmoves : MovesKnown (s.watcher.findParent event) event)
    (hdispatch : DispatchStep event ({ s.watcher with batch := rest }.findParent event) watcher)
    (hrow : row ∈ s.watcher.table) (hgone : row ∉ watcher.table) {parent : Row}
    (hparent : parent ∈ s.watcher.table) (hleft : parent ∈ watcher.table)
    (hof : ParentOf parent row) {entry : Entry} (hentry : entry ∈ s.kernel.tree.entries)
    (hpath : row.path = joinPath parent.path entry.name)
    (hwatch : ⟨parent.wd, entry.parent⟩ ∈ s.kernel.watches) :
    ∃ later ∈ rest ++ s.kernel.queue, Arrives parent.wd entry.name later := by
  have hkeyed : Keyed s.watcher.table := hregular.ordered.keys.keyed
  have hdelivered := hregular.ordered.delivered
  have hpending : pending s.inotify = event :: (rest ++ s.kernel.queue) := by
    change s.watcher.batch ++ s.kernel.queue = _
    rw [hbatch, List.cons_append]
  rw [hpending] at hdelivered
  have hvalid := s.kernel.tree.names entry hentry
  by_cases hignored : event.branch = .ignored ∧ row.wd = event.wd
  · obtain ⟨hbranch, hwd⟩ := hignored
    obtain ⟨hform, hdead⟩ :=
      hdelivered.ignored event List.mem_cons_self (has_inIgnored_of_branch hbranch)
    rw [← hwd] at hform hdead
    have hreplaced := hplaces.replaced row hrow hdead entry hentry (endsIn_iff.mpr ⟨_, hpath⟩)
      (hof.link ▸ hwatch)
    rw [hpending, hof.link] at hreplaced
    exact hreplaced.head hform
  · obtain ⟨hdeparture, above, habove, hwd, hjoin⟩ := departed_of_removed hregular hplace hbatch
      hmoves hdispatch hrow hgone (Or.inr ⟨parent, hleft, hof.link.symm⟩) hignored
    have hname := hdelivered.names event List.mem_cons_self hdeparture.2
    obtain ⟨hsame, hsameName⟩ := join_inj hname.slash hvalid.slash (hjoin.symm.trans hpath)
    obtain rfl := hkeyed.eq_of_path habove hparent hsame
    have hreturned := hplaces.returned entry hentry above.wd hwatch
    rw [hpending] at hreturned
    exact hreturned.head ⟨hdeparture, hwd.symm, hsameName⟩

end Removed

end DirWatcher.Watching
