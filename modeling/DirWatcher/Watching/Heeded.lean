import DirWatcher.Watching.Expectations

/-!
No change goes unnoticed, also while directories are moved and removed. Once something has been
changed in a directory, it or a directory above it is reported, under the paths where it is to
be seen when nothing is left to be read.
-/

set_option autoImplicit false
set_option relaxedAutoImplicit false

namespace DirWatcher.Watching

open Source Environment Foundation.SeparatedPaths Foundation.Runs

variable {cfg : Config} {s after : System FileSystem} {row : Row} {entry : Entry}
  {top path : Bytes} {dir : Dir} {before : List Bytes}

/-! ### Steps of the watcher -/

/-- The event of a directory in a recorded one asks for its path. -/
theorem asksFirst_of_arrival {event : Event} {rest : List Event} {watcher : Watcher} {name : Bytes}
    (hregular : Regular s.inotify) (hplace : s.watcher.place = .nextEvent)
    (hbatch : s.watcher.batch = event :: rest)
    (hfits : EventFits (s.watcher.findParent event) event)
    (hdispatch : DispatchStep event ({ s.watcher with batch := rest }.findParent event) watcher)
    (hruns : ¬ Stopped watcher) (hrow : row ∈ s.watcher.table)
    (harrives : Arrives row.wd name event) : AsksFirst watcher (joinPath row.path name) := by
  obtain ⟨harrival, hwd, rfl⟩ := harrives
  have hlooked := hregular.agreeing.looked hregular.ordered hplace hbatch
  have hpath := hlooked.eventPath_eq (by rw [findParent_table]; exact hrow) hwd.symm
  have hstack : s.watcher.stack = [] := by
    have hcontrol : StackFits s.watcher.place s.watcher.stack := hregular.ordered.control.fits
    rwa [hplace] at hcontrol
  rw [findParent_withBatch] at hpath hdispatch
  obtain ⟨cookie, frame, hframe, rfl⟩ := asks_of_arrival harrival hdispatch
    (hfits.whole harrival) hruns
  refine ⟨⟨event.wd, Or.inl (congrArg (Place.addWatch event.wd) hpath)⟩, ?_⟩
  rcases hframe with rfl | rfl <;> simp [hstack]

theorem Expecting.internal {watcher : Watcher} (hexpecting : Expecting cfg s row entry)
    (hattentive : Attentive cfg s) (hafter : Attentive cfg { s with watcher })
    (hcondition : CoverageStep s (.internal : Label FsAct))
    (hinternal : s.watcher.internal cfg = some watcher) :
    Promised { s with watcher } (joinPath row.path entry.name) ∨
      Expecting cfg { s with watcher } row entry := by
  obtain ⟨hsound, hwanted, habsolute, hunseen, hcoming⟩ := hexpecting
  have hregular := hattentive.regular
  have hstep := internalStep hinternal
  have hruns : ¬ Stopped watcher := hafter.running
  rcases hsound.internal hregular hcondition.moves hinternal hruns with hnext | hpromised
  · have hwas : Wanted cfg { s with watcher } row entry :=
      ⟨hwanted.mem, hwanted.watch, hwanted.readable, hwanted.path⟩
    have hstill : ∀ child ∈ watcher.table, child.path = joinPath row.path entry.name →
        ⟨child.wd, entry.dir⟩ ∉ s.kernel.watches := fun child hchild ↦
      hunseen child ((mem_table_of_internal hstep hchild).resolve_right
        (hattentive.complete.settled child))
    cases hcoming with
    | @announced event hevent harrives =>
      change event ∈ s.watcher.batch ++ s.kernel.queue at hevent
      refine Or.inr ⟨hnext, hwas, habsolute, hstill, ?_⟩
      rcases batch_or_dispatch_of_internal hstep with ⟨hbatch, -⟩ |
        ⟨first, rest, hplace, hbatch, hdispatch⟩
      · refine Coming.announced (?_ : event ∈ watcher.batch ++ s.kernel.queue) harrives
        rwa [hbatch]
      · rw [hbatch, List.cons_append] at hevent
        rcases List.mem_cons.mp hevent with rfl | hlater
        · exact .asked (asksFirst_of_arrival hregular hplace hbatch
            (hcondition.truthful.1.events event (by simp [takenEvent, hplace, hbatch])) hdispatch
            hruns hsound.mem harrives)
        · refine Coming.announced (?_ : event ∈ watcher.batch ++ s.kernel.queue) harrives
          rwa [batch_of_dispatch hdispatch, findParent_batch]
    | asked hfirst =>
      obtain ⟨⟨parentWd, hplace⟩, hstack⟩ := hfirst
      rcases requests_of_asked hplace hwanted.path hstep with ⟨⟨child, hchild, hpath⟩, rfl⟩ | rfl
      · rcases hafter.of_recorded hnext hwas habsolute hchild hpath with
          ⟨-, hwatch⟩ | hpromised | hexpecting
        · exact absurd hwatch (hstill child hchild hpath)
        · exact Or.inl (hpromised.mono includes_join)
        · exact Or.inr hexpecting
      · exact Or.inr ⟨hnext, hwas, habsolute, hstill, .asked ⟨⟨parentWd, Or.inr rfl⟩, hstack⟩⟩
  · exact Or.inl (hpromised.mono includes_join)

/-- A row that is inserted for an event is followed by the report of the directory of the event. -/
theorem promised_of_insert {new : Row} (hincludes : EventIncludes s.watcher path)
    (hinsert : InsertStep s.watcher new after.watcher) (hruns : ¬ Stopped after.watcher) :
    Promised after path := by
  obtain ⟨directory, hparent, hbelow⟩ := hincludes
  obtain ⟨watcher, kernel⟩ := after
  cases hinsert with
  | clashes => exact absurd ⟨_, rfl⟩ hruns
  | inserts => exact .reporting (.committed (.opens rfl)) hparent hbelow

/-- A sound row has its watch on the same directory as before. -/
theorem Wanted.answer {answer : Answer} (hwanted : Wanted cfg s row entry)
    (hregular : Regular s.inotify) (hsound : Sound after row)
    (hstep : s.step cfg fileSystem (.answer answer) = some after) : Wanted cfg after row entry := by
  rcases answer_cases hregular.toSteady hstep with ⟨new, dir, -, hfresh⟩ | hshrinks
  · exact ⟨hfresh.tree ▸ hwanted.mem, hfresh.mem_watches.mpr (Or.inr hwanted.watch),
      hfresh.tree ▸ hwanted.readable, hwanted.path⟩
  · obtain ⟨other, hother⟩ := hsound.live
    have hsame := FileSystem.dir_eq_of_wd hwanted.watch (hshrinks.watches hother)
    exact ⟨hshrinks.tree ▸ hwanted.mem, hsame ▸ hother, hshrinks.tree ▸ hwanted.readable,
      hwanted.path⟩

theorem Expecting.answer {answer : Answer} (hexpecting : Expecting cfg s row entry)
    (hattentive : Attentive cfg s) (hnew : NewWatch s (.answer answer))
    (hstep : s.step cfg fileSystem (.answer answer) = some after)
    (hruns : ¬ Stopped after.watcher) :
    Promised after (joinPath row.path entry.name) ∨ Expecting cfg after row entry := by
  obtain ⟨hsound, hwanted, habsolute, hunseen, hcoming⟩ := hexpecting
  have hregular := hattentive.regular
  have hnext := hsound.answer hregular hnew hstep
  have hwas := hwanted.answer hregular hnext hstep
  cases hcoming with
  | asked hfirst =>
    obtain ⟨call, hcall, hserve, hresume⟩ := System.step_answer hstep
    obtain ⟨parentWd, hplace⟩ := hfirst.1
    obtain ⟨wd, hinsert⟩ := inserts_of_asked (hattentive.complete.truthful row hsound) hwanted
      hplace hnew hcall hserve (resumeStep hresume) hruns
    exact Or.inl (promised_of_insert (hattentive.joined.including hfirst habsolute.join) hinsert
      hruns)
  | announced hevent harrives =>
    rcases answer_cases hregular.toSteady hstep with ⟨new, dir, -, hfresh⟩ | hshrinks
    · by_cases hsame : new.path = joinPath row.path entry.name
      · have hvisited : Visited s.watcher (joinPath row.path entry.name) :=
          .place (by rw [hfresh.place, ← hsame]; rfl)
        exact Or.inl (promised_of_insert (hregular.including hattentive.joined hattentive.loaded
          hattentive.running hattentive.complete.settled habsolute.join hvisited) hfresh.insert
          hruns)
      · have hfree := hfresh.free hregular.toSteady
        refine Or.inr ⟨hnext, hwas, habsolute, fun child hchild hpath hwatch ↦ ?_,
          .announced (hfresh.pending_eq ▸ hevent) harrives⟩
        rw [table_of_insert hfree hfresh.insert] at hchild
        rcases List.mem_append.mp hchild with hold | hlast
        · refine hunseen child hold hpath ((hfresh.mem_watches.mp hwatch).resolve_left fun hon ↦ ?_)
          exact (hfree child hold).1 (congrArg Watch.wd hon)
        · rw [List.mem_singleton.mp hlast] at hpath
          exact hsame hpath
    · exact Or.inr ⟨hnext, hwas, habsolute, fun child hchild hpath hwatch ↦
        hunseen child (hshrinks.table hchild) hpath (hshrinks.watches hwatch),
        .announced (hshrinks.pending hevent) harrives⟩

/-! ### The way to a directory -/

/-- The way to a directory that is there after a change is followed row by row. What has been
reached in this way has been there before the change. -/
theorem Attentive.reaches {kernel : FileSystem} {news : List Event} (hattentive : Attentive cfg s)
    (hafter : Attentive cfg { s with kernel }) (hchanges : Changes s.kernel news kernel)
    (htop : TopRow s.watcher.table top) (habsolute : Absolute top)
    (hvisible : Visible cfg kernel.tree top path dir) :
    (∃ row, Sound { s with kernel } row ∧ row.path = path ∧ ⟨row.wd, dir⟩ ∈ kernel.watches ∧
        Visible cfg s.kernel.tree top path dir) ∨
      Promised { s with kernel } path ∨ Expected cfg { s with kernel } path := by
  have hdecays := decays_of_changes hchanges
  have hwatched : ∀ {row : Row} {dir : Dir}, Sound { s with kernel } row →
      ⟨row.wd, dir⟩ ∈ kernel.watches → s.kernel.tree.resolve row.path = some dir := by
    intro row dir hsound hwatch
    exact (hattentive.complete.truthful row (hsound.back hdecays hsound.mem)).resolve_eq
      (hchanges.watches hwatch)
  induction hvisible with
  | top hresolve =>
    obtain ⟨row, hrow, rfl, hnull⟩ := htop
    have hsound := sound_of_root hafter.regular hafter.complete.tops hrow hnull
    obtain ⟨other, hwatch, hother⟩ := hafter.complete.truthful row hsound
    obtain rfl := Option.some_inj.mp (hother.symm.trans hresolve)
    exact Or.inl ⟨row, hsound, rfl, hwatch, .top (hwatched hsound hwatch)⟩
  | @child path entry hparent hentry hreadable hallowed ih =>
    rcases ih with ⟨row, hsound, rfl, hwatch, hvisible⟩ | hpromised | ⟨row, low, hexpecting, hbelow⟩
    · rcases hafter.follow hsound ⟨hentry, hwatch, hreadable, hallowed⟩
        (hparent.absolute habsolute) with ⟨child, hchild, hpath, hon⟩ | hpromised | hexpecting
      · refine Or.inl ⟨child, hchild, hpath, hon, ?_⟩
        have hresolve := hwatched hchild hon
        rw [hpath, DirTree.resolve_joinPath hparent.ne_nil (kernel.tree.names entry hentry),
          hwatched hsound hwatch, Option.bind_some, DirTree.child_eq_some_iff] at hresolve
        refine .child hvisible hresolve (fun hunreadable ↦ hreadable ?_) hallowed
        exact (hchanges.unreadable _ (s.kernel.tree.made entry hresolve).2.1).mpr hunreadable
      · exact Or.inr (Or.inl hpromised)
      · exact Or.inr (Or.inr ⟨row, entry, hexpecting, includes_self⟩)
    · exact Or.inr (Or.inl (hpromised.mono includes_join))
    · exact Or.inr (Or.inr ⟨row, low, hexpecting, hbelow.trans includes_join⟩)

/-- On the way to a sound row, the rows of all directories are sound. -/
theorem Sound.exists_including {parent : Row} {name : Bytes} (hsound : Sound s row)
    (hregular : Regular s.inotify) (hparent : parent ∈ s.watcher.table)
    (hincludes : Includes (joinPath parent.path name) row.path) :
    ∃ child, Sound s child ∧ child.path = joinPath parent.path name := by
  induction hsound with
  | @root row hrow hnull hwhole =>
    rcases hincludes with hsame | habove
    · exact ⟨row, .root hrow hnull hwhole, hsame.symm⟩
    · rcases hregular.agreeing.rooted row hrow with hroot | ⟨other, hother, hof⟩
      · exact absurd (above_join.trans habove) (hroot.path parent hparent)
      · have hpositive := hregular.ordered.keys.keyed.positive other hother
        rw [← hof.link, hnull] at hpositive
        exact absurd hpositive (lt_irrefl _)
  | @child above row habove hrow hof hwhole ih =>
    rcases hincludes with hsame | hlies
    · exact ⟨row, .child habove hrow hof hwhole, hsame.symm⟩
    · obtain ⟨last, hlast, hpath⟩ := hof.path
      rw [hpath] at hlies
      exact ih ((eq_or_above_of_above_join hlast.slash hlies).imp Eq.symm id)

/-- Nothing is expected above a sound row: it has been seen already. -/
theorem Attentive.not_expected (hattentive : Attentive cfg s) (hsound : Sound s row) :
    ¬ Expected cfg s row.path := by
  rintro ⟨parent, entry, hexpecting, hincludes⟩
  have htruthful := hattentive.complete.truthful
  have hwanted := hexpecting.wanted
  obtain ⟨child, hchild, hpath⟩ := hsound.exists_including hattentive.regular hexpecting.sound.mem
    hincludes
  obtain ⟨dir, hwatch, hresolve⟩ := htruthful child hchild
  have hentry := (htruthful parent hexpecting.sound).resolve_entry hwanted.watch hwanted.mem
  rw [← hpath, hresolve] at hentry
  exact hexpecting.unseen child hchild.mem hpath (Option.some_inj.mp hentry ▸ hwatch)

/-! ### Runs -/

/-- Wherever the directory is to be seen, a report of it or of one above it has followed or
will follow. -/
def Heeded (cfg : Config) (before : List Bytes) (top : Bytes) (dir : Dir)
    (s : System FileSystem) : Prop :=
  ∀ path, Visible cfg s.kernel.tree top path dir →
    Told before path s.watcher ∨ Promised s path ∨ Expected cfg s path

/-- What holds from the time of the change on. -/
structure Heeding (cfg : Config) (before : List Bytes) (top : Bytes) (dir : Dir)
    (s : System FileSystem) : Prop where
  attentive : Attentive cfg s
  recorded : TopRow s.watcher.table top
  reports : before <+: s.watcher.reports
  heeded : Heeded cfg before top dir s

theorem loading_of_step {label : Label FsAct} (hstep : s.step cfg fileSystem label = some after)
    (hloading : Loading after.watcher) : Loading s.watcher := by
  cases label with
  | act action => exact (System.step_act hstep).2 ▸ hloading
  | internal => exact loading_of_internal (internalStep (System.step_internal hstep).1) hloading
  | answer answer =>
    obtain ⟨-, -, -, hresume⟩ := System.step_answer hstep
    exact loading_of_stack_eq hloading (place_ne_of_resume (resumeStep hresume))
      (stack_of_resume (resumeStep hresume))

theorem Attentive.step (hattentive : Attentive cfg s) {label : Label FsAct}
    (hcondition : CoverageStep s label) (hstep : s.step cfg fileSystem label = some after)
    (hruns : ¬ Stopped after.watcher) : Attentive cfg after where
  regular := hattentive.regular.step_fileSystem hcondition.truthful.1 hstep
  complete := (Complete.step hattentive.regular (Or.inr hattentive.complete) hcondition
    hstep).resolve_left hruns
  joined := hattentive.joined.step hcondition.truthful.1 hstep
  running := hruns
  loaded := fun hloading ↦ hattentive.loaded (loading_of_step hstep hloading)

theorem TopRow.step (htop : TopRow s.watcher.table top) (hattentive : Attentive cfg s)
    {label : Label FsAct} (hcondition : CoverageStep s label)
    (hstep : s.step cfg fileSystem label = some after) : TopRow after.watcher.table top := by
  cases label with
  | act action => exact (System.step_act hstep).2 ▸ htop
  | internal =>
    exact htop.kept (rootsKept_internal hattentive.regular hattentive.complete.tops
      hcondition.moves (internalStep (System.step_internal hstep).1))
  | answer answer =>
    obtain ⟨-, -, -, hresume⟩ := System.step_answer hstep
    have hnew := hcondition.newWatch
    exact htop.kept fun row hrow _ ↦
      (table_of_resume (by rintro wd rfl; exact hnew) (resumeStep hresume)).1 hrow

theorem Heeding.step (hheeding : Heeding cfg before top dir s) (habsolute : Absolute top)
    {label : Label FsAct} (hcondition : CoverageStep s label)
    (hstep : s.step cfg fileSystem label = some after) (hruns : ¬ Stopped after.watcher) :
    Heeding cfg before top dir after := by
  obtain ⟨hattentive, htop, hreports, hheeded⟩ := hheeding
  have hlater := reports_of_step hstep
  have hafter := hattentive.step hcondition hstep hruns
  refine ⟨hafter, htop.step hattentive hcondition hstep, hreports.trans hlater,
    fun path hvisible ↦ ?_⟩
  cases label with
  | act action =>
    obtain ⟨kernel, hact, rfl⟩ := System.exists_kernel hstep
    obtain ⟨news, hchanges⟩ := FileSystem.exists_changes hact
    rcases hattentive.reaches hafter hchanges htop habsolute hvisible with
      ⟨row, hsound, rfl, -, hbefore⟩ | hcoming
    · have hwas := hsound.back (decays_of_changes hchanges) hsound.mem
      rcases hheeded row.path hbefore with htold | hpromised | hexpected
      · exact Or.inl htold
      · exact Or.inr (Or.inl (hpromised.act hchanges.queue))
      · exact absurd hexpected (hattentive.not_expected hwas)
    · exact Or.inr hcoming
  | internal =>
    obtain ⟨watcher, hinternal, rfl⟩ := System.exists_watcher hstep
    rcases hheeded path hvisible with htold | hpromised | ⟨row, entry, hexpecting, hincludes⟩
    · exact Or.inl (htold.later hlater)
    · exact (hpromised.internal hattentive.regular hattentive.loaded hattentive.complete.settled
        hreports hcondition.moves hinternal hruns).imp_right Or.inl
    · rcases hexpecting.internal hattentive hafter hcondition hinternal with hpromised | hnext
      · exact Or.inr (Or.inl (hpromised.mono hincludes))
      · exact Or.inr (Or.inr ⟨row, entry, hnext, hincludes⟩)
  | answer answer =>
    have hsame : after.kernel.tree = s.kernel.tree := by
      rcases answer_cases hattentive.regular.toSteady hstep with ⟨new, other, -, hfresh⟩ | hshrinks
      · exact hfresh.tree
      · exact hshrinks.tree
    rw [hsame] at hvisible
    rcases hheeded path hvisible with htold | hpromised | ⟨row, entry, hexpecting, hincludes⟩
    · exact Or.inl (htold.later hlater)
    · exact Or.inr (Or.inl (hpromised.answer hattentive.regular hattentive.loaded
        hattentive.complete.settled hcondition.newWatch hstep hruns))
    · rcases hexpecting.answer hattentive hcondition.newWatch hstep hruns with hpromised | hnext
      · exact Or.inr (Or.inl (hpromised.mono hincludes))
      · exact Or.inr (Or.inr ⟨row, entry, hnext, hincludes⟩)

/-- A process that has stopped does not go on. -/
theorem not_stopped_of_systemStep {label : Label FsAct}
    (hstep : s.step cfg fileSystem label = some after) (hruns : ¬ Stopped after.watcher) :
    ¬ Stopped s.watcher := by
  cases label with
  | act action => exact (System.step_act hstep).2 ▸ hruns
  | internal => exact not_stopped_of_internal (System.step_internal hstep).1
  | answer answer =>
    obtain ⟨call, hcall, -, -⟩ := System.step_answer hstep
    exact not_stopped_of_call hcall

/-- Each watch on the directory has an event to come that is to be reported. -/
def Announcing (s : System FileSystem) (dir : Dir) : Prop :=
  ∀ watch ∈ s.kernel.watches, watch.dir = dir →
    ∃ event ∈ pending s.inotify, Telling event ∧ event.wd = watch.wd

instance (s : System FileSystem) (dir : Dir) : Decidable (Announcing s dir) := by
  unfold Announcing
  infer_instance

theorem Heeding.start (hattentive : Attentive cfg s) (htop : top ∈ s.watcher.watchedTops)
    (habsolute : Absolute top) (hannouncing : Announcing s dir) :
    Heeding cfg s.watcher.reports top dir s := by
  have hrow := hattentive.complete.tops.watched top htop
  refine ⟨hattentive, hrow, List.prefix_refl _, fun path hvisible ↦ ?_⟩
  have hunchanged : Changes s.kernel [] s.kernel :=
    FileSystem.changes_of_tree rfl rfl (List.append_nil _).symm rfl (List.Subset.refl _)
      (fun _ hwatch ↦ Or.inl hwatch) (by simp)
  rcases hattentive.reaches hattentive hunchanged hrow habsolute hvisible with
    ⟨row, hsound, rfl, hwatch, -⟩ | hcoming
  · obtain ⟨event, hevent, htelling, hwd⟩ := hannouncing _ hwatch rfl
    exact Or.inr (Or.inl (.announced hevent htelling hsound.mem hwd includes_self))
  · exact Or.inr hcoming

theorem Heeding.run (habsolute : Absolute top)
    (hreaches : ReachesWhen (System.step cfg fileSystem) CoverageStep s after)
    (hheeding : Stopped s.watcher ∨ Heeding cfg before top dir s) :
    Stopped after.watcher ∨ Heeding cfg before top dir after := by
  refine hreaches.invariant (fun s ↦ Stopped s.watcher ∨ Heeding cfg before top dir s) hheeding ?_
  intro s label next hheeding hcondition hstep
  refine or_iff_not_imp_left.mpr fun hruns ↦ ?_
  exact (hheeding.resolve_left (not_stopped_of_systemStep hstep hruns)).step habsolute hcondition
    hstep hruns

theorem attentive_of_reachesWhen {tree : DirTree}
    (hreaches : ReachesWhen (System.step cfg fileSystem) CoverageStep
      (System.start cfg (.start tree)) s)
    (hloaded : ¬ Loading s.watcher) : Stopped s.watcher ∨ Attentive cfg s := by
  obtain ⟨hregular, hcomplete⟩ := complete_of_reachesWhen hreaches
  have hjoined : AsksJoined s.watcher := by
    refine hreaches.invariant (fun s ↦ AsksJoined s.watcher) ?_
      fun _ _ _ hjoined hcondition hstep ↦ hjoined.step hcondition.truthful.1 hstep
    exact asksJoined_of_place (by simp [System.start, Watcher.start])
  refine or_iff_not_imp_left.mpr fun hruns ↦ ?_
  exact ⟨hregular, hcomplete.resolve_left hruns, hjoined, hruns, hloaded⟩

/-- When nothing is left to be read, the reports have been made. -/
theorem Heeding.told (hheeding : Heeding cfg before top dir s) (hplace : s.watcher.place = .poll)
    (hqueue : s.kernel.queue = []) (hvisible : Visible cfg s.kernel.tree top path dir) :
    Told before path s.watcher := by
  have hcontrol : Control s.watcher := hheeding.attentive.regular.ordered.control
  have hnone : ∀ event, event ∉ pending s.inotify := by
    intro event hevent
    change event ∈ s.watcher.batch ++ s.kernel.queue at hevent
    rw [hcontrol.idle (Or.inl hplace), hqueue] at hevent
    cases hevent
  rcases hheeding.heeded path hvisible with htold | hpromised | ⟨row, entry, hexpecting, -⟩
  · exact htold
  · cases hpromised with
    | announced hevent => exact absurd hevent (hnone _)
    | reporting hreporting =>
      cases hreporting with
      | committed hcommitted => exact absurd (by simp [hplace]) (hcommitted.not_idle hcontrol.fits)
      | prunes hother => simp [hplace] at hother
      | moved hframe =>
        have hfits := hcontrol.fits
        rw [hplace] at hfits
        rw [show s.watcher.stack = [] from hfits] at hframe
        cases hframe
  · cases hexpecting.coming with
    | announced hevent => exact absurd hevent (hnone _)
    | asked hfirst =>
      obtain ⟨⟨parentWd, hasks⟩, -⟩ := hfirst
      simp [hplace] at hasks

end DirWatcher.Watching
