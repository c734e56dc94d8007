import DirWatcher.Watching.EventCalls

/-!
The way to a directory. From the row of a line of the config file it leads from row to row, or
stops where a directory is still expected: its event is to come, or its path is asked for.
-/

set_option autoImplicit false
set_option relaxedAutoImplicit false

namespace DirWatcher.Watching

open Source Environment Foundation.Followed Foundation.SeparatedPaths Foundation.Runs

variable {cfg : Config} {s after : System FileSystem} {row : Row} {entry : Entry}
  {top path : Bytes} {dir : Dir}

theorem Visible.absolute {tree : DirTree} (hvisible : Visible cfg tree top path dir)
    (habsolute : Absolute top) : Absolute path := by
  induction hvisible with
  | top => exact habsolute
  | child _ _ _ _ ih => exact ih.join

/-! ### Rows that stay sound -/

theorem sound_of_root (hregular : Regular s.inotify) (htops : Tops s)
    (hrow : row ∈ s.watcher.table) (hnull : row.parentWd = nullWd) : Sound s row := by
  refine .root hrow hnull fun hbroken ↦ ?_
  cases hbroken with
  | dead hdead => exact hdead (htops.live row hrow hnull)
  | removed hparent => exact hparent hnull
  | moved hevent _ hwd =>
    have hdelivered := hregular.ordered.delivered
    have hpositive := hdelivered.positive _ (hdelivered.used _ hevent)
    rw [hwd, hnull] at hpositive
    exact lt_irrefl _ hpositive

theorem Broken.of_internal {watcher : Watcher} (hbroken : Broken { s with watcher } row)
    (hstep : InternalStep cfg s.watcher watcher) : Broken s row := by
  cases hbroken with
  | dead hdead => exact .dead hdead
  | removed hparent hwatch hremoved => exact .removed hparent hwatch hremoved
  | @moved event _ hevent hdeparture hwd hpath =>
    refine .moved ?_ hdeparture hwd hpath
    change event ∈ watcher.batch ++ s.kernel.queue at hevent
    change event ∈ s.watcher.batch ++ s.kernel.queue
    rcases batch_of_internal hstep with hsame | ⟨taken, htaken⟩
    · rwa [hsame] at hevent
    · rw [htaken]
      exact List.mem_cons_of_mem _ hevent

/-- A whole row that is removed lies in the directory of an event that is then reported. -/
theorem kept_or_promised {watcher : Watcher} (hregular : Regular s.inotify)
    (hmoves : ∀ event ∈ takenEvent s.watcher (.internal : Label FsAct),
      MovesKnown (s.watcher.findParent event) event)
    (hinternal : s.watcher.internal cfg = some watcher) (hruns : ¬ Stopped watcher)
    (hrow : row ∈ s.watcher.table) (hwhole : ¬ Broken s row) :
    row ∈ watcher.table ∨ Promised { s with watcher } row.path := by
  rcases batch_or_dispatch_of_internal (internalStep hinternal) with ⟨-, htable⟩ |
    ⟨event, rest, hplace, hbatch, -⟩
  · exact Or.inl (htable hrow)
  refine or_iff_not_imp_left.mpr fun hgone ↦ ?_
  have hnext : ({ s.watcher with batch := rest }.findParent event).dispatch event = watcher := by
    simpa [Watcher.internal, hplace, hbatch] using hinternal
  refine (promised_of_removed hregular (hmoves event (by simp [takenEvent, hplace, hbatch])) hnext
    hruns hrow hgone).resolve_left ?_
  rintro ⟨hbranch, hwd⟩
  refine hwhole (.dead fun hlive ↦ ?_)
  have hevent : event ∈ pending s.inotify := by
    change event ∈ s.watcher.batch ++ s.kernel.queue
    simp [hbatch]
  exact (hregular.ordered.delivered.ignored event hevent (has_inIgnored_of_branch hbranch)).2
    (hwd ▸ hlive)

theorem Sound.internal {watcher : Watcher} (hsound : Sound s row) (hregular : Regular s.inotify)
    (hmoves : ∀ event ∈ takenEvent s.watcher (.internal : Label FsAct),
      MovesKnown (s.watcher.findParent event) event)
    (hinternal : s.watcher.internal cfg = some watcher) (hruns : ¬ Stopped watcher) :
    Sound { s with watcher } row ∨ Promised { s with watcher } row.path := by
  have hstep := internalStep hinternal
  induction hsound with
  | root hrow hnull hwhole =>
    refine (kept_or_promised hregular hmoves hinternal hruns hrow hwhole).imp_left fun hkept ↦ ?_
    exact .root hkept hnull fun hbroken ↦ hwhole (hbroken.of_internal hstep)
  | child _ hrow hof hwhole ih =>
    rcases ih with hparent | hpromised
    · refine (kept_or_promised hregular hmoves hinternal hruns hrow hwhole).imp_left fun hkept ↦ ?_
      exact .child hparent hkept hof fun hbroken ↦ hwhole (hbroken.of_internal hstep)
    · exact Or.inr (hpromised.mono (Or.inr hof.above))

theorem Broken.of_answer {answer : Answer} (hbroken : Broken after row)
    (hregular : Regular s.inotify) (hrow : row ∈ s.watcher.table)
    (hkept : row ∈ after.watcher.table)
    (hstep : s.step cfg fileSystem (.answer answer) = some after) : Broken s row := by
  rcases answer_cases hregular.toSteady hstep with ⟨new, dir, -, hfresh⟩ | hshrinks
  · cases hbroken with
    | dead hdead =>
      refine .dead fun hlive ↦ hdead ?_
      obtain ⟨other, hother⟩ := FileSystem.mem_live.mp hlive
      exact FileSystem.mem_live.mpr ⟨other, hfresh.mem_watches.mpr (Or.inr hother)⟩
    | removed hparent hwatch hremoved =>
      refine .removed hparent ((hfresh.mem_watches.mp hwatch).resolve_left fun hsame ↦ ?_)
        (hfresh.tree ▸ hremoved)
      exact (hfresh.free hregular.toSteady row hrow).1 (congrArg Watch.wd hsame)
    | moved hevent hdeparture hwd hpath =>
      exact .moved (hfresh.pending_eq ▸ hevent) hdeparture hwd hpath
  · cases hbroken with
    | dead hdead => exact .dead fun hlive ↦ hdead (hshrinks.kept row hkept hlive)
    | removed hparent hwatch hremoved =>
      exact .removed hparent (hshrinks.watches hwatch) (hshrinks.tree ▸ hremoved)
    | moved hevent hdeparture hwd hpath =>
      obtain ⟨news, hnews, hannounces⟩ := hshrinks.announces
      rw [hnews] at hevent
      refine .moved ((List.mem_append.mp hevent).resolve_right fun hnew ↦ ?_) hdeparture hwd hpath
      obtain ⟨wd, rfl⟩ := hannounces _ hnew
      exact not_departure_ignoredEvent wd hdeparture

theorem Sound.answer {answer : Answer} (hsound : Sound s row) (hregular : Regular s.inotify)
    (hnew : NewWatch s (.answer answer))
    (hstep : s.step cfg fileSystem (.answer answer) = some after) : Sound after row := by
  obtain ⟨-, -, -, hresume⟩ := System.step_answer hstep
  obtain ⟨htable, -⟩ := table_of_resume (by rintro wd rfl; exact hnew) (resumeStep hresume)
  induction hsound with
  | root hrow hnull hwhole =>
    exact .root (htable hrow) hnull fun hbroken ↦
      hwhole (hbroken.of_answer hregular hrow (htable hrow) hstep)
  | child _ hrow hof hwhole ih =>
    exact .child ih (htable hrow) hof fun hbroken ↦
      hwhole (hbroken.of_answer hregular hrow (htable hrow) hstep)

/-! ### What is expected -/

/-- What holds from the end of the start-up scan on. -/
structure Attentive (cfg : Config) (s : System FileSystem) : Prop where
  regular : Regular s.inotify
  complete : Complete cfg s
  joined : AsksJoined s.watcher
  running : ¬ Stopped s.watcher
  loaded : ¬ Loading s.watcher

/-- The event of the directory is still to come, or its path is asked for on its own. -/
inductive Coming (s : System FileSystem) (row : Row) (name : Bytes) : Prop
  | announced {event : Event} (hevent : event ∈ pending s.inotify)
      (harrives : Arrives row.wd name event)
  | asked (hfirst : AsksFirst s.watcher (joinPath row.path name))

/-- The directory of the entry is not watched under its path, but it will be asked for. -/
structure Expecting (cfg : Config) (s : System FileSystem) (row : Row) (entry : Entry) : Prop where
  sound : Sound s row
  wanted : Wanted cfg s row entry
  absolute : Absolute row.path
  unseen : ∀ child ∈ s.watcher.table, child.path = joinPath row.path entry.name →
    ⟨child.wd, entry.dir⟩ ∉ s.kernel.watches
  coming : Coming s row entry.name

/-- A directory at or above the path will be asked for. -/
def Expected (cfg : Config) (s : System FileSystem) (path : Bytes) : Prop :=
  ∃ row entry, Expecting cfg s row entry ∧ Includes (joinPath row.path entry.name) path

theorem Attentive.promised (hattentive : Attentive cfg s) (hcommitted : Committed s.watcher)
    (hvisited : Visited s.watcher path) (habsolute : Absolute path) : Promised s path := by
  obtain ⟨directory, hparent, hincludes⟩ := hattentive.regular.including hattentive.joined
    hattentive.loaded hattentive.running hattentive.complete.settled habsolute hvisited
  exact .reporting (.committed hcommitted) hparent hincludes

/-- The row for the place of the entry is that of its directory, or something will happen there. -/
theorem Attentive.of_recorded (hattentive : Attentive cfg s) (hsound : Sound s row)
    (hwanted : Wanted cfg s row entry) (habsolute : Absolute row.path) {child : Row}
    (hchild : child ∈ s.watcher.table) (hpath : child.path = joinPath row.path entry.name) :
    (Sound s child ∧ ⟨child.wd, entry.dir⟩ ∈ s.kernel.watches) ∨
      Promised s row.path ∨ Expecting cfg s row entry := by
  have hkeyed : Keyed s.watcher.table := hattentive.regular.ordered.keys.keyed
  have hof : ParentOf row child := hattentive.regular.agreeing.rooted.parentOf_of_path hkeyed
    hsound.mem hchild (s.kernel.tree.names entry hwanted.mem) hpath
  have hends : EndsIn child.path entry.name := endsIn_iff.mpr ⟨_, hpath⟩
  have hwatch : ⟨child.parentWd, entry.parent⟩ ∈ s.kernel.watches := hof.link ▸ hwanted.watch
  by_cases hbroken : Broken s child
  · cases hbroken with
    | dead hdead =>
      have hannounced := (hattentive.regular.paired.announced child hchild).resolve_left hdead
      obtain ⟨event, hevent, harrives⟩ := (hattentive.complete.places.replaced child hchild hdead
        entry hwanted.mem hends hwatch).exists_of_mem hannounced rfl
      refine Or.inr (Or.inr ⟨hsound, hwanted, habsolute, fun other hother hsame hon ↦ ?_,
        .announced hevent (hof.link ▸ harrives)⟩)
      obtain rfl := hkeyed.eq_of_path hother hchild (hsame.trans hpath.symm)
      exact hdead (FileSystem.mem_live.mpr ⟨_, hon⟩)
    | removed _ hown hremoved =>
      exact absurd hwatch (hattentive.complete.places.vacant child hchild _ hown rfl hremoved entry
        hwanted.mem hends)
    | moved hevent hdeparture hwd =>
      exact Or.inr (Or.inl (.announced hevent (telling_of_departure hdeparture) hsound.mem
        (hwd.trans hof.link) includes_self))
  · have hsoundChild : Sound s child := .child hsound hchild hof hbroken
    obtain ⟨dir, hown, hresolve⟩ := hattentive.complete.truthful child hsoundChild
    have hentry := (hattentive.complete.truthful row hsound).resolve_entry hwanted.watch hwanted.mem
    rw [← hpath, hresolve] at hentry
    exact Or.inl ⟨hsoundChild, Option.some_inj.mp hentry ▸ hown⟩

/-- The innermost frame is a loop over sub-directories when there is one at all. -/
theorem exists_subDirs_of_frame {place : Place} {stack : List Frame} {wd : Wd}
    {names : List Bytes} (hfits : StackFits place stack) (hruns : ∀ stop, place ≠ .stopped stop)
    (hframe : .subDirs wd path names ∈ stack) :
    ∃ other below left rest, stack = .subDirs other below left :: rest := by
  have hnested : Nested stack := by
    cases place with
    | stopped stop => exact absurd rfl (hruns stop)
    | loadTopLevelPaths | poll | nextEvent | report =>
      rw [show stack = [] from hfits] at hframe
      cases hframe
    | removePrunedWds wds new =>
      cases new with
      | none =>
        rw [show stack = [] from hfits] at hframe
        cases hframe
      | some new => exact hfits
    | addWatch | inotifyAddWatch | opendir | readdir | subDirs | returned => exact hfits
  cases stack with
  | nil => cases hframe
  | cons frame rest =>
    cases frame with
    | subDirs other below left => exact ⟨other, below, left, rest, rfl⟩
    | topLevel | created | movedTo =>
      obtain rfl : rest = [] := hnested
      simp at hframe

theorem Attentive.of_underway (hattentive : Attentive cfg s) (habsolute : Absolute row.path)
    {name : Bytes} (hunderway : Underway s row name) :
    Promised s (joinPath row.path name) ∨ AsksFirst s.watcher (joinPath row.path name) := by
  have hfits : StackFits s.watcher.place s.watcher.stack :=
    hattentive.regular.ordered.control.fits
  cases hunderway with
  | @asked parentWd hplace =>
    have hnested : Nested s.watcher.stack := by
      rcases hplace with hplace | hplace <;> rwa [hplace] at hfits
    cases hstack : s.watcher.stack with
    | nil =>
      rw [hstack] at hnested
      exact absurd hnested id
    | cons frame rest =>
      rw [hstack] at hnested
      cases frame with
      | subDirs wd below names =>
        refine Or.inl (hattentive.promised (.nested hstack) (.place ?_) habsolute.join)
        rcases hplace with hplace | hplace <;> rw [hplace] <;> rfl
      | topLevel line =>
        exact absurd (Or.inr ⟨line, hstack ▸ List.mem_cons_self⟩) hattentive.loaded
      | created | movedTo =>
        obtain rfl : rest = [] := hnested
        exact Or.inr ⟨⟨parentWd, hplace⟩, by simp [hstack]⟩
  | opens hplace =>
    exact Or.inl ((hattentive.promised (.opens hplace) (.place (by rw [hplace]; rfl))
      habsolute).mono includes_join)
  | reads hplace =>
    exact Or.inl ((hattentive.promised (.reads hplace) (.place (by rw [hplace]; rfl))
      habsolute).mono includes_join)
  | loops hplace =>
    exact Or.inl ((hattentive.promised (.loops hplace) (.place (by rw [hplace]; rfl))
      habsolute).mono includes_join)
  | waits hframe =>
    obtain ⟨wd, below, names, rest, hstack⟩ := exists_subDirs_of_frame hfits
      (fun stop hstop ↦ hattentive.running ⟨stop, hstop⟩) hframe
    exact Or.inl ((hattentive.promised (.nested hstack) (.frame hframe) habsolute).mono
      includes_join)

/-- From a sound row the way leads on to that of a directory in it, or a report will follow. -/
theorem Attentive.follow (hattentive : Attentive cfg s) (hsound : Sound s row)
    (hwanted : Wanted cfg s row entry) (habsolute : Absolute row.path) :
    (∃ child, Sound s child ∧ child.path = joinPath row.path entry.name ∧
        ⟨child.wd, entry.dir⟩ ∈ s.kernel.watches) ∨
      Promised s (joinPath row.path entry.name) ∨ Expecting cfg s row entry := by
  by_cases hrecorded : ∃ child ∈ s.watcher.table, child.path = joinPath row.path entry.name
  · obtain ⟨child, hchild, hpath⟩ := hrecorded
    rcases hattentive.of_recorded hsound hwanted habsolute hchild hpath with
      ⟨hsoundChild, hwatch⟩ | hpromised | hexpecting
    · exact Or.inl ⟨child, hsoundChild, hpath, hwatch⟩
    · exact Or.inr (Or.inl (hpromised.mono includes_join))
    · exact Or.inr (Or.inr hexpecting)
  · have hunseen : ∀ child ∈ s.watcher.table, child.path = joinPath row.path entry.name →
        ⟨child.wd, entry.dir⟩ ∉ s.kernel.watches :=
      fun child hchild hpath ↦ absurd ⟨child, hchild, hpath⟩ hrecorded
    cases hattentive.complete.found row hsound entry hwanted with
    | announced hevent harrives =>
      exact Or.inr (Or.inr ⟨hsound, hwanted, habsolute, hunseen, .announced hevent harrives⟩)
    | recorded hchild hpath => exact absurd ⟨_, hchild, hpath⟩ hrecorded
    | underway hunderway =>
      refine Or.inr ((hattentive.of_underway habsolute hunderway).imp_right fun hfirst ↦ ?_)
      exact ⟨hsound, hwanted, habsolute, hunseen, .asked hfirst⟩

end DirWatcher.Watching
