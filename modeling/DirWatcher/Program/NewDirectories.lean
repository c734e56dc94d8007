import DirWatcher.Program.Delivery
import DirWatcher.Watching.Reports

/-!
The way of a new directory to a notification file. What is made in a watched directory can lie
in it before the watcher sees it, so that a line for the directory above it, or for one further
up, has to follow.
-/

set_option autoImplicit false
set_option relaxedAutoImplicit false

namespace DirWatcher.Program

open Source Environment Foundation.Runs Cache Watching

/-- A directory that is chased has been reported when nothing is left to be read. -/
theorem reported_of_chased {cfg : Config} {before : List Bytes} {row : Row} {entry : Entry}
    {s : System FileSystem} (hchased : Chased cfg before row entry s)
    (hplace : s.watcher.place = .poll) (hqueue : s.kernel.queue = []) :
    Reported before row s.watcher := by
  have hcontrol : Control s.watcher := hchased.growing.steady.ordered.control
  rcases hchased.owed with ⟨stop, hstop⟩ | hreported | howed
  · simp [hplace] at hstop
  · exact hreported
  · cases howed with
    | announced hevent =>
      change _ ∈ s.watcher.batch ++ s.kernel.queue at hevent
      rw [hcontrol.idle (Or.inl hplace), hqueue] at hevent
      cases hevent
    | asked hother => simp [hplace] at hother
    | committed hcommitted => exact absurd (by simp [hplace]) (hcommitted.not_idle hcontrol.fits)

/-- Directories are only made, no watch is asked for twice, no path of a new directory is cut
off, and a failed write is noticed. -/
structure WholeDeliveryStep (p : Process FileSystem) (label : ProcessLabel FsAct) : Prop where
  growth : OnSystem WholeGrowthStep p label
  notices : OnLoop NoticesFailures p label

/-- And the directory at a path is not recorded by the scan of a line of the config file. -/
structure NewDirectoryStep (path : Bytes) (p : Process FileSystem) (label : ProcessLabel FsAct) :
    Prop where
  unscanned : OnSystem (UnscannedStep path) p label
  notices : OnLoop NoticesFailures p label

instance (p : Process FileSystem) (label : ProcessLabel FsAct) :
    Decidable (WholeDeliveryStep p label) :=
  decidable_of_iff (OnSystem WholeGrowthStep p label ∧ OnLoop NoticesFailures p label)
    ⟨fun ⟨hgrowth, hnotices⟩ ↦ ⟨hgrowth, hnotices⟩, fun ⟨hgrowth, hnotices⟩ ↦ ⟨hgrowth, hnotices⟩⟩

instance (path : Bytes) (p : Process FileSystem) (label : ProcessLabel FsAct) :
    Decidable (NewDirectoryStep path p label) :=
  decidable_of_iff (OnSystem (UnscannedStep path) p label ∧ OnLoop NoticesFailures p label)
    ⟨fun ⟨hunscanned, hnotices⟩ ↦ ⟨hunscanned, hnotices⟩,
      fun ⟨hunscanned, hnotices⟩ ↦ ⟨hunscanned, hnotices⟩⟩

/-- When directories are only made, no watch is asked for twice, no path of a new directory is
cut off and each failed write is noticed: a readable directory that is not refused for its path
and is made in a watched one leads to a line for that one or for one above it, unless the
start-up scan records it after it has been made. Once the queue is drained, and outside of a
flush, the line is in a file that has been published since, or in the cache. -/
theorem new_directories_delivered (cfg : Config) (tree : DirTree) (notifyDir : Bytes)
    (hashSize memSize : ℕ) (hsize : 1 ≤ hashSize) (entries : ℕ → HashCacheEntry)
    (memory : ℕ → UInt8) {p made : Process FileSystem} {wd : Wd} {parent : Dir} {name : Bytes}
    {readable : Bool}
    (hreaches : ReachesWhen (Process.step cfg fileSystem) WholeDeliveryStep
      (.start cfg (.start tree)
        (newNotifier notifyDir (newHashCache hashSize memSize entries memory))) p)
    (hwatch : ⟨wd, parent⟩ ∈ p.system.kernel.watches)
    (hmkdir : p.step cfg fileSystem (.system (.act (.mkdir readable parent name))) = some made)
    (hreadable : p.system.kernel.tree.next ∉ made.system.kernel.tree.unreadable) :
    ∃ row ∈ p.system.watcher.table, row.wd = wd ∧
      p.system.kernel.tree.resolve row.path = some parent ∧
      (refusesPath cfg (joinPath row.path name) = false →
        ∀ later, ReachesWhen (Process.step cfg fileSystem)
            (NewDirectoryStep (joinPath row.path name)) made later →
          later.system.watcher.place = .poll → later.system.kernel.queue = [] →
          later.loop.stop = none → flushAt later.loop.place = none →
          ∃ directory, (directory = row.path ∨ AbovePath directory row.path) ∧
            ListedOrCached made later directory) := by
  obtain ⟨hgrowing, hbeneath⟩ := beneath_of_reachesWhen
    (reaches_system hreaches fun _ _ hstep ↦ hstep.growth)
  obtain ⟨row, hrow, rfl⟩ := hgrowing.recorded wd (p.system.kernel.known _ hwatch).1
  refine ⟨row, hrow, rfl, (hgrowing.accurate row hrow).resolve_eq hwatch,
    fun hpath later hlater hplace hqueue hgoing hflush ↦ ?_⟩
  obtain ⟨system, hsystem, rfl⟩ := Option.map_eq_some_iff.mp hmkdir
  have hstart := Chased.start hgrowing hbeneath hrow hwatch hsystem hreadable hpath
  have hchased := (reaches_system hlater fun _ _ hstep ↦ hstep.unscanned).invariant _ hstart
    fun _ _ _ hchased hcondition hstep ↦ hchased.step hcondition hstep
  obtain ⟨more, hmore, directory, hdirectory, habove⟩ := reported_of_chased hchased hplace hqueue
  refine ⟨directory, habove, ?_⟩
  have hnotices : OnLoop NoticesFailures p
      (.system (.act (FsAct.mkdir readable parent name))) := by
    simp [OnLoop, Process.loopPart]
  have hmade : ReachesWhen (Process.step cfg fileSystem) (OnLoop NoticesFailures) _ _ :=
    (hreaches.mono fun _ _ hstep ↦ hstep.notices).tail ⟨_, hnotices, hmkdir⟩
  refine listedOrCached_of_reaches (fun _ _ hstep ↦ hstep) hsize hmade
    (hlater.mono fun _ _ hstep ↦ hstep.notices) hgoing hflush directory ?_
  rw [hmore, List.drop_left]
  exact hdirectory

/-- `/t/a` is made when the start-up scan is over. -/
theorem new_directories_delivered_flushed :
    ∃ p made later : Process FileSystem, p.system.watcher.table = [⟨1, 0, literal "/t"⟩] ∧
      p.step ⟨[literal "/t"], [], fits_t⟩ fileSystem
        (.system (.act (.mkdir true 1 (literal "a")))) = some made ∧
      ReachesWhen (Process.step ⟨[literal "/t"], [], fits_t⟩ fileSystem)
        (NewDirectoryStep (literal "/t/a")) made later ∧
      later.loop.notifier.published = [⟨literal "/n/00000001.txt", [literal "/t"]⟩] ∧
      ∃ directory, (directory = literal "/t" ∨ AbovePath directory (literal "/t")) ∧
        ListedOrCached made later directory := by
  have hrun : ((runChecked (Process.step ⟨[literal "/t"], [], fits_t⟩ fileSystem)
      (fun p label ↦ decide (WholeDeliveryStep p label))
      (watchStart (.start DirTree.oneDir))
      ([.internal, .internal, .answer (.watch 1), .answer .done, .answer (.names []), .internal,
        .internal, .internal].map .system ++ [.loop .next])).bind
      fun p ↦ (p.step ⟨[literal "/t"], [], fits_t⟩ fileSystem
        (.system (.act (.mkdir true 1 (literal "a"))))).bind
      fun made ↦ (runChecked (Process.step ⟨[literal "/t"], [], fits_t⟩ fileSystem)
        (fun p label ↦ decide (NewDirectoryStep (literal "/t/a") p label)) made
        ([.loop (.poll (.ready true)), .loop (.parent false), .loop .next, .loop .next] ++
        [.answer (.events [⟨1, createDirMask, 0, literal "a"⟩]), .internal, .internal,
          .answer (.watch 2), .answer .done, .answer (.names []), .internal, .internal, .internal,
          .internal].map .system ++
        [.loop .sigalrm, .loop .next, .loop (.poll .timeout), .loop (.parent false), .loop .next,
          .loop .next] ++ List.replicate 5 (.loop (.flush .faultless)))).map
      fun later ↦ (decide (⟨1, 1⟩ ∈ p.system.kernel.watches ∧ p.system.kernel.tree.next = 2 ∧
        made.system.kernel.tree.unreadable = [] ∧ later.system.watcher.place = .poll ∧
        later.system.kernel.queue = [] ∧ later.loop.stop = none ∧ flushAt later.loop.place = none),
        later.loop.notifier.published, p.system.watcher.table)) =
      some (true, [⟨literal "/n/00000001.txt", [literal "/t"]⟩], [⟨1, 0, literal "/t"⟩]) := by
    decide
  obtain ⟨p, made, later, hreaches, hmkdir, hlater, hseen⟩ := exists_reachesWhen_around hrun
  simp only [Prod.mk.injEq, decide_eq_true_eq] at hseen
  obtain ⟨⟨hwatch, hnext, hreadable, hplace, hqueue, hgoing, hflush⟩, hpublished, htable⟩ := hseen
  obtain ⟨row, hrow, -, -, hdelivered⟩ :=
    new_directories_delivered _ _ _ 4 16 (by decide) _ _ hreaches hwatch hmkdir
      (by simp [hreadable])
  rw [htable, List.mem_singleton] at hrow
  obtain rfl := hrow
  exact ⟨p, made, later, htable, hmkdir, hlater, hpublished,
    hdelivered (by decide) later hlater hplace hqueue hgoing hflush⟩

end DirWatcher.Program
