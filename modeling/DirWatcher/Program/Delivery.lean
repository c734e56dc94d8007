import DirWatcher.Program.Turns
import DirWatcher.Watching.FileReports

/-!
The way of a report to a notification file. Unless a failed write goes unnoticed, what the
watcher reports is listed in a file that is published later, or its line is in the cache.
With the reports of changes to files, a change leads to a line.
-/

set_option autoImplicit false
set_option relaxedAutoImplicit false

namespace DirWatcher.Program

open Source Environment Foundation.FirstOccurrences Foundation.Runs Cache Watching

/-- The lines that a flush of the cache writes. -/
def cachedLines (hc : HashCache) : List Bytes :=
  (List.range hc.hashPos).filterMap fun pos ↦
    (hashCacheIter hc pos).map fun found ↦ stringAt found.2.data

theorem mem_cachedLines {hc : HashCache} {accepted : List Bytes} (hholds : Holds hc accepted)
    {data : Bytes} (hdata : data ∈ accepted) : stringAt data ∈ cachedLines hc := by
  obtain ⟨pos, hpos⟩ := List.getElem?_of_mem (mem_distinct.mpr hdata)
  have hlt : pos < hc.hashPos := by
    rw [hholds.used]
    exact (List.getElem?_eq_some_iff.mp hpos).1
  refine List.mem_filterMap.mpr ⟨pos, List.mem_range.mpr hlt, ?_⟩
  have hentry := hholds.entry pos data hpos
  rw [hashCacheIter, if_neg (not_le.mpr hlt), Option.map_some, hentry.datalen, hentry.bytes]

/-! ### A part of a run -/

variable {s later : MainLoop} {κ α : Type} {cfg : Config} {k : Kernel κ α} {kernel : κ}
  {p after : Process κ}

theorem log_prefix_of_step {label : LoopLabel} (hstep : s.step label = some later) :
    s.log <+: later.log := by
  cases (loopMove hstep).2 with
  | ticks | flushesTimer | flushesEvent | puts | refuses | hangs => exact List.prefix_append _ _
  | _ => exact List.prefix_refl _

/-- What is reported after the log has been the given one is listed in a file that is
published after that, or waits. -/
theorem listed_of_later {log more : List Happening} {waiting : List Bytes}
    (hlisted : ListedOr (log ++ more) waiting) {directory : CString}
    (hreported : directory ∈ reportedIn more) :
    (∃ lines ∈ publishedIn more, directory.bytes ∈ lines) ∨ directory.bytes ∈ waiting := by
  obtain ⟨before, rest, rfl⟩ := List.append_of_mem (mem_reportedIn.mp hreported)
  refine (hlisted (log ++ before) directory rest (by simp)).imp_left ?_
  rintro ⟨lines, hpublished, hline⟩
  exact ⟨lines, mem_publishedIn.mpr (by simp [hpublished]), hline⟩

/-- A run of the loop in which each failed write is noticed, at a place outside of a flush. -/
theorem accounted_of_reaches {notifyDir : Bytes} {hashSize memSize : ℕ} (hsize : 1 ≤ hashSize)
    {entries : ℕ → HashCacheEntry} {memory : ℕ → UInt8}
    (hreaches : ReachesWhen MainLoop.step NoticesFailures
      (.start (newNotifier notifyDir (newHashCache hashSize memSize entries memory))) s)
    (hgoing : s.stop = none) (hplace : flushAt s.place = none) :
    ∃ accepted, Accounted hashSize accepted s := by
  have hends : Doomed s ∨ ∃ accepted, Accounted hashSize accepted s := by
    refine hreaches.invariant (fun s ↦ Doomed s ∨ ∃ accepted, Accounted hashSize accepted s)
      (Or.inr ⟨_, accounted_start notifyDir hashSize memSize entries memory⟩) ?_
    intro state label next hstate hnotices hstep
    obtain ⟨hbefore, hmove⟩ := loopMove hstep
    rcases hstate with hdoomed | ⟨accepted, hacc⟩
    · exact Or.inl (hdoomed.move hbefore hmove)
    · exact hacc.move hsize hnotices hmove
  refine hends.resolve_left ?_
  rintro (hstopped | ⟨-, file, -, hflush⟩)
  · exact hstopped hgoing
  · simp [hplace] at hflush

/-- The directory is listed in a file that is published between the two states, or its line
is in the cache at the second. -/
def ListedOrCached (p later : Process κ) (directory : Bytes) : Prop :=
  (∃ file ∈ later.loop.notifier.published.drop p.loop.notifier.published.length,
      stringAt directory ∈ file.lines) ∨
    stringAt directory ∈ cachedLines later.loop.notifier.hc

theorem listedOrCached_of_reaches {condition : Process κ → ProcessLabel α → Prop}
    (hnotices : ∀ p label, condition p label → OnLoop NoticesFailures p label)
    {notifyDir : Bytes} {hashSize memSize : ℕ} (hsize : 1 ≤ hashSize)
    {entries : ℕ → HashCacheEntry} {memory : ℕ → UInt8}
    (hreaches : ReachesWhen (Process.step cfg k) condition (.start cfg kernel
      (newNotifier notifyDir (newHashCache hashSize memSize entries memory))) p)
    (hruns : ReachesWhen (Process.step cfg k) condition p after)
    (hgoing : after.loop.stop = none) (hplace : flushAt after.loop.place = none) :
    ∀ directory ∈ after.system.watcher.reports.drop p.system.watcher.reports.length,
      ListedOrCached p after directory := by
  intro directory hdirectory
  have hall := Relation.ReflTransGen.trans hreaches hruns
  obtain ⟨accepted, hacc⟩ := accounted_of_reaches hsize (reaches_loop hall hnotices) hgoing hplace
  obtain ⟨more, hmore⟩ : p.loop.log <+: after.loop.log :=
    (reaches_loop hruns hnotices).invariant (fun s ↦ p.loop.log <+: s.log) (List.prefix_refl _)
      fun _ _ _ hgrown _ hstep ↦ hgrown.trans (log_prefix_of_step hstep)
  have hagrees : reportedIn more =
      (after.system.watcher.reports.drop p.system.watcher.reports.length).map cString := by
    have hbefore := agrees_of_reaches cfg kernel _ hreaches
    have hafter := agrees_of_reaches cfg kernel _ hall
    rw [Agrees, ← hmore, reportedIn_append, hbefore] at hafter
    rw [List.map_drop, ← hafter, List.drop_left' (by simp)]
  have hpublished : publishedIn more =
      (after.loop.notifier.published.drop p.loop.notifier.published.length).map
        Publication.lines := by
    have hbefore := (published_reported_first notifyDir hashSize memSize hsize entries memory
      (reaches_loop hreaches fun _ _ _ _ _ ↦ trivial)).1
    have hafter := (published_reported_first notifyDir hashSize memSize hsize entries memory
      (reaches_loop hall fun _ _ _ _ _ ↦ trivial)).1
    rw [← hmore, publishedIn_append, hbefore] at hafter
    rw [List.map_drop, ← hafter, List.drop_left' (by simp)]
  have hlisted := hacc.listed
  rw [← hmore, waiting_of_none hplace] at hlisted
  rcases listed_of_later hlisted (hagrees ▸ List.mem_map_of_mem hdirectory) with
    ⟨lines, hlines, hline⟩ | hwaits
  · obtain ⟨file, hfile, rfl⟩ := List.mem_map.mp (hpublished ▸ hlines)
    exact Or.inl ⟨file, hfile, hline⟩
  · obtain ⟨data, hdata, hline⟩ := List.mem_map.mp hwaits
    refine Or.inr ?_
    rw [show stringAt directory = (cString directory).bytes from rfl, ← hline]
    exact mem_cachedLines hacc.holds (mem_distinct.mp hdata)

/-- Runs of the whole process over a kernel of any kind, in which each failed write is
noticed: outside of a flush, each directory that the watcher has reported since an earlier
state is listed in a file that has been published since, or its line is in the cache. -/
theorem reports_listed_or_cached (cfg : Config) (k : Kernel κ α) (kernel : κ) (notifyDir : Bytes)
    (hashSize memSize : ℕ) (hsize : 1 ≤ hashSize) (entries : ℕ → HashCacheEntry)
    (memory : ℕ → UInt8)
    (hreaches : ReachesWhen (Process.step cfg k) (OnLoop NoticesFailures) (.start cfg kernel
      (newNotifier notifyDir (newHashCache hashSize memSize entries memory))) p)
    (hruns : ReachesWhen (Process.step cfg k) (OnLoop NoticesFailures) p after)
    (hgoing : after.loop.stop = none) (hplace : flushAt after.loop.place = none) :
    ∀ directory ∈ after.system.watcher.reports.drop p.system.watcher.reports.length,
      ListedOrCached p after directory :=
  listedOrCached_of_reaches (fun _ _ hnotices ↦ hnotices) hsize hreaches hruns hgoing hplace

theorem fits_t : ∀ path ∈ [literal "/t"], path.length < maxPathLen := by decide

/-- The loop at its start, with `/t` to be watched. -/
def watchStart {κ : Type} (kernel : κ) : Process κ :=
  .start ⟨[literal "/t"], [], fits_t⟩ kernel
    (newNotifier (literal "/n") (newHashCache 4 16 (fun _ ↦ ⟨0, 0, 0, 0, 0⟩) fun _ ↦ 0))

/-- The line of a file written in `/t`, which no tick has flushed yet. -/
theorem reports_listed_or_cached_waiting :
    ∃ after : Process Unit, ReachesWhen (Process.step ⟨[literal "/t"], [], fits_t⟩ anyAnswer)
      (OnLoop NoticesFailures) (watchStart ()) after ∧
      after.system.watcher.reports = [literal "/t"] ∧ after.loop.notifier.published = [] ∧
      ListedOrCached (watchStart ()) after (literal "/t") := by
  have hrun : (runChecked (Process.step ⟨[literal "/t"], [], fits_t⟩ anyAnswer)
      (fun p label ↦ decide (OnLoop NoticesFailures p label)) (watchStart ())
      ([.internal, .internal, .answer (.watch 1), .answer .done, .answer (.names []), .internal,
        .internal, .internal].map .system ++ [.loop .next, .loop (.poll (.ready true)),
        .loop (.parent false), .loop .next, .loop .next] ++
        [.answer (.events [⟨1, inCloseWrite, 0, literal "f"⟩]), .internal, .internal,
          .internal].map .system)).map
      (fun after : Process Unit ↦ (decide (after.loop.stop = none ∧
        flushAt after.loop.place = none), after.loop.notifier.published,
        after.system.watcher.reports)) = some (true, [], [literal "/t"]) := by decide
  obtain ⟨after, hreaches, hseen⟩ := exists_reachesWhen_of_run hrun
  simp only [Prod.mk.injEq, decide_eq_true_eq] at hseen
  obtain ⟨⟨hgoing, hplace⟩, hpublished, hreports⟩ := hseen
  refine ⟨after, hreaches, hreports, hpublished, ?_⟩
  refine reports_listed_or_cached _ anyAnswer () _ 4 16 (by decide) _ _
    Relation.ReflTransGen.refl hreaches hgoing hplace _ ?_
  rw [hreports]
  exact List.mem_singleton_self _

/-! ### Changes to files -/

/-- Directories are only made, no watch is asked for twice, and a failed write is noticed. -/
structure DeliveryStep (p : Process FileSystem) (label : ProcessLabel FsAct) : Prop where
  growth : OnSystem GrowthStep p label
  notices : OnLoop NoticesFailures p label

instance (p : Process FileSystem) (label : ProcessLabel FsAct) :
    Decidable (DeliveryStep p label) :=
  decidable_of_iff (OnSystem GrowthStep p label ∧ OnLoop NoticesFailures p label)
    ⟨fun ⟨hgrowth, hnotices⟩ ↦ ⟨hgrowth, hnotices⟩, fun ⟨hgrowth, hnotices⟩ ↦ ⟨hgrowth, hnotices⟩⟩

/-- When directories are only made, no watch is asked for twice and each failed write is noticed:
a file that is written, deleted or moved in a watched directory leads to a line for just this
directory. Once the queue is drained, and outside of a flush, the line is in a file that has
been published since the change, or in the cache. -/
theorem file_changes_delivered (cfg : Config) (tree : DirTree) (notifyDir : Bytes)
    (hashSize memSize : ℕ) (hsize : 1 ≤ hashSize) (entries : ℕ → HashCacheEntry)
    (memory : ℕ → UInt8) {p changed : Process FileSystem} {event : Event}
    (hreaches : ReachesWhen (Process.step cfg fileSystem) DeliveryStep (.start cfg (.start tree)
      (newNotifier notifyDir (newHashCache hashSize memSize entries memory))) p)
    (hchange : FileChange event)
    (hstep : p.step cfg fileSystem (.system (.act (.fileEvent event))) = some changed) :
    ∃ row ∈ p.system.watcher.table, row.wd = event.wd ∧
      (∀ dir, ⟨event.wd, dir⟩ ∈ p.system.kernel.watches →
        p.system.kernel.tree.resolve row.path = some dir) ∧
      ∀ later, ReachesWhen (Process.step cfg fileSystem) DeliveryStep changed later →
        later.system.watcher.place = .poll → later.system.kernel.queue = [] →
        later.loop.stop = none → flushAt later.loop.place = none →
        ListedOrCached changed later row.path := by
  have hgrowing := growing_of_reachesWhen (reaches_system hreaches fun _ _ hstep ↦ hstep.growth)
  obtain ⟨system, hsystem, rfl⟩ := Option.map_eq_some_iff.mp hstep
  obtain ⟨row, hrow, hwd, hresolve⟩ := hgrowing.exists_row hsystem
  refine ⟨row, hrow, hwd, hresolve, fun later hlater hplace hqueue hgoing hflush ↦ ?_⟩
  have hawaiting := (reaches_system hlater fun _ _ hstep ↦ hstep.growth).invariant _
    (Awaiting.start hgrowing hrow hwd.symm hchange hsystem)
    fun _ _ _ hawaiting hgrowth hnext ↦ hawaiting.step hgrowth hnext
  have hcondition : DeliveryStep p (.system (.act (.fileEvent event))) :=
    ⟨⟨by trivial, by trivial⟩, by simp [OnLoop, Process.loopPart]⟩
  have hchanged := hreaches.tail ⟨_, hcondition, hstep⟩
  exact listedOrCached_of_reaches (fun _ _ hstep ↦ hstep.notices) hsize hchanged hlater hgoing
    hflush row.path (hawaiting.reported hplace hqueue)

/-- A file is written in `/t`, and `/t/a` is made before the event is read. -/
theorem file_changes_delivered_flushed :
    ∃ p changed later : Process FileSystem, p.system.watcher.table = [⟨1, 0, literal "/t"⟩] ∧
      p.step ⟨[literal "/t"], [], fits_t⟩ fileSystem
        (.system (.act (.fileEvent ⟨1, inCloseWrite, 0, literal "f"⟩))) = some changed ∧
      ReachesWhen (Process.step ⟨[literal "/t"], [], fits_t⟩ fileSystem) DeliveryStep changed
        later ∧
      later.loop.notifier.published = [⟨literal "/n/00000001.txt", [literal "/t"]⟩] ∧
      ListedOrCached changed later (literal "/t") := by
  have hrun : ((runChecked (Process.step ⟨[literal "/t"], [], fits_t⟩ fileSystem)
      (fun p label ↦ decide (DeliveryStep p label))
      (watchStart (.start DirTree.oneDir))
      ([.internal, .internal, .answer (.watch 1), .answer .done, .answer (.names []), .internal,
        .internal, .internal].map .system ++ [.loop .next])).bind
      fun p ↦ (p.step ⟨[literal "/t"], [], fits_t⟩ fileSystem
        (.system (.act (.fileEvent ⟨1, inCloseWrite, 0, literal "f"⟩)))).bind
      fun changed ↦ (runChecked (Process.step ⟨[literal "/t"], [], fits_t⟩ fileSystem)
        (fun p label ↦ decide (DeliveryStep p label)) changed
        ([.system (.act (.mkdir true 1 (literal "a"))), .loop (.poll (.ready true)),
          .loop (.parent false), .loop .next, .loop .next] ++
        [.answer (.events [⟨1, inCloseWrite, 0, literal "f"⟩, ⟨1, createDirMask, 0, literal "a"⟩]),
          .internal, .internal, .internal, .internal, .answer (.watch 2), .answer .done,
          .answer (.names []), .internal, .internal, .internal, .internal].map .system ++
        [.loop .sigalrm, .loop .next, .loop (.poll .timeout), .loop (.parent false), .loop .next,
          .loop .next] ++ List.replicate 5 (.loop (.flush .faultless)))).map
      fun later ↦ (decide (later.system.watcher.place = .poll ∧ later.system.kernel.queue = [] ∧
        later.loop.stop = none ∧ flushAt later.loop.place = none),
        later.loop.notifier.published, p.system.watcher.table)) =
      some (true, [⟨literal "/n/00000001.txt", [literal "/t"]⟩], [⟨1, 0, literal "/t"⟩]) := by
    decide
  obtain ⟨p, changed, later, hreaches, hstep, hlater, hseen⟩ := exists_reachesWhen_around hrun
  simp only [Prod.mk.injEq, decide_eq_true_eq] at hseen
  obtain ⟨⟨hplace, hqueue, hgoing, hflush⟩, hpublished, htable⟩ := hseen
  obtain ⟨row, hrow, -, -, hdelivered⟩ :=
    file_changes_delivered _ _ _ 4 16 (by decide) _ _ hreaches (by decide) hstep
  rw [htable, List.mem_singleton] at hrow
  obtain rfl := hrow
  exact ⟨p, changed, later, htable, hstep, hlater, hpublished,
    hdelivered later hlater hplace hqueue hgoing hflush⟩

end DirWatcher.Program
