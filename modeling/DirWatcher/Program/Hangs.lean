import DirWatcher.Program.Turns
import DirWatcher.Watching.Tables

/-!
Where the process can hang. The probes of the hash cache end, and a prune has no end only
when there is a cycle of parent links. Everything else that stops the process is its exit.
-/

set_option autoImplicit false
set_option relaxedAutoImplicit false

namespace DirWatcher.Program

open Source Environment Foundation.Runs Cache Watching

/-! ### The watcher -/

/-- The primary key, and the only reason for a prune without an end. -/
structure HangsOnCycles (w : Watcher) : Prop where
  wds : (w.table.map Row.wd).Nodup
  cycle : w.place = .stopped .loops → ∃ wd, OnWdCycle w.table wd

theorem hangsOnCycles_start (cfg : Config) : HangsOnCycles (Watcher.start cfg) where
  wds := by simp [Watcher.start]
  cycle := by simp [Watcher.start]

variable {w next : Watcher}

/-- A step that takes rows from the table, if any, and does not hang. -/
theorem HangsOnCycles.stay (hhangs : HangsOnCycles w) (hsub : next.table.Sublist w.table)
    (hplace : next.place ≠ .stopped .loops) : HangsOnCycles next where
  wds := hhangs.wds.sublist (hsub.map _)
  cycle := fun hloops ↦ absurd hloops hplace

theorem HangsOnCycles.prune (hhangs : HangsOnCycles w) {wd : Wd} {row : Option Row}
    (hstep : PruneStep w wd row next) : HangsOnCycles next := by
  cases hstep with
  | loops hprune =>
    refine ⟨hhangs.wds, fun _ ↦ ⟨wd, ?_⟩⟩
    by_contra hcycle
    obtain ⟨wds, after, hends⟩ := exists_prune_of_nodup hhangs.wds hcycle
    rw [hends] at hprune
    cases hprune
  | removes hprune => exact hhangs.stay (pruneWdDirectory_spec hprune).2.2 (by simp)

theorem HangsOnCycles.insert (hhangs : HangsOnCycles w) {row : Row}
    (hstep : InsertStep w row next) : HangsOnCycles next := by
  cases hstep with
  | clashes => exact hhangs.stay (List.Sublist.refl _) (by simp)
  | inserts hadd =>
    obtain ⟨hfree, rfl⟩ := addWdDirectory_eq_some_iff.mp hadd
    refine ⟨?_, by simp⟩
    rw [List.map_append, List.nodup_append]
    exact ⟨hhangs.wds, by simp, by simpa using fun old hold ↦ (hfree old hold).1⟩

theorem HangsOnCycles.dispatch (hhangs : HangsOnCycles w) {event : Event}
    (hstep : DispatchStep event w next) : HangsOnCycles next := by
  cases hstep with
  | forgets => exact hhangs.stay removeWdDirectory_sublist (by simp)
  | prunes cookie _ _ _ _ hprune =>
    have hcookie : HangsOnCycles { w with prevCookie := cookie } := ⟨hhangs.wds, hhangs.cycle⟩
    exact hcookie.prune hprune
  | _ => exact hhangs.stay (List.Sublist.refl _) (by simp)

theorem HangsOnCycles.internal (hhangs : HangsOnCycles w) {cfg : Config}
    (hstep : InternalStep cfg w next) : HangsOnCycles next := by
  cases hstep with
  | @takesEvent event rest _ hplace _ hdispatch =>
    refine HangsOnCycles.dispatch ?_ hdispatch
    have hbatch : HangsOnCycles { w with batch := rest } := ⟨hhangs.wds, hhangs.cycle⟩
    exact hbatch.stay (by rw [findParent_table]) (by simp [hplace])
  | insertsPruned _ hinsert => exact hhangs.insert hinsert
  | @returns result frame _ =>
    refine hhangs.stay ?_ ?_
    · cases frame <;> exact List.Sublist.refl _
    · cases frame with
      | created =>
        simp only [Watcher.returnTo]
        split_ifs <;> simp
      | _ => simp [Watcher.returnTo]
  | reports =>
    rw [report_eq]
    exact hhangs.stay (List.Sublist.refl _) (by simp)
  | _ => exact hhangs.stay (List.Sublist.refl _) (by simp [Watcher.exit])

theorem HangsOnCycles.resume (hhangs : HangsOnCycles w) {answer : Answer}
    (hstep : ResumeStep w answer next) : HangsOnCycles next := by
  cases hstep with
  | reuses _ _ hprune => exact hhangs.prune hprune
  | adds _ _ hinsert => exact hhangs.insert hinsert
  | _ => exact hhangs.stay (List.Sublist.refl _) (by simp [Watcher.exit, Watcher.startBatch])

variable {κ α : Type} {cfg : Config} {k : Kernel κ α} {p after : Process κ}

theorem hangsOnCycles_of_reaches {s : System κ} {kernel : κ}
    (hreaches : Reaches (System.step cfg k) (.start cfg kernel) s) : HangsOnCycles s.watcher := by
  refine hreaches.invariant (fun s ↦ HangsOnCycles s.watcher) (hangsOnCycles_start cfg) ?_
  intro state label after hhangs _ hstep
  cases label with
  | act action => exact (System.step_act hstep).2 ▸ hhangs
  | internal => exact hhangs.internal (internalStep (System.step_internal hstep).1)
  | answer answer =>
    obtain ⟨_, _, _, hresume⟩ := System.step_answer hstep
    exact hhangs.resume (resumeStep hresume)

/-! ### The loop -/

variable {s later : MainLoop} {hashSize : ℕ} {accepted : List Bytes}

/-- The probe of `hash_cache_add` ends in each state that a run comes to. -/
theorem hashCacheAdd_ne_none (hgenuine : Genuine hashSize accepted s) (hsize : 1 ≤ hashSize)
    (data : Bytes) : hashCacheAdd s.notifier.hc data ≠ none := by
  by_cases hrefuses : Refuses s.notifier.hc.hashSize s.notifier.hc.memSize accepted data
  · simp [hgenuine.holds.hashCacheAdd_of_refuses hrefuses]
  · obtain ⟨added, hadded, -⟩ :=
      hgenuine.holds.hashCacheAdd_of_not_refuses (hgenuine.hashSize.symm ▸ hsize) hrefuses
    simp [hadded]

theorem stop_ne_loops_of_step {label : LoopLabel} (hstep : s.step label = some later)
    (hadds : ∀ data, hashCacheAdd s.notifier.hc data ≠ none)
    (habort : ∀ stop, label ≠ .abort stop) : later.stop ≠ some .loops := by
  obtain ⟨hruns, hmove⟩ := loopMove hstep
  cases hmove with
  | hangs directory _ hadd => exact absurd hadd (hadds _)
  | stops _ stop _ _ hexits =>
    have hstop := hexits.resolve_right (habort stop)
    simpa using hstop
  | fails => simp
  | _ => simp [hruns]

/-- An `exit` of the watcher is no step of the loop here. -/
theorem loop_of_step {label : ProcessLabel α} (hstep : p.step cfg k label = some after) :
    after.loop = p.loop ∨
      ∃ part, (∀ stop, part ≠ .abort stop) ∧ p.loop.step part = some after.loop := by
  cases processMove hstep with
  | acts | watches => exact Or.inl rfl
  | shares _ _ hpart _ hloop =>
    refine Or.inr ⟨_, ?_, hloop⟩
    rintro stop rfl
    unfold shared at hpart
    split at hpart
    · split_ifs at hpart
      cases hpart
    · obtain ⟨_, _, hreport⟩ := Option.map_eq_some_iff.mp hpart
      cases hreport
    · cases hpart
  | loops hallows _ hloop =>
    refine Or.inr ⟨_, ?_, hloop⟩
    rintro stop rfl
    cases hallows

theorem stop_ne_loops_of_reaches {kernel : κ} {notifyDir : Bytes} {memSize : ℕ}
    (hsize : 1 ≤ hashSize) {entries : ℕ → HashCacheEntry} {memory : ℕ → UInt8}
    (hreaches : Reaches (Process.step cfg k) (.start cfg kernel
      (newNotifier notifyDir (newHashCache hashSize memSize entries memory))) p) :
    p.loop.stop ≠ some .loops := by
  refine (hreaches.invariant
    (fun p ↦ (∃ accepted, Genuine hashSize accepted p.loop) ∧ p.loop.stop ≠ some .loops)
    ⟨⟨_, genuine_start notifyDir hashSize memSize entries memory⟩, nofun⟩ ?_).2
  rintro state label next ⟨⟨accepted, hgenuine⟩, hstop⟩ _ hstep
  rcases loop_of_step hstep with hsame | ⟨part, habort, hloop⟩
  · exact hsame ▸ ⟨⟨accepted, hgenuine⟩, hstop⟩
  · exact ⟨hgenuine.move hsize (loopMove hloop).2,
      stop_ne_loops_of_step hloop (hashCacheAdd_ne_none hgenuine hsize) habort⟩

/-! ### The process -/

/-- `main` has returned, or `exit` has been called. -/
def Process.exited (p : Process κ) : Bool :=
  p.finished && p.system.watcher.place != .stopped .loops && p.loop.stop != some .loops

/-- `prune_wd_directory` follows a cycle of parent links for ever. -/
def HangsInPrune (p : Process κ) : Prop :=
  p.system.watcher.place = .stopped .loops ∧ ∃ wd, OnWdCycle p.system.watcher.table wd

/-- A process that does not go on has exited, or hangs in a prune. -/
theorem exited_or_hangs {kernel : κ} {notifyDir : Bytes} {memSize : ℕ} (hsize : 1 ≤ hashSize)
    {entries : ℕ → HashCacheEntry} {memory : ℕ → UInt8}
    (hreaches : Reaches (Process.step cfg k) (.start cfg kernel
      (newNotifier notifyDir (newHashCache hashSize memSize entries memory))) p)
    (hfinished : p.finished = true) : p.exited = true ∨ HangsInPrune p := by
  have hsystem : Reaches (System.step cfg k) _ p.system :=
    reaches_system hreaches fun _ label _ ↦ by cases label <;> trivial
  by_cases hplace : p.system.watcher.place = .stopped .loops
  · exact Or.inr ⟨hplace, (hangsOnCycles_of_reaches hsystem).cycle hplace⟩
  · have hstop := stop_ne_loops_of_reaches hsize hreaches
    exact Or.inl (by simp [Process.exited, hfinished, hplace, hstop])

end DirWatcher.Program
