import DirWatcher.Cache.LoopSteps
import DirWatcher.Foundation.Runs

/-!
No tick of the timer is lost. `SIGALRM` sets `flush_now`, which only the main loop resets,
between the test that has found it set and a flush. So a directory that has been in the
cache since before a tick is there with `flush_now` set or a flush under way, until the cache
is cleared.
-/

set_option autoImplicit false
set_option relaxedAutoImplicit false

namespace DirWatcher.Cache

open Source Foundation.FirstOccurrences Foundation.Runs

variable {s after : MainLoop} {directory : CString}

/-! ### What is in the cache -/

/-- The directory is one of the items that `hash_cache_iter` hands out. -/
def InCache (hc : HashCache) (directory : CString) : Prop :=
  ∃ pos < hc.hashPos, (hashCacheIter hc pos).map (fun found ↦ found.2.data) =
    some directory.terminated

instance (hc : HashCache) (directory : CString) : Decidable (InCache hc directory) := by
  unfold InCache
  infer_instance

/-- The directories in the cache are those that it has accepted. -/
theorem Holds.inCache_iff {hc : HashCache} {accepted : List Bytes} (hholds : Holds hc accepted) :
    InCache hc directory ↔ directory.terminated ∈ accepted := by
  constructor
  · rintro ⟨pos, hpos, hfound⟩
    obtain ⟨data, hiter, hdrop⟩ := hholds.exists_iter hpos
    rw [hiter, Option.map_some, Option.some_inj] at hfound
    rw [← hfound]
    exact mem_distinct.mp (List.mem_of_mem_drop (hdrop ▸ List.mem_cons_self))
  · intro hmem
    obtain ⟨pos, hpos⟩ := List.mem_iff_getElem?.mp (mem_distinct.mpr hmem)
    have hlt : pos < hc.hashPos := by
      rw [hholds.used]
      exact (List.getElem?_eq_some_iff.mp hpos).1
    have hentry := hholds.entry pos _ hpos
    refine ⟨pos, hlt, ?_⟩
    simp [hashCacheIter, not_le.mpr hlt, hentry.datalen, hentry.bytes]

theorem not_inCache_clear (hc : HashCache) : ¬ InCache (hashCacheClear hc) directory := by
  rintro ⟨pos, hpos, -⟩
  exact Nat.not_lt_zero pos hpos

/-! ### The invariant -/

/-- The main loop has found `flush_now` set and has not come to `hash_cache_clear`. -/
def BeforeClear : LoopPlace → Prop
  | .flushReset _ => True
  | .timerFlush _ (.closing _) => False
  | .timerFlush _ _ => True
  | _ => False

/-- If the directory is in the cache, it will be flushed. -/
def Due (directory : CString) (s : MainLoop) : Prop :=
  InCache s.notifier.hc directory → s.flushNow = true ∨ BeforeClear s.place

/-- The flush after the reset of `flush_now` clears the cache or goes on. -/
theorem beforeClear_of_flushMove {io : FlushIo} {notifier next : Notifier} {result : PollResult}
    {place : FlushPlace} {following : Option FlushPlace}
    (hbefore : BeforeClear (.timerFlush result place))
    (hmove : FlushMove io notifier place next following) (hin : InCache next.hc directory) :
    BeforeClear (following.elim (.switch result) (.timerFlush result)) := by
  cases hmove with
  | opens => trivial
  | finishes => trivial
  | prints => trivial
  | clears => exact absurd hin (not_inCache_clear _)
  | closes => exact hbefore.elim

/-- A step that leaves `flush_now` alone, at a place with no flush of the timer ahead. -/
theorem Due.elsewhere (hdue : Due directory s) (hin : InCache s.notifier.hc directory)
    (hplace : ¬ BeforeClear s.place) (hflag : after.flushNow = s.flushNow) :
    Due directory after := by
  intro _
  have hset := (hdue hin).resolve_right hplace
  exact Or.inl (hflag.trans hset)

/-- A step from a state in which the directory is in the cache. -/
theorem Due.move {label : LoopLabel} (hdue : Due directory s)
    (hin : InCache s.notifier.hc directory) (hmove : LoopMove s label after) :
    Due directory after := by
  cases hmove with
  | terminates | setsErrno | fails | stops | hangs => exact hdue
  | ticks => exact fun _ ↦ Or.inl rfl
  | sees => exact fun _ ↦ Or.inr trivial
  | resets => exact fun _ ↦ Or.inr trivial
  | flushesTimer io hplace hmove =>
    intro hafter
    refine (hdue hin).imp_right fun hbefore ↦ ?_
    rw [hplace] at hbefore
    exact beforeClear_of_flushMove hbefore hmove hafter
  | polls hplace | ends hplace | polled _ _ hplace | checks _ hplace | passes hplace
  | flushesEvent _ hplace | switches _ hplace | endsBatch hplace | puts _ hplace
  | refuses _ hplace =>
    exact hdue.elsewhere hin (by simp [hplace, BeforeClear]) rfl

/-! ### Runs -/

theorem flushNow_of_sigalrm (htick : s.step .sigalrm = some after) : after.flushNow = true := by
  unfold MainLoop.step at htick
  split_ifs at htick
  cases htick
  rfl

/-- In a run from any state, with `SIGALRM` delivered at any point between the steps of the
main loop, of a flush and of the events: as long as a directory that is in the cache at a tick
stays there, `flush_now` is set or the main loop has found it set and has not yet come to the
`hash_cache_clear` of the flush that follows. -/
theorem ticks_not_lost {before ticked s : MainLoop} (directory : CString)
    (htick : before.step .sigalrm = some ticked)
    (hstays : ReachesWhen MainLoop.step (fun s _ ↦ InCache s.notifier.hc directory) ticked s)
    (hlast : InCache s.notifier.hc directory) : s.flushNow = true ∨ BeforeClear s.place := by
  have hticked : Due directory ticked := fun _ ↦ Or.inl (flushNow_of_sigalrm htick)
  exact hstays.invariant (Due directory) hticked
    (fun _ _ _ hdue hin hstep ↦ hdue.move hin (loopMove hstep).2) hlast

/-- The tick comes between the test of `flush_now` and the events of the next batch, with a
directory in the cache. -/
theorem ticks_not_lost_later :
    ∃ before ticked s : MainLoop, Reaches MainLoop.step
      (.start (newNotifier [47, 110] (newHashCache 2 4 (fun _ ↦ ⟨0, 0, 0, 0, 0⟩) fun _ ↦ 0)))
        before ∧
      InCache before.notifier.hc ⟨[47, 97], by decide⟩ ∧ before.step .sigalrm = some ticked ∧
      s.place = .flushTest .timeout ∧ s.flushNow = true := by
  have hrun : ((runChecked MainLoop.step (fun _ _ ↦ decide True)
      (.start (newNotifier [47, 110] (newHashCache 2 4 (fun _ ↦ ⟨0, 0, 0, 0, 0⟩) fun _ ↦ 0)))
      [.next, .poll (.ready true), .parent false, .next, .next,
        .report ⟨[47, 97], by decide⟩, .endBatch, .next]).bind
      fun before ↦ (before.step .sigalrm).bind fun ticked ↦ (runChecked MainLoop.step
        (fun s _ ↦ decide (InCache s.notifier.hc ⟨[47, 97], by decide⟩)) ticked
        [.poll .timeout, .parent false]).map fun s ↦
          (decide (InCache before.notifier.hc ⟨[47, 97], by decide⟩),
            decide (InCache s.notifier.hc ⟨[47, 97], by decide⟩), s.place)) =
      some (true, true, .flushTest .timeout) := by decide
  obtain ⟨before, ticked, s, hreaches, htick, hstays, hseen⟩ := exists_reachesWhen_around hrun
  simp only [Prod.mk.injEq, decide_eq_true_eq] at hseen
  obtain ⟨hin, hlast, hplace⟩ := hseen
  refine ⟨before, ticked, s, hreaches, hin, htick, hplace, ?_⟩
  have hdue := ticks_not_lost ⟨[47, 97], by decide⟩ htick hstays hlast
  exact hdue.resolve_right (by simp [hplace, BeforeClear])

end DirWatcher.Cache
