import DirWatcher.Environment.Interface
import DirWatcher.Watching.Steps
import DirWatcher.Watching.Tables

/-!
The table never refuses an `INSERT`, and its two lookups undo each other. Between
the test for a recorded path and the `INSERT` the table only loses rows, and a row
that has the watch descriptor of the kernel's answer is pruned before. All recorded
paths fit in the buffer of a path, so that no lookup cuts one off.
-/

set_option autoImplicit false
set_option relaxedAutoImplicit false

namespace DirWatcher.Watching

open Source Environment Foundation.Runs

/-- What `add_watch` has made sure of at a place in the code. -/
def Checked (table : Table) : Place → Prop
  | .addWatch _ path => path.length < maxPathLen
  | .inotifyAddWatch _ path => path.length < maxPathLen ∧ ∀ row ∈ table, row.path ≠ path
  | .removePrunedWds _ (some row) =>
    0 < row.wd ∧ row.path.length < maxPathLen ∧ Free table row
  | .stopped .sqlError => False
  | _ => True

structure KeysKept (w : Watcher) : Prop where
  keyed : Keyed w.table
  short : ∀ row ∈ w.table, row.path.length < maxPathLen
  lines : ∀ line ∈ w.lines, line.length < maxPathLen
  checked : Checked w.table w.place

theorem keysKept_start (cfg : Config) : KeysKept (Watcher.start cfg) where
  keyed := keyed_nil
  short := by simp [Watcher.start]
  lines := cfg.fits
  checked := trivial

variable {cfg : Config} {w after : Watcher}

/-- The `INSERT` of a row whose keys are both free. -/
theorem InsertStep.eq_of_free {row : Row} (hfree : Free w.table row)
    (hstep : InsertStep w row after) :
    after = { w with table := w.table ++ [row], place := .opendir row.wd row.path } := by
  cases hstep with
  | clashes hadd => exact absurd hfree (addWdDirectory_eq_none_iff.mp hadd)
  | inserts hadd =>
    obtain ⟨-, rfl⟩ := addWdDirectory_eq_some_iff.mp hadd
    rfl

theorem KeysKept.insert (hkept : KeysKept w) {row : Row} (hpositive : 0 < row.wd)
    (hshort : row.path.length < maxPathLen) (hfree : Free w.table row)
    (hstep : InsertStep w row after) : KeysKept after := by
  obtain rfl := hstep.eq_of_free hfree
  refine ⟨hkept.keyed.insert hfree hpositive, ?_, hkept.lines, trivial⟩
  intro old hold
  rcases List.mem_append.mp hold with hmem | hnew
  · exact hkept.short old hmem
  · rwa [List.mem_singleton.mp hnew]

/-- A table that has lost rows is as good. -/
theorem KeysKept.sublist (hkept : KeysKept w) {table : Table} {place : Place}
    {cookie : UInt32} (hsub : table.Sublist w.table) (hchecked : Checked table place) :
    KeysKept { w with table, place, prevCookie := cookie } where
  keyed := hkept.keyed.sublist hsub
  short := fun row hrow ↦ hkept.short row (hsub.subset hrow)
  lines := hkept.lines
  checked := hchecked

theorem KeysKept.prune (hkept : KeysKept w) {wd : Wd} {row : Option Row}
    (hrow : ∀ new ∈ row, wd = new.wd ∧ 0 < new.wd ∧ new.path.length < maxPathLen ∧
      ∀ old ∈ w.table, old.path ≠ new.path)
    (hstep : PruneStep w wd row after) : KeysKept after := by
  cases hstep with
  | loops => exact hkept.sublist (List.Sublist.refl _) trivial
  | removes hprune =>
    obtain ⟨hwds, hmem, hsub⟩ := pruneWdDirectory_spec hprune
    refine hkept.sublist hsub ?_
    cases row with
    | none => exact trivial
    | some new =>
      obtain ⟨rfl, hpositive, hshort, hpaths⟩ := hrow new rfl
      refine ⟨hpositive, hshort, fun old hold ↦ ?_⟩
      obtain ⟨hold, hkeptWd⟩ := (hmem old).mp hold
      refine ⟨?_, hpaths old hold⟩
      rintro hwd
      exact hkeptWd ((hwds old.wd).mpr (hwd ▸ Relation.ReflTransGen.refl))

theorem KeysKept.dispatch (hkept : KeysKept w) {event : Event}
    (hstep : DispatchStep event w after) : KeysKept after := by
  cases hstep with
  | exits => exact hkept.sublist (List.Sublist.refl _) trivial
  | skips => exact hkept.sublist (List.Sublist.refl _) trivial
  | forgets => exact hkept.sublist removeWdDirectory_sublist trivial
  | reports => exact hkept.sublist (List.Sublist.refl _) trivial
  | watches =>
    refine ⟨hkept.keyed, hkept.short, hkept.lines, ?_⟩
    rw [Checked, List.length_take]
    exact lt_of_le_of_lt (min_le_left _ _) (by decide)
  | movesUnrecorded => exact hkept.sublist (List.Sublist.refl _) trivial
  | prunes cookie _ _ _ _ hprune =>
    have hcookie : KeysKept { w with prevCookie := cookie } :=
      hkept.sublist (List.Sublist.refl _) hkept.checked
    exact hcookie.prune (by simp) hprune

theorem KeysKept.internal (hkept : KeysKept w) (hstep : InternalStep cfg w after) :
    KeysKept after := by
  cases hstep with
  | readsLine _ hlines =>
    refine ⟨hkept.keyed, hkept.short, fun line hline ↦ ?_, ?_⟩
    · exact hkept.lines line (hlines ▸ List.mem_cons_of_mem _ hline)
    · exact hkept.lines _ (hlines ▸ List.mem_cons_self)
  | startsPolling => exact hkept.sublist (List.Sublist.refl _) trivial
  | takesEvent hplace hbatch hdispatch =>
    refine KeysKept.dispatch ?_ hdispatch
    unfold Watcher.findParent
    split_ifs <;> exact ⟨hkept.keyed, hkept.short, hkept.lines, hkept.checked⟩
  | refuses => exact hkept.sublist (List.Sublist.refl _) trivial
  | requests hplace _ hfind =>
    have hchecked := hkept.checked
    rw [hplace] at hchecked
    refine hkept.sublist (List.Sublist.refl _) ⟨hchecked, fun row hrow ↦ ?_⟩
    exact hkept.keyed.not_recorded_of_findDirectoryWd hfind hrow
  | finishesPrune => exact hkept.sublist (List.Sublist.refl _) trivial
  | insertsPruned hplace hinsert =>
    have hchecked := hkept.checked
    rw [hplace] at hchecked
    exact hkept.insert hchecked.1 hchecked.2.1 hchecked.2.2 hinsert
  | finishesSubDirs => exact hkept.sublist (List.Sublist.refl _) trivial
  | descends _ hlength => exact ⟨hkept.keyed, hkept.short, hkept.lines, hlength⟩
  | overflows => exact hkept.sublist (List.Sublist.refl _) trivial
  | @returns result frame rest hplace hstack =>
    cases frame with
    | created =>
      refine ⟨hkept.keyed, hkept.short, hkept.lines, ?_⟩
      change Checked w.table (if result ≠ 0 then .nextEvent else .report)
      split_ifs <;> exact trivial
    | _ => exact ⟨hkept.keyed, hkept.short, hkept.lines, trivial⟩
  | reports =>
    rw [report_eq]
    exact ⟨hkept.keyed, hkept.short, hkept.lines, trivial⟩

theorem KeysKept.resume (hkept : KeysKept w) {answer : Answer} (hstep : ResumeStep w answer after)
    (hpositive : ∀ wd, answer = .watch wd → 0 < wd) : KeysKept after := by
  have hchecked := hkept.checked
  cases hstep with
  | reads => exact ⟨hkept.keyed, hkept.short, hkept.lines, trivial⟩
  | exits => exact hkept.sublist (List.Sublist.refl _) trivial
  | @reuses parentWd path wd _ hplace _ hprune =>
    rw [hplace] at hchecked
    refine KeysKept.prune hkept ?_ hprune
    rintro new ⟨⟩
    exact ⟨rfl, hpositive wd rfl, hchecked.1, hchecked.2⟩
  | @adds parentWd path wd _ hplace hexists hinsert =>
    rw [hplace] at hchecked
    refine hkept.insert (hpositive wd rfl) hchecked.1 (fun old hold ↦ ?_) hinsert
    exact ⟨wdDirectoryExists_eq_false_iff.mp hexists old hold, hchecked.2 old hold⟩
  | missed => exact hkept.sublist (List.Sublist.refl _) trivial
  | @removes wd rest row _ hplace _ =>
    rw [hplace] at hchecked
    refine hkept.sublist (List.Sublist.refl _) ?_
    cases row with
    | none => exact trivial
    | some row => exact hchecked
  | opens => exact hkept.sublist (List.Sublist.refl _) trivial
  | opensNothing => exact hkept.sublist (List.Sublist.refl _) trivial
  | lists => exact hkept.sublist (List.Sublist.refl _) trivial

theorem keysKept_of_reaches {s : System Unit}
    (hreaches : Reaches (System.step cfg anyAnswer) (System.start cfg ()) s) :
    KeysKept s.watcher := by
  refine hreaches.invariant (fun s ↦ KeysKept s.watcher) (keysKept_start cfg)
    fun s label next hkept _ hstep ↦ ?_
  cases label with
  | act action => exact nomatch action
  | internal => exact hkept.internal (internalStep (System.step_internal hstep).1)
  | answer answer =>
    obtain ⟨call, -, hserve, hresume⟩ := System.step_answer hstep
    refine hkept.resume (resumeStep hresume) ?_
    rintro wd rfl
    exact anyAnswer_watch hserve

/-- In a run with arbitrary events and arbitrary answers, each watch descriptor a
positive number, no `INSERT` is refused, and in every state on the way the lookup
by watch descriptor gives the whole path of a row and the lookup by path gives its
watch descriptor. -/
theorem lookups_inverse (cfg : Config) {s : System Unit}
    (hreaches : Reaches (System.step cfg anyAnswer) (System.start cfg ()) s) :
    s.watcher.place ≠ .stopped .sqlError ∧
      ∀ row ∈ s.watcher.table,
        findWdDirectory s.watcher.table row.wd maxPathLen = some row.path ∧
          findDirectoryWd s.watcher.table row.path = row.wd := by
  have hkept := keysKept_of_reaches hreaches
  constructor
  · intro hplace
    have hchecked := hkept.checked
    rw [hplace] at hchecked
    exact hchecked
  · intro row hrow
    rw [hkept.keyed.findWdDirectory_eq hrow, hkept.keyed.findDirectoryWd_eq hrow,
      List.take_of_length_le (hkept.short row hrow).le]
    exact ⟨rfl, rfl⟩

/-- The start-up scan of a directory `/t` with one sub-directory `a`. -/
theorem lookups_inverse_subDir :
    ∃ s, Reaches (System.step ⟨[[47, 116]], [], by decide⟩ anyAnswer)
        (System.start ⟨[[47, 116]], [], by decide⟩ ()) s ∧
      s.watcher.table = [⟨1, 0, [47, 116]⟩, ⟨2, 1, [47, 116, 47, 97]⟩] ∧
      findWdDirectory s.watcher.table 2 maxPathLen = some [47, 116, 47, 97] ∧
      findDirectoryWd s.watcher.table [47, 116, 47, 97] = 2 := by
  have hrun : (run (System.step ⟨[[47, 116]], [], by decide⟩ anyAnswer)
      (System.start ⟨[[47, 116]], [], by decide⟩ ())
      [.internal, .internal, .answer (.watch 1), .answer .done, .answer (.names [[97]]),
        .internal, .internal, .answer (.watch 2)]).map (fun s : System Unit ↦ s.watcher.table) =
      some [⟨1, 0, [47, 116]⟩, ⟨2, 1, [47, 116, 47, 97]⟩] := by decide
  obtain ⟨s, hreaches, htable⟩ := exists_reaches_of_run hrun
  exact ⟨s, hreaches, htable,
    (lookups_inverse _ hreaches).2 ⟨2, 1, [47, 116, 47, 97]⟩ (by rw [htable]; simp)⟩

end DirWatcher.Watching
