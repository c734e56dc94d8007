import DirWatcher.Watching.Orderly

/-!
The test on the cookies of moves. The watcher remembers the cookie of the last move event that
it has processed, from one batch to the next, and stops at an `IN_MOVED_FROM` with that cookie.
This finds an `IN_MOVED_FROM` after its `IN_MOVED_TO` if no other move event stands between the
two.
-/

set_option autoImplicit false
set_option relaxedAutoImplicit false

namespace DirWatcher.Watching

open Source Environment Foundation.Runs

/-! ### Streams of events -/

/-- The event is processed as the one half of a move or as the other. -/
def HalfMove (event : Event) : Prop := event.branch = .movedFrom ∨ event.branch = .movedTo

instance : DecidablePred HalfMove := fun event ↦
  inferInstanceAs (Decidable (event.branch = .movedFrom ∨ event.branch = .movedTo))

def moves (events : List Event) : List Event := events.filter fun event ↦ HalfMove event

/-- The cookies of a stream as inotify gives them: none of a move is zero, and each belongs to
one move. -/
structure CookiesUnique (events : List Event) : Prop where
  nonzero : ∀ event ∈ moves events, event.cookie ≠ 0
  movedFrom : ((events.filter fun event ↦ event.branch = .movedFrom).map Event.cookie).Nodup
  movedTo : ((events.filter fun event ↦ event.branch = .movedTo).map Event.cookie).Nodup

/-- The two halves of a move. -/
structure SameMove (moveTo moveFrom : Event) : Prop where
  arrives : moveTo.branch = .movedTo
  departs : moveFrom.branch = .movedFrom
  cookie : moveTo.cookie = moveFrom.cookie

/-- Some `IN_MOVED_FROM` comes after the `IN_MOVED_TO` with its cookie. -/
def Misordered (events : List Event) : Prop :=
  ∃ moveTo moveFrom, SameMove moveTo moveFrom ∧ [moveTo, moveFrom].Sublist events

/-- Some `IN_MOVED_FROM` comes after the `IN_MOVED_TO` with its cookie, and no other move event
comes between them. -/
def DirectlyMisordered (events : List Event) : Prop :=
  ∃ moveTo moveFrom, SameMove moveTo moveFrom ∧ [moveTo, moveFrom] <:+: moves events

theorem DirectlyMisordered.misordered {events : List Event}
    (hdirectly : DirectlyMisordered events) : Misordered events := by
  obtain ⟨moveTo, moveFrom, hsame, hinfix⟩ := hdirectly
  exact ⟨moveTo, moveFrom, hsame, hinfix.sublist.trans List.filter_sublist⟩

/-! ### What the last cookie tells -/

/-- The cookie of the last move event of a stream, or the initial value of `prev_cookie`. -/
def lastCookie (events : List Event) : UInt32 :=
  ((moves events).getLast?.map Event.cookie).getD 0

/-- Some `IN_MOVED_FROM` has the cookie of the last move event before it. -/
def RepeatsCookie (events : List Event) : Prop :=
  ∃ before event, before ++ [event] <+: events ∧ event.branch = .movedFrom ∧
    event.cookie = lastCookie before

section Streams

variable {events : List Event} {event : Event}

theorem moves_append (first second : List Event) :
    moves (first ++ second) = moves first ++ moves second := List.filter_append _ _

theorem moves_singleton (hmove : HalfMove event) : moves [event] = [event] := by
  simp [moves, hmove]

theorem lastCookie_append_singleton (events : List Event) (event : Event) :
    lastCookie (events ++ [event]) =
      if HalfMove event then event.cookie else lastCookie events := by
  rw [lastCookie, moves_append]
  by_cases hmove : HalfMove event <;> simp [moves, lastCookie, hmove]

theorem repeatsCookie_append_singleton_iff :
    RepeatsCookie (events ++ [event]) ↔
      RepeatsCookie events ∨ event.branch = .movedFrom ∧ event.cookie = lastCookie events := by
  constructor
  · rintro ⟨before, last, hprefix, hbranch, hcookie⟩
    rcases List.prefix_concat_iff.mp hprefix with heq | hprefix
    · obtain ⟨rfl, hlast⟩ := List.append_inj' heq rfl
      obtain rfl : last = event := by simpa using hlast
      exact Or.inr ⟨hbranch, hcookie⟩
    · exact Or.inl ⟨before, last, hprefix, hbranch, hcookie⟩
  · rintro (⟨before, last, hprefix, hrest⟩ | hlast)
    · exact ⟨before, last, hprefix.trans (List.prefix_append _ _), hrest⟩
    · exact ⟨events, event, List.prefix_refl _, hlast⟩

/-- A cookie that is not zero is the one of a last move event. -/
theorem exists_last_move (hcookie : lastCookie events ≠ 0) :
    ∃ before last, moves events = before ++ [last] ∧ last.cookie = lastCookie events := by
  cases hlast : (moves events).getLast? with
  | none => exact absurd (by simp [lastCookie, hlast]) hcookie
  | some last =>
    obtain ⟨before, hbefore⟩ := List.getLast?_eq_some_iff.mp hlast
    exact ⟨before, last, hbefore, by simp [lastCookie, hlast]⟩

/-- The halves of a move with nothing between them show in the last cookie. -/
theorem DirectlyMisordered.repeatsCookie (hdirectly : DirectlyMisordered events) :
    RepeatsCookie events := by
  obtain ⟨moveTo, moveFrom, hsame, before, after, hmoves⟩ := hdirectly
  have hsplit : events.filter (fun event ↦ decide (HalfMove event)) =
      (before ++ [moveTo]) ++ moveFrom :: after := by
    rw [← moves, ← hmoves]
    simp
  obtain ⟨first, second, rfl, hfirst, hsecond⟩ := List.filter_eq_append_iff.mp hsplit
  obtain ⟨middle, last, rfl, hmiddle, -, -⟩ := List.filter_eq_cons_iff.mp hsecond
  refine ⟨first ++ middle, moveFrom, ⟨last, by simp⟩, hsame.departs, ?_⟩
  have hnone : moves middle = [] := List.filter_eq_nil_iff.mpr hmiddle
  have hbefore : moves (first ++ middle) = before ++ [moveTo] := by
    rw [moves_append, hnone, List.append_nil]
    exact hfirst
  simp [lastCookie, hbefore, hsame.cookie.symm]

/-- Under unique cookies an `IN_MOVED_FROM` repeats the cookie of its `IN_MOVED_TO` only. -/
theorem CookiesUnique.directlyMisordered_iff (hcookies : CookiesUnique events) :
    DirectlyMisordered events ↔ RepeatsCookie events := by
  refine ⟨DirectlyMisordered.repeatsCookie, ?_⟩
  rintro ⟨before, moveFrom, ⟨after, rfl⟩, hbranch, hcookie⟩
  have hmove : HalfMove moveFrom := Or.inl hbranch
  have hmoves : moves (before ++ [moveFrom] ++ after) =
      moves before ++ moveFrom :: moves after := by
    rw [moves_append, moves_append, moves_singleton hmove]
    simp
  have hnonzero : moveFrom.cookie ≠ 0 := hcookies.nonzero moveFrom (by rw [hmoves]; simp)
  obtain ⟨earlier, last, hlast, hsame⟩ := exists_last_move (hcookie ▸ hnonzero)
  have hmem : last ∈ moves before := by simp [hlast]
  obtain ⟨hbefore, hhalf⟩ := List.mem_filter.mp hmem
  rcases of_decide_eq_true hhalf with hfrom | hto
  · have hnodup := hcookies.movedFrom
    simp only [List.filter_append, List.map_append, List.nodup_append] at hnodup
    refine absurd (hsame.trans hcookie.symm) (hnodup.1.2.2 _ ?_ _ ?_)
    · exact List.mem_map_of_mem (List.mem_filter.mpr ⟨hbefore, decide_eq_true hfrom⟩)
    · exact List.mem_map_of_mem (List.mem_filter.mpr ⟨List.mem_singleton_self _,
        decide_eq_true hbranch⟩)
  · refine ⟨last, moveFrom, ⟨hto, hbranch, hsame.trans hcookie.symm⟩, earlier, moves after, ?_⟩
    rw [hmoves, hlast]
    simp

end Streams

/-! ### Runs with the events they have processed -/

variable {κ α : Type} {cfg : Config} {k : Kernel κ α} {w after : Watcher}

/-- A system with the events that the watcher has taken from its batches so far. -/
structure Traced (κ : Type) where
  system : System κ
  processed : List Event

def Traced.start (cfg : Config) (kernel : κ) : Traced κ := ⟨System.start cfg kernel, []⟩

def Traced.step (cfg : Config) (k : Kernel κ α) (s : Traced κ) (label : Label α) :
    Option (Traced κ) :=
  (s.system.step cfg k label).map fun system ↦
    ⟨system, s.processed ++ (takenEvent s.system.watcher label).toList⟩

/-- Every run has its events. -/
theorem exists_traced {kernel : κ} {s : System κ}
    (hruns : Reaches (System.step cfg k) (System.start cfg kernel) s) :
    ∃ processed, Reaches (Traced.step cfg k) (Traced.start cfg kernel) ⟨s, processed⟩ := by
  refine hruns.invariant (fun s ↦ ∃ processed,
    Reaches (Traced.step cfg k) (Traced.start cfg kernel) ⟨s, processed⟩)
    ⟨[], Relation.ReflTransGen.refl⟩ ?_
  rintro state label next ⟨processed, htraced⟩ - hstep
  refine ⟨processed ++ (takenEvent state.watcher label).toList,
    htraced.tail ⟨label, trivial, ?_⟩⟩
  simp [Traced.step, hstep]

/-! ### What a step does to the cookie -/

/-- The watcher has stopped for the cookie of an event. -/
def StoppedForCookie (w : Watcher) : Prop := w.place = .stopped (.exited 17)

instance : DecidablePred StoppedForCookie := fun w ↦
  inferInstanceAs (Decidable (w.place = .stopped (.exited 17)))

/-- A step that has nothing to do with the cookie. -/
structure KeepsCookie (w after : Watcher) : Prop where
  goesOn : ¬ StoppedForCookie after
  cookie : after.prevCookie = w.prevCookie

theorem keepsCookie_place {place : Place} (hplace : place ≠ .stopped (.exited 17)) :
    KeepsCookie w { w with place } := ⟨hplace, rfl⟩

theorem keepsCookie_prune {wd : Wd} {row : Option Row} (hstep : PruneStep w wd row after) :
    KeepsCookie w after := by
  cases hstep <;> exact ⟨by simp [StoppedForCookie], rfl⟩

theorem keepsCookie_insert {row : Row} (hstep : InsertStep w row after) : KeepsCookie w after := by
  cases hstep <;> exact ⟨by simp [StoppedForCookie], rfl⟩

theorem keepsCookie_watchNewDirectory (frame : Frame) (event : Event) :
    KeepsCookie w (w.watchNewDirectory frame event) := by
  unfold Watcher.watchNewDirectory Watcher.exit
  dsimp only
  split_ifs <;> exact ⟨by simp [StoppedForCookie], rfl⟩

theorem keepsCookie_pruneMovedDirectory (event : Event) :
    KeepsCookie w (w.pruneMovedDirectory event) := by
  unfold Watcher.pruneMovedDirectory Watcher.exit
  dsimp only
  split_ifs
  · exact keepsCookie_place (by simp)
  · exact keepsCookie_place (by simp)
  · exact keepsCookie_prune (pruneStep _ _ _)

/-- The value of `prev_cookie` after an event that does not stop the watcher for its cookie. -/
def nextCookie (w : Watcher) (event : Event) : UInt32 :=
  if HalfMove event then event.cookie else w.prevCookie

theorem nextCookie_of_halfMove {event : Event} (hmove : HalfMove event) :
    nextCookie w event = event.cookie := if_pos hmove

theorem nextCookie_of_not_halfMove {event : Event} (hmove : ¬ HalfMove event) :
    nextCookie w event = w.prevCookie := if_neg hmove

/-- An event that does not repeat the cookie of a move is processed with its own cookie. -/
theorem keepsCookie_dispatch {event : Event}
    (hfresh : event.branch = .movedFrom → event.cookie ≠ w.prevCookie) :
    KeepsCookie { w with prevCookie := nextCookie w event } (w.dispatch event) := by
  unfold Watcher.dispatch
  split
  case h_5 hbranch =>
    rw [nextCookie_of_halfMove (Or.inl hbranch), Watcher.movedFrom, if_neg (hfresh hbranch)]
    split_ifs
    · exact keepsCookie_pruneMovedDirectory event
    · exact keepsCookie_place (by simp)
  case h_6 hbranch =>
    rw [nextCookie_of_halfMove (Or.inr hbranch), Watcher.movedTo]
    split_ifs
    · exact keepsCookie_watchNewDirectory _ event
    · exact keepsCookie_place (by simp)
  all_goals
    rename_i hbranch
    rw [nextCookie_of_not_halfMove (by simp [HalfMove, hbranch])]
  case h_2 => exact keepsCookie_watchNewDirectory _ event
  case h_7 => exact ⟨by simp [StoppedForCookie], rfl⟩
  all_goals exact keepsCookie_place (by simp)

theorem stoppedForCookie_dispatch_iff {event : Event} :
    StoppedForCookie (w.dispatch event) ↔
      event.branch = .movedFrom ∧ event.cookie = w.prevCookie := by
  constructor
  · intro hstopped
    by_contra hfresh
    exact (keepsCookie_dispatch fun hbranch hcookie ↦ hfresh ⟨hbranch, hcookie⟩).goesOn hstopped
  · rintro ⟨hbranch, hcookie⟩
    simp [Watcher.dispatch, hbranch, Watcher.movedFrom, hcookie, Watcher.exit, StoppedForCookie]

/-- A step of the watcher on its own, other than the start on an event. -/
theorem keepsCookie_internal (hstep : InternalStep cfg w after)
    (htaken : takenEvent w (.internal : Label α) = none) : KeepsCookie w after := by
  cases hstep with
  | takesEvent hplace hbatch => simp [takenEvent, hplace, hbatch] at htaken
  | insertsPruned _ hinsert => exact keepsCookie_insert hinsert
  | overflows => exact keepsCookie_place (by simp)
  | @returns result frame =>
    cases frame with
    | created =>
      by_cases hzero : result = 0 <;>
        exact ⟨by simp [Watcher.returnTo, hzero, StoppedForCookie], rfl⟩
    | _ => exact ⟨by simp [Watcher.returnTo, StoppedForCookie], rfl⟩
  | reports =>
    rw [report_eq]
    exact ⟨by simp [StoppedForCookie], rfl⟩
  | _ => exact ⟨by simp [StoppedForCookie], rfl⟩

theorem keepsCookie_resume {answer : Answer} (hresume : w.resume answer = some after) :
    KeepsCookie w after := by
  unfold Watcher.resume at hresume
  split at hresume
  case h_3 =>
    cases hresume
    unfold Watcher.watchAdded
    split_ifs
    · exact keepsCookie_prune (pruneStep _ _ _)
    · exact keepsCookie_insert (insertStep _ _)
  case h_4 =>
    cases hresume
    unfold Watcher.watchFailed
    split_ifs <;> exact keepsCookie_place (by simp)
  case h_6 => split_ifs at hresume <;> cases hresume <;> exact keepsCookie_place (by simp)
  case h_8 =>
    cases hresume
    unfold Watcher.opendirFailed
    split_ifs <;> exact keepsCookie_place (by simp)
  case h_11 => cases hresume
  all_goals
    cases hresume
    exact ⟨by simp [StoppedForCookie, Watcher.startBatch, Watcher.exit], rfl⟩

/-! ### The invariant -/

/-- The watcher knows the cookie of the last move event, and has stopped for a cookie exactly
if one has been repeated. -/
structure CookieTracked (s : Traced κ) : Prop where
  cookie : ¬ StoppedForCookie s.system.watcher →
    s.system.watcher.prevCookie = lastCookie s.processed
  stopped : StoppedForCookie s.system.watcher ↔ RepeatsCookie s.processed

theorem cookieTracked_start (cfg : Config) (kernel : κ) :
    CookieTracked (Traced.start cfg kernel) := by
  refine ⟨fun _ ↦ rfl, iff_of_false (by simp [StoppedForCookie, Traced.start, System.start,
    Watcher.start]) ?_⟩
  rintro ⟨before, event, hprefix, -⟩
  simpa [Traced.start] using hprefix.length_le

/-- A step in which no event is taken. -/
theorem CookieTracked.keep {s : Traced κ} (htracked : CookieTracked s) {system : System κ}
    (hruns : ¬ StoppedForCookie s.system.watcher)
    (hkeeps : KeepsCookie s.system.watcher system.watcher) :
    CookieTracked ⟨system, s.processed⟩ :=
  ⟨fun _ ↦ hkeeps.cookie.trans (htracked.cookie hruns),
    iff_of_false hkeeps.goesOn (hruns ∘ htracked.stopped.mpr)⟩

/-- The processing of an event by a watcher that knows the cookie of the last move. -/
theorem CookieTracked.dispatch {s : Traced κ} (htracked : CookieTracked s) {event : Event}
    (hruns : ¬ StoppedForCookie s.system.watcher)
    (hcookie : w.prevCookie = s.system.watcher.prevCookie) {system : System κ}
    (hsystem : system.watcher = w.dispatch event) :
    CookieTracked ⟨system, s.processed ++ [event]⟩ := by
  have hlast : w.prevCookie = lastCookie s.processed := hcookie.trans (htracked.cookie hruns)
  have hiff : StoppedForCookie system.watcher ↔ RepeatsCookie (s.processed ++ [event]) := by
    rw [hsystem, stoppedForCookie_dispatch_iff, repeatsCookie_append_singleton_iff, hlast,
      or_iff_right (hruns ∘ htracked.stopped.mpr)]
  refine ⟨fun hgoes ↦ ?_, hiff⟩
  have hfresh : event.branch = .movedFrom → event.cookie ≠ w.prevCookie := fun hbranch heq ↦
    hgoes (hsystem ▸ stoppedForCookie_dispatch_iff.mpr ⟨hbranch, heq⟩)
  rw [lastCookie_append_singleton, ← hlast]
  exact (congrArg Watcher.prevCookie hsystem).trans (keepsCookie_dispatch hfresh).cookie

theorem not_stoppedForCookie_of_internal (hinternal : w.internal cfg = some after) :
    ¬ StoppedForCookie w := by
  intro hstopped
  simp [Watcher.internal, show w.place = _ from hstopped] at hinternal

theorem not_stoppedForCookie_of_call {call : Call} (hcall : w.call = some call) :
    ¬ StoppedForCookie w := by
  intro hstopped
  simp [Watcher.call, show w.place = _ from hstopped] at hcall

theorem CookieTracked.step {s next : Traced κ} (htracked : CookieTracked s) {label : Label α}
    (hstep : s.step cfg k label = some next) : CookieTracked next := by
  obtain ⟨system, hsystem, rfl⟩ := Option.map_eq_some_iff.mp hstep
  cases label with
  | act action =>
    have hsame : system.watcher = s.system.watcher := (System.step_act hsystem).2
    rw [show takenEvent s.system.watcher (.act action) = none from rfl, Option.toList_none,
      List.append_nil]
    exact ⟨by rw [hsame]; exact htracked.cookie, by rw [hsame]; exact htracked.stopped⟩
  | answer answer =>
    obtain ⟨call, hcall, -, hresume⟩ := System.step_answer hsystem
    simpa [takenEvent] using
      htracked.keep (not_stoppedForCookie_of_call hcall) (keepsCookie_resume hresume)
  | internal =>
    have hinternal := (System.step_internal hsystem).1
    have hruns := not_stoppedForCookie_of_internal hinternal
    cases htaken : takenEvent s.system.watcher (.internal : Label α) with
    | none =>
      have hkeeps := keepsCookie_internal (internalStep hinternal) htaken
      simpa [htaken] using htracked.keep hruns hkeeps
    | some event =>
      obtain ⟨rest, hplace, hbatch⟩ := batch_of_takenEvent htaken
      refine htracked.dispatch (w := { s.system.watcher with batch := rest }.findParent event)
        hruns (findParent_prevCookie _ event) ?_
      simpa [Watcher.internal, hplace, hbatch] using hinternal.symm

theorem cookieTracked_of_reaches {kernel : κ} {s : Traced κ}
    (hruns : Reaches (Traced.step cfg k) (Traced.start cfg kernel) s) : CookieTracked s :=
  hruns.invariant CookieTracked (cookieTracked_start cfg kernel)
    fun _ _ _ htracked _ hstep ↦ htracked.step hstep

/-! ### What the test finds -/

/-- In every state of every run, with any events in any batches: that the watcher has stopped
with 17 exactly if it has processed some `IN_MOVED_FROM` after the `IN_MOVED_TO` with its cookie
is true exactly if then, for one such pair, no other move event has been processed between its
two halves. -/
theorem misordered_moves_caught_iff {kernel : κ} {s : Traced κ}
    (hruns : Reaches (Traced.step cfg k) (Traced.start cfg kernel) s)
    (hcookies : CookiesUnique s.processed) :
    (StoppedForCookie s.system.watcher ↔ Misordered s.processed) ↔
      (Misordered s.processed → DirectlyMisordered s.processed) := by
  have hcaught : StoppedForCookie s.system.watcher ↔ DirectlyMisordered s.processed :=
    (cookieTracked_of_reaches hruns).stopped.trans hcookies.directlyMisordered_iff.symm
  rw [hcaught]
  exact ⟨Iff.mpr, fun hdirectly ↦ ⟨DirectlyMisordered.misordered, hdirectly⟩⟩

/-- The steps up to the first events, for one directory without sub-directories. -/
def startsEmptyDir : List (Label Empty) :=
  [.internal, .internal, .answer (.watch 1), .answer .done, .answer (.names []), .internal,
    .internal, .internal]

/-- The two halves of a move in the wrong order, in two batches, with a file closed between. -/
theorem misordered_moves_caught_across_batches :
    ∃ s : Traced Unit, Reaches (Traced.step ⟨[literal "/t"], [], by decide⟩ anyAnswer)
        (Traced.start ⟨[literal "/t"], [], by decide⟩ ()) s ∧
      s.processed = [⟨1, inMovedFrom, 7, literal "b"⟩, ⟨1, inMovedTo, 5, literal "a"⟩,
        ⟨1, inCloseWrite, 0, literal "f"⟩, ⟨1, inMovedFrom, 5, literal "c"⟩] ∧
      (StoppedForCookie s.system.watcher ↔ Misordered s.processed) := by
  have hrun : (run (Traced.step ⟨[literal "/t"], [], by decide⟩ anyAnswer)
      (Traced.start ⟨[literal "/t"], [], by decide⟩ ())
      (startsEmptyDir ++ [.answer (.events [⟨1, inMovedFrom, 7, literal "b"⟩,
        ⟨1, inMovedTo, 5, literal "a"⟩]), .internal, .internal, .internal, .internal, .internal,
        .answer (.events [⟨1, inCloseWrite, 0, literal "f"⟩,
          ⟨1, inMovedFrom, 5, literal "c"⟩]), .internal, .internal, .internal])).map
      Traced.processed = some [⟨1, inMovedFrom, 7, literal "b"⟩, ⟨1, inMovedTo, 5, literal "a"⟩,
        ⟨1, inCloseWrite, 0, literal "f"⟩, ⟨1, inMovedFrom, 5, literal "c"⟩] := by decide
  obtain ⟨s, hruns, hprocessed⟩ := exists_reaches_of_run hrun
  refine ⟨s, hruns, hprocessed, (misordered_moves_caught_iff hruns ?_).mpr fun _ ↦ ?_⟩
  · rw [hprocessed]
    exact ⟨by decide, by decide, by decide⟩
  · rw [hprocessed]
    refine ⟨⟨1, inMovedTo, 5, literal "a"⟩, ⟨1, inMovedFrom, 5, literal "c"⟩,
      ⟨by decide, by decide, rfl⟩, [⟨1, inMovedFrom, 7, literal "b"⟩], [], by decide⟩

/-- One `IN_MOVED_FROM` between the two halves, and the watcher goes on. -/
theorem misordered_moves_caught_fails :
    ∃ s : Traced Unit, Reaches (Traced.step ⟨[literal "/t"], [], by decide⟩ anyAnswer)
        (Traced.start ⟨[literal "/t"], [], by decide⟩ ()) s ∧
      s.processed = [⟨1, inMovedTo, 5, literal "a"⟩, ⟨1, inMovedFrom, 7, literal "b"⟩,
        ⟨1, inMovedFrom, 5, literal "c"⟩] ∧
      CookiesUnique s.processed ∧ Misordered s.processed ∧
      s.system.watcher.place = .poll ∧ ¬ StoppedForCookie s.system.watcher := by
  have hrun : (run (Traced.step ⟨[literal "/t"], [], by decide⟩ anyAnswer)
      (Traced.start ⟨[literal "/t"], [], by decide⟩ ())
      (startsEmptyDir ++ [.answer (.events [⟨1, inMovedTo, 5, literal "a"⟩,
        ⟨1, inMovedFrom, 7, literal "b"⟩, ⟨1, inMovedFrom, 5, literal "c"⟩]), .internal, .internal,
        .internal, .internal, .internal, .internal, .internal])).map
      (fun s ↦ (s.system.watcher.place, s.processed)) =
      some (.poll, [⟨1, inMovedTo, 5, literal "a"⟩, ⟨1, inMovedFrom, 7, literal "b"⟩,
        ⟨1, inMovedFrom, 5, literal "c"⟩]) := by decide
  obtain ⟨s, hruns, hseen⟩ := exists_reaches_of_run hrun
  obtain ⟨hplace, hprocessed⟩ := Prod.mk.inj hseen
  refine ⟨s, hruns, hprocessed, ?_, ?_, hplace, by simp [StoppedForCookie, hplace]⟩
  · rw [hprocessed]
    exact ⟨by decide, by decide, by decide⟩
  · rw [hprocessed]
    exact ⟨⟨1, inMovedTo, 5, literal "a"⟩, ⟨1, inMovedFrom, 5, literal "c"⟩,
      ⟨by decide, by decide, rfl⟩, by decide⟩

end DirWatcher.Watching
