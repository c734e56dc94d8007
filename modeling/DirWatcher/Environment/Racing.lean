import DirWatcher.Environment.Interface

/-!
A kernel whose directories vanish, become unreadable or are replaced by something else at
any time. Nothing can be said about the answer to a path then, other than that it is one of
those that come of such changes. The kernel keeps what it has granted.
-/

set_option autoImplicit false
set_option relaxedAutoImplicit false

namespace DirWatcher.Environment

open Source

/-- An answer of `inotify_add_watch`, with the path it was asked for. -/
structure Granted where
  wd : Wd
  path : Bytes
deriving DecidableEq, Repr

/-- The error of a path whose last directory or one before it has changed. -/
def PathError (errno : Errno) : Prop := errno = .enoent ∨ errno = .eacces ∨ errno = .enotdir

instance (errno : Errno) : Decidable (PathError errno) := by
  unfold PathError
  infer_instance

def racing : Kernel (List Granted) Empty where
  serve := fun granted call answer ↦
    match call, answer with
    | .inotifyAddWatch path, .watch wd => if 0 < wd then some (⟨wd, path⟩ :: granted) else none
    | .inotifyAddWatch _, .error errno => if PathError errno then some granted else none
    | .inotifyRmWatch _, .done => some granted
    | .inotifyRmWatch _, .error errno => if errno = .einval then some granted else none
    | .opendir _, .done => some granted
    | .opendir _, .error errno => if PathError errno then some granted else none
    | .readdir, .names _ => some granted
    | _, _ => none
  act := fun _ action ↦ nomatch action

/-- The answers the kernel may give. -/
inductive RacingStep (granted : List Granted) : Call → Answer → List Granted → Prop
  | grants (path : Bytes) (wd : Wd) (hpositive : 0 < wd) :
      RacingStep granted (.inotifyAddWatch path) (.watch wd) (⟨wd, path⟩ :: granted)
  | misses (path : Bytes) (errno : Errno) (herrno : PathError errno) :
      RacingStep granted (.inotifyAddWatch path) (.error errno) granted
  | removes (wd : Wd) (answer : Answer) (hanswer : answer = .done ∨ answer = .error .einval) :
      RacingStep granted (.inotifyRmWatch wd) answer granted
  | opens (path : Bytes) : RacingStep granted (.opendir path) .done granted
  | opensNothing (path : Bytes) (errno : Errno) (herrno : PathError errno) :
      RacingStep granted (.opendir path) (.error errno) granted
  | lists (names : List Bytes) : RacingStep granted .readdir (.names names) granted

theorem racingStep {granted after : List Granted} {call : Call} {answer : Answer}
    (hserve : racing.serve granted call answer = some after) :
    RacingStep granted call answer after := by
  simp only [racing] at hserve
  split at hserve
  case h_1 path wd =>
    split_ifs at hserve with hpositive
    cases hserve
    exact .grants path wd hpositive
  case h_2 path errno =>
    split_ifs at hserve with herrno
    cases hserve
    exact .misses path errno herrno
  case h_3 wd => cases hserve; exact .removes wd _ (Or.inl rfl)
  case h_4 wd errno =>
    split_ifs at hserve with herrno
    cases hserve
    exact .removes wd _ (Or.inr (by rw [herrno]))
  case h_5 path => cases hserve; exact .opens path
  case h_6 path errno =>
    split_ifs at hserve with herrno
    cases hserve
    exact .opensNothing path errno herrno
  case h_7 names => cases hserve; exact .lists names
  case h_8 => cases hserve

end DirWatcher.Environment
