import DirWatcher.Cache.LoopSteps
import DirWatcher.Cache.NotifyDirectory
import DirWatcher.Foundation.Numerals

/-!
The names of the notification files. The files of a run are numbered in the order in which
they are published, and below a hundred million the digits are so many that this is the
order of the names too.
-/

set_option autoImplicit false
set_option relaxedAutoImplicit false

namespace DirWatcher.Cache

open Source Foundation.Numerals Foundation.Runs

/-! ### The digits of a name -/

def digitOf (byte : UInt8) : ℕ := byte.toNat - 48

/-- A byte from `0` to `9`. -/
def IsDigit (byte : UInt8) : Prop := 48 ≤ byte.toNat ∧ byte.toNat ≤ 57

instance : DecidablePred IsDigit := fun byte ↦
  inferInstanceAs (Decidable (48 ≤ byte.toNat ∧ byte.toNat ≤ 57))

theorem IsDigit.eq {first second : UInt8} (hfirst : IsDigit first) (hsecond : IsDigit second)
    (hdigits : digitOf first = digitOf second) : first = second := by
  rw [← UInt8.toNat_inj]
  unfold IsDigit at hfirst hsecond
  unfold digitOf at hdigits
  omega

theorem isDigit_of_mem_paddedDecimal {number : ℕ} {byte : UInt8}
    (hbyte : byte ∈ paddedDecimal number) : IsDigit byte := by
  rcases List.mem_append.mp hbyte with hzero | hdigit
  · rw [List.eq_of_mem_replicate hzero]
    decide
  · obtain ⟨char, hchar, rfl⟩ := List.mem_map.mp hdigit
    have hrange := Nat.isDigit_of_mem_toDigits (by decide) (by decide) hchar
    simp only [Char.isDigit, Bool.and_eq_true, decide_eq_true_eq] at hrange
    have hlow : 48 ≤ char.toNat := hrange.1
    have hhigh : char.toNat ≤ 57 := hrange.2
    rw [IsDigit, UInt8.toNat_ofNat']
    omega

theorem length_paddedDecimal {number : ℕ} (hnumber : number < 10 ^ 8) :
    (paddedDecimal number).length = 8 := by
  have hdigits := (Nat.length_toDigits_le_iff (by decide) (by decide : 0 < 8)).mpr hnumber
  simp only [paddedDecimal, List.length_append, List.length_replicate, List.length_map]
  omega

theorem value_paddedDecimal (number : ℕ) :
    value 10 0 ((paddedDecimal number).map digitOf) = number := by
  have hchars := decimalValue_paddedDecimal number
  rw [decimalValue, Nat.ofDigitChars_eq_foldl, List.foldl_map] at hchars
  rw [value, List.foldl_map]
  refine Eq.trans (List.foldl_ext _ _ _ fun sum byte hbyte ↦ ?_) hchars
  have hrange := isDigit_of_mem_paddedDecimal hbyte
  have hchar : (Char.ofNat byte.toNat).toNat = byte.toNat := by
    have hvalid : byte.toNat.isValidChar := Or.inl (lt_of_le_of_lt hrange.2 (by decide))
    rw [Char.ofNat, dif_pos hvalid]
    rfl
  rw [hchar]
  rfl

/-! ### The order of names -/

theorem lex_of_lex_map {first second : Bytes} (hfirst : ∀ byte ∈ first, IsDigit byte)
    (hsecond : ∀ byte ∈ second, IsDigit byte)
    (hlex : List.Lex (· < ·) (first.map digitOf) (second.map digitOf)) :
    List.Lex (· < ·) first second := by
  induction first generalizing second with
  | nil =>
    cases second with
    | nil => cases hlex
    | cons byte second => exact .nil
  | cons byte first ih =>
    cases second with
    | nil => cases hlex
    | cons byte' second =>
      have hbyte := hfirst byte List.mem_cons_self
      have hbyte' := hsecond byte' List.mem_cons_self
      rw [List.map_cons, List.map_cons, List.cons_lex_cons_iff] at hlex
      rcases hlex with hlt | ⟨hsame, hrest⟩
      · refine .rel (UInt8.lt_iff_toNat_lt.mpr ?_)
        unfold digitOf at hlt
        omega
      · obtain rfl := hbyte.eq hbyte' hsame
        exact .cons (ih (fun other hother ↦ hfirst other (List.mem_cons_of_mem _ hother))
          (fun other hother ↦ hsecond other (List.mem_cons_of_mem _ hother)) hrest)

theorem lex_append_append {first second : Bytes} (hlength : first.length = second.length)
    (hlex : List.Lex (· < ·) first second) (rest : Bytes) :
    List.Lex (· < ·) (first ++ rest) (second ++ rest) := by
  induction hlex with
  | nil => cases hlength
  | rel hlt => exact .rel hlt
  | cons _ ih => exact .cons (ih (by simpa using hlength))

/-- Files with smaller numbers have smaller names. -/
theorem notificationPath_lex (notifyDir : Bytes) {first second : ℕ} (hlt : first < second)
    (hsecond : second < 10 ^ 8) :
    List.Lex (· < ·) (notificationPath notifyDir first) (notificationPath notifyDir second) := by
  have hlength : (paddedDecimal first).length = (paddedDecimal second).length := by
    rw [length_paddedDecimal (hlt.trans hsecond), length_paddedDecimal hsecond]
  have hdigits : List.Lex (· < ·) (paddedDecimal first) (paddedDecimal second) := by
    refine lex_of_lex_map (fun byte hbyte ↦ isDigit_of_mem_paddedDecimal hbyte)
      (fun byte hbyte ↦ isDigit_of_mem_paddedDecimal hbyte) ?_
    have hvalue : value 10 0 ((paddedDecimal first).map digitOf) <
        value 10 0 ((paddedDecimal second).map digitOf) := by
      rwa [value_paddedDecimal, value_paddedDecimal]
    refine lex_of_value_lt (by simpa using hlength) (fun digit hdigit ↦ ?_) hvalue
    obtain ⟨byte, hbyte, rfl⟩ := List.mem_map.mp hdigit
    have hrange := isDigit_of_mem_paddedDecimal hbyte
    unfold IsDigit at hrange
    unfold digitOf
    omega
  exact List.Lex.append_left _ (.cons (lex_append_append hlength hdigits _)) _

/-! ### The files of a run -/

/-- The files are numbered from one on, in the order in which they were published. -/
structure Named (notifyDir : Bytes) (notifier : Notifier) : Prop where
  sameDir : notifier.notifyDir = notifyDir
  count : notifier.notificationCount = notifier.published.length
  path : ∀ (i : ℕ) file, notifier.published[i]? = some file →
    file.path = (notificationPath notifyDir (i + 1)).take (maxPathLen - 1)

variable {notifyDir : Bytes} {notifier after : Notifier} {io : FlushIo} {s next : MainLoop}

theorem named_newNotifier (notifyDir : Bytes) (hc : HashCache) :
    Named notifyDir (newNotifier notifyDir hc) := ⟨rfl, rfl, by simp [newNotifier]⟩

theorem Named.rename (hnamed : Named notifyDir notifier) (hstep : RenameStep notifier after) :
    Named notifyDir after := by
  cases hstep with
  | none => exact ⟨hnamed.sameDir, hnamed.count, hnamed.path⟩
  | renames hc lines =>
    refine ⟨hnamed.sameDir, by simp [hnamed.count], fun i file hfile ↦ ?_⟩
    rw [List.getElem?_append] at hfile
    split_ifs at hfile with hi
    · exact hnamed.path i file hfile
    · rw [List.getElem?_singleton] at hfile
      split_ifs at hfile with hlast
      cases hfile
      obtain rfl : i = notifier.published.length := by omega
      rw [hnamed.sameDir, hnamed.count]

theorem renameStep_of_flushMove {place : FlushPlace} {following : Option FlushPlace}
    (hmove : FlushMove io notifier place after following) : RenameStep notifier after := by
  cases hmove with
  | opens | finishes | prints => exact .none notifier.hc
  | clears => exact .none _
  | @closes file after hpublish =>
    cases file with
    | none =>
      cases hpublish
      exact .none notifier.hc
    | some file => exact renameStep_of_rename hpublish

theorem renameStep_of_move {label : LoopLabel} (hmove : LoopMove s label next) :
    RenameStep s.notifier next.notifier := by
  cases hmove with
  | flushesTimer io _ hmove | flushesEvent io _ hmove => exact renameStep_of_flushMove hmove
  | puts | refuses => exact .none _
  | _ => exact .none s.notifier.hc

theorem named_of_reaches {hc : HashCache}
    (hreaches : Reaches MainLoop.step (.start (newNotifier notifyDir hc)) s) :
    Named notifyDir s.notifier :=
  hreaches.invariant (fun s ↦ Named notifyDir s.notifier) (named_newNotifier notifyDir hc)
    fun _ _ _ hnamed _ hstep ↦ hnamed.rename (renameStep_of_move (loopMove hstep).2)

theorem length_notificationPath {number : ℕ} (hnumber : number < 10 ^ 8) :
    (notificationPath notifyDir number).length = notifyDir.length + 13 := by
  simp [notificationPath, length_paddedDecimal hnumber, show (literal ".txt").length = 4 from rfl]

/-- Runs of the main loop with any signals, any reports and any answers of the calls on the
files, in a notification directory whose names fit the buffer: as long as a run has published
less than a hundred million files, each has the number of its publication, and the order of
their names is the order in which they were published. -/
theorem files_in_order (notifyDir : Bytes) (hc : HashCache)
    (hreaches : Reaches MainLoop.step (.start (newNotifier notifyDir hc)) s)
    (hfits : notifyDir.length + 13 < maxPathLen) (hcount : s.notifier.published.length < 10 ^ 8) :
    (∀ (i : ℕ) file, s.notifier.published[i]? = some file →
      file.path = notificationPath notifyDir (i + 1)) ∧
    (s.notifier.published.map Publication.path).Pairwise (List.Lex (· < ·)) := by
  have hnamed := named_of_reaches hreaches
  have hpath : ∀ (i : ℕ) file, s.notifier.published[i]? = some file →
      i + 1 < 10 ^ 8 ∧ file.path = notificationPath notifyDir (i + 1) := by
    intro i file hfile
    have hi := (List.getElem?_eq_some_iff.mp hfile).1
    have hnumber : i + 1 < 10 ^ 8 := by omega
    refine ⟨hnumber, (hnamed.path i file hfile).trans (List.take_of_length_le ?_)⟩
    rw [length_notificationPath hnumber]
    omega
  refine ⟨fun i file hfile ↦ (hpath i file hfile).2, ?_⟩
  rw [List.pairwise_map, List.pairwise_iff_getElem]
  intro i j hi hj hlt
  obtain ⟨-, hfirst⟩ := hpath i _ (List.getElem?_eq_getElem hi)
  obtain ⟨hnumber, hsecond⟩ := hpath j _ (List.getElem?_eq_getElem hj)
  rw [hfirst, hsecond]
  exact notificationPath_lex notifyDir (by omega) hnumber

/-- Two ticks, each after a report. -/
theorem files_in_order_two :
    ∃ s : MainLoop, s.notifier.published.map Publication.path =
        [literal "/n/00000001.txt", literal "/n/00000002.txt"] ∧
      (s.notifier.published.map Publication.path).Pairwise (List.Lex (· < ·)) := by
  have hrun : (run MainLoop.step
      (.start (newNotifier (literal "/n") (newHashCache 2 4 (fun _ ↦ ⟨0, 0, 0, 0, 0⟩) fun _ ↦ 0)))
      ([.next, .poll (.ready true), .parent false, .next, .next,
        .report ⟨literal "/a", by decide⟩, .sigalrm, .endBatch, .next, .poll (.ready true),
        .parent false, .next, .next] ++ List.replicate 5 (.flush .faultless) ++
        [.next, .report ⟨literal "/b", by decide⟩, .sigalrm, .endBatch, .next, .poll .timeout,
        .parent false, .next, .next] ++ List.replicate 5 (.flush .faultless))).map
        (fun s ↦ s.notifier.published.map Publication.path) =
      some [literal "/n/00000001.txt", literal "/n/00000002.txt"] := by decide
  obtain ⟨s, hreaches, hseen⟩ := exists_reaches_of_run hrun
  have hlength : s.notifier.published.length = 2 := by simpa using congrArg List.length hseen
  exact ⟨s, hseen, (files_in_order _ _ hreaches (by decide) (by simp [hlength])).2⟩

end DirWatcher.Cache
