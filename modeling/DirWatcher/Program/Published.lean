import DirWatcher.Cache.NotificationFormat
import DirWatcher.Program.Turns
import DirWatcher.Watching.ConfigLines
import DirWatcher.Watching.PathBytes
import DirWatcher.Watching.Scope

/-!
What the process publishes, from the bytes of its two files to the bytes of the
notification files. Unless a failed write goes unnoticed, which can cut a line off, each line
is a directory that the watcher has reported, and it lies in the scope of the configuration.
-/

set_option autoImplicit false
set_option relaxedAutoImplicit false

namespace DirWatcher.Program

open Source Environment Foundation.Runs Foundation.TextLines Cache Watching

variable {κ α : Type}

/-! ### Nothing is made up -/

/-- Each line of a file is one of the directories that the watcher has reported before the
file was published, as the C string that it is. -/
def ReportedByWatcher (p : Process κ) : Prop :=
  ∀ before lines later, p.loop.log = before ++ .published lines :: later → ∀ line ∈ lines,
    ∃ directory ∈ p.system.watcher.reports.take (reportedIn before).length,
      stringAt directory = line

theorem reportedByWatcher_of_first {p : Process κ} (hagrees : Agrees p)
    (hfirst : ReportedFirst p.loop.log) : ReportedByWatcher p := by
  intro before lines later hlog line hline
  obtain ⟨directory, hdirectory, rfl⟩ := hfirst before lines later hlog line hline
  have htaken : reportedIn before =
      (p.system.watcher.reports.take (reportedIn before).length).map cString := by
    rw [List.map_take, ← hagrees, hlog, reportedIn_append, List.take_left]
  rw [htaken] at hdirectory
  obtain ⟨reported, hreported, rfl⟩ := List.mem_map.mp hdirectory
  exact ⟨reported, hreported, rfl⟩

variable {cfg : Config} {k : Kernel κ α} {kernel : κ} {p : Process κ}

theorem reportedByWatcher_of_reaches {condition : Process κ → ProcessLabel α → Prop}
    {notifyDir : Bytes} {hashSize memSize : ℕ} (hsize : 1 ≤ hashSize)
    {entries : ℕ → HashCacheEntry} {memory : ℕ → UInt8}
    (hruns : ReachesWhen (Process.step cfg k) condition (.start cfg kernel
      (newNotifier notifyDir (newHashCache hashSize memSize entries memory))) p) :
    publishedIn p.loop.log = p.loop.notifier.published.map Publication.lines ∧
      ReportedByWatcher p := by
  have hloop : Reaches MainLoop.step _ p.loop := reaches_loop hruns fun _ _ _ _ _ ↦ trivial
  obtain ⟨hfiles, hfirst⟩ :=
    published_reported_first notifyDir hashSize memSize hsize entries memory hloop
  exact ⟨hfiles, reportedByWatcher_of_first (agrees_of_reaches cfg kernel _ hruns) hfirst⟩

/-- A byte that ends neither a string nor a line. -/
def Plain (byte : UInt8) : Prop := byte ≠ 0 ∧ byte ≠ newline

instance : DecidablePred Plain := fun byte ↦ inferInstanceAs (Decidable (byte ≠ 0 ∧ byte ≠ newline))

theorem joins_plain : Joins Plain := ⟨by decide, by decide⟩

theorem spelled_cutNewline (buffer : Bytes) : Spelled Plain (cutNewline buffer) := by
  intro byte hbyte
  have hstring : byte ∈ stringAt buffer := (List.takeWhile_prefix _).subset hbyte
  exact ⟨by simpa using List.mem_takeWhile_imp hstring, by simpa using List.mem_takeWhile_imp hbyte⟩

/-- The lines of a config file are plain, whatever it contains. -/
theorem spelled_of_loadTopLevelPaths {io : ReadIo} {content : Bytes} {calls : List Bytes}
    (hload : loadTopLevelPaths io recordCall content [] = .ok calls) :
    ∀ path ∈ calls, Spelled Plain path := by
  rw [loadTopLevelPaths] at hload
  split_ifs at hload
  refine readLoop_invariant (fun calls ↦ ∀ path ∈ calls, Spelled Plain path) ?_ (by simp) hload
  intro before buffer next hbefore _ huse
  cases huse
  intro path hpath
  rcases List.mem_append.mp hpath with hold | hlast
  · exact hbefore path hold
  · rw [List.mem_singleton.mp hlast]
    exact spelled_cutNewline buffer

/-- The names of the kernel are strings without newlines and single components of paths,
and the path joined for a new directory is shorter than the buffer. -/
structure NamedStep (s : System κ) (label : Label α) : Prop where
  components : ScopedStep s label
  plain : LabelSpelled Plain label

instance (s : System κ) (label : Label α) : Decidable (NamedStep s label) :=
  decidable_of_iff (ScopedStep s label ∧ LabelSpelled Plain label)
    ⟨fun ⟨hnames, hplain⟩ ↦ ⟨hnames, hplain⟩, fun ⟨hnames, hplain⟩ ↦ ⟨hnames, hplain⟩⟩

/-- And a failed write is noticed. -/
structure NoticedStep (p : Process κ) (label : ProcessLabel α) : Prop where
  names : OnSystem NamedStep p label
  notices : OnLoop NoticesFailures p label

instance (p : Process κ) (label : ProcessLabel α) : Decidable (NoticedStep p label) :=
  decidable_of_iff (OnSystem NamedStep p label ∧ OnLoop NoticesFailures p label)
    ⟨fun ⟨hnames, hnotices⟩ ↦ ⟨hnames, hnotices⟩, fun ⟨hnames, hnotices⟩ ↦ ⟨hnames, hnotices⟩⟩

theorem stringAt_of_spelled {path : Bytes} (hplain : Spelled Plain path) : stringAt path = path :=
  stringAt_of_not_mem fun hzero ↦ (hplain 0 hzero).1 rfl

/-- From the bytes of the config file and of the exclude file to those of the notification
files, over a kernel of any kind, in runs in which each failed write is noticed: a file that is
published, split at its newlines, gives back its lines. Each is a directory that the watcher
has reported and, if it is absolute, lies in the scope of the two files. -/
theorem published_in_scope {io : ReadIo} {config exclude : Bytes}
    {topLevelPaths excludes : List Bytes}
    (hconfig : loadTopLevelPaths io recordCall config [] = .ok topLevelPaths)
    (hexclude : loadExcludes io exclude = .ok excludes) (k : Kernel κ α) (kernel : κ)
    (notifyDir : Bytes) (hashSize memSize : ℕ) (hsize : 1 ≤ hashSize)
    (entries : ℕ → HashCacheEntry) (memory : ℕ → UInt8)
    (hreaches : ReachesWhen (Process.step (configOf hconfig hexclude) k) NoticedStep
      (.start (configOf hconfig hexclude) kernel
        (newNotifier notifyDir (newHashCache hashSize memSize entries memory))) p) :
    ∀ file ∈ p.loop.notifier.published, lines newline (fileText file.lines) = file.lines ∧
      ∀ line ∈ file.lines, line ∈ p.system.watcher.reports ∧
        (Absolute line → InScope (configOf hconfig hexclude) line) := by
  have hsystem := reaches_system hreaches fun _ _ hcondition ↦ hcondition.names
  have hscoped := hsystem.invariant (fun s ↦ Scoped (configOf hconfig hexclude) s.watcher)
    (scoped_start _) fun _ _ _ hscoped hcondition hstep ↦ hscoped.step hcondition.components hstep
  have hspelled := wellSpelled_of_reaches joins_plain (spelled_of_loadTopLevelPaths hconfig)
    (hsystem.mono fun _ _ hstep ↦ hstep.plain)
  obtain ⟨hfiles, hreported⟩ := reportedByWatcher_of_reaches hsize hreaches
  intro file hfile
  have hlisted : ∀ line ∈ file.lines, line ∈ p.system.watcher.reports := by
    intro line hline
    have hpublished : file.lines ∈ publishedIn p.loop.log :=
      hfiles ▸ List.mem_map_of_mem hfile
    obtain ⟨before, later, hlog⟩ := List.append_of_mem (mem_publishedIn.mp hpublished)
    obtain ⟨directory, hdirectory, rfl⟩ := hreported before file.lines later hlog line hline
    have hmem := List.mem_of_mem_take hdirectory
    rwa [stringAt_of_spelled (hspelled.reports directory hmem)]
  refine ⟨lines_unlines fun line hline hnewline ↦ ?_, fun line hline ↦
    ⟨hlisted line hline, fun habsolute ↦ ?_⟩⟩
  · exact (hspelled.reports line (hlisted line hline) newline hnewline).2 rfl
  · exact (hscoped.reports line (hlisted line hline)).scope.resolve_right fun hrelative ↦
      hrelative.not_absolute habsolute

theorem load_topLevel :
    loadTopLevelPaths .faultless recordCall (literal "/t\n") [] = .ok [literal "/t"] := by decide

theorem load_exclude :
    loadExcludes .faultless (literal "/t/x\n") = .ok [literal "/t/x"] := by decide

/-- The scan of `/t` with the sub-directories `a` and `x`, of which the second is excluded. -/
def scanLabels : List (ProcessLabel Empty) :=
  [.internal, .internal, .answer (.watch 1), .answer .done,
    .answer (.names [literal "x", literal "a"]), .internal, .internal, .internal, .internal,
    .internal, .answer (.watch 2), .answer .done, .answer (.names []), .internal, .internal,
    .internal, .internal, .internal].map .system

/-- A turn of the loop in which a file is written in `/t/a`, and one with a tick. -/
def turnLabels : List (ProcessLabel Empty) :=
  [.loop .next, .loop (.poll (.ready true)), .loop (.parent false), .loop .next, .loop .next,
    .system (.answer (.events [⟨2, inCloseWrite, 0, literal "f"⟩])), .system .internal,
    .system .internal, .system .internal, .loop .sigalrm, .loop .next, .loop (.poll .timeout),
    .loop (.parent false), .loop .next, .loop .next] ++
    List.replicate 5 (.loop (.flush .faultless))

/-- The loop at its start, with a small cache. -/
def smallStart (cfg : Config) : Process Unit :=
  .start cfg () (newNotifier (literal "/n") (newHashCache 4 16 (fun _ ↦ ⟨0, 0, 0, 0, 0⟩) fun _ ↦ 0))

theorem exists_scanned_turn : ∃ p, ReachesWhen
    (Process.step (configOf load_topLevel load_exclude) anyAnswer) NoticedStep
    (smallStart (configOf load_topLevel load_exclude)) p ∧
      p.loop.notifier.published = [⟨literal "/n/00000001.txt", [literal "/t/a"]⟩] := by
  have hrun : (runChecked (Process.step (configOf load_topLevel load_exclude) anyAnswer)
      (fun p label ↦ decide (NoticedStep p label))
      (smallStart (configOf load_topLevel load_exclude)) (scanLabels ++ turnLabels)).map
      (fun p ↦ p.loop.notifier.published) =
      some [⟨literal "/n/00000001.txt", [literal "/t/a"]⟩] := by decide
  exact exists_reachesWhen_of_run hrun

/-- It is in the scope of the configuration. -/
theorem published_in_scope_excluded :
    InScope (configOf load_topLevel load_exclude) (literal "/t/a") := by
  obtain ⟨p, hreaches, hpublished⟩ := exists_scanned_turn
  have hfile := published_in_scope load_topLevel load_exclude anyAnswer () _ 4 16 (by decide) _ _
    hreaches ⟨literal "/n/00000001.txt", [literal "/t/a"]⟩ (by simp [hpublished])
  exact (hfile.2 (literal "/t/a") (by simp)).2 (by decide)

end DirWatcher.Program
