import DirWatcher.Environment.FileSystem
import DirWatcher.Source.ListSubDirs
import DirWatcher.Watching.Steps

/-!
What `list_sub_dirs` finds in a directory. The loop takes an entry for a directory if its type is
`DT_DIR`, and the end of the entries for the end of the directory unless `errno` is `EBADF`, which
nothing resets before.
-/

set_option autoImplicit false
set_option relaxedAutoImplicit false

namespace DirWatcher.Watching

open Source Environment Watcher

/-! ### The linked list -/

/-- The pointer to a node of a list of so many nodes. -/
def linkTo (length i : ℕ) : Option ℕ := if i < length then some i else none

/-- The nodes hold the names in their order, each linked to the next, and `node_p` points to the
last of them. -/
structure Chains (list : SubDirList) (names : List Bytes) : Prop where
  length : list.nodes.length = names.length
  node : ∀ i name, names[i]? = some name →
    list.nodes[i]? = some (⟨linkTo names.length (i + 1), name⟩ : SubDirNode)
  headP : list.headP = linkTo names.length 0
  nodeP : names ≠ [] → list.nodeP = some (names.length - 1)

theorem chains_empty : Chains .empty [] where
  length := rfl
  node := by simp
  headP := rfl
  nodeP := fun hne ↦ absurd rfl hne

variable {fails : ℕ → Bool} {list : SubDirList} {names : List Bytes}

/-- The loop over the list comes to all names and to its end. -/
theorem Chains.namesFrom_eq (hchains : Chains list names) {turns i : ℕ}
    (hturns : names.length ≤ turns + i) :
    namesFrom list.nodes turns (linkTo names.length i) = some (names.drop i) := by
  induction turns generalizing i with
  | zero =>
    have hend : names.length ≤ i := by omega
    rw [linkTo, if_neg (not_lt.mpr hend), List.drop_of_length_le hend]
    rfl
  | succ turns ih =>
    by_cases hi : i < names.length
    · have hnode := hchains.node i names[i] (List.getElem?_eq_getElem hi)
      rw [linkTo, if_pos hi, List.drop_eq_getElem_cons hi]
      simp [namesFrom, hnode, ih (show names.length ≤ turns + (i + 1) by omega)]
    · rw [linkTo, if_neg hi, List.drop_of_length_le (not_lt.mp hi)]
      rfl

theorem Chains.names_eq (hchains : Chains list names) : list.names = some names := by
  rw [SubDirList.names, hchains.headP, hchains.namesFrom_eq (Nat.le_of_eq hchains.length.symm)]
  rfl

/-- The new node comes behind the others, and the last of them is linked to it. -/
theorem Chains.addNode (hchains : Chains list names) (hmemory : fails names.length = false) :
    ∃ nodes, list.addNode fails = ⟨nodes, some 0, some names.length⟩ ∧
      nodes.length = names.length + 1 ∧
      nodes[names.length]? = some (⟨none, []⟩ : SubDirNode) ∧
      ∀ i name, names[i]? = some name →
        nodes[i]? = some (⟨linkTo (names.length + 1) (i + 1), name⟩ : SubDirNode) := by
  have hcalloc : callocNode fails list.nodes =
      (some names.length, list.nodes ++ [⟨none, []⟩]) := by
    simp [callocNode, hchains.length, hmemory]
  have hlength := hchains.length
  by_cases hempty : names = []
  · subst hempty
    have hhead : list.headP = none := hchains.headP
    refine ⟨list.nodes ++ [⟨none, []⟩], ?_, by simp [hlength], ?_, by simp⟩
    · simp only [SubDirList.addNode, hcalloc, hhead]
      rfl
    · rw [← hlength, List.getElem?_append_right le_rfl]
      simp
  · have hpos : 0 < names.length := List.length_pos_iff.mpr hempty
    have hhead : list.headP = some 0 := by rw [hchains.headP, linkTo, if_pos hpos]
    refine ⟨(list.nodes ++ [SubDirNode.mk none []]).modify (names.length - 1) fun old ↦
      { old with nextP := some names.length }, ?_, by simp [hlength], ?_, fun i name hname ↦ ?_⟩
    · simp only [SubDirList.addNode, hcalloc, hhead, setNext, hchains.nodeP hempty]
    · have hother : list.nodes.length - 1 ≠ list.nodes.length := by omega
      rw [List.getElem?_modify, ← hlength, List.getElem?_append_right le_rfl]
      simp [hother]
    · have hi : i < names.length := (List.getElem?_eq_some_iff.mp hname).1
      rw [List.getElem?_modify, List.getElem?_append_left (hlength ▸ hi),
        hchains.node i name hname]
      by_cases hlast : names.length - 1 = i
      · have hnext : i + 1 = names.length := by omega
        simp [hlast, linkTo, hnext]
      · have hnext : i + 1 < names.length := by omega
        simp [hlast, linkTo, hnext, Nat.lt_succ_of_lt hnext]

/-- An entry that is a directory for the code comes to the end of the list. -/
theorem Chains.listEntry (hchains : Chains list names) {entry : Dirent}
    (hdir : entry.dType = dtDir) (hdot : entry.dName ≠ literal ".")
    (hdots : entry.dName ≠ literal "..") (hmemory : fails names.length = false) :
    ∃ after, listEntry fails list entry = .ok after ∧
      Chains after (names ++ [strncpy entry.dName dirNameSize]) := by
  obtain ⟨nodes, hadd, hlength, hlast, hnodes⟩ := hchains.addNode hmemory
  refine ⟨⟨nodes.modify names.length fun old ↦
    { old with dName := strncpy entry.dName dirNameSize }, some 0, some names.length⟩, ?_, ?_⟩
  · simp only [Source.listEntry, if_pos hdir, if_neg hdot, if_neg hdots, hadd]
  · refine ⟨by simp [hlength], fun i name hname ↦ ?_, by simp [linkTo], by simp⟩
    rw [List.length_append, List.length_singleton, List.getElem?_modify]
    by_cases hi : i < names.length
    · rw [List.getElem?_append_left hi] at hname
      simp [hnodes i name hname, Nat.ne_of_gt hi]
    · obtain rfl : i = names.length := by
        have hbound := (List.getElem?_eq_some_iff.mp hname).1
        rw [List.length_append, List.length_singleton] at hbound
        omega
      rw [hlast]
      simpa [linkTo] using hname

/-! ### The loop -/

/-- The entry is a sub-directory for the code. -/
def Listed (entry : Dirent) : Prop :=
  entry.dType = dtDir ∧ entry.dName ≠ literal "." ∧ entry.dName ≠ literal ".."

instance : DecidablePred Listed := fun entry ↦
  inferInstanceAs (Decidable (entry.dType = dtDir ∧ entry.dName ≠ literal "." ∧
    entry.dName ≠ literal ".."))

def listedEntries (entries : List (Dirent × ℕ)) : List Dirent :=
  (entries.map Prod.fst).filter fun entry ↦ Listed entry

/-- The name that the list gets for an entry. -/
def copiedName (entry : Dirent) : Bytes := strncpy entry.dName dirNameSize

/-- The value of `errno` before the last call of `readdir`. -/
def errnoAtEnd : ℕ → List (Dirent × ℕ) → ℕ
  | errno, [] => errno
  | _, (_, errno) :: rest => errnoAtEnd errno rest

/-- The loop is left by its `break`, after `count` nodes that are there already. -/
structure LoopEnds (fails : ℕ → Bool) (failure : Option ℕ) (entries : List (Dirent × ℕ))
    (errno count : ℕ) : Prop where
  memory : ∀ n < (listedEntries entries).length, fails (count + n) = false
  errno : failure.getD (errnoAtEnd errno entries) ≠ ebadf

section Loop

variable {failure : Option ℕ} {entries rest : List (Dirent × ℕ)} {entry : Dirent}
  {errno errnoAfter count : ℕ}

theorem listedEntries_cons_of_listed (hlisted : Listed entry) :
    listedEntries ((entry, errno) :: rest) = entry :: listedEntries rest := by
  simp [listedEntries, hlisted]

theorem listedEntries_cons_of_not_listed (hlisted : ¬ Listed entry) :
    listedEntries ((entry, errno) :: rest) = listedEntries rest := by
  simp [listedEntries, hlisted]

theorem loopEnds_cons_of_not_listed (hlisted : ¬ Listed entry) :
    LoopEnds fails failure ((entry, errnoAfter) :: rest) errno count ↔
      LoopEnds fails failure rest errnoAfter count := by
  constructor <;> rintro ⟨hmemory, herrno⟩ <;>
    exact ⟨by simpa only [listedEntries_cons_of_not_listed hlisted] using hmemory, herrno⟩

theorem loopEnds_cons_of_listed (hlisted : Listed entry) :
    LoopEnds fails failure ((entry, errnoAfter) :: rest) errno count ↔
      fails count = false ∧ LoopEnds fails failure rest errnoAfter (count + 1) := by
  constructor
  · rintro ⟨hmemory, herrno⟩
    rw [listedEntries_cons_of_listed hlisted, List.length_cons] at hmemory
    refine ⟨hmemory 0 (Nat.succ_pos _), fun n hn ↦ ?_, herrno⟩
    rw [Nat.add_assoc, Nat.add_comm 1 n]
    exact hmemory (n + 1) (Nat.succ_lt_succ hn)
  · rintro ⟨hfirst, hmemory, herrno⟩
    refine ⟨fun n hn ↦ ?_, herrno⟩
    rw [listedEntries_cons_of_listed hlisted, List.length_cons] at hn
    cases n with
    | zero => exact hfirst
    | succ n =>
      rw [Nat.add_comm n 1, ← Nat.add_assoc]
      exact hmemory n (Nat.lt_of_succ_lt_succ hn)

theorem readdirLoop_cons {next : SubDirList} (hentry : listEntry fails list entry = .ok next) :
    readdirLoop fails failure ((entry, errnoAfter) :: rest) errno list =
      readdirLoop fails failure rest errnoAfter next := by
  rw [readdirLoop, hentry]
  rfl

theorem listEntry_of_not_listed (hlisted : ¬ Listed entry) :
    listEntry fails list entry = .ok list := by
  unfold Source.listEntry
  split_ifs with hdir hdot hdots
  · rfl
  · rfl
  · exact absurd ⟨hdir, hdot, hdots⟩ hlisted
  · rfl

theorem Chains.listEntry_of_no_memory (hchains : Chains list names) (hlisted : Listed entry)
    (hmemory : fails names.length = true) :
    Source.listEntry fails list entry = .error (.exited (-1)) := by
  have hcalloc : callocNode fails list.nodes = (none, list.nodes) := by
    simp [callocNode, hchains.length, hmemory]
  have hnode : (list.addNode fails).nodeP = none := by
    unfold SubDirList.addNode
    rw [hcalloc]
    cases list.headP <;> rfl
  simp only [Source.listEntry, if_pos hlisted.1, if_neg hlisted.2.1, if_neg hlisted.2.2, hnode]

/-- The loop is left with the names of the entries that are sub-directories for the code, or it
stops the process. -/
theorem Chains.readdirLoop (hchains : Chains list names) :
    (LoopEnds fails failure entries errno names.length ∧
      ∃ after, readdirLoop fails failure entries errno list = .ok after ∧
        Chains after (names ++ (listedEntries entries).map copiedName)) ∨
    (¬ LoopEnds fails failure entries errno names.length ∧
      readdirLoop fails failure entries errno list = .error (.exited (-1))) := by
  induction entries generalizing errno list names with
  | nil =>
    by_cases herrno : failure.getD errno = ebadf
    · exact Or.inr ⟨fun hends ↦ hends.errno herrno, by simp [Source.readdirLoop, herrno]⟩
    · refine Or.inl ⟨⟨by simp [listedEntries], herrno⟩, list,
        by simp [Source.readdirLoop, herrno], ?_⟩
      simpa [listedEntries] using hchains
  | cons turn rest ih =>
    obtain ⟨entry, errnoAfter⟩ := turn
    by_cases hlisted : Listed entry
    · rw [loopEnds_cons_of_listed hlisted, listedEntries_cons_of_listed hlisted]
      cases hmemory : fails names.length with
      | true =>
        refine Or.inr ⟨by simp, ?_⟩
        rw [Source.readdirLoop, hchains.listEntry_of_no_memory hlisted hmemory]
        rfl
      | false =>
        obtain ⟨next, hnext, hlonger⟩ := hchains.listEntry hlisted.1 hlisted.2.1 hlisted.2.2 hmemory
        have hrest : (LoopEnds fails failure rest errnoAfter _ ∧ _) ∨ _ := ih hlonger
        rw [List.length_append, List.length_singleton, List.append_assoc] at hrest
        simpa [readdirLoop_cons hnext, copiedName] using hrest
    · rw [loopEnds_cons_of_not_listed hlisted, listedEntries_cons_of_not_listed hlisted]
      rw [readdirLoop_cons (listEntry_of_not_listed hlisted)]
      exact ih hchains

/-- For a directory that has been opened, `list_sub_dirs` returns a list of the names that it has
found, or stops the process. -/
theorem listSubDirs_opened (fails : ℕ → Bool) (errno : ℕ) (stream : DirStream) :
    (LoopEnds fails stream.failure stream.entries errno 0 ∧
      ∃ list, listSubDirs fails (.opened errno stream) = .ok list ∧
        list.names = some ((listedEntries stream.entries).map copiedName)) ∨
    (¬ LoopEnds fails stream.failure stream.entries errno 0 ∧
      listSubDirs fails (.opened errno stream) = .error (.exited (-1))) := by
  rcases chains_empty.readdirLoop with ⟨hends, list, hloop, hchains⟩ | hfails
  · exact Or.inl ⟨hends, list, hloop, hchains.names_eq⟩
  · exact Or.inr hfails

end Loop

/-! ### The directory that is read -/

/-- An entry of a directory, and whether it is a directory. A file system gives the type of an
entry or `DT_UNKNOWN`. -/
structure Member where
  dirent : Dirent
  isDirectory : Bool
  typed : dirent.dType ≠ dtUnknown → (dirent.dType = dtDir ↔ isDirectory = true)

/-- The entries of a directory as `readdir` comes to them, each with the value of `errno` at the
end of its turn, and the error of the last call. -/
structure Reading where
  members : List (Member × ℕ)
  failure : Option ℕ

def Reading.entries (reading : Reading) : List (Dirent × ℕ) :=
  reading.members.map fun turn ↦ (turn.1.dirent, turn.2)

def Reading.stream (reading : Reading) : DirStream := ⟨reading.entries, reading.failure⟩

def SubDirectory (member : Member) : Prop :=
  member.isDirectory = true ∧ member.dirent.dName ≠ literal "." ∧
    member.dirent.dName ≠ literal ".."

instance : DecidablePred SubDirectory := fun member ↦
  inferInstanceAs (Decidable (member.isDirectory = true ∧ member.dirent.dName ≠ literal "." ∧
    member.dirent.dName ≠ literal ".."))

/-- The names of the directories other than `.` and `..`. -/
def Reading.subDirectories (reading : Reading) : List Bytes :=
  ((reading.members.map Prod.fst).filter fun member ↦ SubDirectory member).map
    fun member ↦ member.dirent.dName

/-- At the end of the directory all its sub-directories are returned, and after a read error no
list is. -/
def CompleteOrSaysSo (reading : Reading) (result : Except Stop SubDirList) : Prop :=
  match reading.failure with
  | none => result.toOption.bind SubDirList.names = some reading.subDirectories
  | some _ => result.toOption = none

/-- The calls show all sub-directories for what they are, and nothing is taken for an error. -/
structure ReadsWhole (fails : ℕ → Bool) (errno : ℕ) (reading : Reading) : Prop where
  errno : errnoAtEnd errno reading.entries ≠ ebadf
  memory : ∀ n < reading.subDirectories.length, fails n = false
  typed : ∀ turn ∈ reading.members, SubDirectory turn.1 → turn.1.dirent.dType = dtDir
  short : ∀ turn ∈ reading.members, SubDirectory turn.1 →
    turn.1.dirent.dName.length ≤ dirNameSize

/-- The error is the one that the code tells from the end of the directory, or the process has
stopped before. -/
def Notices (fails : ℕ → Bool) (error : ℕ) (reading : Reading) : Prop :=
  error = ebadf ∨ ∃ n < (listedEntries reading.entries).length, fails n = true

section Readings

variable {reading : Reading} {member : Member} {errno error : ℕ}

theorem subDirectory_of_listed (hlisted : Listed member.dirent) : SubDirectory member := by
  refine ⟨(member.typed ?_).mp hlisted.1, hlisted.2⟩
  rw [hlisted.1]
  decide

theorem listed_iff_of_typed (htyped : SubDirectory member → member.dirent.dType = dtDir) :
    Listed member.dirent ↔ SubDirectory member :=
  ⟨subDirectory_of_listed, fun hsub ↦ ⟨htyped hsub, hsub.2⟩⟩

theorem listedEntries_eq (reading : Reading) :
    listedEntries reading.entries =
      ((reading.members.map Prod.fst).filter fun member ↦ Listed member.dirent).map
        Member.dirent := by
  rw [listedEntries, Reading.entries, List.map_map, List.filter_map, List.filter_map, List.map_map]
  rfl

/-- The list holds the names of all sub-directories exactly if their types say so and their names
fit. -/
theorem copiedNames_eq_iff :
    (listedEntries reading.entries).map copiedName = reading.subDirectories ↔
      ∀ turn ∈ reading.members, SubDirectory turn.1 →
        turn.1.dirent.dType = dtDir ∧ turn.1.dirent.dName.length ≤ dirNameSize := by
  rw [listedEntries_eq, Reading.subDirectories, List.map_map]
  constructor
  · intro hsame turn hturn hsub
    have hmember : turn.1 ∈ reading.members.map Prod.fst := List.mem_map_of_mem hturn
    have hsublist := List.monotone_filter_right (reading.members.map Prod.fst)
      (p := fun member ↦ Listed member.dirent) (q := fun member ↦ SubDirectory member)
      fun member hlisted ↦ decide_eq_true (subDirectory_of_listed (of_decide_eq_true hlisted))
    have hlength := congrArg List.length hsame
    rw [List.length_map, List.length_map] at hlength
    rw [hsublist.eq_of_length hlength] at hsame
    have hlisted : turn.1 ∈ (reading.members.map Prod.fst).filter fun member ↦
      SubDirectory member := List.mem_filter.mpr ⟨hmember, decide_eq_true hsub⟩
    refine ⟨?_, (List.take_eq_self_iff _).mp (List.map_inj_left.mp hsame _ hlisted)⟩
    rw [← hsublist.eq_of_length hlength] at hlisted
    exact (of_decide_eq_true (List.mem_filter.mp hlisted).2).1
  · intro hall
    have hfilter : (reading.members.map Prod.fst).filter (fun member ↦ Listed member.dirent) =
        (reading.members.map Prod.fst).filter fun member ↦ SubDirectory member := by
      refine List.filter_congr fun member hmember ↦ decide_eq_decide.mpr ?_
      obtain ⟨turn, hturn, rfl⟩ := List.mem_map.mp hmember
      exact listed_iff_of_typed fun hsub ↦ (hall turn hturn hsub).1
    rw [hfilter]
    refine List.map_congr_left fun member hmember ↦ ?_
    obtain ⟨hmember, hsub⟩ := List.mem_filter.mp hmember
    obtain ⟨turn, hturn, rfl⟩ := List.mem_map.mp hmember
    exact (List.take_eq_self_iff _).mpr (hall turn hturn (of_decide_eq_true hsub)).2

/-- The condition under which `list_sub_dirs` does what its caller relies on. -/
def ToldApart (fails : ℕ → Bool) (errno : ℕ) (reading : Reading) : Prop :=
  match reading.failure with
  | none => ReadsWhole fails errno reading
  | some error => Notices fails error reading

/-- When the calls come to the end of the directory, all of its sub-directories are in the list
exactly if the loop is left and has found them all. -/
theorem readsWhole_iff {fails : ℕ → Bool} :
    ReadsWhole fails errno reading ↔
      LoopEnds fails none reading.entries errno 0 ∧
        (listedEntries reading.entries).map copiedName = reading.subDirectories := by
  rw [copiedNames_eq_iff]
  constructor
  · rintro ⟨herrno, hmemory, htyped, hshort⟩
    have hall := fun turn hturn hsub ↦
      And.intro (htyped turn hturn hsub) (hshort turn hturn hsub)
    refine ⟨⟨fun n hn ↦ ?_, herrno⟩, hall⟩
    rw [Nat.zero_add]
    refine hmemory n ?_
    rwa [← copiedNames_eq_iff.mpr hall, List.length_map]
  · rintro ⟨⟨hmemory, herrno⟩, hall⟩
    refine ⟨herrno, fun n hn ↦ ?_, fun turn hturn hsub ↦ (hall turn hturn hsub).1,
      fun turn hturn hsub ↦ (hall turn hturn hsub).2⟩
    rw [← copiedNames_eq_iff.mpr hall, List.length_map] at hn
    simpa using hmemory n hn

theorem notices_iff {fails : ℕ → Bool} (errno : ℕ) :
    Notices fails error reading ↔ ¬ LoopEnds fails (some error) reading.entries errno 0 := by
  constructor
  · rintro (hbadf | ⟨n, hn, hfails⟩) ⟨hmemory, herrno⟩
    · exact herrno hbadf
    · have hmade := hmemory n hn
      rw [Nat.zero_add, hfails] at hmade
      cases hmade
  · intro hends
    by_contra hunnoticed
    obtain ⟨hbadf, hmade⟩ := not_or.mp hunnoticed
    refine hends ⟨fun n hn ↦ ?_, hbadf⟩
    rw [Nat.zero_add]
    by_contra hfails
    exact hmade ⟨n, hn, by simpa using hfails⟩

end Readings

/-! ### What the caller is told -/

/-- For every directory, every value of `errno` before and whatever the calls leave in it: the
names of all its sub-directories are returned, in their order and in full, or after a read error
no list is, exactly under this condition. At the end of the directory `errno` is not `EBADF`, every
sub-directory has the type `DT_DIR` and a name that fits, and there is memory for it; a read error
is `EBADF`, or the memory has run out before. -/
theorem completeOrSaysSo_iff (fails : ℕ → Bool) (errno : ℕ) (reading : Reading) :
    CompleteOrSaysSo reading (listSubDirs fails (.opened errno reading.stream)) ↔
      ToldApart fails errno reading := by
  have hloop := listSubDirs_opened fails errno reading.stream
  unfold CompleteOrSaysSo ToldApart
  dsimp only [Reading.stream] at hloop ⊢
  cases hfailure : reading.failure with
  | none =>
    rw [hfailure] at hloop
    dsimp only
    rw [readsWhole_iff]
    rcases hloop with ⟨hends, list, hlist, hnames⟩ | ⟨hfails, herror⟩
    · rw [hlist, and_iff_right hends]
      change list.names = some reading.subDirectories ↔ _
      rw [hnames, Option.some_inj]
    · rw [herror]
      exact iff_of_false (by simp [Except.toOption]) fun hwhole ↦ hfails hwhole.1
  | some error =>
    rw [hfailure] at hloop
    dsimp only
    rw [notices_iff errno]
    rcases hloop with ⟨hends, list, hlist, -⟩ | ⟨hfails, herror⟩
    · rw [hlist]
      exact iff_of_false (by simp [Except.toOption]) (not_not_intro hends)
    · rw [herror]
      exact iff_of_true rfl hfails

/-- Two sub-directories, of which the file system gives the type of the first one only. -/
def twoSubDirs (failure : Option ℕ) : Reading where
  members := [(⟨⟨literal ".", dtDir⟩, true, by decide⟩, 0),
    (⟨⟨literal "a", dtDir⟩, true, by decide⟩, 0),
    (⟨⟨literal "b", dtUnknown⟩, true, by decide⟩, 0)]
  failure := failure

/-- A directory without entries. -/
def emptyDir : Reading := ⟨[], none⟩

/-- A sub-directory of unknown type is missing from the list, the list that is returned after an
`EIO` (5) ends with the entries seen so far, and an `EBADF` from before the call stops the process
at the end of an empty directory. -/
theorem completeOrSaysSo_fails :
    ¬ CompleteOrSaysSo (twoSubDirs none)
        (listSubDirs (fun _ ↦ false) (.opened 0 (twoSubDirs none).stream)) ∧
      ¬ CompleteOrSaysSo (twoSubDirs (some 5))
        (listSubDirs (fun _ ↦ false) (.opened 0 (twoSubDirs (some 5)).stream)) ∧
      ¬ CompleteOrSaysSo emptyDir
        (listSubDirs (fun _ ↦ false) (.opened ebadf emptyDir.stream)) := by
  refine ⟨?_, ?_, ?_⟩ <;> simp only [CompleteOrSaysSo, twoSubDirs, emptyDir] <;> decide

/-! ### The watcher takes the list for the answers to its calls -/

/-- The errors of `opendir` that the watcher tells apart. -/
def errnoOf (errno : ℕ) : Errno :=
  if errno = enoent then .enoent else if errno = enotdir then .enotdir else .other

def opendirAnswer : Opendir → Answer
  | .failed errno => .error (errnoOf errno)
  | .opened _ _ => .done

/-- What the calls of `readdir` come to for the watcher. -/
def readdirAnswer (result : Except Stop SubDirList) : Answer :=
  match result.toOption.bind SubDirList.names with
  | none => .error .other
  | some names => .names names

theorem readdirAnswer_ok (hnames : list.names = some names) :
    readdirAnswer (.ok list) = .names names := by
  simp [readdirAnswer, Except.toOption, hnames]

theorem readdirAnswer_error (stop : Stop) : readdirAnswer (.error stop) = .error .other := rfl

/-- The two steps of the watcher in `list_sub_dirs`. -/
def resumeListing (fails : ℕ → Bool) (w : Watcher) (result : Opendir) : Option Watcher :=
  match result with
  | .failed _ => w.resume (opendirAnswer result)
  | .opened _ _ => (w.resume (opendirAnswer result)).bind
      (·.resume (readdirAnswer (listSubDirs fails result)))

section Resuming

variable {w : Watcher} {wd : Wd} {path : Bytes}

theorem resume_opendir_error (hplace : w.place = .opendir wd path) (errno : Errno) :
    w.resume (.error errno) = some (w.opendirFailed wd path errno) := by
  simp [Watcher.resume, hplace]

theorem resume_opendir_done (hplace : w.place = .opendir wd path) :
    w.resume .done = some { w with place := .readdir wd path } := by
  simp [Watcher.resume, hplace]

/-- The watcher goes on with the names of the list, or stops as `list_sub_dirs` does. -/
theorem resumeListing_eq (hplace : w.place = .opendir wd path) (fails : ℕ → Bool)
    (result : Opendir) :
    (∃ list names, listSubDirs fails result = .ok list ∧ list.names = some names ∧
      resumeListing fails w result = some { w with place := .subDirs wd path names }) ∨
    listSubDirs fails result = .error (.exited (-1)) ∧
      resumeListing fails w result = some (w.exit (-1)) := by
  cases result with
  | failed errno =>
    rw [resumeListing, opendirAnswer, resume_opendir_error hplace, errnoOf, listSubDirs]
    split_ifs with hmissing hnotDir
    · exact Or.inl ⟨.empty, [], rfl, rfl, rfl⟩
    · exact Or.inl ⟨.empty, [], rfl, rfl, rfl⟩
    · exact Or.inr ⟨rfl, rfl⟩
  | opened errno stream =>
    rw [resumeListing, opendirAnswer, resume_opendir_done hplace, Option.bind_some]
    rcases listSubDirs_opened fails errno stream with ⟨-, list, hlist, hnames⟩ | ⟨-, herror⟩
    · refine Or.inl ⟨list, _, hlist, hnames, ?_⟩
      rw [hlist, readdirAnswer_ok hnames]
      rfl
    · refine Or.inr ⟨herror, ?_⟩
      rw [herror, readdirAnswer_error]
      rfl

/-- What the file system may answer to the calls that read a directory is what `list_sub_dirs`
makes of them, if it finds all sub-directories. -/
theorem serve_readdirAnswer {fs : FileSystem} {scan : Scan} (hscan : fs.scan = some scan)
    {fails : ℕ → Bool} {errno : ℕ} {reading : Reading} (hend : reading.failure = none)
    (hwhole : ReadsWhole fails errno reading) (hmust : scan.must ⊆ reading.subDirectories)
    (hmay : reading.subDirectories ⊆ scan.may) :
    fs.serve .readdir (readdirAnswer (listSubDirs fails (.opened errno reading.stream))) =
      some { fs with scan := none } := by
  obtain ⟨hends, hnames⟩ := readsWhole_iff.mp hwhole
  rcases listSubDirs_opened fails errno reading.stream with ⟨-, list, hlist, hlisted⟩ | ⟨hfails, -⟩
  · rw [show reading.stream.entries = reading.entries from rfl, hnames] at hlisted
    rw [hlist, readdirAnswer_ok hlisted]
    simp [FileSystem.serve, FileSystem.readdir, hscan, hmust, hmay]
  · refine absurd ?_ hfails
    rw [show reading.stream.failure = none from hend]
    exact hends

end Resuming

end DirWatcher.Watching
