import DirWatcher.Source.Statements
import DirWatcher.Watching.ConfigLines
import DirWatcher.Watching.Tables

/-!
The statements of `wd_directory.c` and the table they stand for. On a database that does what
the texts mean that the file prints, with its rows in any order, the functions of the file do
what they do on the table, whatever bytes the paths have.
-/

set_option autoImplicit false
set_option relaxedAutoImplicit false

namespace DirWatcher.Watching

open Source Foundation Foundation.ParentLinks Foundation.SqlText

/-- A number that an `int` can hold. -/
def IsInt (number : ℤ) : Prop := -2 ^ 31 ≤ number ∧ number < 2 ^ 31

instance : DecidablePred IsInt := fun number ↦
  inferInstanceAs (Decidable (-2 ^ 31 ≤ number ∧ number < 2 ^ 31))

theorem IsInt.fits {number : ℤ} (hint : IsInt number) : (Value.integer number).Fits := by
  obtain ⟨hlow, hhigh⟩ := hint
  simp only [Value.Fits, integerBound]
  omega

variable {σ : Type} {engine : Engine σ} {view : σ → List Tuple} {db : σ} {table : Table} {row : Row}
  {wd : Wd} {path : Bytes}

/-! ### The texts -/

/-- The texts that the functions print for `int`s, and for paths that fit the buffers of
`main`. -/
inductive Printed : Bytes → Prop
  | addEntry {wd parentWd : ℤ} {path : Bytes} (hwd : IsInt wd) (hparent : IsInt parentWd)
      (hshort : path.length < maxPathLen) :
      Printed (vmprintf addEntry [.int wd, .int parentWd, .text path])
  | removeEntry {wd : ℤ} (hwd : IsInt wd) : Printed (vmprintf removeEntry [.int wd])
  | fetchWd {path : Bytes} (hshort : path.length < maxPathLen) :
      Printed (vmprintf fetchWd [.text path])
  | fetchParent {wd : ℤ} (hwd : IsInt wd) : Printed (vmprintf fetchParent [.int wd])
  | fetchPath {wd : ℤ} (hwd : IsInt wd) : Printed (vmprintf fetchPath [.int wd])
  | fetchChildren {wd : ℤ} (hwd : IsInt wd) : Printed (vmprintf fetchChildren [.int wd])

/-- The values of a row. -/
def rowValues (row : Row) : Tuple := [.integer row.wd, .integer row.parentWd, .text row.path]

/-- A row that a statement can insert: two numbers and a string. -/
structure Storable (row : Row) : Prop where
  wd : IsInt row.wd
  parentWd : IsInt row.parentWd
  path : 0 ∉ row.path
  short : row.path.length < maxPathLen

instance (row : Row) : Decidable (Storable row) :=
  decidable_of_iff
    (IsInt row.wd ∧ IsInt row.parentWd ∧ 0 ∉ row.path ∧ row.path.length < maxPathLen)
    ⟨fun ⟨hwd, hparent, hpath, hshort⟩ ↦ ⟨hwd, hparent, hpath, hshort⟩,
      fun ⟨hwd, hparent, hpath, hshort⟩ ↦ ⟨hwd, hparent, hpath, hshort⟩⟩

theorem parse_addEntry (hrow : Storable row) :
    parseText (vmprintf addEntry [.int row.wd, .int row.parentWd, .text row.path]) =
      some (.insert (name "wd_directory") (rowValues row)) := by
  have htext : vmprintf addEntry [.int row.wd, .int row.parentWd, .text row.path] =
      literal "INSERT INTO wd_directory VALUES" ++
        40 :: valuesText (.integer row.wd) [.integer row.parentWd, .text (stringAt row.path)] := rfl
  rw [htext, stringAt_of_not_mem hrow.path]
  refine parseText_insert (by decide) ?_
  simp only [List.forall_mem_cons]
  exact ⟨hrow.wd.fits, hrow.parentWd.fits, trivial, by simp⟩

theorem parse_removeEntry (hwd : IsInt wd) :
    parseText (vmprintf removeEntry [.int wd]) =
      some (.delete (name "wd_directory") (name "wd") (.integer wd)) := by
  have htext : vmprintf removeEntry [.int wd] =
      literal "DELETE FROM wd_directory where wd =" ++
        32 :: (valueText (.integer wd) ++ [59]) := rfl
  rw [htext]
  exact parseText_delete (by decide) hwd.fits

theorem parse_fetchWd (hpath : 0 ∉ path) :
    parseText (vmprintf fetchWd [.text path]) =
      some (.select (name "wd") (name "wd_directory") (name "path") (.text path)) := by
  have htext : vmprintf fetchWd [.text path] =
      literal "SELECT wd from wd_directory where path =" ++
        32 :: (valueText (.text (stringAt path)) ++ [59]) := rfl
  rw [htext, stringAt_of_not_mem hpath]
  exact parseText_select (by decide) trivial

theorem parse_fetchParent (hwd : IsInt wd) :
    parseText (vmprintf fetchParent [.int wd]) =
      some (.select (name "parent_wd") (name "wd_directory") (name "wd") (.integer wd)) := by
  have htext : vmprintf fetchParent [.int wd] =
      literal "SELECT parent_wd from wd_directory where wd =" ++
        32 :: (valueText (.integer wd) ++ [59]) := rfl
  rw [htext]
  exact parseText_select (by decide) hwd.fits

theorem parse_fetchPath (hwd : IsInt wd) :
    parseText (vmprintf fetchPath [.int wd]) =
      some (.select (name "path") (name "wd_directory") (name "wd") (.integer wd)) := by
  have htext : vmprintf fetchPath [.int wd] =
      literal "SELECT path from wd_directory where wd =" ++
        32 :: (valueText (.integer wd) ++ [59]) := rfl
  rw [htext]
  exact parseText_select (by decide) hwd.fits

theorem parse_fetchChildren (hwd : IsInt wd) :
    parseText (vmprintf fetchChildren [.int wd]) =
      some (.select (name "wd") (name "wd_directory") (name "parent_wd") (.integer wd)) := by
  have htext : vmprintf fetchChildren [.int wd] =
      literal "SELECT wd from wd_directory where parent_wd =" ++
        32 :: (valueText (.integer wd) ++ [59]) := rfl
  rw [htext]
  exact parseText_select (by decide) hwd.fits

/-! ### The columns -/

@[simp] theorem field_wd (row : Row) :
    wdDirectorySchema.field (rowValues row) (name "wd") = some (.integer row.wd) := by
  rfl

@[simp] theorem field_parentWd (row : Row) :
    wdDirectorySchema.field (rowValues row) (name "parent_wd") = some (.integer row.parentWd) := by
  rfl

@[simp] theorem field_path (row : Row) :
    wdDirectorySchema.field (rowValues row) (name "path") = some (.text row.path) := by
  rfl

/-- The rows of the database are those of the table, in some order. -/
def Represents (view : σ → List Tuple) (db : σ) (table : Table) : Prop :=
  (view db).Perm (table.map rowValues)

theorem clashes_eq (table : Table) (row : Row) :
    wdDirectorySchema.clashes (table.map rowValues) (rowValues row) =
      table.any fun old ↦ old.wd == row.wd || old.path == row.path := by
  rw [Schema.clashes, List.any_map]
  refine congrArg (List.any table) (funext fun old ↦ ?_)
  change (wdDirectorySchema.field (rowValues old) (name "wd") ==
      wdDirectorySchema.field (rowValues row) (name "wd") ||
    (wdDirectorySchema.field (rowValues old) (name "path") ==
      wdDirectorySchema.field (rowValues row) (name "path") || false)) = _
  rw [Bool.eq_iff_iff]
  simp

/-! ### Lookups by key -/

theorem eq_toList_of_perm {α : Type} {values : List α} {option : Option α}
    (hperm : values.Perm option.toList) : values = option.toList := by
  cases option with
  | none => exact List.perm_nil.mp hperm
  | some value => exact List.perm_singleton.mp hperm

/-- A value that comes once is found once. -/
theorem filter_eq_toList {β : Type} [BEq β] [LawfulBEq β] {column : Row → β}
    (hnodup : (table.map column).Nodup) (value : β) :
    table.filter (column · == value) = (table.find? (column · == value)).toList := by
  induction table with
  | nil => rfl
  | cons first rest ih =>
    rw [List.map_cons, List.nodup_cons] at hnodup
    rw [List.filter_cons, List.find?_cons]
    cases hfirst : column first == value with
    | false => simpa using ih hnodup.2
    | true =>
      have hnone : rest.filter (column · == value) = [] := by
        refine List.filter_eq_nil_iff.mpr fun row hrow hsame ↦ hnodup.1 ?_
        rw [eq_of_beq hfirst, ← eq_of_beq hsame]
        exact List.mem_map_of_mem hrow
      simp [hnone]

/-- The rows that the primary key and the index leave, with values that were inserted. -/
structure Stored (table : Table) : Prop where
  wds : (table.map Row.wd).Nodup
  paths : (table.map Row.path).Nodup
  storable : ∀ row ∈ table, Storable row

/-! ### The statements that change the database -/

section Follows

variable (hfollows : engine.Follows wdDirectorySchema Printed view)
include hfollows

theorem Represents.addWdDirectory (hrep : Represents view db table) (hrow : Storable row) :
    (Source.addWdDirectory table row = none →
      Statements.addWdDirectory engine db row = .error .sqlError) ∧
    ∀ after, Source.addWdDirectory table row = some after →
      ∃ next, Statements.addWdDirectory engine db row = .ok next ∧ Represents view next after := by
  have hparse := parse_addEntry hrow
  have hprinted := Printed.addEntry hrow.wd hrow.parentWd hrow.short
  have hfits : wdDirectorySchema.Fits (.insert (name "wd_directory") (rowValues row)) := ⟨rfl, rfl⟩
  have hclashes := (wdDirectorySchema.clashes_perm hrep (rowValues row)).trans
    (clashes_eq table row)
  unfold Source.addWdDirectory
  refine ⟨fun hclash ↦ ?_, fun after hafter ↦ ?_⟩
  · split_ifs at hclash with hany
    have hnone := hfollows.refuses db _ _ hprinted hparse hfits (by
      rw [Schema.run, if_pos (hclashes.trans hany)])
    rw [Statements.addWdDirectory, Statements.executeSql, hnone]
  · split_ifs at hafter with hany
    cases hafter
    obtain ⟨next, hexec, hperm⟩ := hfollows.exec db _ _ (view db ++ [rowValues row]) hprinted
      hparse hfits (by rw [Schema.run, if_neg (by rw [hclashes]; exact hany)])
    refine ⟨next, by rw [Statements.addWdDirectory, Statements.executeSql, hexec], ?_⟩
    refine hperm.trans ?_
    rw [List.map_append]
    exact hrep.append_right _

theorem Represents.removeWdDirectory (hrep : Represents view db table) (hwd : IsInt wd) :
    ∃ next, Statements.removeWdDirectory engine db wd = .ok next ∧
      Represents view next (Source.removeWdDirectory table wd) := by
  obtain ⟨next, hexec, hperm⟩ := hfollows.exec db _ _ _ (.removeEntry hwd)
    (parse_removeEntry hwd) ⟨rfl, List.mem_cons_self⟩ rfl
  refine ⟨next, by rw [Statements.removeWdDirectory, Statements.executeSql, hexec], ?_⟩
  refine hperm.trans ((hrep.filter _).trans (List.Perm.of_eq ?_))
  rw [List.filter_map, Source.removeWdDirectory]
  refine congrArg (List.map rowValues) (List.filter_congr fun old _ ↦ ?_)
  rw [Bool.eq_iff_iff]
  simp

/-! ### The queries -/

/-- A query gives the values of the rows that pass its test, in some order. -/
theorem Represents.prepare (hrep : Represents view db table) {format : Bytes}
    {args : List FormatArg} {column key : Bytes} {value : Value} (test : Row → Bool)
    (result : Row → Value) (hprinted : Printed (vmprintf format args))
    (hparse : parseText (vmprintf format args) =
      some (.select column (name "wd_directory") key value))
    (hfits : wdDirectorySchema.Fits (.select column (name "wd_directory") key value))
    (htest : ∀ row, (wdDirectorySchema.field (rowValues row) key == some value) = test row)
    (hresult : ∀ row, wdDirectorySchema.field (rowValues row) column = some (result row)) :
    ∃ values, Statements.prepareSqlStatement engine db format args = .ok values ∧
      values.Perm ((table.filter test).map result) := by
  obtain ⟨values, hquery, hperm⟩ := hfollows.query db _ _ _ _ _ hprinted hparse hfits
  refine ⟨values, by rw [Statements.prepareSqlStatement, hquery], hperm.trans ?_⟩
  refine (wdDirectorySchema.fetch_perm hrep _).trans (List.Perm.of_eq ?_)
  rw [Schema.fetch, List.filter_map, List.filterMap_map,
    show (wdDirectorySchema.field · column) ∘ rowValues = fun row ↦ some (result row) from
      funext hresult, List.filterMap_eq_map']
  exact congrArg (List.map result) (List.filter_congr fun row _ ↦ htest row)

/-! ### The queries for one row -/

theorem Represents.fetchPath (hrep : Represents view db table) (hstored : Stored table)
    (hwd : IsInt wd) :
    Statements.prepareSqlStatement engine db fetchPath [.int wd] =
      .ok ((table.find? (·.wd == wd)).map fun row ↦ .text row.path).toList := by
  obtain ⟨values, hquery, hperm⟩ := hrep.prepare hfollows (·.wd == wd)
    (fun row ↦ .text row.path) (.fetchPath hwd) (parse_fetchPath hwd)
    ⟨rfl, by decide, List.mem_cons_self⟩
    (fun row ↦ by rw [Bool.eq_iff_iff]; simp) field_path
  rw [filter_eq_toList hstored.wds, ← Option.toList_map] at hperm
  rw [hquery, eq_toList_of_perm hperm]

theorem Represents.wdDirectoryExists (hrep : Represents view db table) (hstored : Stored table)
    (hwd : IsInt wd) :
    Statements.wdDirectoryExists engine db wd = .ok (Source.wdDirectoryExists table wd) := by
  rw [Statements.wdDirectoryExists, hrep.fetchPath hfollows hstored hwd, Source.wdDirectoryExists,
    ← List.isSome_find?]
  cases table.find? (·.wd == wd) <;> rfl

theorem Represents.findWdDirectory (hrep : Represents view db table) (hstored : Stored table)
    (hwd : IsInt wd) (maxLen : ℕ) :
    Statements.findWdDirectory engine db wd maxLen =
      .ok (Source.findWdDirectory table wd maxLen) := by
  rw [Statements.findWdDirectory, hrep.fetchPath hfollows hstored hwd, Source.findWdDirectory]
  cases table.find? (·.wd == wd) <;> rfl

theorem Represents.findWdParent (hrep : Represents view db table) (hstored : Stored table)
    (hwd : IsInt wd) :
    Statements.findWdParent engine db wd = .ok (Source.findWdParent table wd) := by
  obtain ⟨values, hquery, hperm⟩ := hrep.prepare hfollows (·.wd == wd)
    (fun row ↦ .integer row.parentWd) (.fetchParent hwd) (parse_fetchParent hwd)
    ⟨rfl, by decide, List.mem_cons_self⟩ (fun row ↦ by rw [Bool.eq_iff_iff]; simp) field_parentWd
  rw [filter_eq_toList hstored.wds, ← Option.toList_map] at hperm
  rw [Statements.findWdParent, hquery, eq_toList_of_perm hperm, Source.findWdParent]
  cases table.find? (·.wd == wd) <;> rfl

theorem Represents.findDirectoryWd (hrep : Represents view db table) (hstored : Stored table)
    (hpath : 0 ∉ path) (hshort : path.length < maxPathLen) :
    Statements.findDirectoryWd engine db path = .ok (Source.findDirectoryWd table path) := by
  obtain ⟨values, hquery, hperm⟩ := hrep.prepare hfollows (·.path == path)
    (fun row ↦ .integer row.wd) (.fetchWd hshort) (parse_fetchWd hpath)
    ⟨rfl, by decide, by simp [wdDirectorySchema, Value.kind]⟩
    (fun row ↦ by rw [Bool.eq_iff_iff]; simp) field_wd
  rw [filter_eq_toList hstored.paths, ← Option.toList_map] at hperm
  rw [Statements.findDirectoryWd, hquery, eq_toList_of_perm hperm, Source.findDirectoryWd]
  cases table.find? (·.path == path) <;> rfl

theorem Represents.findChildren (hrep : Represents view db table) (hwd : IsInt wd) :
    ∃ children, Statements.findChildren engine db wd = .ok children ∧
      children.Perm (Source.findChildren table wd) := by
  obtain ⟨values, hquery, hperm⟩ := hrep.prepare hfollows (·.parentWd == wd)
    (fun row ↦ .integer row.wd) (.fetchChildren hwd) (parse_fetchChildren hwd)
    ⟨rfl, by decide, by simp [wdDirectorySchema, Value.kind]⟩
    (fun row ↦ by rw [Bool.eq_iff_iff]; simp) field_wd
  refine ⟨values.map Statements.columnInt, by rw [Statements.findChildren, hquery]; rfl, ?_⟩
  refine (hperm.map _).trans (List.Perm.of_eq ?_)
  rw [Source.findChildren, List.map_map]
  rfl

end Follows

/-! ### Pruning -/

/-- The first loop of `prune_wd_directory`, as a walk. -/
theorem collect_eq {children : Wd → List Wd}
    (hchildren : ∀ wd, IsInt wd → Statements.findChildren engine db wd = .ok (children wd) ∧
      ∀ child ∈ children wd, IsInt child) {turns : ℕ} {pending : List Wd}
    (hpending : ∀ wd ∈ pending, IsInt wd) :
    Statements.collect engine db turns pending =
      (ParentLinks.traverse children turns pending).elim (.error .loops) .ok := by
  induction turns generalizing pending with
  | zero => cases pending <;> rfl
  | succ turns ih =>
    cases pending with
    | nil => rfl
    | cons wd rest =>
      obtain ⟨hfind, hints⟩ := hchildren wd (hpending wd List.mem_cons_self)
      have hrest : ∀ other ∈ rest ++ children wd, IsInt other := fun other hother ↦
        (List.mem_append.mp hother).elim (fun h ↦ hpending other (List.mem_cons_of_mem _ h))
          (hints other)
      rw [Statements.collect, hfind, ParentLinks.traverse]
      change (Statements.collect engine db turns (rest ++ children wd)).bind _ = _
      rw [ih hrest]
      cases ParentLinks.traverse children turns (rest ++ children wd) <;> rfl

/-- The second loop. -/
theorem Represents.removeAll (hfollows : engine.Follows wdDirectorySchema Printed view)
    (hrep : Represents view db table) {wds : List Wd} (hwds : ∀ wd ∈ wds, IsInt wd) :
    ∃ next, wds.foldlM (Statements.removeWdDirectory engine) db = .ok next ∧
      Represents view next (wds.foldl Source.removeWdDirectory table) := by
  induction wds generalizing db table with
  | nil => exact ⟨db, rfl, hrep⟩
  | cons wd rest ih =>
    obtain ⟨next, hremove, hnext⟩ := hrep.removeWdDirectory hfollows (hwds wd List.mem_cons_self)
    obtain ⟨last, hrest, hlast⟩ := ih hnext fun other hother ↦
      hwds other (List.mem_cons_of_mem _ hother)
    refine ⟨last, ?_, hlast⟩
    rw [List.foldlM_cons, hremove]
    exact hrest

theorem Represents.pruneWdDirectory (hfollows : engine.Follows wdDirectorySchema Printed view)
    (hrep : Represents view db table) (hstored : Stored table) (hwd : IsInt wd) {turns : ℕ}
    (hturns : table.length < turns) :
    (Source.pruneWdDirectory table wd = none →
      Statements.pruneWdDirectory engine turns db wd = .error .loops) ∧
    ∀ wds after, Source.pruneWdDirectory table wd = some (wds, after) →
      ∃ list next, Statements.pruneWdDirectory engine turns db wd = .ok (list, next) ∧
        list.Perm wds ∧ Represents view next after := by
  choose! children hfind hperm using fun wd (hint : IsInt wd) ↦
    hrep.findChildren hfollows hint
  let links := fun wd ↦ if IsInt wd then children wd else []
  have hints : ∀ wd child, child ∈ Source.findChildren table wd → IsInt wd ∧ IsInt child := by
    intro wd child hchild
    obtain ⟨row, hrow, rfl, rfl⟩ := mem_findChildren.mp hchild
    exact ⟨(hstored.storable row hrow).parentWd, (hstored.storable row hrow).wd⟩
  have hlinks : ∀ wd, (links wd).Perm (Source.findChildren table wd) := by
    intro wd
    by_cases hint : IsInt wd
    · simpa [links, hint] using hperm wd hint
    · have hnone : Source.findChildren table wd = [] :=
        List.eq_nil_iff_forall_not_mem.mpr fun child hchild ↦ hint (hints wd child hchild).1
      simp [links, hint, hnone]
  have hcollect : Statements.collect engine db turns [wd] =
      (ParentLinks.traverse links turns [wd]).elim (.error .loops) .ok := by
    refine collect_eq (fun wd hint ↦ ⟨?_, fun child hchild ↦ ?_⟩) (by simpa using hwd)
    · simpa [links, hint] using hfind wd hint
    · exact (hints wd child ((hlinks wd).mem_iff.mp hchild)).2
  rw [Statements.pruneWdDirectory, hcollect, Source.pruneWdDirectory]
  rcases ParentLinks.traverse_perm hlinks (forest_of_nodup hstored.wds) wd turns (table.length + 1)
    (by rwa [List.length_map]) (by simp) with
    ⟨hnone, hnone'⟩ | ⟨first, second, hfirst, hsecond, hsame⟩
  · rw [hnone, hnone']
    exact ⟨fun _ ↦ rfl, fun wds after hsome ↦ by cases hsome⟩
  · rw [hfirst, hsecond]
    refine ⟨fun hnone ↦ (by cases hnone), fun wds after hsome ↦ ?_⟩
    cases hsome
    have hfirstInts : ∀ other ∈ first, IsInt other := by
      intro other hother
      rw [traverse_eq_append_flatMap hfirst] at hother
      rcases List.mem_append.mp hother with hroot | hchild
      · rwa [List.mem_singleton.mp hroot]
      · obtain ⟨parent, -, hchild⟩ := List.mem_flatMap.mp hchild
        exact (hints parent other ((hlinks parent).mem_iff.mp hchild)).2
    obtain ⟨next, hremove, hnext⟩ := hrep.removeAll hfollows hfirstInts
    refine ⟨first, next, ?_, hsame, ?_⟩
    · change (first.foldlM (Statements.removeWdDirectory engine) db).bind _ = _
      rw [hremove]
      rfl
    · rw [foldl_removeWdDirectory_eq] at hnext ⊢
      simpa only [hsame.mem_iff] using hnext

/-! ### Sequences of calls -/

/-- The calls of `main` that change the table. -/
inductive TableCall
  | add (row : Row)
  | remove (wd : Wd)
  | prune (wd : Wd)
deriving DecidableEq, Repr

namespace TableCall

def Fits : TableCall → Prop
  | .add row => Storable row
  | .remove wd => IsInt wd
  | .prune wd => IsInt wd

instance : DecidablePred Fits := fun call ↦ by
  cases call <;> unfold Fits <;> infer_instance

/-- The list of a prune and the table after a call. -/
def onTable (table : Table) : TableCall → Except Stop (List Wd × Table)
  | .add row => match Source.addWdDirectory table row with
    | none => .error .sqlError
    | some after => .ok ([], after)
  | .remove wd => .ok ([], Source.removeWdDirectory table wd)
  | .prune wd => match Source.pruneWdDirectory table wd with
    | none => .error .loops
    | some result => .ok result

def onDatabase (engine : Engine σ) (turns : ℕ) (db : σ) : TableCall → Except Stop (List Wd × σ)
  | .add row => do
    let after ← Statements.addWdDirectory engine db row
    return ([], after)
  | .remove wd => do
    let after ← Statements.removeWdDirectory engine db wd
    return ([], after)
  | .prune wd => Statements.pruneWdDirectory engine turns db wd

end TableCall

def runCalls {τ : Type} (step : τ → TableCall → Except Stop (List Wd × τ)) :
    τ → List TableCall → Except Stop (List (List Wd) × τ)
  | state, [] => .ok ([], state)
  | state, call :: rest => do
    let (wds, next) ← step state call
    let (lists, last) ← runCalls step next rest
    return (wds :: lists, last)

theorem Stored.sublist {after : Table} (hstored : Stored table) (hsub : after.Sublist table) :
    Stored after :=
  ⟨hstored.wds.sublist (hsub.map _), hstored.paths.sublist (hsub.map _),
    fun row hrow ↦ hstored.storable row (hsub.subset hrow)⟩

theorem Stored.insert (hstored : Stored table) (hrow : Storable row) (hfree : Free table row) :
    Stored (table ++ [row]) := by
  refine ⟨?_, ?_, fun other hother ↦ ?_⟩
  · rw [List.map_append, List.nodup_append]
    exact ⟨hstored.wds, by simp, by simpa using fun old hold ↦ (hfree old hold).1⟩
  · rw [List.map_append, List.nodup_append]
    exact ⟨hstored.paths, by simp, by simpa using fun old hold ↦ (hfree old hold).2⟩
  · rcases List.mem_append.mp hother with hold | hnew
    · exact hstored.storable other hold
    · rwa [List.mem_singleton.mp hnew]

/-- How a call on the database follows the one on the table. -/
inductive CallFollows (view : σ → List Tuple) (limit : ℕ) :
    Except Stop (List Wd × Table) → Except Stop (List Wd × σ) → Prop
  | stops (stop : Stop) : CallFollows view limit (.error stop) (.error stop)
  | goes {wds list : List Wd} {after : Table} {next : σ} (hlist : list.Perm wds)
      (hrep : Represents view next after) (hstored : Stored after)
      (hlength : after.length ≤ limit) :
      CallFollows view limit (.ok (wds, after)) (.ok (list, next))

theorem Represents.call (hfollows : engine.Follows wdDirectorySchema Printed view)
    (hrep : Represents view db table) (hstored : Stored table) {turns : ℕ}
    (hturns : table.length < turns) {call : TableCall} (hcall : call.Fits) :
    CallFollows view (table.length + 1) (call.onTable table) (call.onDatabase engine turns db) := by
  cases call with
  | add row =>
    obtain ⟨hrefuses, hadds⟩ := hrep.addWdDirectory hfollows hcall
    rw [TableCall.onTable, TableCall.onDatabase]
    cases hadd : Source.addWdDirectory table row with
    | none =>
      rw [hrefuses hadd]
      exact .stops _
    | some after =>
      obtain ⟨next, hnext, hafter⟩ := hadds after hadd
      obtain ⟨hfree, rfl⟩ := addWdDirectory_eq_some_iff.mp hadd
      rw [hnext]
      exact .goes (List.Perm.refl _) hafter (hstored.insert hcall hfree) (by simp)
  | remove wd =>
    obtain ⟨next, hnext, hafter⟩ := hrep.removeWdDirectory hfollows hcall
    rw [TableCall.onTable, TableCall.onDatabase, hnext]
    exact .goes (List.Perm.refl _) hafter (hstored.sublist removeWdDirectory_sublist)
      (removeWdDirectory_sublist.length_le.trans (Nat.le_succ _))
  | prune wd =>
    obtain ⟨hloops, hprunes⟩ := hrep.pruneWdDirectory hfollows hstored hcall hturns
    rw [TableCall.onTable, TableCall.onDatabase]
    cases hprune : Source.pruneWdDirectory table wd with
    | none =>
      rw [hloops hprune]
      exact .stops _
    | some result =>
      obtain ⟨wds, after⟩ := result
      obtain ⟨list, next, hnext, hlist, hafter⟩ := hprunes wds after hprune
      have hsub := (pruneWdDirectory_spec hprune).2.2
      rw [hnext]
      exact .goes hlist hafter (hstored.sublist hsub) (hsub.length_le.trans (Nat.le_succ _))

/-- The queries of the file on the database and on the table. -/
structure Answers (engine : Engine σ) (db : σ) (table : Table) : Prop where
  wdDirectoryExists : ∀ wd, IsInt wd →
    Statements.wdDirectoryExists engine db wd = .ok (Source.wdDirectoryExists table wd)
  findWdDirectory : ∀ wd maxLen, IsInt wd →
    Statements.findWdDirectory engine db wd maxLen = .ok (Source.findWdDirectory table wd maxLen)
  findWdParent : ∀ wd, IsInt wd →
    Statements.findWdParent engine db wd = .ok (Source.findWdParent table wd)
  findDirectoryWd : ∀ path, 0 ∉ path → path.length < maxPathLen →
    Statements.findDirectoryWd engine db path = .ok (Source.findDirectoryWd table path)
  findChildren : ∀ wd, IsInt wd → ∃ children, Statements.findChildren engine db wd = .ok children ∧
    children.Perm (Source.findChildren table wd)

theorem Represents.answers (hfollows : engine.Follows wdDirectorySchema Printed view)
    (hrep : Represents view db table) (hstored : Stored table) : Answers engine db table where
  wdDirectoryExists := fun _ hwd ↦ hrep.wdDirectoryExists hfollows hstored hwd
  findWdDirectory := fun _ maxLen hwd ↦ hrep.findWdDirectory hfollows hstored hwd maxLen
  findWdParent := fun _ hwd ↦ hrep.findWdParent hfollows hstored hwd
  findDirectoryWd := fun _ hpath hshort ↦ hrep.findDirectoryWd hfollows hstored hpath hshort
  findChildren := fun _ hwd ↦ hrep.findChildren hfollows hwd

/-- The calls on the database stop where those on the table do, and else give the same lists,
each in some order, and leave a database that answers as the table does. -/
inductive RunFollows (engine : Engine σ) :
    Except Stop (List (List Wd) × Table) → Except Stop (List (List Wd) × σ) → Prop
  | stops (stop : Stop) : RunFollows engine (.error stop) (.error stop)
  | goes {pruned lists : List (List Wd)} {table : Table} {db : σ}
      (hlists : List.Forall₂ List.Perm lists pruned) (hanswers : Answers engine db table) :
      RunFollows engine (.ok (pruned, table)) (.ok (lists, db))

theorem Represents.run (hfollows : engine.Follows wdDirectorySchema Printed view)
    (hrep : Represents view db table) (hstored : Stored table) {calls : List TableCall}
    (hcalls : ∀ call ∈ calls, call.Fits) {turns : ℕ}
    (hturns : table.length + calls.length < turns) :
    RunFollows engine (runCalls TableCall.onTable table calls)
      (runCalls (TableCall.onDatabase engine turns) db calls) := by
  induction calls generalizing db table with
  | nil => exact .goes List.Forall₂.nil (hrep.answers hfollows hstored)
  | cons call rest ih =>
    rw [List.length_cons] at hturns
    have hcall := hrep.call hfollows hstored (by omega : table.length < turns)
      (hcalls call List.mem_cons_self)
    rw [runCalls, runCalls]
    cases htable : call.onTable table with
    | error stop =>
      rw [htable] at hcall
      generalize call.onDatabase engine turns db = result at hcall
      cases hcall
      exact .stops stop
    | ok result =>
      rw [htable] at hcall
      generalize call.onDatabase engine turns db = result at hcall
      cases hcall with
      | @goes wds list after next hlist hafter hstoredAfter hlength =>
        have hrest := ih hafter hstoredAfter
          (fun other hother ↦ hcalls other (List.mem_cons_of_mem _ hother)) (by omega)
        change RunFollows engine ((runCalls TableCall.onTable after rest).bind _)
          ((runCalls (TableCall.onDatabase engine turns) next rest).bind _)
        generalize runCalls TableCall.onTable after rest = first at hrest
        generalize runCalls (TableCall.onDatabase engine turns) next rest = second at hrest
        cases hrest with
        | stops stop => exact .stops stop
        | goes hlists hanswers => exact .goes (.cons hlist hlists) hanswers

/-- On a database that does what the texts mean that the functions print, with its rows in any
order: every sequence of the calls that change the table, on numbers that are `int`s and paths
that are strings and fit the buffers of `main`, stops where it does on the table, or gives the
same lists of pruned watch descriptors, each in some order, and leaves a database that answers
all queries as the table does. Whatever bytes a path has, it is read as one literal. -/
theorem statements_refine_table {engine : Engine σ} {view : σ → List Tuple}
    (hfollows : engine.Follows wdDirectorySchema Printed view) {db : σ} (hempty : view db = [])
    {calls : List TableCall} (hcalls : ∀ call ∈ calls, call.Fits) {turns : ℕ}
    (hturns : calls.length < turns) :
    RunFollows engine (runCalls TableCall.onTable [] calls)
      (runCalls (TableCall.onDatabase engine turns) db calls) := by
  have hrep : Represents view db [] := by rw [Represents, hempty]; exact List.Perm.refl _
  exact hrep.run hfollows ⟨by simp, by simp, by simp⟩ hcalls (by simpa using hturns)

/-- A path with a quote, a statement and a comment in it. -/
theorem statements_refine_table_quoted :
    RunFollows wdDirectorySchema.engine
      (.ok ([[], [], [1, 2]], []))
      (runCalls (TableCall.onDatabase wdDirectorySchema.engine 4) []
        [.add ⟨1, 0, literal "/t"⟩,
          .add ⟨2, 1, literal "/t/'); DELETE FROM wd_directory; --"⟩, .prune 1]) := by
  have hcalls : ∀ call ∈ ([.add ⟨1, 0, literal "/t"⟩,
      .add ⟨2, 1, literal "/t/'); DELETE FROM wd_directory; --"⟩, .prune 1] : List TableCall),
      call.Fits := by decide
  exact statements_refine_table (wdDirectorySchema.follows _) rfl hcalls (by decide)

end DirWatcher.Watching
