import DirWatcher.Foundation.SqlStatements
import DirWatcher.Source.WdDirectory

/-!
The statements of `wd_directory.c`: each function prints its values into the text of a
statement, which the database runs. The database is left open, and so is the order in which
it gives its rows.
-/

set_option autoImplicit false
set_option relaxedAutoImplicit false

namespace DirWatcher.Source

open Foundation.SqlText

/-! ### `sqlite3_vmprintf` -/

inductive FormatArg
  | int (value : ℤ)
  | text (block : Bytes)
deriving DecidableEq, Repr

/-- The conversions `%i` and `%Q`. The second one puts quotes around the string, and doubles
those inside of it. -/
def vmprintf : Bytes → List FormatArg → Bytes
  | 37 :: 105 :: rest, .int value :: args => signed value ++ vmprintf rest args
  | 37 :: 81 :: rest, .text block :: args => quoted (stringAt block) ++ vmprintf rest args
  | byte :: rest, args => byte :: vmprintf rest args
  | [], _ => []

/-! ### The texts -/

/-- The table of `schema`, with its primary key and the unique index on the path. -/
def wdDirectorySchema : Schema where
  table := name "wd_directory"
  columns := [(name "wd", .integer), (name "parent_wd", .integer), (name "path", .text)]
  unique := [name "wd", name "path"]

def addEntry : Bytes := literal "INSERT INTO wd_directory VALUES(%i, %i, %Q);"

def removeEntry : Bytes := literal "DELETE FROM wd_directory where wd = %i;"

def fetchWd : Bytes := literal "SELECT wd from wd_directory where path = %Q;"

def fetchParent : Bytes := literal "SELECT parent_wd from wd_directory where wd = %i;"

def fetchPath : Bytes := literal "SELECT path from wd_directory where wd = %i;"

def fetchChildren : Bytes := literal "SELECT wd from wd_directory where parent_wd = %i;"

/-! ### The functions -/

/-- `find_wd_parent`, which only the tests call. -/
def findWdParent (table : Table) (wd : Wd) : Wd :=
  match table.find? (·.wd == wd) with
  | none => nullWd
  | some row => row.parentWd

namespace Statements

variable {σ : Type} (engine : Engine σ)

def executeSql (db : σ) (format : Bytes) (args : List FormatArg) : Except Stop σ :=
  match engine.exec db (vmprintf format args) with
  | none => .error .sqlError
  | some after => .ok after

/-- `prepare_sql_statement`, with the values that the calls of `sqlite3_step` give. -/
def prepareSqlStatement (db : σ) (format : Bytes) (args : List FormatArg) :
    Except Stop (List Value) :=
  match engine.query db (vmprintf format args) with
  | none => .error .sqlError
  | some values => .ok values

/-- `sqlite3_column_int`, of a column that holds integers. -/
def columnInt : Value → ℤ
  | .integer value => value
  | .text _ => 0

/-- `sqlite3_column_text`. -/
def columnText : Value → Bytes
  | .integer value => signed value
  | .text bytes => bytes

def addWdDirectory (db : σ) (row : Row) : Except Stop σ :=
  executeSql engine db addEntry [.int row.wd, .int row.parentWd, .text row.path]

def wdDirectoryExists (db : σ) (wd : Wd) : Except Stop Bool := do
  let values ← prepareSqlStatement engine db fetchPath [.int wd]
  return !values.isEmpty

def findWdDirectory (db : σ) (wd : Wd) (maxLen : ℕ) : Except Stop (Option Bytes) := do
  let values ← prepareSqlStatement engine db fetchPath [.int wd]
  return values.head?.map fun value ↦ (columnText value).take maxLen

/-- The result of a query for an `int`, of which only the first row is read. -/
def firstInt (values : List Value) : ℤ :=
  match values with
  | [] => nullWd
  | value :: _ => columnInt value

def findDirectoryWd (db : σ) (path : Bytes) : Except Stop Wd := do
  let values ← prepareSqlStatement engine db fetchWd [.text path]
  return firstInt values

def findWdParent (db : σ) (wd : Wd) : Except Stop Wd := do
  let values ← prepareSqlStatement engine db fetchParent [.int wd]
  return firstInt values

def removeWdDirectory (db : σ) (wd : Wd) : Except Stop σ :=
  executeSql engine db removeEntry [.int wd]

def findChildren (db : σ) (wd : Wd) : Except Stop (List Wd) := do
  let values ← prepareSqlStatement engine db fetchChildren [.int wd]
  return values.map columnInt

/-- The first loop of `prune_wd_directory`, for at most `turns` turns. -/
def collect (db : σ) : ℕ → List Wd → Except Stop (List Wd)
  | _, [] => .ok []
  | 0, _ :: _ => .error .loops
  | turns + 1, wd :: rest => do
    let children ← findChildren engine db wd
    let later ← collect db turns (rest ++ children)
    return wd :: later

def pruneWdDirectory (turns : ℕ) (db : σ) (wd : Wd) : Except Stop (List Wd × σ) := do
  let wds ← collect engine db turns [wd]
  let after ← wds.foldlM (removeWdDirectory engine) db
  return (wds, after)

end Statements

end DirWatcher.Source
