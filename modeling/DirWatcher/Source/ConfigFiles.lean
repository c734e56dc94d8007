import DirWatcher.Source.WdDirectory

/-!
The reading of the config file and of the exclude file: `load_top_level_paths` and
`load_excludes`, which take a file line by line through a buffer of `MAX_PATH_LEN` bytes.

What `add_watch` does is a parameter of `load_top_level_paths`. How the calls on the file
and `calloc` turn out is a parameter of both.
-/

set_option autoImplicit false
set_option relaxedAutoImplicit false

namespace DirWatcher.Source

def maxExcludes : ℕ := 64

/-- Whether `fopen` fails, which calls of `fgets` meet a read error, and which calls of
`calloc` fail. -/
structure ReadIo where
  openFails : Bool
  readFails : ℕ → Bool
  callocFails : ℕ → Bool

/-- No call fails. -/
def ReadIo.faultless : ReadIo := ⟨false, fun _ ↦ false, fun _ ↦ false⟩

/-- A file that is read: the bytes not read yet, its flags, and the number of calls of
`fgets` so far. -/
structure ReadFile where
  rest : Bytes
  eof : Bool
  error : Bool
  reads : ℕ
deriving DecidableEq, Repr

/-- What `fgets` takes off a file for a buffer with room for so many bytes: the bytes, the
rest of the file, and whether it has come to the end of the file. -/
def takeLine : ℕ → Bytes → Bytes × Bytes × Bool
  | 0, rest => ([], rest, false)
  | _ + 1, [] => ([], [], true)
  | room + 1, byte :: rest =>
    if byte = newline then ([byte], rest, false)
    else
      let (bytes, after, eof) := takeLine room rest
      (byte :: bytes, after, eof)

/-- `fgets`: one byte of the buffer is kept for the zero byte. -/
def fgets (io : ReadIo) (size : ℕ) (file : ReadFile) : Bytes × ReadFile :=
  if io.readFails file.reads then ([], { file with error := true, reads := file.reads + 1 })
  else
    let (bytes, rest, eof) := takeLine (size - 1) file.rest
    (bytes, { file with rest := rest, eof := file.eof || eof, reads := file.reads + 1 })

/-- The string in the buffer, cut off at the newline that `strchr` finds. -/
def cutNewline (buffer : Bytes) : Bytes := (stringAt buffer).takeWhile (· != newline)

/-- The loop of both functions, for at most `fuel` calls of `fgets`. The end of the file
is tested before the buffer is used. -/
def readLoop {σ : Type} (io : ReadIo) (errorCode : ℤ) (use : σ → Bytes → Except Stop σ) :
    ℕ → ReadFile → σ → Except Stop σ
  | 0, _, _ => .error .loops
  | fuel + 1, file, s =>
    let (buffer, after) := fgets io maxPathLen file
    if after.error then .error (.exited errorCode)
    else if after.eof then .ok s
    else do
      let next ← use s (cutNewline buffer)
      readLoop io errorCode use fuel after next

/-- A file just opened, with this content. -/
def ReadFile.opened (content : Bytes) : ReadFile := ⟨content, false, false, 0⟩

/-- One turn of the loop of `load_excludes` after the tests on the file. -/
def storeExclude (io : ReadIo) (excludes : List Bytes) (line : Bytes) :
    Except Stop (List Bytes) :=
  if maxExcludes ≤ excludes.length then .error (.exited 7)
  else if io.callocFails excludes.length then .error (.exited 8)
  else .ok (excludes ++ [line])

/-- `load_excludes`, for the content of the file. -/
def loadExcludes (io : ReadIo) (content : Bytes) : Except Stop (List Bytes) :=
  if io.openFails then .error (.exited 5)
  else readLoop io 6 (storeExclude io) (content.length + 1) (.opened content) []

/-- The call of `add_watch` for a line. That it has not succeeded is only logged. -/
def watchTopLevel {σ : Type} (addWatch : σ → Wd → Bytes → Except Stop (ℤ × σ)) (s : σ)
    (line : Bytes) : Except Stop σ := do
  let (_, after) ← addWatch s nullWd line
  return after

/-- `load_top_level_paths`, for the content of the file. -/
def loadTopLevelPaths {σ : Type} (io : ReadIo)
    (addWatch : σ → Wd → Bytes → Except Stop (ℤ × σ)) (content : Bytes) (s : σ) :
    Except Stop σ :=
  if io.openFails then .error (.exited 9)
  else readLoop io 10 (watchTopLevel addWatch) (content.length + 1) (.opened content) s

end DirWatcher.Source
