import DirWatcher.Source.HashCache

/-!
The strings of the program and the fixed buffers they are joined in, and the ways
the process can stop. A string is the list of its bytes without the zero byte that
ends it in memory.
-/

set_option autoImplicit false
set_option relaxedAutoImplicit false

namespace DirWatcher.Source

/-- How the process can stop in the middle of its work: by `exit`, in a loop that
does not end, or by the `exit(-1)` of `execute_sql` on a violated constraint. -/
inductive Stop
  | exited (code : ℤ)
  | loops
  | sqlError
deriving DecidableEq, Repr

/-- The bytes of a C string: the zero byte that ends it is not one of them. -/
structure CString where
  bytes : Bytes
  nonzero : 0 ∉ bytes
deriving DecidableEq, Repr

/-- The string that starts at the front of a block of bytes. -/
def stringAt (block : Bytes) : Bytes := block.takeWhile (· != 0)

/-- The bytes of a string with its terminator, as `strlen(s) + 1` counts them. -/
def CString.terminated (string : CString) : Bytes := string.bytes ++ [0]

@[simp] theorem stringAt_terminated (string : CString) :
    stringAt string.terminated = string.bytes := by
  have hall : ∀ byte ∈ string.bytes, (byte != 0) = true := by
    intro byte hmem
    simpa using fun hzero : byte = 0 ↦ string.nonzero (hzero ▸ hmem)
  rw [stringAt, CString.terminated, List.takeWhile_append_of_pos hall]
  simp

def maxPathLen : ℕ := 4096

/-- What `snprintf` stores in a buffer of `size` bytes, and its result: the length
the whole text would have had. -/
def snprintf (size : ℕ) (text : Bytes) : Bytes × ℕ := (text.take (size - 1), text.length)

/-- The byte `/`. -/
def slash : UInt8 := 47

/-- The byte that ends a line. -/
def newline : UInt8 := 10

/-- The text of the format `"%s/%s"`. -/
def joinPath (directory name : Bytes) : Bytes := directory ++ slash :: name

@[simp] theorem length_joinPath (directory name : Bytes) :
    (joinPath directory name).length = directory.length + name.length + 1 := by
  simp [joinPath]
  omega

/-- The bytes of a literal of the source. -/
def literal (text : String) : Bytes := text.toList.map fun char ↦ UInt8.ofNat char.toNat

/-- The text of the format `"%08d"` for a number that is not negative. -/
def paddedDecimal (number : ℕ) : Bytes :=
  let digits := (Nat.toDigits 10 number).map fun char ↦ UInt8.ofNat char.toNat
  List.replicate (8 - digits.length) 48 ++ digits

end DirWatcher.Source
