import Mathlib.Data.List.Basic
import Mathlib.Data.Nat.Digits.Defs

/-!
The text of a small part of SQL: its words, numbers, string literals and symbols, read byte
by byte, and the statements they make up. A value that is printed as SQL prescribes is read
back, whatever bytes it has.
-/

set_option autoImplicit false
set_option relaxedAutoImplicit false

namespace DirWatcher.Foundation.SqlText

/-! ### Tokens -/

/-- A word is in lower case, since SQL does not tell the cases apart. -/
inductive Token
  | word (text : List UInt8)
  | number (value : ℕ)
  | literal (text : List UInt8)
  | symbol (byte : UInt8)
deriving DecidableEq, Repr

/-- What has been read of the token that is not over yet. In `quote` a literal has met a
quote, which is its end unless another quote follows. -/
inductive Mode
  | between
  | word (text : List UInt8)
  | number (value : ℕ)
  | literal (text : List UInt8)
  | quote (text : List UInt8)
deriving DecidableEq, Repr

/-- The byte `'`. -/
def singleQuote : UInt8 := 39

def isSpace (byte : UInt8) : Bool := byte == 32 || (9 ≤ byte && byte ≤ 13)

def isDigit (byte : UInt8) : Bool := 48 ≤ byte && byte ≤ 57

def isUpper (byte : UInt8) : Bool := 65 ≤ byte && byte ≤ 90

def isLetter (byte : UInt8) : Bool :=
  isUpper byte || (97 ≤ byte && byte ≤ 122) || byte == 95 || 128 ≤ byte

def lower (byte : UInt8) : UInt8 := if isUpper byte then byte + 32 else byte

def digitValue (byte : UInt8) : ℕ := byte.toNat - 48

/-- A byte that does not belong to the token before it. -/
def start (byte : UInt8) : List Token × Mode :=
  if isSpace byte then ([], .between)
  else if byte = singleQuote then ([], .literal [])
  else if isDigit byte then ([], .number (digitValue byte))
  else if isLetter byte then ([], .word [lower byte])
  else ([.symbol byte], .between)

/-- The tokens that a byte completes, and what is read after it. -/
def feed (mode : Mode) (byte : UInt8) : List Token × Mode :=
  match mode with
  | .between => start byte
  | .word text =>
    if isLetter byte || isDigit byte then ([], .word (text ++ [lower byte]))
    else (.word text :: (start byte).1, (start byte).2)
  | .number value =>
    if isDigit byte then ([], .number (10 * value + digitValue byte))
    else (.number value :: (start byte).1, (start byte).2)
  | .literal text =>
    if byte = singleQuote then ([], .quote text) else ([], .literal (text ++ [byte]))
  | .quote text =>
    if byte = singleQuote then ([], .literal (text ++ [singleQuote]))
    else (.literal text :: (start byte).1, (start byte).2)

def scan : Mode → List UInt8 → List Token × Mode
  | mode, [] => ([], mode)
  | mode, byte :: rest =>
    ((feed mode byte).1 ++ (scan (feed mode byte).2 rest).1, (scan (feed mode byte).2 rest).2)

/-- The token that the end of the text completes. A literal must not be open. -/
def finish : Mode → Option (List Token)
  | .between => some []
  | .word text => some [.word text]
  | .number value => some [.number value]
  | .literal _ => none
  | .quote text => some [.literal text]

def lex (text : List UInt8) : Option (List Token) :=
  (finish (scan .between text).2).map ((scan .between text).1 ++ ·)

theorem scan_append (mode : Mode) (first rest : List UInt8) :
    scan mode (first ++ rest) =
      ((scan mode first).1 ++ (scan (scan mode first).2 rest).1,
        (scan (scan mode first).2 rest).2) := by
  induction first generalizing mode with
  | nil => rfl
  | cons byte first ih =>
    rw [List.cons_append, scan, ih]
    simp only [scan, List.append_assoc]

/-! ### Texts put together -/

/-- A byte that completes each token but an open literal. -/
def Breaks (byte : UInt8) : Prop :=
  isLetter byte = false ∧ isDigit byte = false ∧ byte ≠ singleQuote

instance : DecidablePred Breaks := fun byte ↦
  inferInstanceAs (Decidable (isLetter byte = false ∧ isDigit byte = false ∧ byte ≠ singleQuote))

variable {text : List UInt8} {tokens : List Token} {byte : UInt8}

theorem feed_of_breaks {mode : Mode} (hfinish : finish mode = some tokens) (hbreaks : Breaks byte) :
    feed mode byte = (tokens ++ (start byte).1, (start byte).2) := by
  obtain ⟨hletter, hdigit, hquote⟩ := hbreaks
  cases mode with
  | literal text => cases hfinish
  | between =>
    cases hfinish
    rfl
  | word text =>
    cases hfinish
    simp [feed, hletter, hdigit]
  | number value =>
    cases hfinish
    simp [feed, hdigit]
  | quote text =>
    cases hfinish
    simp [feed, hquote]

/-- After a break the text is read as if it began there. -/
theorem lex_append (hlex : lex text = some tokens) (hbreaks : Breaks byte) (rest : List UInt8) :
    lex (text ++ byte :: rest) = (lex (byte :: rest)).map (tokens ++ ·) := by
  obtain ⟨last, hfinish, rfl⟩ := Option.map_eq_some_iff.mp hlex
  have hscan : scan (scan .between text).2 (byte :: rest) =
      (last ++ (scan .between (byte :: rest)).1, (scan .between (byte :: rest)).2) := by
    rw [scan, feed_of_breaks hfinish hbreaks]
    simp only [scan, feed, List.append_assoc]
  rw [lex, scan_append, hscan, lex, Option.map_map]
  refine congrArg₂ Option.map (funext fun more ↦ ?_) rfl
  simp only [Function.comp_apply, List.append_assoc]

theorem lex_of_start (more : List Token) (hstart : start byte = (more, .between))
    (rest : List UInt8) : lex (byte :: rest) = (lex rest).map (more ++ ·) := by
  rw [lex, scan, feed, hstart, lex, Option.map_map]
  refine congrArg₂ Option.map (funext fun tokens ↦ ?_) rfl
  simp only [Function.comp_apply, List.append_assoc]

/-! ### Numbers -/

def decimal (number : ℕ) : List UInt8 :=
  (Nat.toDigits 10 number).map fun char ↦ UInt8.ofNat char.toNat

/-- A negative number is printed with the symbol `-` before its digits. -/
def signed (number : ℤ) : List UInt8 :=
  if number < 0 then 45 :: decimal number.natAbs else decimal number.natAbs

theorem isDigit_ofNat {char : Char} (hdigit : char.isDigit = true) :
    isDigit (UInt8.ofNat char.toNat) = true ∧
      digitValue (UInt8.ofNat char.toNat) = char.toNat - 48 := by
  have hrange : 48 ≤ char.toNat ∧ char.toNat ≤ 57 := by
    simp only [Char.isDigit, Bool.and_eq_true, decide_eq_true_eq] at hdigit
    exact hdigit
  have hbyte : (UInt8.ofNat char.toNat).toNat = char.toNat := by
    rw [UInt8.toNat_ofNat']
    omega
  refine ⟨?_, by rw [digitValue, hbyte]⟩
  rw [isDigit, Bool.and_eq_true, decide_eq_true_eq, decide_eq_true_eq, UInt8.le_iff_toNat_le,
    UInt8.le_iff_toNat_le, hbyte]
  exact hrange

theorem scan_digits {digits : List Char} (hdigits : ∀ char ∈ digits, char.isDigit = true)
    (value : ℕ) :
    scan (.number value) (digits.map fun char ↦ UInt8.ofNat char.toNat) =
      ([], .number (Nat.ofDigitChars 10 digits value)) := by
  induction digits generalizing value with
  | nil => rfl
  | cons char digits ih =>
    obtain ⟨hdigit, hvalue⟩ := isDigit_ofNat (hdigits char List.mem_cons_self)
    rw [List.map_cons, scan, feed, if_pos hdigit, hvalue,
      ih fun other hother ↦ hdigits other (List.mem_cons_of_mem _ hother)]
    rfl

theorem start_of_isDigit (hdigit : isDigit byte = true) :
    start byte = ([], .number (digitValue byte)) := by
  have hrange : 48 ≤ byte.toNat ∧ byte.toNat ≤ 57 := by
    simpa [isDigit, UInt8.le_iff_toNat_le] using hdigit
  have hspace : isSpace byte = false := by
    simp only [isSpace, Bool.or_eq_false_iff, beq_eq_false_iff_ne, Bool.and_eq_false_iff,
      decide_eq_false_iff_not, UInt8.le_iff_toNat_le, ne_eq, ← UInt8.toNat_inj]
    refine ⟨?_, Or.inr ?_⟩ <;> simp <;> omega
  have hquote : byte ≠ singleQuote := by
    rw [ne_eq, ← UInt8.toNat_inj]
    simp [singleQuote]
    omega
  rw [start, hspace, if_neg (by simp), if_neg hquote, if_pos hdigit]

theorem lex_decimal (number : ℕ) : lex (decimal number) = some [.number number] := by
  have hall : ∀ char ∈ Nat.toDigits 10 number, char.isDigit = true := fun char hchar ↦
    Nat.isDigit_of_mem_toDigits (by decide) (by decide) hchar
  have hvalue : Nat.ofDigitChars 10 (Nat.toDigits 10 number) 0 = number :=
    Nat.ofDigitChars_ten_toDigits
  cases hdigits : Nat.toDigits 10 number with
  | nil => exact absurd hdigits Nat.toDigits_ne_nil
  | cons char digits =>
    rw [hdigits] at hall
    rw [hdigits, Nat.ofDigitChars_cons, Nat.mul_zero, Nat.zero_add] at hvalue
    obtain ⟨hdigit, hfirst⟩ := isDigit_ofNat (hall char List.mem_cons_self)
    have hscan : scan .between (decimal number) = ([], .number number) := by
      rw [decimal, hdigits, List.map_cons, scan, feed, start_of_isDigit hdigit, hfirst,
        scan_digits fun other hother ↦ hall other (List.mem_cons_of_mem _ hother)]
      exact congrArg (([] : List Token), Mode.number ·) hvalue
    rw [lex, hscan]
    rfl

/-! ### Literals -/

def escaped (text : List UInt8) : List UInt8 :=
  text.flatMap fun byte ↦ if byte = singleQuote then [singleQuote, singleQuote] else [byte]

/-- A literal, with the quotes inside of it doubled. -/
def quoted (text : List UInt8) : List UInt8 := singleQuote :: escaped text ++ [singleQuote]

theorem scan_escaped (before text : List UInt8) :
    scan (.literal before) (escaped text) = ([], .literal (before ++ text)) := by
  induction text generalizing before with
  | nil => simp [escaped, scan]
  | cons byte text ih =>
    rw [escaped, List.flatMap_cons, scan_append]
    have hbyte : scan (.literal before)
        (if byte = singleQuote then [singleQuote, singleQuote] else [byte]) =
          ([], .literal (before ++ [byte])) := by
      split_ifs with hquote
      · rw [hquote]
        rfl
      · simp [scan, feed, hquote]
    rw [hbyte]
    simpa [escaped] using ih (before ++ [byte])

/-- No byte of a text that is quoted is read as anything but a part of the literal. -/
theorem lex_quoted (text : List UInt8) : lex (quoted text) = some [.literal text] := by
  have hscan : scan .between (quoted text) = ([], .quote text) := by
    rw [quoted, List.cons_append, scan, show feed .between singleQuote = ([], .literal []) from rfl,
      scan_append, scan_escaped]
    rfl
  rw [lex, hscan]
  rfl

end DirWatcher.Foundation.SqlText
