import DirWatcher.Foundation.SqlText
import Mathlib.Data.List.Perm.Basic

/-!
Statements of SQL on one table: those that insert a row, and those that delete or select
the rows with a given value in a column. What they mean is said for the rows as a list, and
an engine follows it for its rows in any order.
-/

set_option autoImplicit false
set_option relaxedAutoImplicit false

namespace DirWatcher.Foundation.SqlText

/-! ### Values -/

inductive Value
  | integer (value : ℤ)
  | text (bytes : List UInt8)
deriving DecidableEq, Repr

def valueText : Value → List UInt8
  | .integer value => signed value
  | .text bytes => quoted bytes

def valueTokens : Value → List Token
  | .integer value =>
    if value < 0 then [.symbol 45, .number value.natAbs] else [.number value.natAbs]
  | .text bytes => [.literal bytes]

theorem lex_valueText (value : Value) : lex (valueText value) = some (valueTokens value) := by
  cases value with
  | text bytes => exact lex_quoted bytes
  | integer value =>
    rw [valueText, valueTokens, signed]
    split_ifs
    · rw [lex_of_start [.symbol 45] rfl, lex_decimal]
      rfl
    · exact lex_decimal _

/-- Larger numbers are not integers of SQL. -/
def integerBound : ℕ := 2 ^ 63

def parseValue : List Token → Option (Value × List Token)
  | .number value :: rest => if value < integerBound then some (.integer value, rest) else none
  | .symbol 45 :: .number value :: rest =>
    if value < integerBound then some (.integer (-value), rest) else none
  | .literal bytes :: rest => some (.text bytes, rest)
  | _ => none

/-- The value can be written as a literal. -/
def Value.Fits : Value → Prop
  | .integer value => value.natAbs < integerBound
  | .text _ => True

theorem parseValue_valueTokens {value : Value} (hfits : value.Fits) (rest : List Token) :
    parseValue (valueTokens value ++ rest) = some (value, rest) := by
  cases value with
  | text bytes => rfl
  | integer value =>
    rw [Value.Fits] at hfits
    rw [valueTokens]
    split_ifs with hnegative
    · simp only [List.cons_append, List.nil_append, parseValue, if_pos hfits]
      rw [Int.ofNat_natAbs_of_nonpos hnegative.le, neg_neg]
    · simp only [List.cons_append, List.nil_append, parseValue, if_pos hfits]
      rw [Int.natAbs_of_nonneg (not_lt.mp hnegative)]

/-! ### Statements -/

inductive Statement
  | insert (table : List UInt8) (values : List Value)
  | delete (table key : List UInt8) (value : Value)
  | select (column table key : List UInt8) (value : Value)
deriving DecidableEq, Repr

/-- The bytes of a name or a keyword. -/
def name (text : String) : List UInt8 := text.toList.map fun char ↦ UInt8.ofNat char.toNat

/-- Values with commas between them, up to `);` at the end. -/
def parseValues : ℕ → List Token → Option (List Value)
  | 0, _ => none
  | fuel + 1, tokens => do
    let (value, rest) ← parseValue tokens
    match rest with
    | .symbol 44 :: rest => do
      let values ← parseValues fuel rest
      return value :: values
    | [.symbol 41, .symbol 59] => some [value]
    | _ => none

/-- `where key = value;`. -/
def parseWhere : List Token → Option (List UInt8 × Value)
  | .word keyword :: .word key :: .symbol 61 :: rest => do
    let (value, rest) ← parseValue rest
    if keyword = name "where" ∧ rest = [.symbol 59] then some (key, value) else none
  | _ => none

def parse : List Token → Option Statement
  | .word first :: .word second :: .word third :: rest =>
    if first = name "insert" ∧ second = name "into" then
      match rest with
      | .word keyword :: .symbol 40 :: rest =>
        if keyword = name "values" then (parseValues rest.length rest).map (.insert third)
        else none
      | _ => none
    else if first = name "delete" ∧ second = name "from" then
      (parseWhere rest).map fun (key, value) ↦ .delete third key value
    else if first = name "select" ∧ third = name "from" then
      match rest with
      | .word table :: rest =>
        (parseWhere rest).map fun (key, value) ↦ .select second table key value
      | _ => none
    else none
  | _ => none

def parseText (text : List UInt8) : Option Statement := (lex text).bind parse

/-! ### Texts of statements -/

/-- Values with commas between them, and the end of the statement. -/
def valuesText (first : Value) : List Value → List UInt8
  | [] => valueText first ++ 41 :: [59]
  | value :: rest => valueText first ++ 44 :: 32 :: valuesText value rest

def valuesTokens (first : Value) : List Value → List Token
  | [] => valueTokens first ++ [.symbol 41, .symbol 59]
  | value :: rest => valueTokens first ++ .symbol 44 :: valuesTokens value rest

variable {text table key column : List UInt8} {value : Value}

theorem lex_value_append (value : Value) {byte : UInt8} (hbreaks : Breaks byte)
    (rest : List UInt8) :
    lex (valueText value ++ byte :: rest) =
      (lex (byte :: rest)).map (valueTokens value ++ ·) :=
  lex_append (lex_valueText value) hbreaks rest

theorem lex_valuesText (first : Value) (rest : List Value) :
    lex (valuesText first rest) = some (valuesTokens first rest) := by
  induction rest generalizing first with
  | nil =>
    rw [valuesText, lex_value_append first (by decide)]
    rfl
  | cons value rest ih =>
    rw [valuesText, lex_value_append first (by decide), lex_of_start [.symbol 44] rfl,
      lex_of_start [] rfl, ih]
    rfl

theorem length_lt_valuesTokens (first : Value) (rest : List Value) :
    rest.length < (valuesTokens first rest).length := by
  induction rest generalizing first with
  | nil => simp [valuesTokens]
  | cons value rest ih =>
    have hrest := ih value
    simp only [valuesTokens, List.length_cons, List.length_append]
    omega

theorem parseValues_valuesTokens {first : Value} {rest : List Value} {fuel : ℕ}
    (hfits : ∀ value ∈ first :: rest, value.Fits) (hfuel : rest.length < fuel) :
    parseValues fuel (valuesTokens first rest) = some (first :: rest) := by
  induction rest generalizing first fuel with
  | nil =>
    obtain ⟨fuel, rfl⟩ := Nat.exists_eq_add_of_lt hfuel
    simp [parseValues, valuesTokens, parseValue_valueTokens (hfits first List.mem_cons_self)]
  | cons value rest ih =>
    obtain ⟨fuel, rfl⟩ : ∃ more, fuel = more + 1 := ⟨fuel - 1, by omega⟩
    rw [List.length_cons, Nat.add_lt_add_iff_right] at hfuel
    simp [parseValues, valuesTokens, parseValue_valueTokens (hfits first List.mem_cons_self),
      ih (fun other hother ↦ hfits other (List.mem_cons_of_mem _ hother)) hfuel]

theorem parseText_insert {first : Value} {rest : List Value}
    (hlex : lex text = some [.word (name "insert"), .word (name "into"), .word table,
      .word (name "values")]) (hfits : ∀ value ∈ first :: rest, value.Fits) :
    parseText (text ++ 40 :: valuesText first rest) = some (.insert table (first :: rest)) := by
  have hvalues := parseValues_valuesTokens hfits (length_lt_valuesTokens first rest)
  rw [parseText, lex_append hlex (by decide), lex_of_start [.symbol 40] rfl,
    lex_valuesText]
  simp [parse, hvalues]

/-- The end of a statement with a condition. -/
theorem lex_condition {tokens : List Token} (hlex : lex text = some tokens) (value : Value) :
    lex (text ++ 32 :: (valueText value ++ [59])) =
      some (tokens ++ (valueTokens value ++ [.symbol 59])) := by
  rw [lex_append hlex (by decide), lex_of_start [] rfl,
    lex_value_append value (by decide)]
  rfl

theorem parseText_delete
    (hlex : lex text = some [.word (name "delete"), .word (name "from"), .word table,
      .word (name "where"), .word key, .symbol 61]) (hfits : value.Fits) :
    parseText (text ++ 32 :: (valueText value ++ [59])) = some (.delete table key value) := by
  have hnames : name "delete" ≠ name "insert" := by decide
  rw [parseText, lex_condition hlex]
  simp [parse, parseWhere, parseValue_valueTokens hfits, hnames]

theorem parseText_select
    (hlex : lex text = some [.word (name "select"), .word column, .word (name "from"),
      .word table, .word (name "where"), .word key, .symbol 61]) (hfits : value.Fits) :
    parseText (text ++ 32 :: (valueText value ++ [59])) =
      some (.select column table key value) := by
  have hinsert : name "select" ≠ name "insert" := by decide
  have hdelete : name "select" ≠ name "delete" := by decide
  rw [parseText, lex_condition hlex]
  simp [parse, parseWhere, parseValue_valueTokens hfits, hinsert, hdelete]

/-! ### Tables -/

inductive Kind
  | integer
  | text
deriving DecidableEq, Repr

def Value.kind : Value → Kind
  | .integer _ => .integer
  | .text _ => .text

/-- A table with the columns in which no value comes twice. -/
structure Schema where
  table : List UInt8
  columns : List (List UInt8 × Kind)
  unique : List (List UInt8)

abbrev Tuple := List Value

namespace Schema

variable (schema : Schema)

def field (tuple : Tuple) (column : List UInt8) : Option Value :=
  ((schema.columns.map Prod.fst).zip tuple).lookup column

/-- The statement is about the table and its columns, with values of their kinds. -/
def Fits : Statement → Prop
  | .insert table values => table = schema.table ∧
      values.map Value.kind = schema.columns.map Prod.snd
  | .delete table key value => table = schema.table ∧ (key, value.kind) ∈ schema.columns
  | .select column table key value => table = schema.table ∧
      column ∈ schema.columns.map Prod.fst ∧ (key, value.kind) ∈ schema.columns

instance : DecidablePred schema.Fits := fun statement ↦ by
  cases statement <;> unfold Fits <;> infer_instance

def clashes (tuples : List Tuple) (values : Tuple) : Bool :=
  tuples.any fun old ↦ schema.unique.any fun column ↦
    schema.field old column == schema.field values column

/-- The rows after a statement. `none` is a violated constraint. -/
def run (tuples : List Tuple) : Statement → Option (List Tuple)
  | .insert _ values => if schema.clashes tuples values then none else some (tuples ++ [values])
  | .delete _ key value => some (tuples.filter fun tuple ↦ schema.field tuple key != some value)
  | .select _ _ _ _ => some tuples

/-- The values that a statement fetches. -/
def fetch (tuples : List Tuple) : Statement → List Value
  | .select column _ key value =>
    (tuples.filter fun tuple ↦ schema.field tuple key == some value).filterMap
      (schema.field · column)
  | _ => []

end Schema

/-! ### Engines -/

/-- What a database does with the text of a statement. `none` is an error. -/
structure Engine (σ : Type) where
  exec : σ → List UInt8 → Option σ
  query : σ → List UInt8 → Option (List Value)

/-- The engine does what the statements mean whose texts a program gives it. The rows of a
database have no order. -/
structure Engine.Follows {σ : Type} (engine : Engine σ) (schema : Schema)
    (given : List UInt8 → Prop) (view : σ → List Tuple) : Prop where
  refuses : ∀ db text statement, given text → parseText text = some statement →
    schema.Fits statement → schema.run (view db) statement = none → engine.exec db text = none
  exec : ∀ db text statement tuples, given text → parseText text = some statement →
    schema.Fits statement → schema.run (view db) statement = some tuples →
      ∃ after, engine.exec db text = some after ∧ (view after).Perm tuples
  query : ∀ db text column table key value, given text →
    parseText text = some (.select column table key value) →
      schema.Fits (.select column table key value) →
      ∃ values, engine.query db text = some values ∧
        values.Perm (schema.fetch (view db) (.select column table key value))

/-- An engine that keeps its rows in the order of their insertion. -/
def Schema.engine (schema : Schema) : Engine (List Tuple) where
  exec := fun tuples text ↦
    (parseText text).bind fun statement ↦
      if schema.Fits statement then schema.run tuples statement else none
  query := fun tuples text ↦
    (parseText text).bind fun statement ↦
      if schema.Fits statement then some (schema.fetch tuples statement) else none

theorem Schema.follows (schema : Schema) (given : List UInt8 → Prop) :
    schema.engine.Follows schema given id where
  refuses := fun db text statement _ hparse hfits hrun ↦ by
    simpa [Schema.engine, hparse, hfits] using hrun
  exec := fun db text statement tuples _ hparse hfits hrun ↦
    ⟨tuples, by simpa [Schema.engine, hparse, hfits] using hrun, List.Perm.refl _⟩
  query := fun db text column table key value _ hparse hfits ↦
    ⟨_, by simp [Schema.engine, hparse, hfits], List.Perm.refl _⟩

variable {tuples others : List Tuple}

theorem Schema.clashes_perm (schema : Schema) (hperm : tuples.Perm others) (values : Tuple) :
    schema.clashes tuples values = schema.clashes others values := hperm.any_eq

theorem Schema.fetch_perm (schema : Schema) (hperm : tuples.Perm others) (statement : Statement) :
    (schema.fetch tuples statement).Perm (schema.fetch others statement) := by
  cases statement with
  | select column table key value => exact (hperm.filter _).filterMap _
  | _ => exact List.Perm.refl _

end DirWatcher.Foundation.SqlText
