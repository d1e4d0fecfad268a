import OmniKV.Query.Documents
import OmniKV.Query.Like

/-!
# Tables, rows and predicates

A row maps the names of columns to texts or to NULL, and a predicate has three truth values. Values
are compared by the declared type of the column. Case folding beyond ASCII, floating-point texts and
the regular expressions of `LIKE` are parameters.
-/

namespace OmniKV.Sql

/-- Functions of the standard library and of the regular expressions. -/
class TextFunctions where
  /-- `str::to_lowercase`. -/
  lower : Bytes → Bytes
  /-- `str::to_uppercase`. -/
  upper : Bytes → Bytes
  /-- The text of the double that a text denotes. -/
  parseF64 : Bytes → Option Bytes
  /-- The order of two texts that both denote finite doubles. -/
  compareFloats : Bytes → Bytes → Option Ordering
  /-- The characters of a text. -/
  chars : Bytes → List Char
  regex : RegexCrate

export TextFunctions (lower)

def asciiLower (b : UInt8) : UInt8 := if 65 ≤ b && b ≤ 90 then b + 32 else b

def asciiUpper (b : UInt8) : UInt8 := if 97 ≤ b && b ≤ 122 then b - 32 else b

def eqIgnoreAsciiCase (a b : Bytes) : Bool := a.map asciiLower = b.map asciiLower

/-- The functions on ASCII texts that are no fractions, for samples without patterns. -/
@[reducible] def asciiText : TextFunctions where
  lower text := text.map asciiLower
  upper text := text.map asciiUpper
  parseF64 _ := none
  compareFloats _ _ := none
  chars text := text.map fun b => Char.ofNat b.toNat
  regex := ⟨fun _ => none, by simp⟩

inductive ColumnType
  | text
  | integer
  | float
  | boolean
  | timestamp
  | json
deriving DecidableEq

inductive SqlValue
  | text (t : Bytes)
  | integer (n : ℤ)
  | float (text : Bytes)
  | boolean (b : Bool)
  | null
  | placeholder (n : ℕ)
deriving DecidableEq

def intText (n : ℤ) : Bytes :=
  if n < 0 then 45 :: Bytes.decimal n.natAbs else Bytes.decimal n.natAbs

def SqlValue.asString : SqlValue → Bytes
  | text t => t
  | integer n => intText n
  | float t => t
  | boolean b => .ofString (if b then "true" else "false")
  | null => .ofString "NULL"
  | placeholder n => 36 :: Bytes.decimal n

/-- The integer of a width that a text denotes. -/
def parseInt (width : ℕ) (t : Bytes) : Option ℤ :=
  let negative := t.head? = some 45
  let digits := if negative || t.head? = some 43 then t.tail else t
  if digits.isEmpty || !digits.all fun b => 48 ≤ b && b ≤ 57 then none
  else
    let n : ℤ := digits.foldl (fun n b => 10 * n + (b.toNat - 48)) 0
    let n := if negative then -n else n
    if -2 ^ (width - 1) ≤ n && n < 2 ^ (width - 1) then some n else none

def parseI64 : Bytes → Option ℤ := parseInt 64

def parseI128 : Bytes → Option ℤ := parseInt 128

def compareBytes (a b : Bytes) : Ordering := if a < b then .lt else if a = b then .eq else .gt

section

variable [TextFunctions]

namespace ColumnType

def names : List (String × ColumnType) :=
  [("TEXT", text), ("VARCHAR", text), ("STRING", text), ("CHAR", text),
    ("INT", integer), ("INTEGER", integer), ("BIGINT", integer), ("SMALLINT", integer),
    ("FLOAT", float), ("DOUBLE", float), ("REAL", float), ("NUMERIC", float), ("DECIMAL", float),
    ("BOOL", boolean), ("BOOLEAN", boolean),
    ("TIMESTAMP", timestamp), ("DATETIME", timestamp), ("DATE", timestamp),
    ("JSON", json), ("JSONB", json)]

/-- `from_str` -/
def fromStr (s : Bytes) : Except String ColumnType :=
  match names.find? fun entry => Bytes.ofString entry.1 = TextFunctions.upper s with
  | some entry => .ok entry.2
  | none =>
    let s := Bytes.text s
    .error s!"Unknown type: {s}"

def isNumeric : ColumnType → Bool
  | integer => true
  | float => true
  | _ => false

def canonicalize (value : Bytes) : ColumnType → Bytes
  | integer => ((parseI128 value).map intText).getD value
  | float => (TextFunctions.parseF64 value).getD value
  | _ => value

end ColumnType

/-- Integers, then finite doubles, then texts. -/
def smartCmp (a b : Bytes) : Ordering :=
  match parseI128 a, parseI128 b with
  | some x, some y => compare x y
  | _, _ => (TextFunctions.compareFloats a b).getD (compareBytes a b)

def cmpByLiteral (rowVal : Bytes) (value : SqlValue) (cmpVal : Bytes) : Ordering :=
  match value with
  | .integer _ => smartCmp rowVal cmpVal
  | .float _ => smartCmp rowVal cmpVal
  | _ => compareBytes rowVal cmpVal

def cmpByAffinity (rowVal : Bytes) (value : SqlValue) (cmpVal : Bytes) :
    Option ColumnType → Ordering
  | some t => if t.isNumeric then smartCmp rowVal cmpVal else compareBytes rowVal cmpVal
  | none => cmpByLiteral rowVal value cmpVal

end

/-- A column as a statement declares it. -/
structure SqlColumnDef where
  name : Bytes
  colType : Bytes
  primaryKey : Bool

structure Column where
  name : Bytes
  colType : ColumnType
deriving DecidableEq

inductive RowFormat
  | legacy
  | typed
deriving DecidableEq

structure TableDef where
  name : Bytes
  columns : List Column
  primaryKey : Bytes
  rowFormat : RowFormat
deriving DecidableEq

/-- A cell is a text or NULL. -/
abbrev Cell := Option Bytes

abbrev Row := SortedMap Bytes Cell

/-- A value of the store: a table definition or a row in its JSON form, or any other text. -/
inductive SqlStored
  | table (definition : TableDef)
  | row (cells : Row)
  | text (t : Bytes)
deriving DecidableEq

def SqlStored.asTable : SqlStored → Option TableDef
  | table d => some d
  | _ => none

def SqlStored.asRow : SqlStored → Option Row
  | row cells => some cells
  | _ => none

namespace TableDef

/-- `\0T\0name\0` -/
def rowPrefix (table : TableDef) : Bytes := [0, 84, 0] ++ (table.name ++ [0])

def columnNames (table : TableDef) : List Bytes := table.columns.map Column.name

def findColumn (table : TableDef) (name : Bytes) : Option Column :=
  table.columns.find? fun c => eqIgnoreAsciiCase c.name name

variable [TextFunctions]

/-- The stored form of a primary key. -/
def canonicalizePkKey (table : TableDef) (value : Bytes) : Bytes :=
  match table.findColumn table.primaryKey with
  | some c => c.colType.canonicalize value
  | none => value

/-- Where a row with a primary key is stored. -/
def keyOf (table : TableDef) (pk : Bytes) : Bytes := table.rowPrefix ++ table.canonicalizePkKey pk

omit [TextFunctions] in
/-- The primary key of a row. -/
def pkOf (table : TableDef) (row : Row) : Cell := (row.get? table.primaryKey).join

end TableDef

def decodeCell (format : RowFormat) (cell : Cell) : Cell :=
  match format with
  | .legacy => cell.filter fun t => t ≠ .ofString "NULL"
  | .typed => cell

def deserializeRowChecked (format : RowFormat) (value : SqlStored) : Except String Row :=
  match value.asRow with
  | some row => .ok (row.mapValues (decodeCell format))
  | none => .error "invalid stored row JSON"

/-- In the current format a row is stored as it is. -/
theorem deserializeRowChecked_typed {value : SqlStored} {row : Row} :
    deserializeRowChecked .typed value = .ok row ↔ value = .row row := by
  cases value with
  | row cells =>
    have same : cells.mapValues (decodeCell .typed) = cells := SortedMap.mapValues_id cells
    simp [deserializeRowChecked, SqlStored.asRow, same]
  | table d | text t => simp [deserializeRowChecked, SqlStored.asRow]

/-- Split a name at its first dot. -/
def splitDot : Bytes → Option (Bytes × Bytes)
  | [] => none
  | b :: rest => if b = 46 then some ([], rest) else (splitDot rest).map fun parts =>
    (b :: parts.1, parts.2)

theorem splitDot_append {qual bare : Bytes} (undotted : 46 ∉ qual) :
    splitDot (qual ++ 46 :: bare) = some (qual, bare) := by
  induction qual with
  | nil => rfl
  | cons b rest ih =>
    rw [List.mem_cons, not_or] at undotted
    rw [List.cons_append, splitDot, if_neg (Ne.symm undotted.1), ih undotted.2]
    rfl

/-- The value of a column, by its name or by its name with that of the table before it. -/
def rowLookup (row : Row) (column : Bytes) : Cell :=
  match row.get? column with
  | some (some value) => some value
  | _ =>
    match splitDot column with
    | none => none
    | some (qual, bare) =>
      if row.entries.any fun entry => entry.1.contains 46 then
        (row.entries.find? fun entry => (splitDot entry.1).any fun parts =>
          eqIgnoreAsciiCase parts.1 qual && parts.2 = bare).bind Prod.snd
      else (row.get? bare).join

abbrev ColumnTypeMap := SortedMap Bytes ColumnType

def typeLookup (types : ColumnTypeMap) (column : Bytes) : Option ColumnType :=
  match types.get? column with
  | some t => some t
  | none =>
    match splitDot column with
    | none => none
    | some (qual, bare) =>
      if types.entries.any fun entry => entry.1.contains 46 then
        (types.entries.find? fun entry => (splitDot entry.1).any fun parts =>
          eqIgnoreAsciiCase parts.1 qual && parts.2 = bare).map Prod.snd
      else types.get? bare

def bareTypes (table : TableDef) : ColumnTypeMap :=
  table.columns.foldl (fun types c => types.insert c.name c.colType) .empty

def columnTypesOfTable (table : TableDef) : ColumnTypeMap :=
  table.columns.foldl (fun types c =>
    (types.insert c.name c.colType).insert (table.name ++ 46 :: c.name) c.colType) .empty

inductive CmpOp
  | eq
  | ne
  | gt
  | lt
  | gte
  | lte
  | like
deriving DecidableEq

/-- A predicate, with subqueries of a type `σ`. -/
inductive WhereExpr (σ : Type)
  | comparison (column : Bytes) (op : CmpOp) (value : SqlValue)
  | and (left right : WhereExpr σ)
  | or (left right : WhereExpr σ)
  | not (inner : WhereExpr σ)
  | isNull (column : Bytes)
  | isNotNull (column : Bytes)
  | inList (column : Bytes) (values : List SqlValue)
  | inSubquery (column : Bytes) (query : σ)

def andTri : Option Bool → Option Bool → Option Bool
  | some false, _ => some false
  | _, some false => some false
  | none, _ => none
  | _, none => none
  | _, _ => some true

def orTri : Option Bool → Option Bool → Option Bool
  | some true, _ => some true
  | _, some true => some true
  | none, _ => none
  | _, none => none
  | _, _ => some false

section

variable [TextFunctions] {σ : Type}

def CmpOp.holds (op : CmpOp) (ord : Ordering) (rowVal cmpVal : Bytes) : Bool :=
  match op with
  | eq => ord = .eq
  | ne => ord ≠ .eq
  | gt => ord = .gt
  | lt => ord = .lt
  | gte => ord ≠ .lt
  | lte => ord ≠ .gt
  | like => TextFunctions.regex.like (TextFunctions.chars rowVal) (TextFunctions.chars cmpVal)

/-- The truth value of a predicate; `none` is UNKNOWN. -/
def evalTri (row : Row) (types : ColumnTypeMap) : WhereExpr σ → Option Bool
  | .comparison column op value =>
    if value = .null then none
    else (rowLookup row column).map fun rowVal =>
      op.holds (cmpByAffinity rowVal value value.asString (typeLookup types column)) rowVal
        value.asString
  | .and a b => andTri (evalTri row types a) (evalTri row types b)
  | .or a b => orTri (evalTri row types a) (evalTri row types b)
  | .not inner => (evalTri row types inner).map (!·)
  | .isNull column => some (rowLookup row column).isNone
  | .isNotNull column => some (rowLookup row column).isSome
  | .inList column values =>
    (rowLookup row column).bind fun rowVal =>
      -- An element that is NULL leaves a value without a match undecided.
      if values.any fun v => v ≠ .null &&
          cmpByAffinity rowVal v v.asString (typeLookup types column) = .eq then some true
      else if values.any fun v => v = .null then none
      else some false
  | .inSubquery _ _ => some false

def evalWhereTyped (row : Row) (types : ColumnTypeMap) (expr : WhereExpr σ) : Bool :=
  (evalTri row types expr).getD false

end

/-- The columns that a predicate names. -/
def extractWhereColumns {σ : Type} : WhereExpr σ → List Bytes
  | .comparison column _ _ => [column]
  | .and a b => extractWhereColumns a ++ extractWhereColumns b
  | .or a b => extractWhereColumns a ++ extractWhereColumns b
  | .not inner => extractWhereColumns inner
  | .isNull column => [column]
  | .isNotNull column => [column]
  | .inList column _ => [column]
  | .inSubquery column _ => [column]

end OmniKV.Sql
