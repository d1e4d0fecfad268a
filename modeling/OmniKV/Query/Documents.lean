import OmniKV.Data.Keys
import OmniKV.Storage.TypedStore

/-!
# Documents and what is stored beside them

A document is a JSON value. The layers that work with documents look into the fields of an object
and at plain values in them; arrays and objects within a document are moved around as they are.
-/

def Bytes.text (bs : Bytes) : String := (String.fromUTF8? ⟨bs.toArray⟩).getD ""

namespace OmniKV

/-- A JSON value. Numbers are integers or the bits of a double; of an array or an object its text is
kept.
-/
inductive Json
  | null
  | bool (b : Bool)
  | integer (n : ℤ)
  | float (bits : UInt64)
  | string (s : Bytes)
  | composite (text : Bytes)
deriving DecidableEq

/-- A document is an object, with its fields in the order of their names, or another value. -/
inductive Document
  | object (fields : SortedMap Bytes Json)
  | other (value : Json)
deriving DecidableEq

namespace Json

def asStr : Json → Option Bytes
  | string s => some s
  | _ => none

def asI64 : Json → Option ℤ
  | integer n => if n < 2 ^ 63 then some n else none
  | _ => none

/-- The bits of the double nearest to an integer, or of two the one with an even mantissa. -/
def doubleOfInt (n : ℤ) : UInt64 :=
  let m := n.natAbs
  if m = 0 then 0
  else
    let e := m.log2
    let shift := e - 52
    let q := if e ≤ 52 then m <<< (52 - e) else m >>> shift
    let rest := if e ≤ 52 then 0 else m % 2 ^ shift
    let half := 2 ^ (shift - 1)
    let up := e > 52 && (rest > half || rest = half && q % 2 = 1)
    -- Rounding up a mantissa of all ones carries into the exponent.
    .ofNat ((if n < 0 then 2 ^ 63 else 0) + (e + 1022) * 2 ^ 52 + (q + if up then 1 else 0))

def asF64 : Json → Option UInt64
  | integer n => some (doubleOfInt n)
  | float bits => some bits
  | _ => none

def negativeZero : UInt64 := 0x8000000000000000

/-- Equality of JSON values, with doubles compared as numbers: the two zeros are equal. -/
def equal : Json → Json → Bool
  | float a, float b => a = b || (a = 0 || a = negativeZero) && (b = 0 || b = negativeZero)
  | a, b => a = b

theorem eq_of_equal {value value' : Json} (same : value.equal value' = true)
    (plain : value ≠ .float negativeZero) (plain' : value' ≠ .float negativeZero) :
    value = value' := by
  cases value with
  | float a =>
    cases value' with
    | float b =>
      have ha : a ≠ negativeZero := fun neg => plain (congrArg float neg)
      have hb : b ≠ negativeZero := fun neg => plain' (congrArg float neg)
      simp only [equal, Bool.or_eq_true, Bool.and_eq_true, decide_eq_true_eq] at same
      obtain equal | zeros := same
      · rw [equal]
      · rw [zeros.1.resolve_right ha, zeros.2.resolve_right hb]
    | _ => simp [equal] at same
  | _ => simpa [equal] using same

end Json

namespace Document

def get : Document → Bytes → Option Json
  | object fields, field => fields.get? field
  | other _, _ => none

end Document

inductive IndexFieldType
  | string
  | integer
  | float
deriving DecidableEq

structure IndexDefinition where
  id : ℕ
  name : Bytes
  collection : Bytes
  /-- The fields in their order in the index. -/
  fields : List (Bytes × IndexFieldType)
  unique : Bool
deriving DecidableEq

inductive MigrationState
  | inProgress (progressPct : ℕ)
  | applied
  | rolledBack
  | failed (message : String)
deriving DecidableEq

structure MigrationRecord where
  version : ℕ
  description : Bytes
  state : MigrationState
deriving DecidableEq

inductive Stored
  | document (doc : Document)
  | index (definition : IndexDefinition)
  | migration (record : MigrationRecord)
  | version (v : ℕ)
  | text (t : Bytes)
deriving DecidableEq

def documentKey (collection pk : Bytes) : Bytes := collection ++ 58 :: pk

end OmniKV
