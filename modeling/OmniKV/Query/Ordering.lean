import Mathlib.Algebra.Order.Ring.Rat
import Mathlib.Order.Compare
import OmniKV.Data.StableSort
import OmniKV.Query.Parser

/-!
# The order of texts and of rows

Where the declared type of a column is numeric or unknown, two texts are compared as numbers if
both are numbers, and by their bytes otherwise. ORDER BY sorts the rows by one key after another,
from the last key to the first, each time with a stable sort.
-/

namespace OmniKV.Sql

open List Parse

theorem isLE_compareBytes {a b : Bytes} : (compareBytes a b).isLE ↔ a ≤ b := by
  rw [compareBytes]
  split_ifs with less same
  · exact iff_of_true rfl less.le
  · exact iff_of_true rfl same.le
  · exact iff_of_false nofun fun le => less (lt_of_le_of_ne le same)

instance : Std.TransCmp compareBytes where
  eq_swap {a b} := by
    rcases lt_trichotomy a b with less | rfl | greater
    · simp [compareBytes, less, less.not_gt, less.ne']
    · simp [compareBytes]
    · simp [compareBytes, greater, greater.not_gt, greater.ne']
  isLE_trans first second :=
    isLE_compareBytes.mpr ((isLE_compareBytes.mp first).trans (isLE_compareBytes.mp second))

section

variable [TextFunctions] {value : Bytes → Option ℚ}

/-- Finite numbers compare as exact rationals; `value` is the number that a text denotes. -/
structure ExactNumbers (value : Bytes → Option ℚ) : Prop where
  integer : ∀ {t n}, parseI128 t = some n → value t = some (n : ℚ)
  float : ∀ {a b}, parseI128 a = none ∨ parseI128 b = none →
    TextFunctions.compareFloats a b = (value a).bind fun p => (value b).map (compare p)

theorem ExactNumbers.smartCmp_eq (exact : ExactNumbers value) (a b : Bytes) :
    smartCmp a b = match value a, value b with
      | some p, some q => compare p q
      | _, _ => compareBytes a b := by
  rw [smartCmp]
  split
  next x y first second =>
    rw [exact.integer first, exact.integer second]
    show compare x y = compare (x : ℚ) y
    rw [← cmp_eq_compare, ← cmp_eq_compare]
    exact (Int.cast_strictMono.cmp_map_eq x y).symm
  next others =>
    rw [exact.float]
    · cases value a <;> cases value b <;> rfl
    · by_contra! both
      obtain ⟨x, first⟩ := Option.ne_none_iff_exists'.mp both.1
      obtain ⟨y, second⟩ := Option.ne_none_iff_exists'.mp both.2
      exact others x y first second

/-- The comparison is a total preorder exactly if no other text is, by its bytes, between two
numbers out of order. -/
theorem transCmp_smartCmp_iff (exact : ExactNumbers value) (texts : Set Bytes) :
    Std.TransCmp (fun a b : texts => smartCmp a b) ↔ ∀ a ∈ texts, ∀ t ∈ texts, ∀ b ∈ texts, ∀ p q,
      value a = some p → value t = none → value b = some q → a < t → t < b → p < q := by
  have isLE {p q : ℚ} : (compare p q).isLE ↔ p ≤ q :=
    Ordering.isLE_iff_ne_gt.trans compare_le_iff_le
  constructor
  · intro preorder a inA t inT b inB p q numA noNumber numB lower upper
    by_contra! reversed
    have le := @preorder.isLE_trans ⟨b, inB⟩ ⟨a, inA⟩ ⟨t, inT⟩
    simp only [exact.smartCmp_eq, numA, noNumber, numB, isLE, isLE_compareBytes] at le
    exact (le reversed lower.le).not_gt upper
  · intro between
    have apart {a b : Bytes} {p : ℚ} (number : value a = some p) (noNumber : value b = none) :
        a ≠ b := by
      rintro rfl
      exact Option.some_ne_none p (number.symm.trans noNumber)
    refine @Std.TransCmp.mk _ _ ⟨fun {a b} => ?_⟩ fun {a b c} ab bc => ?_
    · rw [exact.smartCmp_eq, exact.smartCmp_eq]
      cases value a <;> cases value b <;> dsimp only <;> exact Std.OrientedCmp.eq_swap
    · by_contra ac
      -- With at most one number, and with three, all pairs are compared alike.
      rcases numA : value a with _ | p <;> rcases numB : value b with _ | q <;> rcases numC :
        value c with _ | r <;>
        simp only [exact.smartCmp_eq, numA, numB, numC, isLE, isLE_compareBytes, not_le] at ab bc ac
      case none.some.some =>
        exact (between c c.2 a a.2 b b.2 r q numC numA numB ac
          (ab.lt_of_ne (apart numB numA).symm)).not_ge bc
      case some.none.some =>
        exact (between a a.2 b b.2 c c.2 p r numA numB numC (ab.lt_of_ne (apart numA numB))
          (bc.lt_of_ne (apart numC numB).symm)).not_gt ac
      case some.some.none =>
        exact (between b b.2 c c.2 a a.2 q p numB numC numA (bc.lt_of_ne (apart numB numC))
          ac).not_ge ab
      all_goals exact (ab.trans bc).not_gt ac

end

/-- As numbers, `9` is before `10`; by their bytes, `10` is before `1a` and `1a` before `9`. -/
theorem smartCmp_not_transitive : @smartCmp asciiText (.ofString "9") (.ofString "10") = .lt ∧
      @smartCmp asciiText (.ofString "10") (.ofString "1a") = .lt ∧
      @smartCmp asciiText (.ofString "9") (.ofString "1a") = .gt := by
  decide +kernel

theorem exactNumbers_asciiText : @ExactNumbers asciiText fun t => (parseI128 t).map Int.cast := by
  refine @ExactNumbers.mk asciiText _ (fun found => by simp [found]) fun absent => ?_
  rcases absent with none | none
  · rw [none]
    rfl
  · rw [none]
    exact (Option.bind_fun_none _).symm

/-- Numbers and a text behind them are in order. -/
theorem numbers_transCmp : Std.TransCmp fun a b :
    ({.ofString "9", .ofString "10", .ofString "x"} : Set Bytes) => @smartCmp asciiText a b := by
  refine (@transCmp_smartCmp_iff asciiText _ exactNumbers_asciiText _).mpr
    fun a _ t inT b inB p q _ none _ _ upper => ?_
  obtain rfl | rfl | rfl := inT
  · exact absurd none (by decide)
  · exact absurd none (by decide)
  · obtain rfl | rfl | rfl := inB <;> exact absurd upper (by decide)

def nullsLast (compare : Bytes → Bytes → Ordering) : Cell → Cell → Ordering
  | some x, some y => compare x y
  | some _, none => .lt
  | none, some _ => .gt
  | none, none => .eq

def keyCmp (compare : Bytes → Bytes → Ordering) (item : OrderByItem) (a b : Row) : Ordering :=
  let cmp := nullsLast compare (rowLookup a item.column) (rowLookup b item.column)
  if item.desc then cmp.swap else cmp

section

variable [TextFunctions]

def cmpByType (a b : Bytes) : Option ColumnType → Ordering
  | some t => if t.isNumeric then smartCmp a b else compareBytes a b
  | none => smartCmp a b

def sortRows (rows : List Row) (orderBy : List OrderByItem) (types : ColumnTypeMap) : List Row :=
  -- The last key is sorted by first.
  orderBy.foldr (fun item rows => rows.mergeSort fun a b =>
    (keyCmp (cmpByType · · (typeLookup types item.column)) item a b).isLE) rows

end

/-- Integers by their values, texts by their bytes. -/
def columnOrder (t : Option ColumnType) : Bytes → Bytes → Ordering :=
  if t.all ColumnType.isNumeric then compareOn parseI128 else compareBytes

/-- The order of rows by all keys, the first being the most significant. -/
def lexOrder (types : ColumnTypeMap) (orderBy : List OrderByItem) : Row → Row → Ordering :=
  orderBy.foldr (fun item => compareLex (keyCmp (columnOrder (typeLookup types item.column)) item))
    fun _ _ => .eq

section

variable {compare : Bytes → Bytes → Ordering} [Std.TransCmp compare]

instance : Std.TransCmp (nullsLast compare) where
  eq_swap {a b} := by
    cases a <;> cases b <;> try rfl
    exact @Std.OrientedCmp.eq_swap _ compare _ _ _
  isLE_trans {a b c} := by
    cases a <;> cases b <;> cases c <;> simp only [nullsLast] <;> try simp
    exact Std.TransCmp.isLE_trans

instance (item : OrderByItem) : Std.TransCmp (keyCmp compare item) where
  eq_swap {a b} := by
    rw [keyCmp, keyCmp, @Std.OrientedCmp.eq_swap _ (nullsLast compare)]
    split_ifs <;> rfl
  isLE_trans {a b c} first second := by
    simp only [keyCmp, ← @Std.OrientedCmp.eq_swap _ (nullsLast compare)] at *
    split_ifs at *
    · exact Std.TransCmp.isLE_trans second first
    · exact Std.TransCmp.isLE_trans first second

end

instance (t : Option ColumnType) : Std.TransCmp (columnOrder t) := by
  rw [columnOrder]
  split_ifs <;> infer_instance

instance (types : ColumnTypeMap) (orderBy : List OrderByItem) :
    Std.TransCmp (lexOrder types orderBy) := by
  induction orderBy with
  | nil => exact { eq_swap := rfl, isLE_trans := fun _ _ => rfl }
  | cons item orderBy ih =>
    exact inferInstanceAs (Std.TransCmp (compareLex _ (lexOrder types orderBy)))

section

variable [TextFunctions] {rows : List Row} {types : ColumnTypeMap} {orderBy : List OrderByItem}

/-- The column of a key has texts, or integers of 128 bits. -/
def Sortable (types : ColumnTypeMap) (rows : List Row) (item : OrderByItem) : Prop :=
  (typeLookup types item.column).all ColumnType.isNumeric →
    ∀ row ∈ rows, ∀ v ∈ rowLookup row item.column, (parseI128 v).isSome

theorem keyCmp_cmpByType {item : OrderByItem} {a b : Row} (sortable : Sortable types rows item)
    (inA : a ∈ rows)
    (inB : b ∈ rows) : keyCmp (cmpByType · · (typeLookup types item.column)) item a b =
      keyCmp (columnOrder (typeLookup types item.column)) item a b := by
  rw [keyCmp, keyCmp]
  cases first : rowLookup a item.column <;> cases second : rowLookup b item.column <;> try rfl
  next x y =>
    have same : cmpByType x y (typeLookup types item.column) = columnOrder
        (typeLookup types item.column) x y := by
      rw [columnOrder]
      split_ifs with numeric
      · obtain ⟨n, isN⟩ := Option.isSome_iff_exists.mp (sortable numeric a inA x first)
        obtain ⟨m, isM⟩ := Option.isSome_iff_exists.mp (sortable numeric b inB y second)
        have smart : smartCmp x y = compareOn parseI128 x y := by
          simp only [smartCmp, compareOn, isN, isM]
          rfl
        cases declared : typeLookup types item.column with
        | none => exact smart
        | some t => rwa [cmpByType, if_pos (by simpa [declared] using numeric)]
      · cases declared : typeLookup types item.column with
        | none => simp [declared] at numeric
        | some t => rw [cmpByType, if_neg (by simpa [declared] using numeric)]
    simp only [nullsLast, same]

/-- The rows are in the order of the keys, and rows that all keys leave equal stay in their order.
-/
theorem sortRows_sorts (sortable : ∀ item ∈ orderBy, Sortable types rows item) :
    sortRows rows orderBy types ~ rows ∧
      (sortRows rows orderBy types).Pairwise (fun a b => (lexOrder types orderBy a b).isLE) ∧
      ∀ row, (sortRows rows orderBy types).filter (lexOrder types orderBy row · = .eq) =
        rows.filter (lexOrder types orderBy row · = .eq) := by
  induction orderBy with
  | nil => exact ⟨.refl _, pairwise_of_forall fun _ _ => rfl, fun _ => rfl⟩
  | cons item orderBy ih =>
    obtain ⟨perm, sorted, stable⟩ := ih fun item inside => sortable item (mem_cons_of_mem _ inside)
    have step : sortRows rows (item :: orderBy) types = (sortRows rows orderBy types).mergeSort
        fun a b =>
        (keyCmp (columnOrder (typeLookup types item.column)) item a b).isLE := by
      rw [sortRows, foldr_cons, ← sortRows, ← map_id (mergeSort _ _), map_mergeSort, map_id]
      intro a inA b inB
      apply congrArg Ordering.isLE
      exact keyCmp_cmpByType (sortable item mem_cons_self) (perm.mem_iff.mp inA)
        (perm.mem_iff.mp inB)
    have lex (a b : Row) : lexOrder types (item :: orderBy) a b =
      (keyCmp (columnOrder (typeLookup types item.column)) item a b).then
      (lexOrder types orderBy a b) := rfl
    rw [step]
    refine ⟨(mergeSort_perm _ _).trans perm, ?_, fun row => ?_⟩
    · refine (pairwise_mergeSort_of_pairwise (fun a => ?_) sorted).imp fun {a b} ordered => ?_
      · rw [@Std.ReflCmp.compare_self _ (lexOrder types orderBy)]
        rfl
      · obtain less | ⟨same, le⟩ := ordered
        · rw [lex, less]
          rfl
        · rwa [lex, same]
    · rw [filter_mergeSort]
      · have both : (fun r => decide (lexOrder types (item :: orderBy) row r = .eq)) = fun r =>
            decide (keyCmp (columnOrder (typeLookup types item.column)) item row r = .eq) &&
              decide (lexOrder types orderBy row r = .eq) := by
          funext r
          simp [lex, Ordering.then_eq_eq]
        rw [both, ← filter_filter, ← filter_filter, stable]
      · intro a b alikeA alikeB
        rw [decide_eq_true_eq, lex, Ordering.then_eq_eq] at alikeA alikeB
        rw [Std.TransCmp.eq_trans (Std.OrientedCmp.eq_comm.mp alikeA.1) alikeB.1]
        rfl

end

namespace Sample

def numberRow (t : String) : Row := SortedMap.empty.insert (.ofString "n") (some (.ofString t))

def numberTypes : ColumnTypeMap := SortedMap.empty.insert (.ofString "n") .integer

def wideRows : List Row :=
  [numberRow "340282366920938463463374607431768211457",
    numberRow "340282366920938463463374607431768211456"]

end Sample

open Sample

/-- Two integers of more than 128 bits that round to one double are left as they are. -/
theorem wide_integers_unsorted :
    @sortRows { asciiText with compareFloats := fun _ _ => some .eq } wideRows
      [⟨.ofString "n", false⟩] numberTypes = wideRows ∧
      wideRows.map (fun row => (rowLookup row (.ofString "n")).bind (parseInt 256)) =
        [some (2 ^ 128 + 1), some (2 ^ 128)] :=
  ⟨mergeSort_of_pairwise (by decide +kernel), by decide +kernel⟩

theorem numbers_sorted :
    (@sortRows asciiText [numberRow "10", numberRow "9"] [⟨.ofString "n", false⟩]
      numberTypes).Pairwise fun a b => (lexOrder numberTypes [⟨.ofString "n", false⟩] a b).isLE :=
  (@sortRows_sorts asciiText _ _ _ (by unfold Sortable; decide +kernel)).2.1

end OmniKV.Sql
