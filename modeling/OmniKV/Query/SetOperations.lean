import OmniKV.Query.Parser
import OmniKV.Query.Statements

/-!
# Set operations

UNION, INTERSECT and EXCEPT run their two sides and combine the lists of rows. INTERSECT and
EXCEPT keep the rows of the left side by whether they occur on the right, not by how often;
without ALL only the first of equal rows is kept.
-/

namespace OmniKV.Sql

open List Parse

/-- `retain(|row| seen.insert(row))`: the first of equal rows stays. -/
def retainNew (seen : List (List Cell)) : List (List Cell) → List (List Cell)
  | [] => []
  | row :: rows => if row ∈ seen then retainNew seen rows else row :: retainNew (row :: seen) rows

def combineRows (op : SetOpType) (all : Bool) (left right : List (List Cell)) : List (List Cell) :=
  let combined := match op with
    | .union => left ++ right
    | .intersect => left.filter (· ∈ right)
    | .except => left.filter (· ∉ right)
  if all then combined else retainNew [] combined

def execSetOp (op : SetOpType) (all : Bool) : ExecResult → ExecResult → Except String ExecResult
  | .rows columns left, .rows _ right => .ok (.rows columns (combineRows op all left right))
  | .rows _ _, _ => .error "SET operation requires SELECT on right side"
  | _, _ => .error "SET operation requires SELECT on left side"

/-- How often a row is in the result, if it is `m` times on the left and `n` times on the right. -/
def multiplicity (op : SetOpType) (all : Bool) (m n : ℕ) : ℕ :=
  match op, all with
  | .union, true => m + n
  | .intersect, true => min m n
  | .except, true => m - n
  | .union, false => if 0 < m ∨ 0 < n then 1 else 0
  | .intersect, false => if 0 < m ∧ 0 < n then 1 else 0
  | .except, false => if 0 < m ∧ n = 0 then 1 else 0

theorem count_retainNew (row : List Cell) (seen rows : List (List Cell)) :
    (retainNew seen rows).count row = if row ∈ rows ∧ row ∉ seen then 1 else 0 := by
  induction rows generalizing seen with
  | nil => rfl
  | cons first rows ih =>
    rw [retainNew]
    by_cases known : first ∈ seen
    · rw [if_pos known, ih]
      grind
    · rw [if_neg known, count_cons, ih]
      grind

/-- The rows are those of bags exactly if ALL meets no row that is more often on the left than on
the right.
-/
theorem bagSemantics_iff {op : SetOpType} {all : Bool} {columns columns' : List Bytes}
    {left right : List (List Cell)} :
    (∃ rows, execSetOp op all (.rows columns left) (.rows columns' right) =
      .ok (.rows columns rows) ∧
      ∀ row, rows.count row = multiplicity op all (left.count row) (right.count row)) ↔
      op = .union ∨ all = false ∨ ∀ row ∈ right, left.count row ≤ right.count row := by
  have ran {P : List (List Cell) → Prop} : (∃ rows,
      execSetOp op all (.rows columns left) (.rows columns' right) = .ok (.rows columns rows) ∧
      P rows) ↔ P (combineRows op all left right) := by
    constructor
    · rintro ⟨rows, ⟨⟩, counts⟩
      exact counts
    · exact fun counts => ⟨_, rfl, counts⟩
  rw [ran]
  cases all with
  | false =>
    refine iff_of_true (fun row => ?_) (.inr (.inl rfl))
    cases op <;> simp [combineRows, multiplicity, count_retainNew, count_eq_zero]
  | true =>
    have kept (row : List Cell) (p : List Cell → Bool) :
        (left.filter p).count row = if p row then left.count row else 0 := by
      split_ifs with holds
      · exact count_filter holds
      · exact count_eq_zero.mpr fun member => holds (mem_filter.mp member).2
    cases op with
    | union => exact iff_of_true (fun row => count_append) (.inl rfl)
    | intersect =>
      simp only [combineRows, multiplicity, kept, reduceCtorEq, false_or, if_true,
        decide_eq_true_eq]
      refine forall_congr' fun row => ?_
      split_ifs with member
      · rw [eq_comm, min_eq_left_iff, forall_prop_of_true member]
      · simp [member, count_eq_zero.mpr member]
    | except =>
      simp only [combineRows, multiplicity, kept, reduceCtorEq, false_or, if_true,
        decide_eq_true_eq, ite_not]
      refine forall_congr' fun row => ?_
      split_ifs with member
      · rw [eq_comm, Nat.sub_eq_zero_iff_le, forall_prop_of_true member]
      · simp [member, count_eq_zero.mpr member]

/-- A row that is twice on the left and once on the right. -/
theorem intersect_all_keeps_both :
    ∃ rows, execSetOp .intersect true (.rows [] [[none], [none]])
      (.rows [] [[none]]) = .ok (.rows [] rows) ∧
      rows.count [none] = 2 ∧ multiplicity .intersect true 2 1 = 1 :=
  ⟨_, rfl, rfl, rfl⟩

end OmniKV.Sql
