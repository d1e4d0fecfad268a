import OmniKV.Embedded.Namespace

/-!
# Scans of the embedded handle

The storage scan takes both ends of its range, so a scan also returns the key at its end, and a scan
of a prefix ends at the character `U+10FFFF` behind it. The limit is checked after a row has been
taken.
-/

namespace OmniKV.Embedded

open List Bytes TimedStore

variable (ns : Option Bytes) (now : UInt64) (limit : Option ℕ) (db : TimedStore)

def cut (rows : List (Bytes × Bytes)) : List (Bytes × Bytes) := limit.elim rows rows.take

/-- A limit of zero needs an empty range, and rows beyond the bound need a limit that is reached
before. -/
def Within (scanned inside : List (Bytes × Bytes)) (beyond : Prop) : Prop :=
  (limit = some 0 → scanned = []) ∧ (beyond → ∃ n ∈ limit, n ≤ inside.length)

instance {scanned inside : List (Bytes × Bytes)} {beyond : Prop} [Decidable beyond] :
    Decidable (Within limit scanned inside beyond) := inferInstanceAs (Decidable (_ ∧ _))

variable {ns now limit db} {rows rows' : List (Bytes × Bytes)}

variable (wanted scanned : Bytes → Prop)

/-- What is up to a bound in a range. -/
def Leads : Prop :=
  ∀ k, wanted k → scanned k ∧ ∀ k' < k, scanned k' → wanted k'

variable {wanted scanned} [DecidablePred wanted] [DecidablePred scanned]

theorem Leads.filter (leads : Leads wanted scanned) (sorted : rows.Pairwise fun x y => x.1 < y.1) :
    (rows.filter fun row => wanted row.1) <+: rows.filter fun row => scanned row.1 := by
  induction sorted with
  | nil => exact nil_prefix
  | @cons row rows first _ ih =>
    by_cases here : wanted row.1
    · rw [filter_cons_of_pos (by simpa using here),
        filter_cons_of_pos (by simpa using (leads _ here).1)]
      exact (prefix_cons_inj row).mpr ih
    by_cases there : scanned row.1
    · have none : ((row :: rows).filter fun row => wanted row.1) = [] := by
        refine filter_eq_nil_iff.mpr fun other member yes => here ?_
        obtain rfl | later := mem_cons.mp member
        · exact of_decide_eq_true yes
        · exact (leads _ (of_decide_eq_true yes)).2 _ (first other later) there
      rw [none]
      exact nil_prefix
    · rw [filter_cons_of_neg (by simpa using here), filter_cons_of_neg (by simpa using there)]
      exact ih

section

variable [External] {e : Engine} {ops : List EngineOp}

end

open Engine Reference

end OmniKV.Embedded
