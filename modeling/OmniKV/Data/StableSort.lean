import Mathlib.Data.List.Sort

/-!
# Stable sorting

A stable sort by one comparison after another sorts lexicographically, with the last comparison the
most significant. Elements that a sort does not tell apart stay in their order.
-/

namespace List

variable {α : Type*} {cmp : α → α → Ordering} [Std.TransCmp cmp]

theorem isLE_total (a b : α) : ((cmp a b).isLE || (cmp b a).isLE) = true := by
  rw [@Std.OrientedCmp.eq_swap _ cmp _ a b]
  cases cmp b a <;> rfl

theorem pairwise_mergeSort_of_pairwise {R : α → α → Prop} (refl : ∀ a, R a a) {l : List α}
    (sorted : l.Pairwise R) :
    (l.mergeSort fun a b => (cmp a b).isLE).Pairwise fun a b => cmp a b = .lt ∨
      cmp a b = .eq ∧ R a b := by
  rw [← mergeSort_zipIdx, pairwise_map]
  refine (pairwise_mergeSort (zipIdxLE_trans fun a b c => Std.TransCmp.isLE_trans)
    (zipIdxLE_total isLE_total) _).imp_of_mem fun {a b} inA inB ordered => ?_
  rw [mem_mergeSort, mem_zipIdx_iff_getElem?] at inA inB
  rw [zipIdxLE, @Std.OrientedCmp.eq_swap _ cmp _ b.1 a.1] at ordered
  cases compared : cmp a.1 b.1 with
  | lt => exact .inl rfl
  | gt => simp [compared] at ordered
  | eq =>
    -- The positions decide.
    refine .inr ⟨rfl, ?_⟩
    obtain same | less := (show a.2 ≤ b.2 by simpa [compared] using ordered).eq_or_lt
    · rw [same, inB] at inA
      exact Option.some.inj inA ▸ refl _
    · obtain ⟨_, atA⟩ := List.getElem?_eq_some_iff.mp inA
      obtain ⟨_, atB⟩ := List.getElem?_eq_some_iff.mp inB
      exact atA ▸ atB ▸ pairwise_iff_getElem.mp sorted _ _ _ _ less

theorem filter_mergeSort {p : α → Bool} (alike : ∀ a b, p a → p b → (cmp a b).isLE) (l : List α) :
    (l.mergeSort fun a b => (cmp a b).isLE).filter p = l.filter p := by
  have kept : l.filter p <+ l.mergeSort fun a b => (cmp a b).isLE := by
    refine sublist_mergeSort (fun a b c => Std.TransCmp.isLE_trans) isLE_total ?_ filter_sublist
    exact pairwise_filter.mpr (pairwise_of_forall alike)
  have inside := kept.filter p
  simp only [filter_filter, Bool.and_self] at inside
  exact (inside.eq_of_length ((mergeSort_perm l _).filter p).length_eq.symm).symm

end List
