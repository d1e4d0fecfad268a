import OmniKV.Storage.Compaction

/-!
# What garbage collection writes

The loop copies the payloads of the versions it keeps to a new heap, one after another,
and writes their records with the new offsets. A version that moved is read from the new
heap as it was from the old one.
-/

namespace OmniKV

open List Version

/-- The version with its value at another place. -/
def Version.moveTo (v : Version) (offset : ℕ) : Version :=
  { v with pointer := { v.pointer with offset := offset } }

/-- The versions with their places in a new heap that is `written` long so far. -/
def relocate : ℕ → List Version → List Version
  | _, [] => []
  | written, v :: vs =>
    if v.pointer.length = 0 then v.moveTo 0 :: relocate written vs
    else v.moveTo written :: relocate (wrap64 (written + storedLength v.pointer.length)) vs

/-- `w` is `v` with another offset. A tombstone has offset zero. -/
structure Moved (v w : Version) : Prop where
  offset : w = v.moveTo w.pointer.offset
  bound : w.pointer.offset < 2 ^ 64
  tombstone : v.IsTombstone → w.pointer.offset = 0

namespace Moved

variable {v w : Version} (moved : Moved v w)

include moved

theorem key : w.key = v.key := by rw [moved.offset]; rfl

theorem seq : w.seq = v.seq := by rw [moved.offset]; rfl

theorem length : w.pointer.length = v.pointer.length := by rw [moved.offset]; rfl

theorem expiry : w.pointer.expiry = v.pointer.expiry := by rw [moved.offset]; rfl

theorem isTombstone_iff : w.IsTombstone ↔ v.IsTombstone := by
  rw [Version.IsTombstone, moved.length, Version.IsTombstone]

theorem dead_eq (now : UInt64) : w.dead now = v.dead now := by
  rw [dead, moved.length, moved.expiry, dead]

end Moved

theorem moved_relocate {written : ℕ} (small : written < 2 ^ 64) (vs : List Version) :
    List.Forall₂ Moved vs (relocate written vs) := by
  induction vs generalizing written with
  | nil => exact .nil
  | cons v vs ih =>
    rw [relocate]
    split_ifs with tombstone
    · exact .cons ⟨rfl, Nat.two_pow_pos 64, fun _ => rfl⟩ (ih small)
    · exact .cons ⟨rfl, small, fun h => absurd h tombstone⟩ (ih (wrap64_lt _))

/-- Everything but the offsets stays. -/
theorem map_relocate {β : Type*} {f : Version → β} (same : ∀ v offset, f (moveTo v offset) = f v)
    (written : ℕ) (vs : List Version) : (relocate written vs).map f = vs.map f := by
  induction vs generalizing written with
  | nil => rfl
  | cons v vs ih =>
    rw [relocate]
    split_ifs
    · rw [map_cons, ih, same, map_cons]
    · rw [map_cons, ih, same, map_cons]

theorem key_relocate (written : ℕ) (vs : List Version) :
    (relocate written vs).map key = vs.map key := map_relocate (fun _ _ => rfl) _ _

section Pairs

variable {α β : Type*} {R : α → β → Prop} {l : List α} {l' : List β}

theorem exists_of_mem_right (pairs : List.Forall₂ R l l') {b : β} (member : b ∈ l') :
    ∃ a ∈ l, R a b := by
  induction pairs with
  | nil => cases member
  | cons first _ ih =>
    obtain here | later := mem_cons.mp member
    · exact ⟨_, .head _, here ▸ first⟩
    · obtain ⟨a, ha, related⟩ := ih later
      exact ⟨a, .tail _ ha, related⟩

theorem exists_of_mem_left (pairs : List.Forall₂ R l l') {a : α} (member : a ∈ l) :
    ∃ b ∈ l', R a b := exists_of_mem_right pairs.flip member

end Pairs

section

variable [External]

def Copied (heap : Bytes) (v : Version) (stored : Bytes) : Prop :=
  if v.pointer.length = 0 then stored = []
  else Bytes.readExactAt heap v.pointer.offset (storedLength v.pointer.length) = some stored ∧
    crc32 stored = v.pointer.crc

variable {heap : Bytes} {vs : List Version} {payloads : List Bytes}

/-- The loop keeps the versions that a merge into the base keeps, at their new places. -/
theorem gcLoop_eq_ok {bytes : Bytes} {preserve : Bool} {now : UInt64} {written : ℕ}
    {records : List OmniRecord}
    (done : Engine.gcLoop heap preserve now vs written = .ok (records, bytes)) :
    records = (relocate written (vs.filter fun v => !v.dead now || preserve)).map record ∧
      ∃ payloads, List.Forall₂ (Copied heap) (vs.filter fun v => !v.dead now || preserve) payloads ∧
        bytes = payloads.flatten := by
  induction vs generalizing written records bytes with
  | nil =>
    obtain ⟨rfl, rfl⟩ := Prod.mk.inj (Except.ok.inj done)
    exact ⟨rfl, [], .nil, rfl⟩
  | cons v vs ih =>
    rw [Engine.gcLoop] at done
    split_ifs at done with tombstone preserved expired
    · -- A tombstone that a snapshot or a pin may still need.
      obtain ⟨result, rest, done⟩ := Except.bind_eq_ok done
      obtain ⟨rfl, rfl⟩ := Prod.mk.inj (Except.ok.inj done)
      obtain ⟨tail, payloads, copied, flat⟩ := ih rest
      rw [filter_cons_of_pos (by simp [preserved]), relocate, if_pos tombstone]
      refine ⟨?_, [] :: payloads, .cons ?_ copied, flat⟩
      · congr 1
        rw [← tombstone]
        rfl
      · rw [Copied, if_pos tombstone]
    · rw [filter_cons_of_neg (by simp [dead, tombstone, preserved])]
      exact ih done
    · simp only [Bool.and_eq_true, Bool.not_eq_true'] at expired
      obtain ⟨gone, preserved⟩ := expired
      rw [filter_cons_of_neg (by simp [dead, gone, preserved])]
      exact ih done
    · have kept : (!v.dead now || preserve) = true := by
        simp only [dead, tombstone, decide_false, Bool.false_or]
        revert expired
        cases preserve <;> cases (decide (0 < v.pointer.expiry) &&
          decide (v.pointer.expiry ≤ now)) <;>
          simp
      split at done
      next => cases done
      next stored read =>
        split_ifs at done with mismatch
        obtain ⟨result, rest, done⟩ := Except.bind_eq_ok done
        obtain ⟨rfl, rfl⟩ := Prod.mk.inj (Except.ok.inj done)
        obtain ⟨tail, payloads, copied, flat⟩ := ih rest
        rw [filter_cons_of_pos (by simpa using kept), relocate, if_neg tombstone]
        refine ⟨?_, stored :: payloads, .cons ?_ copied, ?_⟩
        · rw [map_cons, ← tail]
          rfl
        · rw [Copied, if_neg tombstone]
          exact ⟨read, not_not.mp mismatch⟩
        · rw [flatten_cons, ← flat]

theorem Engine.runGarbageCollection_eq_ok {e e' : Engine} {heapToken baseToken : ℕ} {now : UInt64}
    (done : e.runGarbageCollection heapToken baseToken now = .ok e') :
    ¬(e.files.files (.compactedHeap heapToken)).isSome ∧
      ¬(e.files.files (.compactedBase baseToken)).isSome ∧
      ∃ payloads, List.Forall₂ (Copied (e.files.read e.roots.manifest.heapPath))
          (e.baseVersions e.gcMerged now) payloads ∧ e' = e.collected heapToken (e.gcTable baseToken
          ((relocate 0 (e.baseVersions e.gcMerged now)).map record)) payloads.flatten := by
  rw [Engine.runGarbageCollection] at done
  split_ifs at done with takenHeap takenBase
  obtain ⟨result, output, done⟩ := Except.bind_eq_ok done
  obtain ⟨records, payloads, copied, flat⟩ := gcLoop_eq_ok output
  refine ⟨takenHeap, takenBase, payloads, copied, ?_⟩
  rw [← Except.ok.inj done, ← flat]
  simp only [records]
  rfl

def heapSize (vs : List Version) : ℕ := (vs.map fun v => storedLength v.pointer.length).sum

variable (copied : List.Forall₂ (Copied heap) vs payloads)

include copied

theorem length_flatten_of_copied : payloads.flatten.length = heapSize vs := by
  induction copied with
  | nil => rfl
  | cons first _ ih =>
    rw [flatten_cons, length_append, ih, heapSize, heapSize, map_cons]
    congr 1
    rw [Copied] at first
    split_ifs at first with tombstone
    · rw [first, tombstone]
      rfl
    · exact (Bytes.readExactAt_eq_some_iff.mp first.1).1

/-- `w` is `v` at its place in a new heap, from which it is read as before. -/
structure MovedTo (heap heap' : Bytes) (v w : Version) : Prop extends Moved v w where
  read : ¬v.IsTombstone → readPointer heap' w.pointer = readPointer heap v.pointer

theorem movedTo_relocate {heap' : Bytes} {written : ℕ}
    (room : written + payloads.flatten.length < 2 ^ 64)
    (there : Bytes.readExactAt heap' written payloads.flatten.length = some payloads.flatten) :
    List.Forall₂ (MovedTo heap heap') vs (relocate written vs) := by
  induction copied generalizing written with
  | nil => exact .nil
  | @cons v stored vs payloads first _ ih =>
    rw [flatten_cons] at room there
    obtain ⟨here, rest⟩ := Bytes.readExactAt_append_eq_some there
    rw [length_append] at room
    rw [Copied] at first
    rw [relocate]
    split_ifs at first ⊢ with tombstone
    · subst first
      exact .cons ⟨⟨rfl, Nat.two_pow_pos 64, fun _ => rfl⟩, fun live => absurd tombstone live⟩
        (ih (by simpa using room) rest)
    · obtain ⟨read, -⟩ := first
      have length : stored.length = storedLength v.pointer.length :=
        (Bytes.readExactAt_eq_some_iff.mp read).1
      rw [length] at here rest room
      refine .cons ⟨⟨rfl, ?_, fun h => absurd h tombstone⟩, fun _ => ?_⟩ ?_
      · show written < 2 ^ 64
        omega
      · simp only [readPointer, moveTo, here, read]
      · rw [wrap64_of_lt (by omega)]
        exact ih (by omega) rest

theorem movedTo_of_copied (room : heapSize vs < 2 ^ 64) :
    List.Forall₂ (MovedTo heap payloads.flatten) vs (relocate 0 vs) := by
  have length := length_flatten_of_copied copied
  refine movedTo_relocate copied (by omega) ?_
  exact Bytes.readExactAt_eq_some_iff.mpr ⟨rfl, fun i _ => by rw [Nat.zero_add]⟩

end

end OmniKV
