import OmniKV.Storage.View

/-!
# The store under the query layers

Above the engine a database is a finite map. A batch lays its sets over it and then removes the keys
of its deletes; a scan returns the entries of a range, both ends included.
-/

namespace OmniKV

open List SortedMap Option WriteBatch

namespace WriteBatch

theorem setWithExpiry_eq_ok {b b' : WriteBatch} {key value : Bytes} {expiry : UInt64}
    (done : b.setWithExpiry key value expiry = .ok b') :
    b'.bufferedWrites = b.bufferedWrites ++ [⟨key, value, expiry⟩] ∧
      b'.bufferedDeletes = b.bufferedDeletes := by
  rw [setWithExpiry] at done
  split_ifs at done
  cases done
  exact ⟨rfl, rfl⟩

theorem delete_eq_ok {b b' : WriteBatch} {key : Bytes} (done : b.delete key = .ok b') :
    b'.bufferedWrites = b.bufferedWrites ∧ b'.bufferedDeletes = b.bufferedDeletes ++ [key] := by
  rw [delete] at done
  split_ifs at done
  cases done
  exact ⟨rfl, rfl⟩

end WriteBatch

namespace WriteBatch

variable {V : Type*} (stored : Write → V)

/-- Lay the sets of a batch over a map, then remove the keys of its deletes. -/
def applyTo (tx : WriteBatch) (m : SortedMap Bytes V) : SortedMap Bytes V :=
  tx.bufferedDeletes.foldl SortedMap.erase
    (tx.bufferedWrites.foldl (fun m w => m.insert w.key (stored w)) m)

def lastSet? (tx : WriteBatch) (key : Bytes) : Option Write :=
  tx.bufferedWrites.reverse.find? fun w => w.key = key

/-- Deletes win over sets, later sets over earlier ones. -/
theorem get?_applyTo (tx : WriteBatch) (m : SortedMap Bytes V) (key : Bytes) :
    (tx.applyTo stored m).get? key = if key ∈ tx.bufferedDeletes then none
      else ((tx.lastSet? key).map stored).or (m.get? key) := by
  rw [applyTo, get?_foldl_erase, get?_foldl_insert]
  rfl

variable {tx : WriteBatch} {key : Bytes}

theorem lastSet?_eq_none_iff : tx.lastSet? key = none ↔ ∀ w ∈ tx.bufferedWrites, w.key ≠ key := by
  simp [lastSet?]

theorem find?_reverse_ops (tx : WriteBatch) (key : Bytes) :
    (tx.ops.reverse.find? fun op => op.1 = key) = if key ∈ tx.bufferedDeletes then some (key, none)
      else (tx.lastSet? key).map fun w => (key, some w) := by
  rw [ops, reverse_append, find?_append, ← map_reverse, ← map_reverse, find?_map, find?_map]
  split_ifs with deleted
  · have found : tx.bufferedDeletes.reverse.find? (fun k => k = key) = some key := by
      cases found : tx.bufferedDeletes.reverse.find? fun k => k = key with
      | none =>
        exact absurd (by simp) (find?_eq_none.mp found key (mem_reverse.mpr deleted))
      | some k => rw [show k = key by simpa using find?_some found]
    simp only [Function.comp_def, found, map_some, some_or]
  · have none : tx.bufferedDeletes.reverse.find? (fun k => k = key) = none := by
      rw [find?_eq_none]
      intro k member same
      rw [decide_eq_true_eq] at same
      exact deleted (same ▸ mem_reverse.mp member)
    simp only [Function.comp_def, none, map_none, none_or, lastSet?]
    cases last : tx.bufferedWrites.reverse.find? fun w => w.key = key with
    | none => rfl
    | some w => rw [map_some, map_some, show w.key = key by simpa using find?_some last]

end WriteBatch

/-- A database with the expiry time of each value, zero for never. -/
abbrev TimedStore := SortedMap Bytes (Bytes × UInt64)

namespace TimedStore

variable (s : TimedStore)

def commit (tx : WriteBatch) : TimedStore :=
  tx.applyTo (fun w => (w.value, w.expiry)) s

/-- What a reader sees of a stored value at time `now`. -/
def alive (now : UInt64) (v : Bytes × UInt64) : Option Bytes :=
  if 0 < v.2 && v.2 ≤ now then none else some v.1

def find (s : TimedStore) (key : Bytes) (now : UInt64) : Option Bytes :=
  (s.get? key).bind (alive now)

def scan (s : TimedStore) (a b : Bytes) (now : UInt64) : List (Bytes × Bytes) :=
  (s.range a b).filterMap fun entry => (alive now entry.2).map (entry.1, ·)

variable {s : TimedStore}

theorem mem_scan {a b key value : Bytes} {now : UInt64} :
    (key, value) ∈ s.scan a b now ↔ a ≤ key ∧ key ≤ b ∧ s.find key now = some value := by
  rw [scan, mem_filterMap]
  constructor
  · rintro ⟨⟨k, v⟩, inside, shown⟩
    obtain ⟨value', live, same⟩ := map_eq_some_iff.mp shown
    cases same
    obtain ⟨start, stop, found⟩ := mem_range.mp inside
    exact ⟨start, stop, bind_eq_some_iff.mpr ⟨v, found, live⟩⟩
  · rintro ⟨start, stop, found⟩
    obtain ⟨v, here, live⟩ := bind_eq_some_iff.mp found
    exact ⟨(key, v), mem_range.mpr ⟨start, stop, here⟩, map_eq_some_iff.mpr ⟨value, live, rfl⟩⟩

theorem pairwise_scan (s : TimedStore) (a b : Bytes) (now : UInt64) :
    (s.scan a b now).Pairwise fun x y => x.1 < y.1 := by
  refine (pairwise_range s a b).filterMap _ fun x y less x' hx y' hy => ?_
  obtain ⟨_, -, rfl⟩ := map_eq_some_iff.mp hx
  obtain ⟨_, -, rfl⟩ := map_eq_some_iff.mp hy
  exact less

theorem find_commit (s : TimedStore) (tx : WriteBatch) (now : UInt64) :
    (fun key => (s.commit tx).find key now) = tx.effect now fun key => s.find key now := by
  funext key
  rw [find, commit, get?_applyTo, effect, find?_reverse_ops]
  split_ifs with deleted
  · rfl
  · cases tx.lastSet? key with
    | none | some w => rfl

end TimedStore

end OmniKV
