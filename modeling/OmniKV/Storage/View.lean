import OmniKV.Storage.Consistent

/-!
# What readers see

The state at a sequence number is a map from keys to values. A reader gets it through the block
cache, which is keyed by heap offset, if no two live versions share an offset; an empty value takes
no room in the heap, and the next one starts at the same offset.
-/

namespace OmniKV

open Versioned List StorageRoots WriteBatch

/-- A visible state: the value of every key that has one. -/
abbrev KvState := Bytes → Option Bytes

section

variable [External]

namespace Engine

/-- The state that a reader at `seq` sees at time `now`. -/
def stateAt (e : Engine) (seq : ℕ) (now : UInt64) : KvState := fun key =>
  (e.roots.find key seq).bind fun v =>
    if v.dead now then none else (readPointer e.heap v.pointer).toOption

def current (e : Engine) (now : UInt64) : KvState := e.stateAt e.globalSeq now

structure Exact (e : Engine) : Prop where
  ordered : e.roots.Ordered
  below : ∀ v ∈ e.roots.versions, v.seq < e.globalSeq
  reader : e.roots.heapReader = e.heapFile
  file : (e.files.files e.heapFile).isSome
  heapEnd : e.heap.length ≤ e.heapOffset
  values : e.roots.ValuesIn e.heap

structure Serving (e : Engine) : Prop where
  ordered : e.roots.Ordered
  below : ∀ v ∈ e.roots.versions, v.seq < e.globalSeq
  reader : e.roots.heapReader = e.heapFile
  file : (e.files.files e.heapFile).isSome
  heapEnd : e.heap.length ≤ e.heapOffset
  values : ∀ v ∈ e.roots.versions, ¬v.IsTombstone →
    0 < storedLength v.pointer.length ∧ ∃ value, readPointer e.heap v.pointer = .ok value
  apart : ∀ v ∈ e.roots.versions, ∀ w ∈ e.roots.versions, ¬v.IsTombstone → ¬w.IsTombstone →
    v.pointer.offset = w.pointer.offset → v.pointer = w.pointer
  cached : ∀ offset bytes, e.blockCache offset = some bytes → offset < e.heapOffset ∧
    ∀ v ∈ e.roots.versions, ¬v.IsTombstone → v.pointer.offset = offset →
    readPointer e.heap v.pointer = .ok bytes

variable {e e' : Engine}

omit [External] in
theorem heap_of_sameData (same : SameData e e') : e'.heap = e.heap := by
  rw [heap, heap, same.files, same.roots]

theorem stateAt_of_sameData (same : SameData e e') (seq : ℕ) (now : UInt64) :
    e'.stateAt seq now = e.stateAt seq now := by
  funext key
  rw [stateAt, stateAt, same.roots, heap_of_sameData same]

theorem length_of_readPointer {heap : Bytes} {p : ValuePointer} {value : Bytes}
    (read : readPointer heap p = .ok value) (filled : 0 < storedLength p.length) :
    p.offset + storedLength p.length ≤ heap.length := by
  by_contra short
  have missing : Bytes.readExactAt heap p.offset (storedLength p.length) = none :=
    if_neg (by omega)
  rw [readPointer, missing] at read
  cases read

omit [External] in
theorem not_isTombstone_of_not_dead {v : Version} {now : UInt64} (alive : ¬v.dead now) :
    ¬v.IsTombstone := by
  intro tombstone
  exact alive (by simp [Version.dead, show v.pointer.length = 0 from tombstone])

theorem Serving.exact (serving : e.Serving) : e.Exact :=
  ⟨serving.ordered, serving.below, serving.reader, serving.file, serving.heapEnd,
    fun v hv live => (serving.values v hv live).2⟩

theorem Consistent.exact (c : e.Consistent) : e.Exact := by
  refine ⟨c.ordered, fun v hv => c.toWellFormed.seq_lt_globalSeq hv, c.heapReader_eq, ?_,
    c.heapEnd.ge, c.values⟩
  rw [← c.heapReader_eq, c.heapData]
  rfl

namespace Serving

variable (serving : e.Serving)

include serving

theorem of_sameData (same : SameData e e')
    (cached : ∀ offset bytes, e'.blockCache offset = some bytes → offset < e.heapOffset ∧
      ∀ v ∈ e.roots.versions, ¬v.IsTombstone → v.pointer.offset = offset →
        readPointer e.heap v.pointer = .ok bytes) : e'.Serving := by
  obtain ⟨roots, globalSeq, heapFile, heapOffset, files⟩ := same
  have heap : e'.heap = e.heap := heap_of_sameData ⟨roots, globalSeq, heapFile, heapOffset, files⟩
  refine ⟨roots ▸ serving.ordered, ?_, ?_, ?_, ?_, ?_, roots ▸ serving.apart, ?_⟩
  · rw [roots, globalSeq]
    exact serving.below
  · rw [roots, heapFile]
    exact serving.reader
  · rw [files, heapFile]
    exact serving.file
  · rw [heap, heapOffset]
    exact serving.heapEnd
  · rw [roots, heap]
    exact serving.values
  · rw [roots, heap, heapOffset]
    exact cached

theorem offset_lt {v : Version} (member : v ∈ e.roots.versions)
    (live : ¬v.IsTombstone) : v.pointer.offset < e.heapOffset := by
  obtain ⟨filled, value, read⟩ := serving.values v member live
  have inside := length_of_readPointer read filled
  have := serving.heapEnd
  omega

theorem readFromHeap {v : Version} (member : v ∈ e.roots.versions) (live : ¬v.IsTombstone) :
    (e.readFromHeap v.pointer).1 = readPointer e.heap v.pointer ∧
      (e.readFromHeap v.pointer).2.Serving := by
  rw [Engine.readFromHeap]
  cases hit : e.blockCache v.pointer.offset with
  | some bytes => exact ⟨((serving.cached _ _ hit).2 v member live rfl).symm, serving⟩
  | none =>
    obtain ⟨-, value, read⟩ := serving.values v member live
    simp only [read, true_and]
    refine serving.of_sameData ⟨rfl, rfl, rfl, rfl, rfl⟩ fun offset bytes found => ?_
    simp only [Function.update_apply] at found
    split_ifs at found with here
    · cases found
      refine ⟨here ▸ serving.offset_lt member live, fun w hw liveW same => ?_⟩
      rw [serving.apart w hw v member liveW live (same.trans here)]
      exact read
    · exact serving.cached offset bytes found

/-- A point read returns the value in the state. -/
theorem find (key : Bytes) (seq : ℕ) (now : UInt64) :
    (e.find key seq now).1 = .ok (e.stateAt seq now key) ∧ (e.find key seq now).2.Serving := by
  rw [Engine.find, stateAt]
  cases found : e.roots.find key seq with
  | none => exact ⟨rfl, serving⟩
  | some v =>
    have member := (serving.ordered.readable.find_eq_some_iff.mp found).mem
    simp only [Option.bind_some]
    split_ifs with dead
    · exact ⟨rfl, serving⟩
    · have live := not_isTombstone_of_not_dead dead
      obtain ⟨result, kept⟩ := serving.readFromHeap member live
      obtain ⟨-, value, read⟩ := serving.values v member live
      refine ⟨?_, kept⟩
      simp only [result, read]
      rfl

def entry (e : Engine) (now : UInt64) (v : Version) : Option (Bytes × Bytes) :=
  if v.dead now then none else (readPointer e.heap v.pointer).toOption.map (v.key, ·)

theorem scanLoop (now : UInt64) {vs : List Version} (members : ∀ v ∈ vs, v ∈ e.roots.versions) :
    (Engine.scanLoop now vs e).1 = .ok (vs.filterMap (entry e now)) ∧
      (Engine.scanLoop now vs e).2.Serving := by
  induction vs generalizing e with
  | nil => exact ⟨rfl, serving⟩
  | cons v vs ih =>
    obtain ⟨member, rest⟩ := forall_mem_cons.mp members
    rw [Engine.scanLoop]
    split_ifs with dead
    · have skip : entry e now v = none := if_pos dead
      rw [filterMap_cons_none skip]
      exact ih serving rest
    · have live := not_isTombstone_of_not_dead dead
      obtain ⟨result, kept⟩ := serving.readFromHeap member live
      obtain ⟨-, value, read⟩ := serving.values v member live
      have same := sameData_readFromHeap e v.pointer
      have shown : entry e now v = some (v.key, value) := by
        rw [entry, if_neg dead, read]
        rfl
      have entries : entry (e.readFromHeap v.pointer).2 now = entry e now := by
        funext w
        rw [entry, entry, heap_of_sameData same]
      obtain ⟨loop, after⟩ := ih kept fun w hw => same.roots ▸ rest w hw
      rw [filterMap_cons_some shown]
      cases step : e.readFromHeap v.pointer with
      | mk first e₁ =>
        rw [step] at result loop after entries
        simp only [read] at result
        subst result
        rw [entries] at loop
        simp only [loop]
        exact ⟨rfl, after⟩

theorem scan (a b : Bytes) (seq : ℕ) (now : UInt64) :
    (e.scan a b seq now).2.Serving ∧ ∃ entries, (e.scan a b seq now).1 = .ok entries ∧
      ∀ key value, (key, value) ∈ entries ↔ a ≤ key ∧ key ≤ b ∧
      e.stateAt seq now key = some value := by
  have readable := serving.ordered.readable
  obtain ⟨result, kept⟩ := serving.scanLoop now fun _ => readable.mem_versions_of_mem_scan
  refine ⟨kept, _, result, fun key value => ?_⟩
  rw [mem_filterMap]
  constructor
  · rintro ⟨v, hv, shown⟩
    obtain ⟨start, stop, found⟩ := readable.mem_scan.mp hv
    rw [entry] at shown
    split_ifs at shown with dead
    obtain ⟨value', read, same⟩ := Option.map_eq_some_iff.mp shown
    cases same
    refine ⟨start, stop, ?_⟩
    simp [stateAt, found, dead, read]
  · rintro ⟨start, stop, state⟩
    obtain ⟨v, found, shown⟩ := Option.bind_eq_some_iff.mp state
    have hkey : v.key = key := (readable.find_eq_some_iff.mp found).key_eq
    subst hkey
    refine ⟨v, readable.mem_scan.mpr ⟨start, stop, found⟩, ?_⟩
    split_ifs at shown with dead
    rw [entry, if_neg dead, shown]
    rfl

theorem pairwise_scan {a b : Bytes} {seq : ℕ} {now : UInt64}
    {entries : List (Bytes × Bytes)} (scanned : (e.scan a b seq now).1 = .ok entries) :
    entries.Pairwise fun x y => x.1 < y.1 := by
  have readable := serving.ordered.readable
  obtain rfl := Except.ok.inj (scanned.symm.trans
    (serving.scanLoop now fun _ => readable.mem_versions_of_mem_scan (a := a) (b := b)
    (s := seq)).1)
  have keys : ∀ v shown, entry e now v = some shown → shown.1 = v.key := by
    intro v shown hv
    rw [entry] at hv
    split_ifs at hv
    obtain ⟨value, -, rfl⟩ := Option.map_eq_some_iff.mp hv
    rfl
  refine (StorageRoots.pairwise_scan e.roots a b seq).filterMap _ fun v w less x hx y hy => ?_
  rw [keys v x hx, keys w y hy]
  exact less

/-- Engines in the same state answer alike. -/
theorem reads_congr {s : ℕ} {now : UInt64} (serving' : e'.Serving)
    (same : e'.stateAt s now = e.stateAt s now) :
    (∀ key, (e'.find key s now).1 = (e.find key s now).1) ∧
      ∀ a b, (e'.scan a b s now).1 = (e.scan a b s now).1 := by
  refine ⟨fun key => by rw [(serving.find key s now).1, (serving'.find key s now).1, same],
    fun a b => ?_⟩
  obtain ⟨-, entries, scanned, shown⟩ := serving.scan a b s now
  obtain ⟨-, entries', scanned', shown'⟩ := serving'.scan a b s now
  have sorted := serving.pairwise_scan scanned
  have sorted' := serving'.pairwise_scan scanned'
  have equal : entries' = entries := SortedMap.eq_of_mem_iff sorted' sorted fun key value => by
    rw [shown', shown, same]
  rw [scanned, scanned', equal]

end Serving

/-- A new database. -/
theorem serving_of_openDb_empty (opened : openDb .empty = .ok e) : e.Serving := by
  have consistent := consistent_of_openDb_empty opened
  have none := versions_of_openDb_empty opened
  have cache : e.blockCache = fun _ => Option.none := by rw [← Except.ok.inj opened]; rfl
  refine ⟨consistent.ordered, fun v hv => absurd hv (none v), consistent.heapReader_eq, ?_,
    consistent.heapEnd.ge, fun v hv => absurd hv (none v), fun v hv => absurd hv (none v), ?_⟩
  · rw [← consistent.heapReader_eq, consistent.heapData]
    rfl
  · intro offset bytes hit
    rw [cache] at hit
    cases hit

end Engine

def WriteBatch.Plain (tx : WriteBatch) : Prop :=
  (∀ op ∈ tx.ops, op.1 ≠ commitMarkerKey) ∧ ∀ w ∈ tx.bufferedWrites, w.value ≠ []

def Engine.Fits (e : Engine) (tx : WriteBatch) : Prop :=
  e.globalSeq + (tx.opCount + 1) < 2 ^ 64 ∧ e.heapOffset + tx.totalHeapBytes < 2 ^ 64
deriving Decidable

namespace Engine.Fits

variable {e : Engine} {tx : WriteBatch} (fits : e.Fits tx)

include fits

theorem room : e.globalSeq + tx.opCount < 2 ^ 64 := by
  have := fits.1
  omega

theorem wrap64_heapOffset : wrap64 e.heapOffset = e.heapOffset := by
  have := fits.2
  exact wrap64_of_lt (by omega)

end Engine.Fits

/-- What a batch does to a state: the last operation on a key decides. -/
def WriteBatch.effect (tx : WriteBatch) (now : UInt64) (σ : KvState) : KvState := fun key =>
  match tx.ops.reverse.find? fun op => op.1 = key with
  | none => σ key
  | some (_, none) => none
  | some (_, some w) => if 0 < w.expiry && w.expiry ≤ now then none else some w.value

theorem readPointer_writeAt {heap : Bytes} {p : ValuePointer} {value : Bytes} (off : ℕ)
    (data : Bytes) (read : readPointer heap p = .ok value) (behind : heap.length ≤ off) :
    readPointer (Bytes.writeAt heap off data) p = .ok value := by
  cases stored : Bytes.readExactAt heap p.offset (storedLength p.length) with
  | none =>
    rw [readPointer, stored] at read
    cases read
  | some bytes =>
    have still : Bytes.readExactAt (Bytes.writeAt heap off data) p.offset (storedLength p.length) =
        some bytes := by
      refine Bytes.readExactAt_congr stored fun i hi => ?_
      have filled : 0 < storedLength p.length := by omega
      have inside := Engine.length_of_readPointer read filled
      exact Bytes.getElem?_writeAt_outside (by omega) (.inl (by omega))
    rw [readPointer, stored] at read
    rw [readPointer, still]
    exact read

namespace Engine.Exact

variable {e : Engine} {tx : WriteBatch} (exact : e.Exact)

include exact

theorem heap_committed (tx : WriteBatch) :
    (e.committed tx).heap = Bytes.writeAt e.heap (wrap64 e.heapOffset) tx.payloads := by
  obtain ⟨file, present⟩ := Option.isSome_iff_exists.mp exact.file
  rw [heap, heap, Files.read, Files.read, files_committed]
  simp [exact.reader, Files.sync, Files.write, present]

theorem mem_versions_committed (fits : e.Fits tx) {v : Version} :
    v ∈ (e.committed tx).roots.versions ↔
      v ∈ e.roots.versions ∨ ∃ r ∈ e.newRecords tx, r.version = v := by
  have room := fits.room
  constructor
  · exact Engine.mem_versions_committed
  · have distinct : Unambiguous ({v | v ∈ e.roots.memtable} ∪
        {v | ∃ r ∈ e.newRecords tx, r.version = v}) := by
      have old : ∀ w ∈ e.roots.memtable, w.seq < e.globalSeq := fun w hw =>
        exact.below w (mem_versions.mpr (.inl ⟨_, mem_memtables.mpr (.inl rfl), hw⟩))
      rintro w (hw | ⟨r, hr, rfl⟩) w' (hw' | ⟨r', hr', rfl⟩) hkey hseq
      · exact e.roots.memtable.unambiguous w hw w' hw' hkey hseq
      · have := old w hw
        have := (seq_of_mem_nextBatch room (mem_filter.mp hr').1).1
        have hseq : w.seq = r'.seq := hseq
        omega
      · have := old w' hw'
        have := (seq_of_mem_nextBatch room (mem_filter.mp hr).1).1
        have hseq : r.seq = w'.seq := hseq
        omega
      · rw [eq_of_seq_eq room (mem_filter.mp hr).1 (mem_filter.mp hr').1 hseq]
    rw [roots_committed]
    refine fun stored => mem_versions.mpr ?_
    obtain old | new := stored
    · obtain ⟨m, hm, hv⟩ | table := mem_versions.mp old
      · obtain rfl | frozen := mem_memtables.mp hm
        · exact .inl ⟨_, mem_memtables.mpr (.inl rfl),
            (Memtable.mem_insertAll distinct).mpr (.inl hv)⟩
        · exact .inl ⟨m, mem_memtables.mpr (.inr frozen), hv⟩
      · exact .inr table
    · exact .inl ⟨_, mem_memtables.mpr (.inl rfl), (Memtable.mem_insertAll distinct).mpr (.inr new)⟩

theorem realizes_committed (fits : e.Fits tx) :
    List.Forall₂ (Realizes (e.committed tx).heap) ((e.nextBatch tx).records.map OmniRecord.version)
      tx.ops := by
  refine realizes_userRecords fits.2 ?_
  rw [exact.heap_committed, fits.wrap64_heapOffset]
  simpa using Bytes.readExactAt_writeAt e.heap [] tx.payloads [] e.heapOffset

theorem committed (fits : e.Fits tx) : (e.committed tx).Exact := by
  have room := fits.room
  have heap := exact.heap_committed tx
  rw [fits.wrap64_heapOffset] at heap
  refine ⟨?_, fun v hv => ?_, ?_, ?_, ?_, fun v hv live => ?_⟩
  · rw [roots_committed]
    refine exact.ordered.insertAll fun x hx v hv => ?_
    have fresh := seq_of_mem_nextBatch room (mem_filter.mp hx).1
    exact (exact.below v hv).trans_le fresh.1
  · rw [globalSeq_committed_of_lt fits.1]
    obtain stored | ⟨r, hr, rfl⟩ := (exact.mem_versions_committed fits).mp hv
    · have := exact.below v stored
      omega
    · have := (seq_of_mem_nextBatch room (mem_filter.mp hr).1).2
      show r.seq < _
      omega
  · exact exact.reader
  · rw [files_committed]
    simpa [Files.sync, Files.write] using exact.file
  · rw [heapOffset_committed, wrap64_of_lt fits.2, heap, ← tx.length_payloads]
    have := exact.heapEnd
    exact (Bytes.length_writeAt_le ..).trans (by omega)
  · obtain stored | ⟨r, hr, rfl⟩ := (exact.mem_versions_committed fits).mp hv
    · obtain ⟨value, read⟩ := exact.values v stored live
      rw [heap]
      exact ⟨value, readPointer_writeAt _ _ read exact.heapEnd⟩
    · obtain ⟨⟨key, op⟩, hop, realizes⟩ := exists_of_mem_left (exact.realizes_committed fits)
        (mem_map_of_mem (mem_filter.mp hr).1)
      cases op with
      | none => exact absurd (realizes.tombstone rfl) live
      | some w => exact ⟨w.value, (realizes.value w rfl).2.2⟩

variable {s s' : ℕ}

theorem stateAt_congr {e' : Engine} (exact' : e'.Exact) {key : Bytes}
    (newest : ∀ v, IsNewest e'.roots.versions key s' v ↔ IsNewest e.roots.versions key s v)
    (values : ∀ v ∈ e.roots.versions, ¬v.IsTombstone → ∀ value,
      readPointer e.heap v.pointer = .ok value → readPointer e'.heap v.pointer = .ok value)
    (now : UInt64) : e'.stateAt s' now key = e.stateAt s now key := by
  have found : e'.roots.find key s' = e.roots.find key s := by
    refine Option.ext fun v => ?_
    rw [exact'.ordered.readable.find_eq_some_iff, exact.ordered.readable.find_eq_some_iff]
    exact newest v
  rw [stateAt, stateAt, found]
  cases hit : e.roots.find key s with
  | none => rfl
  | some v =>
    simp only [Option.bind_some]
    split_ifs with dead
    · rfl
    · have member := (exact.ordered.readable.find_eq_some_iff.mp hit).mem
      have live := not_isTombstone_of_not_dead dead
      obtain ⟨value, read⟩ := exact.values v member live
      rw [read, values v member live value read]

theorem stateAt_of_versions {e' : Engine} (exact' : e'.Exact)
    (versions : e'.roots.versions = e.roots.versions) (heap : e'.heap = e.heap) (seq : ℕ)
    (now : UInt64) : e'.stateAt seq now = e.stateAt seq now := by
  funext key
  refine exact.stateAt_congr exact' (fun v => ?_) (fun v _ _ value read => ?_) now
  · rw [versions]
  · rw [heap]
    exact read

theorem stateAt_of_le (now : UInt64)
    (all : ∀ v ∈ e.roots.versions, v.seq ≤ s) (all' : ∀ v ∈ e.roots.versions, v.seq ≤ s') :
    e.stateAt s' now = e.stateAt s now := by
  funext key
  rw [stateAt, stateAt, exact.ordered.readable.find_of_le all all']

/-- All readers at or above the last version see the same. -/
theorem stateAt_latest (now : UInt64) (top : e.globalSeq ≤ s + 1)
    (top' : e.globalSeq ≤ s' + 1) : e.stateAt s' now = e.stateAt s now := by
  refine exact.stateAt_of_le now (fun v hv => ?_) fun v hv => ?_
  · have := exact.below v hv
    omega
  · have := exact.below v hv
    omega

theorem readPointer_committed (fits : e.Fits tx) {v : Version} {value : Bytes}
    (read : readPointer e.heap v.pointer = .ok value) :
    readPointer (e.committed tx).heap v.pointer = .ok value := by
  rw [exact.heap_committed, fits.wrap64_heapOffset]
  exact readPointer_writeAt _ _ read exact.heapEnd

/-- A commit changes nothing for readers below it. -/
theorem stateAt_committed_of_lt (fits : e.Fits tx) (earlier : s < e.globalSeq) (now : UInt64) :
    (e.committed tx).stateAt s now = e.stateAt s now := by
  have room := fits.room
  funext key
  have stored := fun {v} => exact.mem_versions_committed (v := v) fits
  have old : ∀ v ∈ (e.committed tx).roots.versions, v.seq ≤ s → v ∈ e.roots.versions := by
    intro v hv visible
    obtain old | ⟨r, hr, rfl⟩ := stored.mp hv
    · exact old
    · have := (seq_of_mem_nextBatch room (mem_filter.mp hr).1).1
      have visible : r.seq ≤ s := visible
      omega
  refine exact.stateAt_congr (exact.committed fits) (fun v => ⟨fun newest => ?_, fun newest => ?_⟩)
    (fun v _ _ value => exact.readPointer_committed fits) now
  · exact newest.anti (fun w hw => stored.mpr (.inl hw)) (old v newest.mem newest.seq_le)
  · exact newest.mono (fun w hw => stored.mpr (.inl hw)) fun w hw _ visible => old w hw visible

end Engine.Exact

omit [External] in
theorem exists_last_of_find?_reverse {α : Type*} {l : List α} {p : α → Bool} {a : α}
    (found : l.reverse.find? p = some a) :
    p a ∧ ∃ i : ℕ, l[i]? = some a ∧ ∀ (j : ℕ) b, l[j]? = some b → p b → j ≤ i := by
  obtain ⟨holds, late, early, split, none⟩ := find?_eq_some_iff_append.mp found
  have parts : l = early.reverse ++ a :: late.reverse := by
    simpa using congrArg List.reverse split
  refine ⟨holds, early.length, by simp [parts], fun j b here ok => ?_⟩
  by_contra later
  rw [parts, getElem?_append_right (by simp; omega), length_reverse] at here
  obtain ⟨n, hn⟩ : ∃ n, j - early.length = n + 1 := ⟨j - early.length - 1, by omega⟩
  rw [hn] at here
  have member : b ∈ late := mem_reverse.mp (mem_of_getElem? here)
  simpa [ok] using none b member

namespace Engine.Exact

variable {e : Engine} {tx : WriteBatch}

section

variable (exact : e.Exact) (fits : e.Fits tx)

include exact fits

theorem numbered {i : ℕ} (bound : i < tx.opCount) :
    ∃ r op, (e.nextBatch tx).records[i]? = some r ∧ tx.ops[i]? = some op ∧
      r.seq = e.globalSeq + i ∧ Realizes (e.committed tx).heap r.version op := by
  obtain ⟨length, realizes⟩ := forall₂_iff_get.mp (exact.realizes_committed fits)
  have ops : tx.ops.length = tx.opCount := by simp [ops, opCount]
  rw [length_map, ops] at length
  have seqs : (e.nextBatch tx).records.map OmniRecord.seq = List.range' e.globalSeq tx.opCount :=
    seq_userRecords (by have := fits.1; omega)
  have seq := congrArg (·[i]?) seqs
  simp only [getElem?_map, getElem?_range' bound, getElem?_eq_getElem (length.symm ▸ bound)] at seq
  refine ⟨_, _, getElem?_eq_getElem (length.symm ▸ bound), getElem?_eq_getElem (ops.symm ▸ bound),
    ?_, ?_⟩
  · simpa using seq
  · simpa using realizes i (by simpa [length] using bound) (ops.symm ▸ bound)

theorem record_of_op {i : ℕ} {op : Bytes × Option Write} (here : tx.ops[i]? = some op) :
    ∃ r ∈ (e.nextBatch tx).records, r.seq = e.globalSeq + i ∧
      Realizes (e.committed tx).heap r.version op := by
  have bound : i < tx.opCount := by
    have := (List.getElem?_eq_some_iff.mp here).1
    simpa [ops, opCount] using this
  obtain ⟨r, op', record, same, seq, realizes⟩ := exact.numbered fits bound
  obtain rfl := Option.some.inj (here.symm.trans same)
  exact ⟨r, List.mem_of_getElem? record, seq, realizes⟩

theorem op_of_record {r : OmniRecord} (member : r ∈ (e.nextBatch tx).records) :
    ∃ (i : ℕ) (op : Bytes × Option Write), tx.ops[i]? = some op ∧ r.seq = e.globalSeq + i ∧
      Realizes (e.committed tx).heap r.version op := by
  obtain ⟨i, bound, rfl⟩ := getElem_of_mem member
  have bound' : i < tx.opCount := by
    simpa [nextBatch, logBatch] using bound
  obtain ⟨r, op, record, here, seq, realizes⟩ := exact.numbered fits bound'
  obtain rfl := Option.some.inj ((getElem?_eq_getElem bound).symm.trans record)
  exact ⟨i, op, here, seq, realizes⟩

variable {s : ℕ}

/-- The newest version of a key after a commit is the record of its last operation. -/
theorem isNewest_committed {key : Bytes} (user : key ≠ commitMarkerKey)
    {op : Bytes × Option Write} (last : (tx.ops.reverse.find? fun op => op.1 = key) = some op)
    (later : e.globalSeq + tx.opCount ≤ s + 1) :
    ∃ r ∈ e.newRecords tx, IsNewest (e.committed tx).roots.versions key s r.version ∧
      Realizes (e.committed tx).heap r.version op := by
  have room := fits.room
  have stored := fun {v} => exact.mem_versions_committed (v := v) fits
  obtain ⟨hk, i, here, greatest⟩ := exists_last_of_find?_reverse last
  obtain ⟨r, hr, seq, realizes⟩ := exact.record_of_op fits here
  have bound := (seq_of_mem_nextBatch room hr).2
  have hk : op.1 = key := of_decide_eq_true hk
  have new : r ∈ e.newRecords tx :=
    mem_filter.mpr ⟨hr, decide_eq_true ((realizes.key.trans hk).trans_ne user)⟩
  refine ⟨r, new, ⟨stored.mpr (.inr ⟨r, new, rfl⟩), realizes.key.trans hk, ?_,
    fun v hv hkv _ => ?_⟩, realizes⟩
  · show r.seq ≤ s
    omega
  · show v.seq ≤ r.seq
    obtain old | ⟨r', hr', rfl⟩ := stored.mp hv
    · have := exact.below v old
      omega
    · obtain ⟨j, op', there, seq', realizes'⟩ := exact.op_of_record fits (mem_filter.mp hr').1
      have le := greatest j op' there (decide_eq_true (realizes'.key.symm.trans hkv))
      show r'.seq ≤ r.seq
      omega

/-- A commit takes effect at a key for readers at or above its last record. -/
theorem stateAt_committed_apply {key : Bytes} (user : ∀ op ∈ tx.ops, op.1 = key →
    key ≠ commitMarkerKey) (later : e.globalSeq + tx.opCount ≤ s + 1) (now : UInt64) :
    (e.committed tx).stateAt s now key = tx.effect now (e.stateAt (e.globalSeq - 1) now) key := by
  have exact' := exact.committed fits
  have stored := fun {v} => exact.mem_versions_committed (v := v) fits
  rw [effect]
  cases last : tx.ops.reverse.find? fun op => op.1 = key with
  | none =>
    -- No record has the key.
    have old : ∀ v ∈ (e.committed tx).roots.versions, v.key = key → v ∈ e.roots.versions := by
      intro v hv hk
      refine (stored.mp hv).resolve_right ?_
      rintro ⟨r, hr, rfl⟩
      obtain ⟨i, op, here, -, realizes⟩ := exact.op_of_record fits (mem_filter.mp hr).1
      have member := mem_reverse.mpr (mem_of_getElem? here)
      have other : op.1 ≠ key := by simpa using find?_eq_none.mp last op member
      exact other (realizes.key.symm.trans hk)
    rw [exact.stateAt_latest now (s := s) (by omega) (by omega)]
    refine exact.stateAt_congr exact' (fun v => ⟨fun newest => ?_, fun newest => ?_⟩)
      (fun v _ _ value => exact.readPointer_committed fits) now
    · exact newest.anti (fun w hw => stored.mpr (.inl hw)) (old v newest.mem newest.key_eq)
    · exact newest.mono (fun w hw => stored.mpr (.inl hw)) fun w hw hk _ => old w hw hk
  | some op =>
    have named : op.1 = key := by simpa using find?_some last
    have member : op ∈ tx.ops := mem_reverse.mp (mem_of_find?_eq_some last)
    obtain ⟨r, -, newest, realizes⟩ := exact.isNewest_committed fits (user op member named) last
      later
    rw [stateAt, exact'.ordered.readable.find_eq_some_iff.mpr newest, Option.bind_some]
    obtain ⟨opKey, op⟩ := op
    cases op with
    | none =>
      have tombstone : r.length = 0 := realizes.tombstone rfl
      exact if_pos (by simp [Version.dead, OmniRecord.version, OmniRecord.pointer, tombstone])
    | some w =>
      obtain ⟨live, expiry, read⟩ := realizes.value w rfl
      have dead : r.version.dead now = (0 < w.expiry && w.expiry ≤ now) := by
        have live : r.version.pointer.length ≠ 0 := live
        simp [Version.dead, live, expiry]
      rw [dead, read]
      rfl

end

/-- A commit takes effect for readers at or above its last record. -/
theorem stateAt_committed (exact : e.Exact) (keys : ∀ op ∈ tx.ops, op.1 ≠ commitMarkerKey)
    (fits : e.Fits tx) (later : e.globalSeq + tx.opCount ≤ s + 1) (now : UInt64) :
    (e.committed tx).stateAt s now = tx.effect now (e.stateAt (e.globalSeq - 1) now) :=
  funext fun _ => exact.stateAt_committed_apply fits (fun op member same => same ▸ keys op member)
    later now

/-- A commit has its effect on the current state. -/
theorem current_committed (exact : e.Exact) (keys : ∀ op ∈ tx.ops, op.1 ≠ commitMarkerKey)
    (fits : e.Fits tx) (now : UInt64) :
    (e.committed tx).current now = tx.effect now (e.current now) := by
  have counter := globalSeq_committed_of_lt fits.1
  have before : e.current now = e.stateAt (e.globalSeq - 1) now :=
    exact.stateAt_latest now (by omega) (by omega)
  rw [before, current]
  exact exact.stateAt_committed keys fits (by omega) now

end Engine.Exact

namespace Engine.Serving

variable {e : Engine} {tx : WriteBatch} {r : OmniRecord}

section

variable (fits : e.Fits tx) (member : r ∈ (e.nextBatch tx).records) (live : ¬r.version.IsTombstone)

include fits member live

theorem mem_setRecords_of_live :
    r ∈ setRecords (wrap64 e.globalSeq) e.heapOffset tx.prepped := by
  have member : r ∈ tx.userRecords e.globalSeq e.heapOffset := member
  rw [userRecords, fits.wrap64_heapOffset] at member
  refine (mem_append.mp member).resolve_right fun delete => live ?_
  exact isTombstone_of_mem_deleteRecords delete

theorem le_offset_nextBatch : e.heapOffset ≤ r.offset :=
  le_offset_setRecords fits.2 (mem_setRecords_of_live fits member live)

end

variable (nonempty : ∀ w ∈ tx.bufferedWrites, w.value ≠ [])

include nonempty

theorem filled_prepped : ∀ p ∈ tx.prepped, 0 < storedLength p.length := by
  intro p member
  obtain ⟨w, hw, rfl⟩ := mem_map.mp member
  exact storedLength_prepWrite_pos (tx.values w hw) (nonempty w hw)

theorem eq_of_offset_nextBatch (fits : e.Fits tx) {r' : OmniRecord}
    (member : r ∈ (e.nextBatch tx).records) (member' : r' ∈ (e.nextBatch tx).records)
    (live : ¬r.version.IsTombstone) (live' : ¬r'.version.IsTombstone)
    (same : r.offset = r'.offset) : r = r' := by
  have nodup :
      ((setRecords (wrap64 e.globalSeq) e.heapOffset tx.prepped).map OmniRecord.offset).Nodup :=
    pairwise_map.mpr ((pairwise_offset_setRecords (filled_prepped nonempty) fits.2).imp
      fun less => less.ne)
  exact inj_on_of_nodup_map nodup (mem_setRecords_of_live fits member live)
    (mem_setRecords_of_live fits member' live') same

theorem filled_nextBatch (member : r ∈ (e.nextBatch tx).records) (live : ¬r.version.IsTombstone) :
    0 < storedLength r.length := by
  rcases mem_append.mp (show r ∈ tx.userRecords e.globalSeq e.heapOffset from member) with
    set | delete
  · obtain ⟨p, hp, same⟩ := exists_prepped_of_mem_setRecords set
    rw [same]
    exact filled_prepped nonempty p hp
  · exact absurd (isTombstone_of_mem_deleteRecords delete) live

theorem committed (serving : e.Serving) (fits : e.Fits tx) : (e.committed tx).Serving := by
  have exact := serving.exact.committed fits
  have stored : ∀ v ∈ (e.committed tx).roots.versions,
      v ∈ e.roots.versions ∨ ∃ r ∈ (e.nextBatch tx).records, r.version = v := fun v hv =>
    ((serving.exact.mem_versions_committed fits).mp hv).imp_right fun ⟨r, hr, same⟩ =>
      ⟨r, (mem_filter.mp hr).1, same⟩
  have heapOffset : (e.committed tx).heapOffset = e.heapOffset + tx.totalHeapBytes := by
    rw [heapOffset_committed, wrap64_of_lt fits.2]
  refine ⟨exact.ordered, exact.below, exact.reader, exact.file, exact.heapEnd,
    fun v hv live => ⟨?_, exact.values v hv live⟩, fun v hv w hw live live' same => ?_,
    fun offset bytes hit => ?_⟩
  · obtain old | ⟨r, hr, rfl⟩ := stored v hv
    · exact (serving.values v old live).1
    · exact filled_nextBatch nonempty hr live
  · rcases stored v hv with old | ⟨r, hr, rfl⟩ <;> rcases stored w hw with old' | ⟨r', hr', rfl⟩
    · exact serving.apart v old w old' live live' same
    · have low := serving.offset_lt old live
      have high := le_offset_nextBatch fits hr' live'
      have same : v.pointer.offset = r'.offset := same
      omega
    · have low := serving.offset_lt old' live'
      have high := le_offset_nextBatch fits hr live
      have same : r.offset = w.pointer.offset := same
      omega
    · rw [eq_of_offset_nextBatch nonempty fits hr hr' live live' same]
  · have hit : e.blockCache offset = some bytes := hit
    obtain ⟨bound, right⟩ := serving.cached offset bytes hit
    refine ⟨by omega, fun v hv live here => ?_⟩
    obtain old | ⟨r, hr, rfl⟩ := stored v hv
    · exact serving.exact.readPointer_committed fits (right v old live here)
    · have high := le_offset_nextBatch fits hr live
      have here : r.offset = offset := here
      omega

end Engine.Serving

end

end OmniKV
