import OmniKV.Raft.SnapshotContents

/-!
# The round trip of a snapshot

The scan for a snapshot ends at the character `U+10FFFF` and at the first value that cannot be read,
and an entry of a snapshot has no expiry. The receiver shows what the sender shows just when none of
this matters.
-/

namespace OmniKV

open List Engine
open Relation (ReflTransGen)
open Bytes (ofString)
open KvState

section

variable [External]

namespace Engine

/-- What a client gets for a key. -/
def lookup (e : Engine) (key : Bytes) (now : UInt64) : Except OmniError (Option Bytes) :=
  (e.find key e.globalSeq now).1

def sentEntry (e : Engine) (now : UInt64) (v : Version) : Option (Bytes × Bytes) :=
  if v.dead now then none else (e.readFromHeap v.pointer).1.toOption.map (v.key, ·)

variable {e : Engine}

theorem lookup_of_none {key : Bytes} (missing : e.roots.find key e.globalSeq = none)
    (t : UInt64) : e.lookup key t = .ok none := by
  rw [lookup, find, missing]

theorem lookup_of_some {key : Bytes} {v : Version} (found : e.roots.find key e.globalSeq = some v)
    (t : UInt64) :
    e.lookup key t = if v.dead t then .ok none else (e.readFromHeap v.pointer).1.map some := by
  rw [lookup, find, found]
  by_cases dead : v.dead t <;> simp [dead]

theorem fst_readFromHeap (e : Engine) (p : ValuePointer) :
    (e.readFromHeap p).1 = ((e.blockCache p.offset).map .ok).getD (readPointer e.heap p) := by
  rw [readFromHeap]
  cases e.blockCache p.offset with
  | some bytes => rfl
  | none => cases read : readPointer e.heap p <;> rfl

/-- A read does not change what is read elsewhere. -/
theorem readFromHeap_readFromHeap (e : Engine) {p q : ValuePointer} (apart : q.offset = p.offset →
    q = p) : ((e.readFromHeap p).2.readFromHeap q).1 = (e.readFromHeap q).1 := by
  cases hit : e.blockCache p.offset with
  | some bytes => simp [readFromHeap, hit]
  | none =>
    cases read : readPointer e.heap p with
    | error err => simp [readFromHeap, hit, read]
    | ok value =>
      have cache : (e.readFromHeap p).2.blockCache =
          Function.update e.blockCache p.offset (some value) := by
        simp [readFromHeap, hit, read]
      rw [fst_readFromHeap, fst_readFromHeap, cache, heap_of_sameData (sameData_readFromHeap e p)]
      by_cases same : q.offset = p.offset
      · obtain rfl := apart same
        rw [Function.update_self, hit, read]
        rfl
      · rw [Function.update_of_ne same]

theorem scanIter_eq {now : UInt64} {vs : List Version} (apart : ∀ v ∈ vs, ∀ w ∈ vs, ¬v.IsTombstone →
    ¬w.IsTombstone → v.pointer.offset = w.pointer.offset → v.pointer = w.pointer)
    (readable : ∀ v ∈ vs, ¬v.dead now → ∃ value, (e.readFromHeap v.pointer).1 = .ok value) :
    (scanIter now vs e).1 = vs.filterMap (e.sentEntry now) := by
  induction vs generalizing e with
  | nil => rfl
  | cons v vs ih =>
    have apartRest : ∀ v ∈ vs, ∀ w ∈ vs, ¬v.IsTombstone → ¬w.IsTombstone →
        v.pointer.offset = w.pointer.offset → v.pointer = w.pointer := fun v hv w hw =>
      apart v (.tail _ hv) w (.tail _ hw)
    obtain ⟨first, rest⟩ := forall_mem_cons.mp readable
    rw [scanIter]
    split_ifs with dead
    · have skip : e.sentEntry now v = none := if_pos dead
      rw [filterMap_cons_none skip]
      exact ih apartRest rest
    · obtain ⟨value, read⟩ := first dead
      have live := not_isTombstone_of_not_dead dead
      -- The other versions read as before.
      have again : ∀ w ∈ vs, ¬w.dead now →
          ((e.readFromHeap v.pointer).2.readFromHeap w.pointer).1 =
          (e.readFromHeap w.pointer).1 := by
        intro w hw alive
        refine e.readFromHeap_readFromHeap fun same => ?_
        exact apart w (.tail _ hw) v (.head _) (not_isTombstone_of_not_dead alive) live same
      have entries : vs.filterMap ((e.readFromHeap v.pointer).2.sentEntry now) =
          vs.filterMap (e.sentEntry now) := by
        refine filterMap_congr fun w hw => ?_
        rw [sentEntry, sentEntry]
        split_ifs with gone
        · rfl
        · rw [again w hw gone]
      have loop := ih apartRest fun w hw alive => by
        rw [again w hw alive]
        exact rest w hw alive
      have shown : e.sentEntry now v = some (v.key, value) := by
        rw [sentEntry, if_neg dead, read]
        rfl
      rw [filterMap_cons_some shown, ← entries, ← loop]
      cases step : e.readFromHeap v.pointer with
      | mk result e' =>
        rw [step] at read
        obtain rfl : result = .ok value := read
        rfl

end Engine

namespace RaftNode

def visibleEntries (n : RaftNode) (now : UInt64) : List (Bytes × Bytes) :=
  (n.db.allLatestInternal.filterMap (n.db.sentEntry now)).filter fun entry => !isRaftKey entry.1

/-- A node that installs a snapshot shows what the builder shows, and none is built if some value
cannot be read. -/
def RoundTrip (n : RaftNode) (now : UInt64) : Prop :=
  (∀ snapshot, (n.buildSnapshot now).1 = .ok snapshot →
    ∀ (m : RaftNode) (metaJson : Bytes) (token : ℕ),
    metaJson.length ≤ maxValueSize → ∃ m', m.installSnapshot snapshot metaJson token = .ok m' ∧
      ∀ t, now ≤ t → ∀ key, isRaftKey key = false → m'.db.lookup key t = n.db.lookup key t) ∧
  ∀ key err, n.db.lookup key now = .error err → ∃ err', (n.buildSnapshot now).1 = .error err'

def Readable (n : RaftNode) (now : UInt64) : Prop :=
  ∀ key v, n.db.roots.find key n.db.globalSeq = some v → ¬v.dead now →
    ∃ value, (n.db.readFromHeap v.pointer).1 = .ok value

/-- All visible values can be read; those of the users are within the limits of a snapshot. -/
structure Portable (n : RaftNode) (now : UInt64) : Prop where
  readable : ∀ key v, n.db.roots.find key n.db.globalSeq = some v → ¬v.dead now →
    ∃ value, (n.db.readFromHeap v.pointer).1 = .ok value ∧
    (isRaftKey key = false → value.length ≤ maxValueSize)
  lasting : ∀ key v, n.db.roots.find key n.db.globalSeq = some v → ¬v.dead now →
    isRaftKey key = false → v.pointer.expiry = 0
  scanned : ∀ key v, n.db.roots.find key n.db.globalSeq = some v → ¬v.dead now →
    isRaftKey key = false → key ≤ lastScannedKey

/-- The visible entries fit in a temporary database, and the counter is not below their numbers
there. -/
structure Transferable (n : RaftNode) (now : UInt64) : Prop where
  size : entriesTableSize (n.visibleEntries now) + 59 < 2 ^ 64
  heap : entriesHeapSize (n.visibleEntries now) < 2 ^ 63
  covered : (n.visibleEntries now).length +
  (n.visibleEntries now).length / maxBatchSize ≤ n.db.globalSeq
  counter : n.db.globalSeq + 7 < 2 ^ 64

variable {n : RaftNode} {now : UInt64} {e : Engine}

structure Indexed (n : RaftNode) (e : Engine) : Prop where
  settled : e.Settled
  roots : n.db.roots = e.roots
  counter : n.db.globalSeq = e.globalSeq

namespace Indexed

variable {v : Version} (indexed : n.Indexed e)

include indexed

theorem mem_versions {key : Bytes}
    (found : n.db.roots.find key n.db.globalSeq = some v) : v ∈ e.roots.versions ∧ v.key = key := by
  rw [indexed.roots] at found
  have newest := indexed.settled.serving.ordered.readable.find_eq_some_iff.mp found
  exact ⟨newest.mem, newest.key_eq⟩

theorem mem_allLatestInternal : v ∈ n.db.allLatestInternal ↔
      v.key ≤ lastScannedKey ∧ n.db.roots.find v.key n.db.globalSeq = some v := by
  have readable := indexed.settled.serving.ordered.readable
  have below := indexed.settled.serving.below
  have bound := indexed.settled.consistent.bound
  have all : ∀ v ∈ e.roots.versions, v.seq ≤ 2 ^ 64 - 1 := by
    intro v hv
    have := below v hv
    omega
  rw [allLatestInternal, indexed.roots, readable.mem_scan, indexed.counter,
    readable.find_of_le (fun v hv => (below v hv).le) all]
  exact and_iff_right (not_lt.mp (not_lt_nil _))

theorem keys (member : v ∈ e.roots.versions) : v.key.length ≤ 65535 ∧ v.key ≠ commitMarkerKey := by
  refine ⟨?_, indexed.settled.plain v member⟩
  have wf := indexed.settled.consistent.toWellFormed
  have short : v.key.length < 2 ^ 16 := by
    obtain ⟨m, hm, hv⟩ | ⟨t, ht, hv⟩ := StorageRoots.mem_versions.mp member
    · exact (wf.memtables m hm v hv).1.key
    · exact (wf.fits_of_mem_versions ht hv).key
  omega

theorem apart : ∀ v ∈ n.db.allLatestInternal, ∀ w ∈ n.db.allLatestInternal,
    ¬v.IsTombstone → ¬w.IsTombstone → v.pointer.offset = w.pointer.offset →
      v.pointer = w.pointer := by
  intro v hv w hw
  exact indexed.settled.serving.apart v
    (indexed.mem_versions (indexed.mem_allLatestInternal.mp hv).2).1
    w (indexed.mem_versions (indexed.mem_allLatestInternal.mp hw).2).1

/-- What is sent for a key. -/
theorem mem_visibleEntries {entry : Bytes × Bytes} :
    entry ∈ n.visibleEntries now ↔ isRaftKey entry.1 = false ∧ entry.1 ≤ lastScannedKey ∧
      ∃ v, n.db.roots.find entry.1 n.db.globalSeq = some v ∧ ¬v.dead now ∧
        (n.db.readFromHeap v.pointer).1 = .ok entry.2 := by
  rw [visibleEntries, mem_filter, mem_filterMap]
  constructor
  · rintro ⟨⟨v, hv, sent⟩, other⟩
    obtain ⟨scanned, found⟩ := indexed.mem_allLatestInternal.mp hv
    rw [sentEntry] at sent
    split_ifs at sent with dead
    obtain ⟨value, read, rfl⟩ := Option.map_eq_some_iff.mp sent
    exact ⟨by simpa using other, scanned, v, found, dead, eq_ok_of_toOption read⟩
  · rintro ⟨other, scanned, v, found, alive, read⟩
    have hkey := (indexed.mem_versions found).2
    rw [← hkey] at scanned found
    refine ⟨⟨v, indexed.mem_allLatestInternal.mpr ⟨scanned, found⟩, ?_⟩, by simpa using other⟩
    rw [sentEntry, if_neg alive, read, hkey]
    rfl

omit e indexed in
/-- Every key is sent once. -/
theorem nodup_visibleEntries (n : RaftNode) (now : UInt64) :
    ((n.visibleEntries now).map Prod.fst).Nodup := by
  have sorted : n.db.allLatestInternal.Pairwise fun v w => v.key < w.key :=
    StorageRoots.pairwise_scan _ _ _ _
  have keys : ∀ v entry, n.db.sentEntry now v = some entry → entry.1 = v.key := by
    intro v entry sent
    rw [sentEntry] at sent
    split_ifs at sent
    obtain ⟨value, -, rfl⟩ := Option.map_eq_some_iff.mp sent
    rfl
  refine pairwise_map.mpr (List.Pairwise.filter _ (sorted.filterMap _ ?_))
  intro v w less entry sent entry' sent'
  rw [keys v entry sent, keys w entry' sent']
  exact less.ne

theorem buildSnapshot_eq {lastApplied : LogId} (applied : n.state.lastApplied = some lastApplied)
    (readable : n.Readable now) :
    ∃ snapshot, (n.buildSnapshot now).1 = .ok snapshot ∧ snapshot.version = snapshotVersion ∧
      snapshot.maxSeq = n.db.globalSeq ∧ snapshot.entries = n.visibleEntries now := by
  have scan : (scanIter now n.db.allLatestInternal n.db).1 =
      n.db.allLatestInternal.filterMap (n.db.sentEntry now) := by
    refine scanIter_eq indexed.apart fun v hv alive => ?_
    exact readable v.key v (indexed.mem_allLatestInternal.mp hv).2 alive
  rw [buildSnapshot, buildFrom, applied]
  refine ⟨_, rfl, rfl, rfl, ?_⟩
  rw [visibleEntries, ← scan]

theorem loadable (fits : n.Transferable now)
    (small : ∀ entry ∈ n.visibleEntries now, entry.2.length ≤ maxValueSize) {metaJson : Bytes}
    (smallMeta : metaJson.length ≤ maxValueSize) :
    Loadable (n.visibleEntries now ++ [(raftMetaKey, metaJson)]) where
  keys entry member := by
    obtain sent | last := mem_append.mp member
    · obtain ⟨-, -, v, found, -⟩ := indexed.mem_visibleEntries.mp sent
      obtain ⟨stored, hkey⟩ := indexed.mem_versions found
      exact hkey ▸ indexed.keys stored
    · rw [mem_singleton.mp last]
      exact (by decide : raftMetaKey.length ≤ 65535 ∧ raftMetaKey ≠ commitMarkerKey)
  values entry member := by
    obtain sent | last := mem_append.mp member
    · exact small entry sent
    · exact (mem_singleton.mp last).symm ▸ smallMeta
  distinct := by
    rw [map_append]
    refine List.Nodup.append (nodup_visibleEntries n now) (nodup_singleton _) ?_
    intro key member last
    obtain ⟨entry, sent, rfl⟩ := mem_map.mp member
    have other := (indexed.mem_visibleEntries.mp sent).1
    rw [mem_singleton.mp last] at other
    exact absurd other (by decide : isRaftKey raftMetaKey ≠ false)
  count := by
    have covered : (n.visibleEntries now).length + (n.visibleEntries now).length / 10000 ≤
      n.db.globalSeq := fits.covered
    have counter := fits.counter
    rw [length_append]
    show (n.visibleEntries now).length + 1 + ((n.visibleEntries now).length + 1) / 10000 + 5 <
      2 ^ 64
    omega
  size := by
    rw [entriesTableSize, map_append, sum_append, map_singleton, sum_singleton,
      show raftMetaKey.length = 17 by decide]
    exact fits.size
  heap := by
    have last : (prepWrite ⟨raftMetaKey, metaJson, 0⟩).bytes.length < 2 ^ 63 := by
      rw [← storedLength_prepWrite smallMeta]
      exact Nat.mod_lt _ (Nat.two_pow_pos 63)
    have heap := fits.heap
    rw [entriesHeapSize, map_append, sum_append, map_singleton, sum_singleton, ← entriesHeapSize]
    show _ + (prepWrite ⟨raftMetaKey, metaJson, 0⟩).bytes.length < 2 ^ 64
    omega

theorem exists_installSnapshot (fits : n.Transferable now)
    (small : ∀ entry ∈ n.visibleEntries now,
    entry.2.length ≤ maxValueSize) {snapshot : NodeSnapshot}
    (version : snapshot.version = snapshotVersion) (maxSeq : snapshot.maxSeq = n.db.globalSeq)
    (entries : snapshot.entries = n.visibleEntries now) (m : RaftNode) {metaJson : Bytes}
    (smallMeta : metaJson.length ≤ maxValueSize) (token : ℕ) :
    ∃ m', m.installSnapshot snapshot metaJson token = .ok m' ∧ ∀ t key, isRaftKey key = false →
      m'.db.lookup key t = .ok (nothing.setAll (n.visibleEntries now) key) := by
  have loadable := indexed.loadable fits small smallMeta
  rw [← entries] at loadable
  have counter := fits.counter
  have covered := fits.covered
  obtain ⟨db, done, shown⟩ := m.db.exists_installSnapshot version loadable
    (by omega) (by rw [entries]; omega) token
  refine ⟨_, by rw [installSnapshot, done]; rfl, fun t key other => ?_⟩
  have notMeta : ∀ entry ∈ [(raftMetaKey, metaJson)], entry.1 ≠ key := by
    rintro entry member rfl
    rw [mem_singleton.mp member] at other
    exact absurd other (by decide : isRaftKey raftMetaKey ≠ false)
  show (db.find key db.globalSeq t).1 = _
  rw [shown, setAll_append, setAll_of_not_mem _ notMeta, entries]

end Indexed

theorem roundTrip_of_portable (indexed : n.Indexed e) (fits : n.Transferable now)
    (portable : n.Portable now) : n.RoundTrip now := by
  have readable : n.Readable now := fun key v found alive =>
    (portable.readable key v found alive).imp fun _ read => read.1
  have small : ∀ entry ∈ n.visibleEntries now, entry.2.length ≤ maxValueSize := by
    intro entry sent
    obtain ⟨other, -, v, found, alive, read⟩ := indexed.mem_visibleEntries.mp sent
    obtain ⟨value, read', bound⟩ := portable.readable _ v found alive
    obtain rfl := Except.ok.inj (read.symm.trans read')
    exact bound other
  constructor
  · intro snapshot built m metaJson token smallMeta
    cases applied : n.state.lastApplied with
    | none =>
      rw [buildSnapshot, buildFrom, applied] at built
      cases built
    | some lastApplied =>
      obtain ⟨snapshot', built', version, maxSeq, entries⟩ :=
        indexed.buildSnapshot_eq applied readable
      obtain rfl := Except.ok.inj (built'.symm.trans built)
      obtain ⟨m', installed, shown⟩ :=
        indexed.exists_installSnapshot fits small version maxSeq entries m smallMeta token
      refine ⟨m', installed, fun t later key other => ?_⟩
      rw [shown t key other]
      cases found : n.db.roots.find key n.db.globalSeq with
      | none =>
        rw [lookup_of_none found, setAll_of_not_mem]
        · rfl
        · rintro entry sent rfl
          obtain ⟨-, -, v, found', -⟩ := indexed.mem_visibleEntries.mp sent
          cases found.symm.trans found'
      | some v =>
        rw [lookup_of_some found]
        by_cases dead : v.dead now
        · -- Not sent, and still dead later.
          rw [if_pos (Version.dead_mono later dead), setAll_of_not_mem]
          · rfl
          · rintro entry sent rfl
            obtain ⟨-, -, v', found', alive, -⟩ := indexed.mem_visibleEntries.mp sent
            obtain rfl := Option.some.inj (found.symm.trans found')
            exact alive dead
        · have lasting := portable.lasting key v found dead other
          have alive : ¬v.dead t := by
            simpa [Version.dead, lasting] using dead
          obtain ⟨value, read⟩ := readable key v found dead
          have sent : (key, value) ∈ n.visibleEntries now := indexed.mem_visibleEntries.mpr
            ⟨other, portable.scanned key v found dead other, v, found, dead, read⟩
          rw [if_neg alive, read, setAll_of_mem _ (Indexed.nodup_visibleEntries n now) sent]
          rfl
  · intro key err failed
    cases found : n.db.roots.find key n.db.globalSeq with
    | none =>
      rw [lookup_of_none found] at failed
      cases failed
    | some v =>
      rw [lookup_of_some found] at failed
      split_ifs at failed with dead
      obtain ⟨value, read⟩ := readable key v found dead
      rw [read] at failed
      cases failed

theorem portable_of_roundTrip (indexed : n.Indexed e) (fits : n.Transferable now)
    {lastApplied : LogId}
    (applied : n.state.lastApplied = some lastApplied) (roundTrip : n.RoundTrip now) :
    n.Portable now := by
  obtain ⟨received, complete⟩ := roundTrip
  -- A snapshot is built, so every visible value can be read.
  have readable : n.Readable now := by
    intro key v found alive
    cases read : (n.db.readFromHeap v.pointer).1 with
    | ok value => exact ⟨value, rfl⟩
    | error err =>
      obtain ⟨err', failed⟩ := complete key err (by
        rw [lookup_of_some found, if_neg alive, read]
        rfl)
      rw [buildSnapshot, buildFrom, applied] at failed
      cases failed
  obtain ⟨snapshot, built, version, maxSeq, entries⟩ := indexed.buildSnapshot_eq applied readable
  obtain ⟨m', installed, same⟩ := received snapshot built n [] 0 (Nat.zero_le _)
  have small : ∀ entry ∈ n.visibleEntries now, entry.2.length ≤ maxValueSize := by
    rw [← entries]
    obtain ⟨db, done, -⟩ := Except.bind_eq_ok installed
    exact length_of_installSnapshot done
  obtain ⟨m'', installed', shown⟩ :=
    indexed.exists_installSnapshot fits small version maxSeq entries n
      (show ([] : Bytes).length ≤ maxValueSize from Nat.zero_le _) 0
  obtain rfl := Except.ok.inj (installed'.symm.trans installed)
  have scanned : ∀ key v, n.db.roots.find key n.db.globalSeq = some v → ¬v.dead now →
      isRaftKey key = false → key ≤ lastScannedKey := by
    intro key v found alive other
    by_contra beyond
    obtain ⟨value, read⟩ := readable key v found alive
    have missing := same now (UInt64.le_refl now) key other
    rw [shown now key other, setAll_of_not_mem, lookup_of_some found, if_neg alive, read] at missing
    · cases missing
    · rintro entry sent rfl
      exact beyond (indexed.mem_visibleEntries.mp sent).2.1
  have sent : ∀ key v, n.db.roots.find key n.db.globalSeq = some v → ¬v.dead now →
      isRaftKey key = false → ∃ value, (n.db.readFromHeap v.pointer).1 = .ok value ∧
        (key, value) ∈ n.visibleEntries now := by
    intro key v found alive other
    obtain ⟨value, read⟩ := readable key v found alive
    exact ⟨value, read, indexed.mem_visibleEntries.mpr
      ⟨other, scanned key v found alive other, v, found, alive, read⟩⟩
  refine ⟨fun key v found alive => ?_, fun key v found alive other => ?_, scanned⟩
  · obtain ⟨value, read⟩ := readable key v found alive
    refine ⟨value, read, fun other => ?_⟩
    obtain ⟨value', read', member⟩ := sent key v found alive other
    obtain rfl := Except.ok.inj (read.symm.trans read')
    exact small _ member
  · -- At its expiry the value is gone at the sender, but not at the receiver.
    by_contra expires
    obtain ⟨value, -, member⟩ := sent key v found alive other
    have pos : 0 < v.pointer.expiry := UInt64.pos_iff_ne_zero.mpr expires
    have later : now ≤ v.pointer.expiry := by
      refine UInt64.le_of_lt (UInt64.not_le.mp fun reached => alive ?_)
      simp [Version.dead, pos, reached]
    have gone : v.dead v.pointer.expiry := by
      simp [Version.dead, pos]
    have late := same v.pointer.expiry later key other
    rw [shown _ key other, setAll_of_mem _ (Indexed.nodup_visibleEntries n now) member,
      lookup_of_some found, if_pos gone] at late
    cases late

/-- A snapshot of a store from a safe run makes the round trip if and only if nothing is applied yet
or the visible state is portable. -/
theorem roundTrip_iff {e₀ : Engine} (start : openDb .empty = .ok e₀)
    (run : ReflTransGen (Run.SafeStep Engine.Safe next) e₀ e) (roots : n.db.roots = e.roots)
    (counter : n.db.globalSeq = e.globalSeq) (fits : n.Transferable now) :
    n.RoundTrip now ↔ n.state.lastApplied = none ∨ n.Portable now := by
  have indexed : n.Indexed e := ⟨settled_of_run start run, roots, counter⟩
  constructor
  · intro roundTrip
    cases applied : n.state.lastApplied with
    | none => exact .inl rfl
    | some lastApplied => exact .inr (portable_of_roundTrip indexed fits applied roundTrip)
  · intro condition
    obtain fresh | portable := condition
    · have refused :
          (n.buildSnapshot now).1 = .error (.ioError "Cannot snapshot empty state machine") := by
        rw [buildSnapshot, buildFrom, fresh]
      refine ⟨fun snapshot built => ?_, fun _ _ _ => ⟨_, refused⟩⟩
      cases refused.symm.trans built
    · exact roundTrip_of_portable indexed fits portable

end RaftNode

end

namespace RaftNode

open Reference

/-- The batch that sets `k` to `v` until time 10. -/
def sampleExpiring : WriteBatch where
  bufferedWrites := [⟨ofString "k", ofString "v", 10⟩]
  bufferedDeletes := []
  count := by decide
  values := by decide

def ofApplied (e : Engine) : RaftNode :=
  ⟨e, [], { RaftStateMeta.default with lastApplied := some ⟨1, 0, 1⟩ }⟩

/-- A snapshot at time 5 has `k` without its expiry: at time 20 the receiver still shows
the value. -/
theorem roundTrip_revives_expired : ∃ (e₀ : Engine) (n : RaftNode), openDb .empty = .ok e₀ ∧
      ReflTransGen (Run.Step next) e₀ n.db ∧ ¬n.RoundTrip 5 := by
  have outcome : ∃ e₀, openDb .empty = .ok e₀ ∧ ∃ e, [.commit sampleExpiring].foldlM next e₀ =
    some e ∧
        (e.roots.candidates [] lastScannedKey (2 ^ 64 - 1)).length ≤ 1 ∧
        ∃ snapshot, ((ofApplied e).buildFrom (e.roots.candidates [] lastScannedKey (2 ^ 64 - 1))
        5).1 = .ok snapshot ∧
          ∃ m, (ofApplied e).installSnapshot snapshot [] 0 = .ok m ∧
            m.db.lookup (ofString "k") 20 = .ok (some (ofString "v")) ∧
              (ofApplied e).db.lookup (ofString "k") 20 = .ok none := by
    decide +kernel
  obtain ⟨e₀, start, e, run, few, snapshot, built, m, installed, revived, expired⟩ := outcome
  rw [← StorageRoots.scan_of_length_le_one few] at built
  refine ⟨e₀, ofApplied e, start, Run.step_of_foldlM run, fun roundTrip => ?_⟩
  obtain ⟨m', installed', same⟩ := roundTrip.1 snapshot built (ofApplied e) [] 0 (Nat.zero_le _)
  obtain rfl := Except.ok.inj (installed'.symm.trans installed)
  have late := same 20 (by decide) (ofString "k") (by decide)
  rw [revived, expired] at late
  cases late

/-- The store of a node that has set `k` to `v` for good. -/
theorem roundTrip_of_sampleWrite : ∃ (e₀ : Engine) (n : RaftNode), openDb .empty = .ok e₀ ∧
      ReflTransGen (Run.SafeStep Engine.Safe next) e₀ n.db ∧ n.state.lastApplied ≠ none ∧
      n.db.lookup (ofString "k") 5 = .ok (some (ofString "v")) ∧ n.RoundTrip 5 := by
  have outcome : ∃ e₀, openDb .empty = .ok e₀ ∧ ∃ e,
    Run.guarded Engine.Safe next e₀ [.commit sampleWrite] = some e ∧
        (e.roots.candidates [] lastScannedKey (2 ^ 64 - 1)).length ≤ 1 ∧
        e.lookup (ofString "k") 5 = .ok (some (ofString "v")) ∧
        (((e.roots.candidates [] lastScannedKey (2 ^ 64 - 1)).filterMap (e.sentEntry 5)).filter
          fun entry => !isRaftKey entry.1) = [(ofString "k", ofString "v")] ∧
        e.globalSeq = 3 ∧ ∀ v ∈ e.roots.versionList,
        (e.readFromHeap v.pointer).1 = .ok (ofString "v") ∧
          v.pointer.expiry = 0 ∧ v.key ≤ lastScannedKey := by
    decide +kernel
  obtain ⟨e₀, start, e, run, few, shown, entries, counter, stored⟩ := outcome
  have run := Run.safeStep_of_guarded run
  have settled := settled_of_run start run
  have entries : (ofApplied e).visibleEntries 5 = [(ofString "k", ofString "v")] := by
    rwa [← StorageRoots.scan_of_length_le_one few] at entries
  have counter : (ofApplied e).db.globalSeq = 3 := counter
  have fits : (ofApplied e).Transferable 5 := by
    refine ⟨?_, ?_, ?_, ?_⟩
    · rw [entries]
      decide
    · rw [entries]
      decide
    · rw [entries, counter]
      decide
    · rw [counter]
      decide
  have each : ∀ key v, (ofApplied e).db.roots.find key (ofApplied e).db.globalSeq = some v →
      ((ofApplied e).db.readFromHeap v.pointer).1 = .ok (ofString "v") ∧
        v.pointer.expiry = 0 ∧ key ≤ lastScannedKey := by
    intro key v found
    have newest := settled.serving.ordered.readable.find_eq_some_iff.mp found
    exact newest.key_eq ▸ stored v (StorageRoots.mem_versionList.mpr newest.mem)
  have portable : (ofApplied e).Portable 5 :=
    ⟨fun key v found _ => ⟨_, (each key v found).1, fun _ => by decide⟩,
      fun key v found _ _ => (each key v found).2.1, fun key v found _ _ => (each key v found).2.2⟩
  exact ⟨e₀, ofApplied e, start, run, nofun, shown,
    (roundTrip_iff start run rfl rfl fits).mpr (.inr portable)⟩

end RaftNode

end OmniKV
