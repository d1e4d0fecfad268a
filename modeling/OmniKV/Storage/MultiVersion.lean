import OmniKV.Storage.Serving

/-!
# Reads of the multi-version map

A point read and the sequence number of a key come from the first tier that has a visible version, a
scan merges all tiers. Values are read through the block cache, which is keyed by heap offset: an
empty value shares its offset with the next one.
-/

namespace OmniKV

open Versioned Relation List
open Bytes (ofString)

section

variable [External]

/-- The number that a table has for a key. Numbers start at one. -/
def TableHandle.searchSeq (t : TableHandle) (key : Bytes) (readSeq : ℕ) : Option ℕ :=
  if t.bloom.mightContain (hashKey key) then
    let best := ((SSTableReader.iterFrom t.data key).takeWhile fun r => r.key ≤ key).foldl
      (fun best r => if (r.key = key ∧ r.isValid ∧ r.seq ≤ readSeq) ∧ best < r.seq then r.seq else
      best) 0
    if best > 0 then some best else none
  else none

def StorageRoots.getSeqForKey (r : StorageRoots) (key : Bytes) (readSeq : ℕ) : ℕ :=
  (((r.memtable.find key readSeq).map Version.seq).or <|
    (r.frozenMemtables.reverse.findSome? fun m => (m.find key readSeq).map Version.seq).or <|
    (r.sstables.reverse.findSome? (·.searchSeq key readSeq)).or <|
    (r.l1Sstables.reverse.findSome? (·.searchSeq key readSeq)).or <|
    r.baseTable.searchSeq key readSeq).getD 0

omit [External] in
theorem foldl_best {α : Type*} (f : α → ℕ) (counts : α → Prop) [DecidablePred counts] (l : List α)
    (start : ℕ) :
    let best := l.foldl (fun best a => if counts a ∧ best < f a then f a else best) start
    (best = start ∨ ∃ a ∈ l, counts a ∧ f a = best) ∧ start ≤ best ∧ ∀ a ∈ l, counts a →
      f a ≤ best := by
  induction l generalizing start with
  | nil => exact ⟨.inl rfl, le_rfl, nofun⟩
  | cons a l ih =>
    obtain ⟨reached, above, bound⟩ := ih (if counts a ∧ start < f a then f a else start)
    rw [foldl_cons]
    generalize l.foldl (fun best a => if counts a ∧ best < f a then f a else best)
      (if counts a ∧ start < f a then f a else start) = best at reached above bound ⊢
    refine ⟨?_, ?_, ?_⟩
    · obtain same | ⟨b, member, counted, same⟩ := reached
      · split_ifs at same with better
        · exact .inr ⟨a, .head l, better.1, same.symm⟩
        · exact .inl same
      · exact .inr ⟨b, .tail a member, counted, same⟩
    · split_ifs at above with better
      · exact better.2.le.trans above
      · exact above
    · intro b member counted
      obtain rfl | later := mem_cons.mp member
      · split_ifs at above with better
        · exact above
        · exact (not_lt.mp fun less => better ⟨counted, less⟩).trans above
      · exact bound b later counted

theorem TableHandle.Sound.isTop {t : TableHandle} (sound : t.Sound) (key : Bytes) (s : ℕ) :
    IsTop {v | v ∈ t.versions} key s (t.searchSeq key s) := by
  -- The records that count are those of a scan of the key alone.
  have scanned {r : OmniRecord} : (r ∈ (SSTableReader.iterFrom t.data key).takeWhile (fun r =>
    r.key ≤ key) ∧
      r.key = key ∧ r.isValid ∧ r.seq ≤ s) → r.version ∈ t.versions := by
    rintro ⟨walked, same, valid, visible⟩
    have kept : r.version ∈ t.scan key key s := by
      refine mem_map_of_mem (mem_filter.mpr ⟨walked, ?_⟩)
      simp [same, valid, visible]
    exact (sound.mem_scan.mp kept).1
  have best := foldl_best OmniRecord.seq (fun r => r.key = key ∧ r.isValid ∧ r.seq ≤ s)
    ((SSTableReader.iterFrom t.data key).takeWhile fun r => r.key ≤ key) 0
  unfold searchSeq
  generalize ((SSTableReader.iterFrom t.data key).takeWhile fun r => r.key ≤ key).foldl _ 0 = top
    at best ⊢
  obtain ⟨reached, -, bound⟩ := best
  dsimp only
  constructor
  · intro n found
    split_ifs at found with contains positive
    cases found
    obtain zero | ⟨r, walked, counted, same⟩ := reached
    · exact absurd zero positive.ne'
    · exact ⟨r.version, scanned ⟨walked, counted⟩, counted.1, counted.2.2, same⟩
  · intro v member hkey visible
    have kept : v ∈ t.scan key key s := sound.mem_scan.mpr ⟨member, hkey.ge, hkey.le, visible⟩
    obtain ⟨r, hr, rfl⟩ := mem_map.mp kept
    obtain ⟨walked, checked⟩ := mem_filter.mp hr
    simp only [Bool.and_eq_true, decide_eq_true_eq] at checked
    have le : r.seq ≤ top := bound r walked ⟨hkey, checked.1.2, checked.2⟩
    have contains : t.bloom.mightContain (hashKey key) = true := by
      obtain ⟨r', hr', same⟩ := TableHandle.mem_versions.mp member
      have inside := sound.bloom r' hr'
      rwa [show r'.key = key from (congrArg Version.key same).trans hkey] at inside
    split_ifs with positive
    · exact le
    · exact le.trans (not_lt.mp positive)

/-- The sequence number of a key is that of its newest visible version in all tiers. -/
theorem StorageRoots.Ordered.isTop {r : StorageRoots} (ordered : r.Ordered) (key : Bytes) (s : ℕ) :
    ∃ top, r.getSeqForKey key s = top.getD 0 ∧ IsTop r.versions key s top := by
  let tiers : List (Option ℕ × Set Version) :=
    (r.memtables.map fun m => ((m.find key s).map Version.seq, {v | v ∈ m})) ++
      r.tables.map fun t => (t.searchSeq key s, {v | v ∈ t.versions})
  have sets : tiers.map Prod.snd = r.tiers := by
    simp [tiers, StorageRoots.tiers, Function.comp_def]
  have each : ∀ t ∈ tiers, IsTop t.2 key s t.1 := by
    intro t ht
    obtain inMem | inTable := mem_append.mp ht
    · obtain ⟨m, -, rfl⟩ := mem_map.mp inMem
      exact m.finds.isTop key s
    · obtain ⟨table, inTables, rfl⟩ := mem_map.mp inTable
      exact (ordered.sound table inTables).isTop key s
  refine ⟨tiers.findSome? Prod.fst, congrArg (Option.getD · 0) ?_, ?_⟩
  · simp only [tiers, memtables, tables, map_append, map_cons, cons_append, findSome?_cons,
      findSome?_append, findSome?_map, Function.comp_def, map_nil, findSome?_nil, Option.or_assoc]
    cases r.memtable.find key s <;> cases r.baseTable.searchSeq key s <;> rfl
  · rw [versions, ← sets]
    exact isTop_findSome each (sets ▸ ordered.newer)

namespace Engine

variable {e e₀ : Engine}

variable {key : Bytes} {s : ℕ} (serving : e.Serving)

include serving

theorem Serving.find_of_isNewest {v : Version} (newest : IsNewest e.roots.versions key s v)
    (now : UInt64) : if v.dead now then (e.find key s now).1 = .ok none
    else ∃ value, readPointer e.heap v.pointer = .ok value ∧
      (e.find key s now).1 = .ok (some value) := by
  have found := serving.ordered.readable.find_eq_some_iff.mpr newest
  rw [(serving.find key s now).1, stateAt, found, Option.bind_some]
  split_ifs with dead
  · rfl
  · obtain ⟨-, value, read⟩ := serving.values v newest.mem (not_isTombstone_of_not_dead dead)
    refine ⟨value, read, ?_⟩
    rw [read]
    rfl

theorem Serving.find_of_hidden (hidden : ∀ v ∈ e.roots.versions, v.key = key → s < v.seq)
    (now : UInt64) : (e.find key s now).1 = .ok none := by
  have missing : e.roots.find key s = none := by
    cases found : e.roots.find key s with
    | none => rfl
    | some v =>
      have newest := serving.ordered.readable.find_eq_some_iff.mp found
      exact absurd newest.seq_le (not_le.mpr (hidden v newest.mem newest.key_eq))
  rw [(serving.find key s now).1, stateAt, missing]
  rfl

theorem Serving.stateAt_eq_some_iff {value : Bytes} {now : UInt64} :
    e.stateAt s now key = some value ↔
      ∃ v, IsNewest e.roots.versions key s v ∧ ¬v.dead now ∧
      readPointer e.heap v.pointer = .ok value := by
  rw [stateAt, Option.bind_eq_some_iff]
  refine exists_congr fun v => ?_
  rw [serving.ordered.readable.find_eq_some_iff]
  refine and_congr_right fun newest => ?_
  split_ifs with dead
  · exact iff_of_false (by simp) fun shown => shown.1 dead
  · exact ⟨fun read => ⟨dead, eq_ok_of_toOption read⟩, fun shown => by rw [shown.2]; rfl⟩

omit serving in
/-- In every state of a safe run, reads select the version with the greatest visible sequence
number, and a scan returns these for the keys in its range, in order. -/
theorem reads_select_newest (start : openDb .empty = .ok e₀)
    (run : ReflTransGen (Run.SafeStep Safe next) e₀ e) :
    (∀ key s v, IsNewest e.roots.versions key s v →
      e.roots.find key s = some v ∧ e.roots.getSeqForKey key s = v.seq ∧ ∀ now,
        if v.dead now then (e.find key s now).1 = .ok none
        else ∃ value, readPointer e.heap v.pointer = .ok value ∧
        (e.find key s now).1 = .ok (some value)) ∧
    (∀ key s, (∀ v ∈ e.roots.versions, v.key = key → s < v.seq) →
      e.roots.getSeqForKey key s = 0 ∧ ∀ now, (e.find key s now).1 = .ok none) ∧
    ∀ a b s now, ∃ entries, (e.scan a b s now).1 = .ok entries ∧ entries.Pairwise (fun x y =>
      x.1 < y.1) ∧ ∀ key value, (key, value) ∈ entries ↔ a ≤ key ∧ key ≤ b ∧
        ∃ v, IsNewest e.roots.versions key s v ∧ ¬v.dead now ∧
        readPointer e.heap v.pointer = .ok value := by
  have serving := (settled_of_run start run).serving
  refine ⟨fun key s v newest => ⟨serving.ordered.readable.find_eq_some_iff.mpr newest, ?_,
    serving.find_of_isNewest newest⟩, fun key s hidden => ⟨?_, serving.find_of_hidden hidden⟩, ?_⟩
  · obtain ⟨top, same, isTop⟩ := serving.ordered.isTop key s
    rw [same]
    exact isTop.eq_of_isNewest newest
  · obtain ⟨top, same, isTop⟩ := serving.ordered.isTop key s
    rw [same]
    exact isTop.eq_zero hidden
  · intro a b s now
    obtain ⟨-, entries, scanned, shown⟩ := serving.scan a b s now
    refine ⟨entries, scanned, serving.pairwise_scan scanned, fun key value => ?_⟩
    rw [shown, serving.stateAt_eq_some_iff]

/-- The same store with nothing in its cache. -/
def uncached (e : Engine) : Engine := { e with blockCache := fun _ => none }

/-- `scanLoop` with a cache that is always empty. -/
def scanLoopUncached (now : UInt64) :
    List Version → Engine → Except OmniError (List (Bytes × Bytes))
  | [], _ => .ok []
  | v :: vs, e =>
    if v.dead now then scanLoopUncached now vs e
    else
      match (e.uncached.readFromHeap v.pointer).1 with
      | .error err => .error err
      | .ok value => (scanLoopUncached now vs e).map ((v.key, value) :: ·)

def scanUncached (e : Engine) (startKey endKey : Bytes) (readSeq : ℕ) (now : UInt64) :
    Except OmniError (List (Bytes × Bytes)) :=
  scanLoopUncached now (e.roots.scan startKey endKey readSeq) e

/-- Commits without empty values, whose counters do not overflow, and reads. -/
def Filled (e : Engine) : EngineOp → Prop
  | .commit tx => (∀ w ∈ tx.bufferedWrites, w.value ≠ []) ∧ e.Fits tx
  | .find _ _ _ => True
  | .scan _ _ _ _ => True
  | .evict _ => True
  | _ => False

instance (e : Engine) (op : EngineOp) : Decidable (e.Filled op) := by
  rcases op <;> simp only [Filled] <;> infer_instance

theorem Serving.uncached : e.uncached.Serving :=
  serving.of_sameData ⟨rfl, rfl, rfl, rfl, rfl⟩ nofun

theorem Serving.scanLoopUncached (now : UInt64) {vs : List Version}
    (members : ∀ v ∈ vs, v ∈ e.roots.versions) :
    Engine.scanLoopUncached now vs e = .ok (vs.filterMap (entry e now)) := by
  induction vs with
  | nil => rfl
  | cons v vs ih =>
    obtain ⟨member, rest⟩ := forall_mem_cons.mp members
    rw [Engine.scanLoopUncached, ih rest]
    split_ifs with dead
    · have skip : entry e now v = none := if_pos dead
      rw [filterMap_cons_none skip]
    · have live := not_isTombstone_of_not_dead dead
      obtain ⟨-, value, read⟩ := serving.values v member live
      have shown : entry e now v = some (v.key, value) := by
        rw [entry, if_neg dead, read]
        rfl
      rw [(serving.uncached.readFromHeap member live).1,
        show readPointer e.uncached.heap v.pointer = .ok value from read, filterMap_cons_some shown]
      rfl

theorem Serving.next_of_filled {op : EngineOp} (filled : e.Filled op) {e' : Engine}
    (step : e.next op = some e') : e'.Serving := by
  cases op with
  | commit tx =>
    obtain ⟨-, rfl⟩ := next_commit_eq_some.mp step
    exact serving.committed filled.1 filled.2
  | find key seq now => exact Option.some.inj step ▸ (serving.find key seq now).2
  | scan a b seq now => exact Option.some.inj step ▸ (serving.scan a b seq now).1
  | evict offset =>
    cases step
    refine serving.of_sameData ⟨rfl, rfl, rfl, rfl, rfl⟩ fun offset' bytes hit => ?_
    simp only [Function.update_apply] at hit
    split_ifs at hit
    exact serving.cached offset' bytes hit
  | _ => exact filled.elim

omit serving

/-- A step of a store whose cache is always empty. -/
def nextUncached (e : Engine) (op : EngineOp) : Option Engine := (e.next op).map uncached

/-- With a cache or without one, an operation leads to the same data. -/
theorem nextUncached_of_next {op : EngineOp} (filled : e.Filled op) {e' : Engine}
    (step : e.next op = some e') : e.uncached.nextUncached op = some e'.uncached := by
  have kept {e₁ e₂ : Engine} {cache : ℕ → Option Bytes} (same : e₂ = { e₁ with blockCache :=
    cache }) :
      e₂.uncached = e₁.uncached := by rw [same]; rfl
  cases op with
  | commit tx =>
    obtain ⟨room, rfl⟩ := next_commit_eq_some.mp step
    have step : e.uncached.next (.commit tx) = some (e.uncached.committed tx) :=
      next_commit_eq_some.mpr ⟨room, rfl⟩
    rw [nextUncached, step]
    rfl
  | find key seq now =>
    obtain ⟨cache, same⟩ := exists_blockCache_find e key seq now
    obtain ⟨cache', same'⟩ := exists_blockCache_find e.uncached key seq now
    cases step
    exact congrArg some ((kept same').trans (kept same).symm)
  | scan a b seq now =>
    obtain ⟨cache, same⟩ := exists_blockCache_scanLoop now (e.roots.scan a b seq) e
    obtain ⟨cache', same'⟩ := exists_blockCache_scanLoop now (e.roots.scan a b seq) e.uncached
    cases step
    exact congrArg some ((kept same').trans (kept same).symm)
  | evict offset => exact Option.some.inj step ▸ rfl
  | _ => exact filled.elim

/-- A run with a cache, and the same run without one. -/
theorem uncached_run {ops : List EngineOp} (serving : e₀.Serving)
    (run : Run.guarded Filled next e₀ ops = some e) :
    e.Serving ∧ ops.foldlM nextUncached e₀.uncached = some e.uncached := by
  induction ops generalizing e₀ with
  | nil => exact Option.some.inj run ▸ ⟨serving, rfl⟩
  | cons op ops ih =>
    rw [Run.guarded, foldlM_cons] at run
    obtain ⟨e₁, first, rest⟩ := Option.bind_eq_some_iff.mp run
    split_ifs at first with filled
    obtain ⟨served, same⟩ := ih (serving.next_of_filled filled first) rest
    refine ⟨served, ?_⟩
    rw [foldlM_cons, nextUncached_of_next filled first]
    exact same

/-- After commits without empty values, every read returns what it returns with an empty cache. -/
theorem block_cache_transparent (start : openDb .empty = .ok e₀) {ops : List EngineOp}
    (run : Run.guarded Filled next e₀ ops = some e) : ∃ e', ops.foldlM nextUncached e₀ = some e' ∧
      (∀ key s now, (e.find key s now).1 = (e'.find key s now).1) ∧
      ∀ a b s now, (e.scan a b s now).1 = e'.scanUncached a b s now := by
  obtain ⟨serving, same⟩ := uncached_run (serving_of_openDb_empty start) run
  have fresh : e₀.uncached = e₀ := by
    cases start
    rfl
  refine ⟨e.uncached, fresh ▸ same, fun key s now => ?_, fun a b s now => ?_⟩
  · rw [(serving.find key s now).1, (serving.uncached.find key s now).1]
    rfl
  · have readable := serving.ordered.readable
    have members : ∀ v ∈ e.roots.scan a b s, v ∈ e.roots.versions := fun v hv =>
      (readable.find_eq_some_iff.mp (readable.mem_scan.mp hv).2.2).mem
    exact (serving.scanLoop now members).1.trans
      (serving.uncached.scanLoopUncached now members).symm

end Engine

end

section

open Reference

/-- The batch that sets `k1` to the empty value and `k2` to `v`. -/
def sampleEmpty : WriteBatch where
  bufferedWrites := [⟨ofString "k1", [], 0⟩, ⟨ofString "k2", ofString "v", 0⟩]
  bufferedDeletes := []
  count := by decide
  values := by decide

namespace Engine

/-- The empty value and the next one share an offset: a scan reads the second from the cache, as
empty. -/
theorem scan_reads_cached_empty : ∃ e₀ e v, openDb .empty = .ok e₀ ∧ e₀.next (.commit sampleEmpty) =
    some e ∧ IsNewest e.roots.versions (ofString "k2") e.globalSeq v ∧ ¬v.dead 0 ∧
      readPointer e.heap v.pointer = .ok (ofString "v") ∧
      (e.scan (ofString "k1") (ofString "k2") e.globalSeq 0).1 =
        .ok [(ofString "k1", []), (ofString "k2", [])] := by
  have outcome : ∃ e₀, openDb .empty = .ok e₀ ∧ ∃ e, e₀.next (.commit sampleEmpty) = some e ∧
      ∃ v, e.roots.find (ofString "k2") e.globalSeq = some v ∧
        IsNewest e.roots.versions (ofString "k2") e.globalSeq v ∧ ¬v.dead 0 ∧
        readPointer e.heap v.pointer = .ok (ofString "v") ∧
        SlotSorted (e.roots.candidates (ofString "k1") (ofString "k2") e.globalSeq) ∧
        (scanLoop 0 (dedupByKey (e.roots.candidates (ofString "k1") (ofString "k2") e.globalSeq))
        e).1 =
          .ok [(ofString "k1", []), (ofString "k2", [])] := by
    decide +kernel
  obtain ⟨e₀, start, e, committed, v, -, newest, live, value, sorted, scanned⟩ := outcome
  refine ⟨e₀, e, v, start, committed, newest, live, value, ?_⟩
  rw [scan, StorageRoots.scan_of_slotSorted sorted]
  exact scanned

/-- A value that is in an L1 table, and its overwrite in the memtable. -/
theorem reads_select_overwrite : ∃ e₀ e v, openDb .empty = .ok e₀ ∧
    ReflTransGen (Run.SafeStep Safe next) e₀ e ∧
      IsNewest e.roots.versions (ofString "k") e.globalSeq v ∧
      e.roots.getSeqForKey (ofString "k") e.globalSeq = v.seq ∧
      (e.find (ofString "k") e.globalSeq 0).1 = .ok (some (ofString "w")) := by
  have outcome : ∃ e₀, openDb .empty = .ok e₀ ∧
      ∃ e, Run.guarded Safe next e₀ [.commit sampleWrite, .beginFlush, .finishFlush 0 0,
      .compactL0ToL1 0,
        .commit sampleOverwrite] = some e ∧ ∃ v, e.roots.find (ofString "k") e.globalSeq = some v ∧
          IsNewest e.roots.versions (ofString "k") e.globalSeq v ∧ ¬v.dead 0 ∧
            readPointer e.heap v.pointer = .ok (ofString "w") := by
    decide +kernel
  obtain ⟨e₀, start, e, run, v, -, newest, live, value⟩ := outcome
  have run := Run.safeStep_of_guarded run
  obtain ⟨-, seq, found⟩ := (reads_select_newest start run).1 _ _ v newest
  have found := found 0
  rw [if_neg live, value] at found
  obtain ⟨value, same, found⟩ := found
  exact ⟨e₀, e, v, start, run, newest, seq, Except.ok.inj same ▸ found⟩

/-- The empty value is cached at the offset of the next one. -/
theorem cached_empty_hides_value : ∃ e₀ e e', openDb .empty = .ok e₀ ∧
      [.commit sampleEmpty, .find (ofString "k1") 3 0].foldlM next e₀ = some e ∧
      [.commit sampleEmpty, .find (ofString "k1") 3 0].foldlM nextUncached e₀ = some e' ∧
      (e.find (ofString "k2") 3 0).1 = .ok (some []) ∧
      (e'.find (ofString "k2") 3 0).1 = .ok (some (ofString "v")) :=
  ⟨_, _, _, rfl, (Option.some_get (by decide +kernel)).symm,
    (Option.some_get (by decide +kernel)).symm, by decide +kernel, by decide +kernel⟩

/-- Two values of a key, with reads between and behind them. -/
theorem cache_transparent_overwrite : ∃ e₀ e e', openDb .empty = .ok e₀ ∧
      Run.guarded Filled next e₀ [.commit sampleWrite, .find (ofString "k") 1 0,
      .commit sampleOverwrite] = some e ∧
      [.commit sampleWrite, .find (ofString "k") 1 0, .commit sampleOverwrite].foldlM nextUncached
        e₀ = some e' ∧ ∀ key s now, (e.find key s now).1 = (e'.find key s now).1 := by
  have run :=
    Option.some_get (x := Run.guarded Filled next (ofRecovered (recoverFrom .empty .initial))
    [.commit sampleWrite, .find (ofString "k") 1 0, .commit sampleOverwrite]) (by decide +kernel)
  obtain ⟨e', run', found, -⟩ := block_cache_transparent rfl run.symm
  exact ⟨_, _, e', rfl, run.symm, run', found⟩

end Engine

end

end OmniKV
