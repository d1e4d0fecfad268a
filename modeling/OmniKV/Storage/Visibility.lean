import Mathlib.Data.Set.Finite.Lattice
import OmniKV.Storage.Operations

/-!
# What compactions keep visible

A reader at or above the retention floor finds the same newest versions after a compaction. The
merge into the base also drops dead versions, which hides nothing as long as no older version of the
key is left above the merge.
-/

namespace OmniKV

open Versioned List StorageRoots

namespace Engine

/-- How many readers are registered at a sequence number. -/
def registered (e : Engine) (seq : ℕ) : ℕ := (e.activeSnapshots.get? seq).getD 0

variable {e : Engine} {seq : ℕ}

theorem exists_oldest_of_registered (counted : 0 < e.registered seq) :
    ∃ oldest, e.oldestActiveSnapshot = some oldest ∧ oldest ≤ seq := by
  cases found : e.activeSnapshots.get? seq with
  | none => simp [registered, found] at counted
  | some n =>
    obtain ⟨first, head, least⟩ :=
      SortedMap.exists_head?_of_mem (SortedMap.get?_eq_some_iff.mp found)
    exact ⟨first.1, by rw [oldestActiveSnapshot, head]; rfl, least⟩

theorem exists_floor_of_registered (counted : 0 < e.registered seq) :
    ∃ floor, e.compactionRetentionFloor = some floor ∧ floor ≤ seq := by
  obtain ⟨oldest, first, least⟩ := exists_oldest_of_registered counted
  cases replica : e.minReplicaRetention with
  | none => exact ⟨oldest, by rw [compactionRetentionFloor, first, replica], least⟩
  | some pin =>
    exact ⟨min oldest pin, by rw [compactionRetentionFloor, first, replica],
      (min_le_left _ _).trans least⟩

theorem exists_floor_of_pinned {replicaId : Bytes}
    (pinned : (replicaId, seq) ∈ e.replicaRetentionFloors) :
    ∃ floor, e.compactionRetentionFloor = some floor ∧ floor ≤ seq := by
  have member : seq ∈ e.replicaRetentionFloors.entries.map Prod.snd := mem_map_of_mem pinned
  cases lowest : e.minReplicaRetention with
  | none =>
    rw [minReplicaRetention, min?_eq_none_iff] at lowest
    rw [lowest] at member
    cases member
  | some pin =>
    have least : pin ≤ seq := (min?_eq_some_iff.mp lowest).2 seq member
    cases first : e.oldestActiveSnapshot with
    | none => exact ⟨pin, by rw [compactionRetentionFloor, first, lowest], least⟩
    | some oldest =>
      exact ⟨min oldest pin, by rw [compactionRetentionFloor, first, lowest],
        (min_le_right _ _).trans least⟩

end Engine

section

variable [External]

/-- Iterating over a table yields all of its versions. -/
def TableHandle.Exact (t : TableHandle) : Prop := tableVersions t.data = t.versions
deriving Decidable

def heldBy (tables : List TableHandle) : Set Version := {v | ∃ t ∈ tables, v ∈ t.versions}

namespace StorageRoots

def inMemtables (r : StorageRoots) : Set Version := {v | ∃ m ∈ r.memtables, v ∈ m}

/-- The levels that the merge into the base reads. -/
def lowerTables (r : StorageRoots) : List TableHandle := r.baseTable :: r.l1Sstables

theorem mem_versions_levels {r : StorageRoots} {v : Version} :
    v ∈ r.versions ↔ v ∈ r.inMemtables ∨ v ∈ heldBy r.sstables ∨ v ∈ heldBy r.lowerTables := by
  rw [mem_versions]
  refine or_congr_right ?_
  simp only [heldBy, lowerTables, mem_tables, mem_cons]
  constructor
  · rintro ⟨t, l0 | l1 | base, hv⟩
    · exact .inl ⟨t, l0, hv⟩
    · exact .inr ⟨t, .inr l1, hv⟩
    · exact .inr ⟨t, .inl base, hv⟩
  · rintro (⟨t, l0, hv⟩ | ⟨t, base | l1, hv⟩)
    · exact ⟨t, .inl l0, hv⟩
    · exact ⟨t, .inr (.inr base), hv⟩
    · exact ⟨t, .inr (.inl l1), hv⟩

theorem exists_seq_le (r : StorageRoots) : ∃ s, ∀ v ∈ r.versions, v.seq ≤ s := by
  obtain ⟨s, bound⟩ := Set.Finite.bddAbove (r.versionList.finite_toSet.image Version.seq)
  exact ⟨s, fun v hv => bound ⟨v, mem_versionList.mpr hv, rfl⟩⟩

instance (r : StorageRoots) : Decidable (Unambiguous r.versions) :=
  decidable_of_iff (∀ v ∈ r.versionList, ∀ w ∈ r.versionList, v.key = w.key → v.seq = w.seq → v = w)
    (by
    simp only [mem_versionList]
    rfl)

instance (r : StorageRoots) (key : Bytes) (s : ℕ) (v : Version) :
    Decidable (IsNewest r.versions key s v) :=
  decidable_of_iff (v ∈ r.versionList ∧ v.key = key ∧ v.seq ≤ s ∧
      ∀ w ∈ r.versionList, w.key = key → w.seq ≤ s → w.seq ≤ v.seq) (by
    simp only [mem_versionList]
    exact ⟨fun h => ⟨h.1, h.2.1, h.2.2.1, h.2.2.2⟩, fun h => ⟨h.mem, h.key_eq, h.seq_le, h.max⟩⟩)

end StorageRoots

theorem mem_ofVersions_flatMap (tables : List TableHandle) (exact : ∀ t ∈ tables, t.Exact)
    (distinct : Unambiguous (heldBy tables)) {v : Version} :
    v ∈ Merged.ofVersions (tables.flatMap fun t => tableVersions t.data) ↔ v ∈ heldBy tables := by
  have held : ∀ {w}, w ∈ tables.flatMap (fun t => tableVersions t.data) ↔ w ∈ heldBy tables := by
    intro w
    rw [mem_flatMap]
    refine exists_congr fun t => and_congr_right fun ht => ?_
    rw [exact t ht]
  rw [Merged.mem_ofVersions, held]
  exact distinct.mono fun w hw => held.mp hw

omit [External] in
theorem Version.dead_mono {v : Version} {now t : UInt64} (later : now ≤ t) (dead : v.dead now) :
    v.dead t := by
  simp only [Version.dead, Bool.or_eq_true, Bool.and_eq_true, decide_eq_true_eq] at dead ⊢
  exact dead.imp_right fun expired => ⟨expired.1, UInt64.le_trans expired.2 later⟩

namespace Engine

variable {e e' : Engine} {v : Version} {s token : ℕ} {now : UInt64} {key : Bytes}
  (exact : ∀ t ∈ e.roots.tables, t.Exact) (distinct : Unambiguous e.roots.versions)

include exact distinct

theorem mem_l0Merged : v ∈ e.l0Merged ↔ v ∈ heldBy e.roots.sstables := by
  refine mem_ofVersions_flatMap _ (fun t ht => exact t (mem_tables.mpr (.inl ht))) ?_
  exact distinct.mono fun w hw => mem_versions_levels.mpr (.inr (.inl hw))

theorem mem_l1Merged : v ∈ e.l1Merged ↔ v ∈ heldBy e.roots.lowerTables := by
  refine mem_ofVersions_flatMap e.roots.lowerTables (fun t ht => ?_) ?_
  · refine exact t (mem_tables.mpr (.inr ?_))
    exact (mem_cons.mp ht).symm
  · exact distinct.mono fun w hw => mem_versions_levels.mpr (.inr (.inr hw))

def l1Output (e : Engine) (token : ℕ) : TableHandle :=
  newTable (.l1 token) ((e.l0Merged.retained e.compactionRetentionFloor).map Version.record)

/-- The table that a compaction of L1 writes. -/
def baseOutput (e : Engine) (token : ℕ) (now : UInt64) : TableHandle :=
  newTable (.base token) ((e.baseVersions e.l1Merged now).map Version.record)

omit exact distinct in
theorem mem_versions_rootsWithL1 {t : TableHandle} : v ∈ (e.rootsWithL1 t).versions ↔
      (v ∈ e.roots.inMemtables ∨ v ∈ heldBy e.roots.lowerTables) ∨ v ∈ t.versions := by
  have lower : v ∈ heldBy (e.rootsWithL1 t).lowerTables ↔
      v ∈ heldBy e.roots.lowerTables ∨ v ∈ t.versions := by
    show v ∈ heldBy (e.roots.baseTable :: (e.roots.l1Sstables ++ [t])) ↔ _
    simp only [heldBy, StorageRoots.lowerTables, Set.mem_ofPred_eq, mem_cons, mem_append,
      not_mem_nil, or_false, ← or_assoc, or_and_right, exists_or, exists_eq_left]
  have noL0 : v ∉ heldBy (e.rootsWithL1 t).sstables := by
    rintro ⟨u, hu, -⟩
    cases hu
  rw [mem_versions_levels, lower, or_iff_right noL0, or_assoc]
  rfl

omit exact distinct in
theorem mem_versions_rootsWithoutL0 :
    v ∈ e.rootsWithoutL0.versions ↔ v ∈ e.roots.inMemtables ∨ v ∈ heldBy e.roots.lowerTables := by
  have noL0 : v ∉ heldBy e.rootsWithoutL0.sstables := by
    rintro ⟨u, hu, -⟩
    cases hu
  rw [mem_versions_levels, or_iff_right noL0]
  rfl

omit exact distinct in
theorem roots_compactL0ToL1 (done : e.compactL0ToL1 token = .ok e') :
    (e.roots.sstables = [] ∧ e' = e) ∨
      (e.l0Merged.retained e.compactionRetentionFloor = [] ∧ e'.roots = e.rootsWithoutL0) ∨
      e'.roots = e.rootsWithL1 (e.l1Output token) := by
  simp only [compactL0ToL1] at done
  split_ifs at done with none empty taken
  · exact .inl ⟨none, (Except.ok.inj done).symm⟩
  · refine .inr (.inl ⟨map_eq_nil_iff.mp empty, ?_⟩)
    cases done
    rfl
  · refine .inr (.inr ?_)
    cases done
    rfl

theorem versions_compactL0ToL1
    (written : (e.l1Output token).versions = e.l0Merged.retained e.compactionRetentionFloor)
    (done : e.compactL0ToL1 token = .ok e') :
    e'.roots.versions = (e.roots.inMemtables ∪ heldBy e.roots.lowerTables) ∪
      {v | Needed (heldBy e.roots.sstables) e.compactionRetentionFloor v} := by
  have merged : {v | v ∈ e.l0Merged} = heldBy e.roots.sstables :=
    Set.ext fun v => mem_l0Merged exact distinct
  have retained : ∀ v, v ∈ e.l0Merged.retained e.compactionRetentionFloor ↔
      Needed (heldBy e.roots.sstables) e.compactionRetentionFloor v := by
    intro v
    rw [Merged.mem_retained, merged]
  ext v
  simp only [Set.mem_union, Set.mem_ofPred_eq, ← retained]
  obtain ⟨none, rfl⟩ | ⟨nothing, roots⟩ | roots := roots_compactL0ToL1 done
  · have nothing : e'.l0Merged.retained e'.compactionRetentionFloor = [] := by
      simp only [l0Merged, none]
      rfl
    have noL0 : v ∉ heldBy e'.roots.sstables := by
      rw [none]
      rintro ⟨u, hu, -⟩
      cases hu
    rw [nothing, mem_versions_levels, or_iff_right noL0]
    simp
  · rw [roots, nothing, mem_versions_rootsWithoutL0]
    simp
  · rw [roots, ← written]
    exact mem_versions_rootsWithL1

omit exact distinct in
theorem mem_versions_rootsWithBase {t : TableHandle} : v ∈ (e.rootsWithBase t).versions ↔
      (v ∈ e.roots.inMemtables ∨ v ∈ heldBy e.roots.sstables) ∨ v ∈ t.versions := by
  have lower : v ∈ heldBy (e.rootsWithBase t).lowerTables ↔ v ∈ t.versions := by
    show v ∈ heldBy [t] ↔ _
    simp [heldBy]
  rw [mem_versions_levels, lower, or_assoc]
  rfl

omit exact distinct in
theorem roots_compactL1ToL2 (done : e.compactL1ToL2 token now = .ok e') :
    (e.roots.l1Sstables = [] ∧ e' = e) ∨
      (e.roots.l1Sstables ≠ [] ∧ e'.roots = e.rootsWithBase (e.baseOutput token now)) := by
  simp only [compactL1ToL2] at done
  split_ifs at done with none taken
  · exact .inl ⟨none, (Except.ok.inj done).symm⟩
  · refine .inr ⟨none, ?_⟩
    cases done
    rfl

variable (written : (e.baseOutput token now).versions = e.baseVersions e.l1Merged now)

include written

/-- The base has the needed versions of L1 and the old base, less the dead ones without a floor. -/
theorem versions_rootsWithBase (roots : e'.roots = e.rootsWithBase (e.baseOutput token now)) :
    e'.roots.versions = (e.roots.inMemtables ∪ heldBy e.roots.sstables) ∪
      {v | Needed (heldBy e.roots.lowerTables) e.compactionRetentionFloor v ∧
        (v.dead now → e.compactionRetentionFloor.isSome)} := by
  have merged : {v | v ∈ e.l1Merged} = heldBy e.roots.lowerTables :=
    Set.ext fun v => mem_l1Merged exact distinct
  have kept : ∀ v, v ∈ e.baseVersions e.l1Merged now ↔
      Needed (heldBy e.roots.lowerTables) e.compactionRetentionFloor v ∧
        (v.dead now → e.compactionRetentionFloor.isSome) := by
    intro v
    rw [baseVersions, mem_filter, Merged.mem_retained, merged]
    refine and_congr_right fun _ => ?_
    cases v.dead now <;> simp
  ext v
  simp only [Set.mem_union, Set.mem_ofPred_eq, ← kept]
  rw [roots, ← written]
  exact mem_versions_rootsWithBase

/-- A compaction of L1 drops a dead version that hides a live one above L1. -/
def Uncovers (e : Engine) (now : UInt64) : Prop :=
  e.roots.l1Sstables ≠ [] ∧ e.compactionRetentionFloor = none ∧
    ∃ u w, Needed (e.roots.inMemtables ∪ heldBy e.roots.sstables) none u ∧
      Needed (heldBy e.roots.lowerTables) none w ∧ w.key = u.key ∧ u.seq < w.seq ∧ w.dead now ∧
      ¬u.dead now

/-- Every reader that compactions serve has the same live newest versions, at `now` and later. -/
def SameLive (e e' : Engine) (now : UInt64) : Prop :=
  ∀ key s, Covered e.roots.versions e.compactionRetentionFloor s → ∀ t, now ≤ t →
    ∀ v, ¬v.dead t → (IsNewest e'.roots.versions key s v ↔ IsNewest e.roots.versions key s v)

omit exact distinct written in
theorem versions_eq_union (e : Engine) : e.roots.versions =
    (e.roots.inMemtables ∪ heldBy e.roots.sstables) ∪ heldBy e.roots.lowerTables := by
  ext v
  rw [mem_versions_levels, Set.mem_union, Set.mem_union, or_assoc]

omit written in
theorem isNewest_compactL0ToL1
    (written : (e.l1Output token).versions = e.l0Merged.retained e.compactionRetentionFloor)
    (done : e.compactL0ToL1 token = .ok e')
    (covered : Covered e.roots.versions e.compactionRetentionFloor s) :
    IsNewest e'.roots.versions key s v ↔ IsNewest e.roots.versions key s v := by
  have levels : e.roots.versions =
      (e.roots.inMemtables ∪ heldBy e.roots.lowerTables) ∪ heldBy e.roots.sstables := by
    rw [versions_eq_union, Set.union_right_comm]
  rw [versions_compactL0ToL1 exact distinct written done]
  rw [levels] at covered ⊢
  exact isNewest_union_needed covered

/-- With a floor set, nothing that a reader at or above it may see is dropped. -/
theorem isNewest_compactL1ToL2_of_floor {floor : ℕ}
    (done : e.compactL1ToL2 token now = .ok e') (pinned : e.compactionRetentionFloor = some floor)
    (covered : Covered e.roots.versions (some floor) s) :
    IsNewest e'.roots.versions key s v ↔ IsNewest e.roots.versions key s v := by
  obtain ⟨-, rfl⟩ | ⟨-, roots⟩ := roots_compactL1ToL2 done
  · rfl
  rw [versions_rootsWithBase exact distinct written roots, pinned]
  rw [versions_eq_union] at covered ⊢
  simpa using isNewest_union_needed covered

theorem isNewest_compactL1ToL2 (done : e.compactL1ToL2 token now = .ok e')
    (covers : ¬e.Uncovers now)
    (covered : Covered e.roots.versions e.compactionRetentionFloor s) (live : ¬v.dead now) :
    IsNewest e'.roots.versions key s v ↔ IsNewest e.roots.versions key s v := by
  cases floor : e.compactionRetentionFloor with
  | some f =>
    exact isNewest_compactL1ToL2_of_floor exact distinct written done floor (floor ▸ covered)
  | none =>
    obtain ⟨-, rfl⟩ | ⟨present, roots⟩ := roots_compactL1ToL2 done
    · rfl
    rw [versions_rootsWithBase exact distinct written roots, floor]
    rw [floor, versions_eq_union] at covered
    rw [versions_eq_union]
    have top := covered.resolve_left (by simp)
    have shown : Needed (e.roots.inMemtables ∪ heldBy e.roots.sstables) none v → ∀ w,
        Needed (heldBy e.roots.lowerTables) none w → w.key = v.key → w.dead now →
        w.seq ≤ v.seq := by
      intro latest w latest' same gone
      by_contra newer
      exact covers ⟨present, floor, v, w, latest, latest', same, not_le.mp newer, gone, live⟩
    simpa using isNewest_union_live top shown live

omit exact distinct written

/-- A compaction of L0 keeps the newest version of every key; one of L1 if and only if the dead
versions that it drops hide no live version above L1. -/
theorem compaction_keeps_newest (exact : ∀ t ∈ e.roots.tables, t.Exact)
    (distinct : Unambiguous e.roots.versions) :
    (∀ token, (e.l1Output token).versions = e.l0Merged.retained e.compactionRetentionFloor →
      e.compactL0ToL1 token = .ok e' → ∀ key s, Covered e.roots.versions e.compactionRetentionFloor
        s → ∀ v, (IsNewest e'.roots.versions key s v ↔ IsNewest e.roots.versions key s v)) ∧
    (∀ token now, (e.baseOutput token now).versions = e.baseVersions e.l1Merged now →
      e.compactL1ToL2 token now = .ok e' → (e.SameLive e' now ↔ ¬e.Uncovers now)) ∧
    ∀ versions : SortedMap ℕ ValuePointer, versions.entries.map Prod.fst = [1, 5, 8, 10] →
      5 ∈ (retainVersionsNeededByFloor versions (some 7)).entries.map Prod.fst := by
  refine ⟨fun token written done key s covered v => ?_, fun token now written done => ?_, ?_⟩
  · exact isNewest_compactL0ToL1 exact distinct written done covered
  · constructor
    · rintro same ⟨present, floor, u, w, latest, latest', hk, newer, gone, live⟩
      obtain ⟨s, top⟩ := e.roots.exists_seq_le
      have roots := ((roots_compactL1ToL2 done).resolve_left fun none => present none.1).2
      have shown : IsNewest e'.roots.versions u.key s u := by
        rw [versions_rootsWithBase exact distinct written roots, floor]
        rw [versions_eq_union] at top distinct
        have := isNewest_union_of_dead (fun v => v.dead now)
          (distinct.mono Set.subset_union_right) top latest latest' hk gone
        simpa using this
      have before := (same u.key s (.inr top) now (UInt64.le_refl now) u live).mp shown
      have held : w ∈ e.roots.versions := by
        rw [versions_eq_union]
        exact .inr latest'.mem
      exact absurd (before.max w held hk (top w held)) (not_le.mpr newer)
    · intro covers key s covered t later v live
      have live : ¬v.dead now := fun gone => live (Version.dead_mono later gone)
      exact isNewest_compactL1ToL2 exact distinct written done covers covered live
  · intro versions seqs
    have member : ∀ n, n ∈ versions.entries.map Prod.fst ↔ n = 1 ∨ n = 5 ∨ n = 8 ∨ n = 10 := by
      simp [seqs]
    obtain ⟨entry, inside, five⟩ := mem_map.mp ((member 5).mpr (by simp))
    refine mem_map.mpr ⟨entry, mem_retainVersionsNeededByFloor.mpr ⟨inside, .inr ?_⟩, five⟩
    refine ⟨7, rfl, .inr ⟨by omega, fun other hother below => ?_⟩⟩
    have := (member other.1).mp (mem_map_of_mem hother)
    omega

end Engine

end

open Reference

namespace Engine

/-- A late flush puts an old version above the base, and a compaction of L1 drops the marker that
hides it.
-/
theorem compaction_shows_deleted : ∃ e₀ e e' v, openDb .empty = .ok e₀ ∧
    Relation.ReflTransGen (Run.Step next) e₀ e ∧
      (∀ t ∈ e.roots.tables, t.Exact) ∧ Unambiguous e.roots.versions ∧
      e.compactionRetentionFloor = none ∧ e.compactL1ToL2 0 0 = .ok e' ∧ ¬v.dead 0 ∧
      IsNewest e'.roots.versions v.key e.globalSeq v ∧
      ¬IsNewest e.roots.versions v.key e.globalSeq v := by
  have outcome : ∃ e₀, openDb .empty = .ok e₀ ∧
      ∃ e, [.commit sampleWrite, .beginFlush, .commit sampleDelete, .beginFlush, .finishFlush 1 0,
        .compactL0ToL1 0, .finishFlush 0 1].foldlM next e₀ = some e ∧
          ((∀ t ∈ e.roots.tables, t.Exact) ∧ Unambiguous e.roots.versions ∧
          e.compactionRetentionFloor = none) ∧
          ∃ e', e.compactL1ToL2 0 0 = .ok e' ∧ ∃ v ∈ e'.roots.versionList,
            ¬v.dead 0 ∧ IsNewest e'.roots.versions v.key e.globalSeq v ∧
              ¬IsNewest e.roots.versions v.key e.globalSeq v := by
    decide +kernel
  obtain ⟨e₀, start, e, run, ⟨exact, distinct, floor⟩, e', done, v, -, shown⟩ := outcome
  exact ⟨e₀, e, e', v, start, Run.step_of_foldlM run, exact, distinct, floor, done, shown⟩

/-- A key that was written, deleted and compacted into L1 stays deleted when L1 is merged
into the base. -/
theorem compaction_keeps_deleted : ∃ e₀ e e', openDb .empty = .ok e₀ ∧
    Relation.ReflTransGen (Run.Step next) e₀ e ∧
      e.compactL1ToL2 0 0 = .ok e' ∧ e.SameLive e' 0 := by
  have outcome : ∃ e₀, openDb .empty = .ok e₀ ∧
      ∃ e, [.commit sampleWrite, .beginFlush, .finishFlush 0 0, .commit sampleDelete, .beginFlush,
        .finishFlush 0 1, .compactL0ToL1 0].foldlM next e₀ = some e ∧
          ((∀ t ∈ e.roots.tables, t.Exact) ∧ Unambiguous e.roots.versions ∧
            (e.baseOutput 0 0).versions = e.baseVersions e.l1Merged 0 ∧
            (∀ m ∈ e.roots.memtables, m.versions = []) ∧ e.roots.sstables = []) ∧
          ∃ e', e.compactL1ToL2 0 0 = .ok e' := by
    decide +kernel
  obtain ⟨e₀, start, e, run, ⟨exact, distinct, written, noMemory, noL0⟩, e', done⟩ := outcome
  have covers : ¬e.Uncovers 0 := by
    rintro ⟨-, -, u, -, latest, -⟩
    obtain ⟨m, hm, hu⟩ | ⟨t, ht, -⟩ := latest.mem
    · exact Memtable.not_mem_of_versions (noMemory m hm) u hu
    · rw [noL0] at ht
      cases ht
  exact ⟨e₀, e, e', start, Run.step_of_foldlM run, done,
    ((compaction_keeps_newest exact distinct).2.1 0 0 written done).mpr covers⟩

end Engine

end OmniKV
