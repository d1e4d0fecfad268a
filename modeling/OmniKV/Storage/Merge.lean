import OmniKV.Storage.Memtable

/-!
# Merging versions for compaction

Compactions collect the versions of several tiers in a map from key to a map from
sequence number to pointer. Of each key they keep the versions that a reader at or
above the retention floor can still see.
-/

namespace OmniKV

open List SortedMap

/-- `BTreeMap<Vec<u8>, VersionedValuePointers>`. -/
structure Merged where
  map : SortedMap Bytes (SortedMap ℕ ValuePointer)

namespace Merged

def empty : Merged := ⟨.empty⟩

/-- `insert_record_version`. -/
def insert (m : Merged) (v : Version) : Merged :=
  ⟨m.map.insert v.key (((m.map.get? v.key).getD .empty).insert v.seq v.pointer)⟩

def ofVersions (vs : List Version) : Merged := vs.foldl insert empty

instance : Membership Version Merged :=
  ⟨fun m v => ∃ versions, (v.key, versions) ∈ m.map ∧ (v.seq, v.pointer) ∈ versions⟩

variable {m : Merged} {v : Version} {vs : List Version}

theorem mem_def : v ∈ m ↔ ∃ versions, (v.key, versions) ∈ m.map ∧ (v.seq, v.pointer) ∈ versions :=
  Iff.rfl

@[simp] theorem not_mem_empty (v : Version) : v ∉ empty := by
  rintro ⟨versions, member, -⟩
  exact SortedMap.not_mem_empty _ member

theorem mem_getD_get? {m : SortedMap Bytes (SortedMap ℕ ValuePointer)} {key : Bytes}
    {entry : ℕ × ValuePointer} :
    entry ∈ (m.get? key).getD .empty ↔ ∃ versions, (key, versions) ∈ m ∧ entry ∈ versions := by
  cases found : m.get? key with
  | none =>
    have absent := SortedMap.get?_eq_none_iff.mp found
    constructor
    · intro member
      exact absurd member (SortedMap.not_mem_empty _)
    · rintro ⟨versions, member, -⟩
      exact absurd member (absent versions)
  | some versions =>
    have present := SortedMap.get?_eq_some_iff.mp found
    constructor
    · intro member
      exact ⟨versions, present, member⟩
    · rintro ⟨versions', present', member⟩
      rw [eq_of_mem present present']
      exact member

theorem mem_insert {w : Version} : v ∈ m.insert w ↔
    v = w ∨ ¬(v.key = w.key ∧ v.seq = w.seq) ∧ v ∈ m := by
  rw [mem_def]
  simp only [insert, SortedMap.mem_insert]
  by_cases hkey : v.key = w.key
  · have same : v = w ↔ (v.seq, v.pointer) = (w.seq, w.pointer) := by
      constructor
      · rintro rfl
        rfl
      · intro h
        cases v
        cases w
        simp_all
    rw [same]
    constructor
    · rintro ⟨versions, h | ⟨ne, -⟩, member⟩
      · obtain ⟨-, rfl⟩ := Prod.mk.inj h
        obtain new | ⟨hseq, old⟩ := SortedMap.mem_insert.mp member
        · exact .inl new
        · rw [← hkey] at old
          exact .inr ⟨fun h => hseq h.2, mem_getD_get?.mp old⟩
      · exact absurd hkey ne
    · rintro (new | ⟨other, old⟩)
      · exact ⟨_, .inl (Prod.ext hkey rfl), SortedMap.mem_insert.mpr (.inl new)⟩
      · refine ⟨_, .inl (Prod.ext hkey rfl), SortedMap.mem_insert.mpr (.inr ⟨?_, ?_⟩)⟩
        · exact fun hseq => other ⟨hkey, hseq⟩
        · rw [← hkey]
          exact mem_getD_get?.mpr old
  · have differ : v ≠ w := fun h => hkey (h ▸ rfl)
    constructor
    · rintro ⟨versions, h | ⟨-, old⟩, member⟩
      · exact absurd (Prod.mk.inj h).1 hkey
      · exact .inr ⟨fun h => hkey h.1, versions, old, member⟩
    · rintro (rfl | ⟨-, versions, old, member⟩)
      · exact absurd rfl differ
      · exact ⟨versions, .inr ⟨hkey, old⟩, member⟩

theorem mem_foldl_insert (member : v ∈ vs.foldl insert m) : v ∈ vs ∨ v ∈ m := by
  induction vs generalizing m with
  | nil => exact .inr member
  | cons w vs ih =>
    obtain later | inserted := ih member
    · exact .inl (.tail _ later)
    · obtain rfl | ⟨-, old⟩ := mem_insert.mp inserted
      · exact .inl (.head _)
      · exact .inr old

theorem mem_of_mem_ofVersions (member : v ∈ ofVersions vs) :
    v ∈ vs := (mem_foldl_insert member).resolve_right (not_mem_empty v)

/-- Nothing is overwritten when a key and a sequence number determine the version. -/
theorem mem_ofVersions (unambiguous : Versioned.Unambiguous {v | v ∈ vs}) :
    v ∈ ofVersions vs ↔ v ∈ vs := by
  refine ⟨mem_of_mem_ofVersions, fun member => ?_⟩
  suffices general : ∀ (ws : List Version) (m : Merged), (∀ w ∈ ws, w ∈ vs) →
      (v ∈ ws ∨ v ∈ m) → v ∈ ws.foldl insert m from
    general vs empty (fun _ h => h) (.inl member)
  intro ws
  induction ws with
  | nil =>
    intro m _ known
    simpa using known
  | cons w ws ih =>
    intro m sub known
    refine ih _ (fun x hx => sub x (.tail _ hx)) ?_
    by_cases place : v.key = w.key ∧ v.seq = w.seq
    · have same := unambiguous v member w (sub w (.head _)) place.1 place.2
      exact .inr (mem_insert.mpr (.inl same))
    · obtain inList | inMap := known
      · obtain rfl | later := mem_cons.mp inList
        · exact absurd ⟨rfl, rfl⟩ place
        · exact .inl later
      · exact .inr (mem_insert.mpr (.inr ⟨place, inMap⟩))

end Merged

def retainVersionsNeededByFloor (versions : SortedMap ℕ ValuePointer) (floor : Option ℕ) :
    SortedMap ℕ ValuePointer :=
  match versions.entries.getLast? with
  | none => versions
  | some latest =>
    let predecessor := floor.bind fun f =>
      (versions.entries.filter (·.1 ≤ f)).getLast?.map Prod.fst
    versions.filter fun e =>
      e.1 = latest.1 || floor.any (· ≤ e.1) || predecessor = some e.1

namespace Merged

/-- The versions that survive a compaction, by key and oldest first. -/
def retained (m : Merged) (floor : Option ℕ) : List Version :=
  m.map.entries.flatMap fun entry =>
    (retainVersionsNeededByFloor entry.2 floor).entries.map fun e => ⟨entry.1, e.1, e.2⟩

end Merged

/-- Kept are the latest version, all at or above the floor, and what a reader at the floor sees. -/
theorem mem_retainVersionsNeededByFloor {versions : SortedMap ℕ ValuePointer} {floor : Option ℕ}
    {entry : ℕ × ValuePointer} : entry ∈ retainVersionsNeededByFloor versions floor ↔
    entry ∈ versions ∧ ((∀ e ∈ versions, e.1 ≤ entry.1) ∨ ∃ f, floor = some f ∧
        (f ≤ entry.1 ∨ entry.1 ≤ f ∧ ∀ e ∈ versions, e.1 ≤ f → e.1 ≤ entry.1)) := by
  rw [retainVersionsNeededByFloor]
  split
  next none =>
    have absent : entry ∉ versions := by
      rw [mem_def, getLast?_eq_none_iff.mp none]
      exact not_mem_nil
    simp [absent]
  next latest last =>
    obtain ⟨inside, greatest⟩ := SortedMap.getLast?_eq_some_iff.mp last
    rw [SortedMap.mem_filter]
    refine and_congr_right fun member => ?_
    have isLatest : entry.1 = latest.1 ↔ ∀ e ∈ versions, e.1 ≤ entry.1 := by
      constructor
      · intro h e he
        exact h ▸ greatest e he
      · intro h
        exact le_antisymm (greatest entry member) (h latest inside)
    cases floor with
    | none => simp [isLatest]
    | some f =>
      have isPredecessor :
        (versions.entries.filter (·.1 ≤ f)).getLast?.map Prod.fst = some entry.1 ↔
            entry.1 ≤ f ∧ ∀ e ∈ versions, e.1 ≤ f → e.1 ≤ entry.1 := by
        constructor
        · intro h
          obtain ⟨last, found, hlast⟩ := Option.map_eq_some_iff.mp h
          obtain ⟨kept, above⟩ := getLast?_eq_some_iff (m := versions.filter fun e =>
            e.1 ≤ f).mp found
          rw [← hlast]
          refine ⟨by simpa using (SortedMap.mem_filter.mp kept).2, fun e he hf => ?_⟩
          exact above e (SortedMap.mem_filter.mpr ⟨he, by simpa using hf⟩)
        · rintro ⟨below, above⟩
          have found : (versions.filter fun e => e.1 ≤ f).entries.getLast? = some entry := by
            refine SortedMap.getLast?_eq_some_iff.mpr ⟨?_, fun e he => ?_⟩
            · exact SortedMap.mem_filter.mpr ⟨member, by simpa using below⟩
            · obtain ⟨he, hf⟩ := SortedMap.mem_filter.mp he
              exact above e he (by simpa using hf)
          exact Option.map_eq_some_iff.mpr ⟨entry, found, rfl⟩
      simp only [Option.bind_some, Option.any_some, Bool.or_eq_true, decide_eq_true_eq, isLatest,
        isPredecessor, or_assoc, Option.some.injEq, exists_eq_left']

namespace Merged

theorem unambiguous (m : Merged) : Versioned.Unambiguous {v | v ∈ m} := by
  rintro a ⟨versions, outer, inner⟩ b ⟨versions', outer', inner'⟩ hkey hseq
  have hkey : a.key = b.key := hkey
  have hseq : a.seq = b.seq := hseq
  rw [hkey] at outer
  rw [hseq] at inner
  obtain rfl := eq_of_mem outer outer'
  have hpointer := eq_of_mem inner inner'
  cases a
  cases b
  simp_all

theorem mem_retained {m : Merged} {floor : Option ℕ} {v : Version} :
    v ∈ m.retained floor ↔ Versioned.Needed {w | w ∈ m} floor v := by
  have ofKey : ∀ {versions}, (v.key, versions) ∈ m.map → ∀ {w : Version}, w ∈ m → w.key = v.key →
      (w.seq, w.pointer) ∈ versions := by
    rintro versions outer w ⟨versions', outer', inner'⟩ hkey
    rw [hkey] at outer'
    exact eq_of_mem outer' outer ▸ inner'
  constructor
  · intro member
    obtain ⟨⟨key, versions⟩, outer, inner⟩ := mem_flatMap.mp member
    obtain ⟨entry, kept, rfl⟩ := mem_map.mp inner
    obtain ⟨inside, rule⟩ := mem_retainVersionsNeededByFloor.mp kept
    refine ⟨⟨versions, outer, inside⟩, rule.imp ?_ ?_⟩
    · intro greatest w hw hkey
      exact greatest _ (ofKey outer hw hkey)
    · rintro ⟨f, hf, above | ⟨below, newest⟩⟩
      · exact ⟨f, hf, .inl above⟩
      · refine ⟨f, hf, .inr ⟨⟨versions, outer, inside⟩, rfl, below, fun w hw hkey hs => ?_⟩⟩
        exact newest _ (ofKey outer hw hkey) hs
  · rintro ⟨⟨versions, outer, inside⟩, rule⟩
    have version : ∀ e ∈ versions, (⟨v.key, e.1, e.2⟩ : Version) ∈ m := fun e he =>
      ⟨versions, outer, he⟩
    refine mem_flatMap.mpr ⟨(v.key, versions), outer, mem_map.mpr
      ⟨(v.seq, v.pointer), mem_retainVersionsNeededByFloor.mpr ⟨inside, rule.imp ?_ ?_⟩, rfl⟩⟩
    · intro greatest e he
      exact greatest _ (version e he) rfl
    · rintro ⟨f, hf, above | newest⟩
      · exact ⟨f, hf, .inl above⟩
      · exact ⟨f, hf, .inr ⟨newest.seq_le, fun e he hs => newest.max _ (version e he) rfl hs⟩⟩

/-- The survivors come sorted by key and oldest first, without repetition. -/
theorem sorted_retained (m : Merged) (floor : Option ℕ) :
    (m.retained floor).Pairwise fun a b => a.key < b.key ∨ a.key = b.key ∧ a.seq < b.seq := by
  rw [retained, pairwise_flatMap]
  refine ⟨fun entry _ => ?_, ?_⟩
  · rw [pairwise_map]
    exact (retainVersionsNeededByFloor entry.2 floor).sorted.imp fun lt => .inr ⟨rfl, lt⟩
  · refine m.map.sorted.imp fun lt a ha b hb => ?_
    obtain ⟨_, -, rfl⟩ := mem_map.mp ha
    obtain ⟨_, -, rfl⟩ := mem_map.mp hb
    exact .inl lt

theorem pairwise_retained (m : Merged) (floor : Option ℕ) :
    (m.retained floor).Pairwise fun a b => a.key ≤ b.key :=
  (m.sorted_retained floor).imp fun order => order.elim le_of_lt fun same => same.1.le

/-- No two survivors have the same key and sequence number. -/
theorem nodup_retained (m : Merged) (floor : Option ℕ) :
    ((m.retained floor).map fun v => (v.key, v.seq)).Nodup := by
  refine pairwise_map.mpr ((m.sorted_retained floor).imp fun {a b} order same => ?_)
  obtain ⟨key, seq⟩ := Prod.mk.inj same
  obtain less | less := order
  · exact less.ne key
  · exact less.2.ne seq

end Merged

end OmniKV
