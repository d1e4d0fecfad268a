import Mathlib.Data.List.MinMax
import OmniKV.Storage.Reference
import OmniKV.Storage.Sstable

/-!
# Where lookups in a table are exact

A lookup starts at the last block whose first key is at most the key. If a block starts inside the
versions of a key, those before it are never looked at; the block may also hold smaller keys, which
iteration returns first.
-/

namespace OmniKV

open SSTableReader List

variable (records : List OmniRecord)

/-- The order of flush and compaction: by key, and no two versions of a key have one number. -/
def Written : Prop :=
  records.Pairwise fun a b => a.key < b.key ∨ a.key = b.key ∧ a.seq ≠ b.seq

/-- The record of a key with the greatest sequence number at most `seq`. -/
def newest? (key : Bytes) (seq : ℕ) : Option OmniRecord :=
  (records.filter fun r => r.key = key ∧ r.seq ≤ seq).argmax OmniRecord.seq

/-- The record behind `front` starts a block. -/
def StartsBlock (records front : List OmniRecord) (r : OmniRecord) : Prop :=
  (r.key, (recordBytes front).length) ∈ blockIndex none 0 records

def Unsplit (key : Bytes) : Prop :=
  ∀ front r rest, records = front ++ r :: rest → StartsBlock records front r → r.key = key →
    ∀ x ∈ front, x.key ≠ key

/-- The records from the key on are the whole table or start with a block of the key. -/
def OpensAt (key : Bytes) : Prop :=
  (∀ r ∈ records, key ≤ r.key) ∨
    ∃ front r rest, records = front ++ r :: rest ∧ StartsBlock records front r ∧ r.key = key ∧
      ∀ x ∈ front, x.key < key

variable {records : List OmniRecord} {key : Bytes}

theorem Written.eq_of_seq_eq (written : Written records) {r r' : OmniRecord}
    (member : r ∈ records) (member' : r' ∈ records) (keys : r.key = r'.key)
    (seqs : r.seq = r'.seq) : r = r' := by
  have nodup : (records.map fun r => (r.key, r.seq)).Nodup := by
    refine pairwise_map.mpr (written.imp fun {a b} apart same => ?_)
    obtain ⟨key, seq⟩ := Prod.mk.inj same
    obtain less | ⟨-, other⟩ := apart
    · exact less.ne key
    · exact other seq
  exact inj_on_of_nodup_map nodup member member' (Prod.ext keys seqs)

theorem newest?_eq_some_iff (written : Written records) {seq : ℕ} {r : OmniRecord} :
    newest? records key seq = some r ↔ r ∈ records ∧ r.key = key ∧ r.seq ≤ seq ∧
      ∀ x ∈ records, x.key = key → x.seq ≤ seq → x.seq ≤ r.seq := by
  rw [newest?]
  constructor
  · intro found
    have member := argmax_mem found
    simp only [mem_filter, decide_eq_true_eq] at member
    refine ⟨member.1, member.2.1, member.2.2, fun x hx hk hs => ?_⟩
    refine le_of_mem_argmax ?_ found
    simpa using ⟨hx, hk, hs⟩
  · rintro ⟨member, hk, hs, greatest⟩
    have candidate : r ∈ records.filter fun r => r.key = key ∧ r.seq ≤ seq := by
      simpa using ⟨member, hk, hs⟩
    cases found : (records.filter fun r => r.key = key ∧ r.seq ≤ seq).argmax OmniRecord.seq with
    | none =>
      rw [argmax_eq_none.mp found] at candidate
      cases candidate
    | some r' =>
      have member' := argmax_mem found
      simp only [mem_filter, decide_eq_true_eq] at member'
      have same : r'.seq = r.seq := le_antisymm (greatest r' member'.1 member'.2.1 member'.2.2)
        (le_of_mem_argmax candidate found)
      rw [written.eq_of_seq_eq member'.1 member (member'.2.1.trans hk.symm) same]

theorem newest?_eq_none_iff {seq : ℕ} :
    newest? records key seq = none ↔ ∀ x ∈ records, x.key = key → seq < x.seq := by
  simp [newest?, filter_eq_nil_iff]

/-- A record that is left out is missed by the lookup at its own number. -/
theorem newest?_append_iff {before after : List OmniRecord} (written : Written (before ++ after)) :
    (∀ seq, newest? after key seq = newest? (before ++ after) key seq) ↔
      ∀ x ∈ before, x.key ≠ key := by
  constructor
  · rintro same x member rfl
    have found : newest? (before ++ after) x.key x.seq = some x :=
      (newest?_eq_some_iff written).mpr ⟨mem_append_left _ member, rfl, le_rfl, fun _ _ _ h => h⟩
    have later := (pairwise_append.mp written).2.1
    rw [← same, newest?_eq_some_iff later] at found
    obtain less | ⟨-, seqs⟩ := (pairwise_append.mp written).2.2 x member x found.1
    · exact less.ne rfl
    · exact seqs rfl
  · intro none seq
    have skipped : before.filter (fun r => r.key = key ∧ r.seq ≤ seq) = [] := by
      rw [filter_eq_nil_iff]
      intro x member here
      exact none x member (of_decide_eq_true here).1
    rw [newest?, newest?, filter_append, skipped, nil_append]

/-- A sorted list is what is left out and what follows, if the key lies between. -/
theorem eq_filter_iff (before after : List OmniRecord) (key : Bytes) :
    (after = (before ++ after).filter fun r => key ≤ r.key) ↔
      (∀ x ∈ before, x.key < key) ∧ ∀ x ∈ after, key ≤ x.key := by
  constructor
  · intro same
    have inside : ∀ x ∈ after, key ≤ x.key := fun x member => by
      rw [same] at member
      exact of_decide_eq_true (mem_filter.mp member).2
    have all : after.filter (fun r => key ≤ r.key) = after :=
      filter_eq_self.mpr fun x member => decide_eq_true (inside x member)
    have length := congrArg List.length same
    rw [filter_append, length_append, all] at length
    have none := filter_eq_nil_iff.mp (length_eq_zero_iff.mp (by omega :
      (before.filter fun r => decide (key ≤ r.key)).length = 0))
    exact ⟨fun x member => not_le.mp fun le => none x member (decide_eq_true le), inside⟩
  · rintro ⟨below, above⟩
    rw [filter_append, filter_eq_nil_iff.mpr, filter_eq_self.mpr, nil_append]
    · exact fun x member => decide_eq_true (above x member)
    · exact fun x member le => absurd (of_decide_eq_true le) (not_le.mpr (below x member))

theorem pairwise_blockIndex {start : Option ℕ} {offset : ℕ} (sorted : KeySorted records) :
    (blockIndex start offset records).Pairwise fun e e' => e.1 ≤ e'.1 ∧ e.2 ≤ e'.2 := by
  induction records generalizing start offset with
  | nil => exact .nil
  | cons r rs ih =>
    obtain ⟨above, tail⟩ := pairwise_cons.mp sorted
    rw [blockIndex]
    split_ifs
    · refine pairwise_cons.mpr ⟨fun e member => ?_, ih tail⟩
      obtain ⟨before, r', after, rfl, hkey, hoffset, -⟩ := mem_blockIndex member
      exact ⟨hkey ▸ above r' (by simp), by simp only [hoffset]; omega⟩
    · exact ih tail

/-- The search in the index stops at the last entry with a key up to the target. -/
theorem seek_cases {entries : List (Bytes × ℕ)}
    (sorted : entries.Pairwise fun e e' => e.1 ≤ e'.1 ∧ e.2 ≤ e'.2) (target : Bytes) :
    (seek entries target = 0 ∧ ∀ e ∈ entries, ¬e.1 ≤ target) ∨
      ∃ e ∈ entries, e.1 ≤ target ∧ seek entries target = e.2 ∧ ∀ e' ∈ entries, e'.1 ≤ target →
      e'.2 ≤ e.2 := by
  have inRun : ∀ e ∈ entries, e.1 ≤ target → e ∈ entries.takeWhile fun e => e.1 ≤ target := by
    intro e member reached
    have split := takeWhile_append_dropWhile (p := fun e : Bytes × ℕ => decide (e.1 ≤ target))
      (l := entries)
    rw [← split] at member sorted
    refine (mem_append.mp member).resolve_right fun late => ?_
    cases rest : entries.dropWhile fun e => decide (e.1 ≤ target) with
    | nil =>
      rw [rest] at late
      cases late
    | cons first more =>
      have past : ¬first.1 ≤ target := by
        have := head_dropWhile_not (fun e : Bytes × ℕ => decide (e.1 ≤ target)) (by rw [rest]; simp)
        simpa [rest] using this
      have later := (pairwise_append.mp sorted).2.1
      rw [rest] at late later
      obtain rfl | inMore := mem_cons.mp late
      · exact past reached
      · exact past (((pairwise_cons.mp later).1 e inMore).1.trans reached)
  cases chosen : (entries.takeWhile fun e => e.1 ≤ target).getLast? with
  | none =>
    refine .inl ⟨by simp [seek, chosen], fun e member reached => ?_⟩
    have := inRun e member reached
    rw [getLast?_eq_none_iff.mp chosen] at this
    cases this
  | some e =>
    have member := mem_of_getLast? chosen
    refine .inr ⟨e, (takeWhile_sublist _).subset member, by simpa using mem_takeWhile_imp member,
      by simp [seek, chosen], fun e' member' reached => ?_⟩
    obtain ⟨front, run⟩ := getLast?_eq_some_iff.mp chosen
    have order := sorted.sublist (takeWhile_sublist fun e : Bytes × ℕ => decide (e.1 ≤ target))
    have inFront := inRun e' member' reached
    rw [run] at order inFront
    obtain early | last := mem_append.mp inFront
    · exact ((pairwise_append.mp order).2.2 e' early e (mem_singleton_self e)).2
    · rw [mem_singleton.mp last]

/-- Two beginnings of a table, the shorter of which in bytes begins the other. -/
theorem prefix_of_length_le {front before : List OmniRecord} (first : front <+: records)
    (second : before <+: records) (le : (recordBytes front).length ≤ (recordBytes before).length) :
    front <+: before := by
  obtain shorter | ⟨more, rfl⟩ := prefix_or_prefix_of_prefix first second
  · exact shorter
  · have none : more.length ≤ 0 := by
      have count := length_le_length_recordBytes more
      simp only [recordBytes_append, length_append] at le
      omega
    rw [length_eq_zero_iff.mp (Nat.le_zero.mp none), append_nil]

section

variable [External]

theorem scanBest_eq_newest? {records : List OmniRecord} (sorted : KeySorted records)
    (valid : ∀ r ∈ records, r.isValid) (written : Written records) (key : Bytes) (seq : ℕ) :
    scanBest key seq none records = newest? records key seq := by
  obtain ⟨hit, miss⟩ := scanBest_spec key seq sorted valid none
  cases found : scanBest key seq none records with
  | none => exact (newest?_eq_none_iff.mpr (miss found).2).symm
  | some r =>
    obtain ⟨origin, -, greatest⟩ := hit r found
    obtain ⟨member, hk, hs⟩ := origin.resolve_left nofun
    exact ((newest?_eq_some_iff written).mpr ⟨member, hk, hs, greatest⟩).symm

namespace TableRecords

variable {records : List OmniRecord}

/-- Iteration leaves out the records in front of the last block whose first key is at most
the start key. -/
theorem exists_skipped (table : TableRecords records) (key : Bytes) :
    ∃ before after, records = before ++ after ∧ iterFrom (encodeTable records) key = after ∧
      (before = [] ∨ ∃ r rest, after = r :: rest ∧ r.key ≤ key ∧ StartsBlock records before r) ∧
      ∀ front r rest, records = front ++ r :: rest → StartsBlock records front r → r.key ≤ key →
        front <+: before := by
  obtain ⟨zero, none⟩ | ⟨e, member, reached, chosen, last⟩ :=
    seek_cases (pairwise_blockIndex table.sorted) key
  · refine ⟨[], records, rfl, iterFrom_of_seek table (nil_append _).symm zero, .inl rfl, ?_⟩
    exact fun front r rest _ starts reached => absurd reached (none _ starts)
  · obtain ⟨before, r, after, split, hkey, hoffset, -⟩ := mem_blockIndex member
    rw [Nat.zero_add] at hoffset
    have starts : StartsBlock records before r := by
      rw [StartsBlock, ← hkey, ← hoffset]
      exact member
    refine ⟨before, r :: after, split, iterFrom_of_seek table split (chosen.trans hoffset),
      .inr ⟨r, after, rfl, hkey ▸ reached, starts⟩, fun front r' rest split' starts' reached' => ?_⟩
    exact prefix_of_length_le ⟨_, split'.symm⟩ ⟨_, split.symm⟩ (hoffset ▸ last _ starts' reached')

/-- A lookup leaves out a version of its key exactly if a block starts inside them. -/
theorem unsplit_iff (table : TableRecords records) {key : Bytes} {before after : List OmniRecord}
    (split : records = before ++ after)
    (block : before = [] ∨ ∃ r rest, after = r :: rest ∧ r.key ≤ key ∧ StartsBlock records before r)
    (last : ∀ front r rest, records = front ++ r :: rest → StartsBlock records front r →
    r.key ≤ key → front <+: before) : (∀ x ∈ before, x.key ≠ key) ↔ Unsplit records key := by
  constructor
  · intro none front r rest split' starts named x member
    exact none x ((last front r rest split' starts named.le).subset member)
  · intro unsplit x member named
    obtain rfl | ⟨r, rest, rfl, reached, starts⟩ := block
    · cases member
    · have sorted := table.sorted
      rw [split] at sorted
      have next := (pairwise_append.mp sorted).2.2 x member r mem_cons_self
      exact unsplit before r rest split starts (le_antisymm reached (named ▸ next)) x member named

end TableRecords

/-- Lookups of a key are exact if and only if no block starts inside its versions; iteration if,
besides, it starts with the table or with a block of the key. -/
theorem table_lookup_exact_iff {records : List OmniRecord} (table : TableRecords records)
    (written : Written records) (key : Bytes) :
    ((∀ seq, findRecord (encodeTable records) key seq = newest? records key seq) ↔
      Unsplit records key) ∧
      (iterFrom (encodeTable records) key = (records.filter fun r => key ≤ r.key) ↔
        Unsplit records key ∧ OpensAt records key) := by
  obtain ⟨before, after, split, iterated, block, last⟩ := table.exists_skipped key
  have skipped := table.unsplit_iff split block last
  have sorted := table.sorted
  rw [split] at sorted
  obtain ⟨-, sortedAfter, across⟩ := pairwise_append.mp sorted
  constructor
  · have whole := written
    rw [split] at whole
    rw [← skipped, ← newest?_append_iff whole, ← split]
    refine forall_congr' fun seq => ?_
    rw [findRecord, iterated, scanBest_eq_newest? sortedAfter
      (fun r member => table.valid r (split ▸ mem_append_right _ member))
      (pairwise_append.mp whole).2.1]
  · rw [iterated, ← skipped]
    have cut := eq_filter_iff before after key
    rw [← split] at cut
    rw [cut]
    constructor
    · rintro ⟨below, above⟩
      refine ⟨fun x member => (below x member).ne, ?_⟩
      obtain rfl | ⟨r, rest, rfl, reached, starts⟩ := block
      · exact .inl (split ▸ above)
      · exact .inr ⟨before, r, rest, split, starts, le_antisymm reached (above r mem_cons_self),
          below⟩
    · rintro ⟨none, whole | ⟨front, r, rest, split', starts, named, below⟩⟩
      · rw [split] at whole
        have empty : before = [] := by
          obtain empty | ⟨r, rest, rfl, reached, -⟩ := block
          · exact empty
          · -- A record in front of the block would be a version of the key.
            refine eq_nil_iff_forall_not_mem.mpr fun x member => none x member ?_
            have next := across x member r mem_cons_self
            exact le_antisymm (next.trans reached) (whole x (mem_append_left _ member))
        subst empty
        exact ⟨nofun, whole⟩
      · obtain ⟨more, rfl⟩ := last front r rest split' starts named.le
        have empty : more = [] := by
          cases more with
          | nil => rfl
          | cons x more =>
            rw [split, append_assoc, append_cancel_left_eq] at split'
            obtain ⟨rfl, -⟩ := List.cons.inj split'
            exact absurd named (none x (by simp))
        subst empty
        rw [append_nil] at split ⊢
        rw [split, append_cancel_left_eq] at split'
        subst split'
        refine ⟨below, fun x member => ?_⟩
        obtain rfl | later := mem_cons.mp member
        · exact named.ge
        · exact named ▸ (pairwise_cons.mp sortedAfter).1 x later

end

namespace TableLookup

open Reference

/-- Version `seq` of a key, with a value of one byte. -/
def version (key : Bytes) (seq : ℕ) : OmniRecord := .new seq key seq 1 0 0

theorem tableRecords_versions (entries : List (Bytes × ℕ)) (sorted : entries.Pairwise fun a b =>
    a.1 ≤ b.1) (keys : ∀ e ∈ entries, e.1.length < 2 ^ 16 ∧ e.2 < 2 ^ 64)
    (size : (recordBytes (entries.map fun e => version e.1 e.2)).length < 2 ^ 64) :
    TableRecords (entries.map fun e => version e.1 e.2) := by
  refine ⟨pairwise_map.mpr sorted, fun r member => ?_, fun r member => ?_, size⟩
  · obtain ⟨e, -, rfl⟩ := mem_map.mp member
    exact OmniRecord.isValid_new ..
  · obtain ⟨e, he, rfl⟩ := mem_map.mp member
    exact ⟨(keys e he).2, (keys e he).1, (keys e he).2, show 1 < 2 ^ 64 by decide⟩

/-- A key whose record fills a block. -/
def longKey : Bytes := List.replicate 4096 97

/-- Two versions of the long key, the newest first, as a flush writes them. -/
def split : List OmniRecord := [version longKey 2, version longKey 1]

theorem length_longKey : longKey.length = 4096 := length_replicate

theorem tableRecords_split : TableRecords split := by
  refine tableRecords_versions [(longKey, 2), (longKey, 1)] (by simp) ?_ ?_
  · simp [length_longKey]
  · simp [version, OmniRecord.new, length_longKey]

theorem seek_split :
    seek (blockIndex none 0 split) longKey = (recordBytes [version longKey 2]).length := by
  have key : ∀ seq, (version longKey seq).key = longKey := fun _ => rfl
  simp [split, seek, blockIndex, nextBlock, length_longKey, blockSize, key]

/-- The lookup at 2 returns version 1 although version 2 is in the table. -/
theorem find_misses_newest : TableRecords split ∧ Written split ∧
    newest? split longKey 2 = some (version longKey 2) ∧
      find (encodeTable split) longKey 2 = some (version longKey 1).pointer ∧
      (version longKey 1).pointer ≠ (version longKey 2).pointer := by
  have written : Written split := by simp [Written, split, version, OmniRecord.new]
  refine ⟨tableRecords_split, written, (newest?_eq_some_iff written).mpr ?_, ?_, by decide⟩
  · simp [split, version, OmniRecord.new]
  · have iterated : iterFrom (encodeTable split) longKey = [version longKey 1] :=
      iterFrom_of_seek tableRecords_split (show split = [version longKey 2] ++ [version longKey 1]
        from rfl) seek_split
    rw [find, findRecord, iterated, scanBest, if_neg (show ¬longKey < (version longKey 1).key
      from lt_irrefl _), if_pos]
    · rfl
    · exact ⟨rfl, OmniRecord.isValid_new .., by decide, rfl⟩

/-- Two versions of `a` and one of `b`, in one block. -/
def short : List OmniRecord :=
  [version (Bytes.ofString "a") 2, version (Bytes.ofString "a") 1, version (Bytes.ofString "b") 3]

theorem blockIndex_short : blockIndex none 0 short = [(Bytes.ofString "a", 0)] := by decide

theorem lookup_in_one_block :
    (∀ seq, findRecord (encodeTable short) (Bytes.ofString "a") seq = newest? short
      (Bytes.ofString "a") seq) ∧
      iterFrom (encodeTable short) (Bytes.ofString "a") = short.filter fun r =>
      Bytes.ofString "a" ≤ r.key := by
  have table : TableRecords short := tableRecords_versions
    [(Bytes.ofString "a", 2), (Bytes.ofString "a", 1), (Bytes.ofString "b", 3)]
    (by decide) (by decide +kernel) (by decide +kernel)
  have written : Written short := by
    rw [Written]
    decide
  have unsplit : Unsplit short (Bytes.ofString "a") := by
    intro front r rest _ starts _ x member
    rw [StartsBlock, blockIndex_short, mem_singleton] at starts
    have count := length_le_length_recordBytes front
    have none :
      front = [] := length_eq_zero_iff.mp (Nat.le_zero.mp (count.trans (Prod.mk.inj starts).2.le))
    rw [none] at member
    cases member
  obtain ⟨finds, iterates⟩ := table_lookup_exact_iff table written (Bytes.ofString "a")
  exact ⟨finds.mpr unsplit, iterates.mpr ⟨unsplit, .inl (by decide)⟩⟩

end TableLookup

end OmniKV
