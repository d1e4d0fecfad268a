import OmniKV.Storage.External

/-!
# Bloom filters

Each table has a filter over the hashes of its keys. A lookup skips a table whose
filter rejects the key, so a filter may never reject a key that was added to it.
-/

namespace OmniKV

open List
open Bytes (le)

/-- `FnvHasher` fed with the given bytes. -/
def fnv (bytes : Bytes) : UInt64 :=
  bytes.foldl (fun h b => (h ^^^ b.toUInt64) * 0x100000001b3) 0xcbf29ce484222325

/-- The hash of a key. Hashing a byte vector writes its length first. -/
def hashKey (key : Bytes) : UInt64 := fnv (le 8 key.length ++ key)

/-- The bit array is kept in 64-bit words. -/
structure BloomFilter where
  bitset : List ℕ
  numBits : ℕ
  numHashes : ℕ
deriving DecidableEq, Repr

namespace BloomFilter

def new [External] (expectedElements : ℕ) : BloomFilter :=
  let words := External.bloomWords expectedElements
  ⟨List.replicate words 0, words * 64, External.bloomHashes expectedElements⟩

def setBit (bitset : List ℕ) (idx : ℕ) : List ℕ :=
  bitset.modify (idx / 64) (· ||| 1 <<< (idx % 64))

def testBit (bitset : List ℕ) (idx : ℕ) : Bool :=
  (bitset.getD (idx / 64) 0) &&& (1 <<< (idx % 64)) != 0

section

variable (hash : UInt64 → UInt64)

/-- The bits of a key, with any hash of 64-bit words in place of the engine's. -/
def hashesWith (f : BloomFilter) (key : UInt64) : List ℕ :=
  let hash1 := hash key
  let hash2 := hash hash1
  (List.range f.numHashes).map fun i => (hash1 + UInt64.ofNat i * hash2).toNat % f.numBits

def addWith (f : BloomFilter) (key : UInt64) : BloomFilter :=
  if f.numBits = 0 then f else { f with bitset := (f.hashesWith hash key).foldl setBit f.bitset }

def mightContainWith (f : BloomFilter) (key : UInt64) : Bool :=
  if f.numBits = 0 then false else (f.hashesWith hash key).all (testBit f.bitset)

end

/-- The hash of the engine. -/
def fnvWord (word : UInt64) : UInt64 := fnv (le 8 word.toNat)

def hashes (f : BloomFilter) (key : UInt64) : List ℕ := f.hashesWith fnvWord key

def add (f : BloomFilter) (key : UInt64) : BloomFilter := f.addWith fnvWord key

def mightContain (f : BloomFilter) (key : UInt64) : Bool := f.mightContainWith fnvWord key

def ofKeys [External] (expectedElements : ℕ) (keys : List Bytes) : BloomFilter :=
  keys.foldl (fun f key => f.add (hashKey key)) (new expectedElements)

/-- The shape that `new` gives a filter: all its bits are there. -/
structure WellFormed (f : BloomFilter) : Prop where
  positive : 0 < f.numBits
  size : f.numBits = f.bitset.length * 64

variable {bitset : List ℕ} {idx : ℕ} {f : BloomFilter}

theorem testBit_setBit_self (inside : idx / 64 < bitset.length) :
    testBit (setBit bitset idx) idx := by
  have one : 1 <<< (idx % 64) ≠ 0 := by
    rw [Nat.one_shiftLeft]
    exact (Nat.two_pow_pos _).ne'
  simp [testBit, setBit, getD_eq_getElem?_getD, getElem?_eq_getElem inside,
    Nat.and_or_distrib_right, one]

/-- Setting a bit clears no other. -/
theorem testBit_setBit_of_testBit {other : ℕ} (set : testBit bitset other) :
    testBit (setBit bitset idx) other := by
  simp only [testBit, setBit, getD_eq_getElem?_getD, getElem?_modify, bne_iff_ne, ne_eq]
    at set ⊢
  split_ifs with same
  · cases word : bitset[other / 64]? with
    | none => simp [word] at set
    | some w =>
      simp only [word, Option.getD_some, Option.map_eq_map, Option.map_some] at set ⊢
      rw [Nat.and_or_distrib_right, Nat.or_eq_zero_iff]
      exact fun h => set h.1
  · simpa using set

@[simp] theorem length_setBit (bitset : List ℕ) (idx : ℕ) :
    (setBit bitset idx).length = bitset.length := length_modify ..

theorem length_foldl_setBit (bitset idxs : List ℕ) :
    (idxs.foldl setBit bitset).length = bitset.length := by
  induction idxs generalizing bitset with
  | nil => rfl
  | cons idx idxs ih => rw [foldl_cons, ih, length_setBit]

theorem testBit_foldl_setBit_of_testBit {idxs : List ℕ} {other : ℕ}
    (set : testBit bitset other) : testBit (idxs.foldl setBit bitset) other := by
  induction idxs generalizing bitset with
  | nil => exact set
  | cons idx idxs ih => exact ih (testBit_setBit_of_testBit set)

theorem testBit_foldl_setBit {idxs : List ℕ} (member : idx ∈ idxs)
    (inside : idx / 64 < bitset.length) : testBit (idxs.foldl setBit bitset) idx := by
  induction idxs generalizing bitset with
  | nil => cases member
  | cons first idxs ih =>
    rw [foldl_cons]
    obtain rfl | rest := mem_cons.mp member
    · exact testBit_foldl_setBit_of_testBit (testBit_setBit_self inside)
    · exact ih rest (by simpa using inside)

section

variable {hash : UInt64 → UInt64}

theorem WellFormed.addWith (wf : f.WellFormed) (key : UInt64) :
    (f.addWith hash key).WellFormed := by
  rw [BloomFilter.addWith, if_neg wf.positive.ne']
  exact ⟨wf.positive, by simpa [length_foldl_setBit] using wf.size⟩

theorem WellFormed.foldl_addWith (wf : f.WellFormed) (keys : List UInt64) :
    (keys.foldl (BloomFilter.addWith hash) f).WellFormed := by
  induction keys generalizing f with
  | nil => exact wf
  | cons key keys ih => exact ih (wf.addWith key)

theorem hashesWith_addWith (f : BloomFilter) (key other : UInt64) :
    (f.addWith hash key).hashesWith hash other = f.hashesWith hash other := by
  unfold BloomFilter.addWith
  split_ifs <;> rfl

theorem WellFormed.inside (wf : f.WellFormed) {key : UInt64}
    (member : idx ∈ f.hashesWith hash key) : idx / 64 < f.bitset.length := by
  obtain ⟨i, -, rfl⟩ := mem_map.mp member
  refine Nat.div_lt_of_lt_mul ?_
  rw [Nat.mul_comm, ← wf.size]
  exact Nat.mod_lt _ wf.positive

theorem mightContainWith_addWith_self (wf : f.WellFormed) (key : UInt64) :
    (f.addWith hash key).mightContainWith hash key := by
  rw [mightContainWith, if_neg (wf.addWith key).positive.ne', hashesWith_addWith, all_eq_true]
  intro idx member
  rw [BloomFilter.addWith, if_neg wf.positive.ne']
  exact testBit_foldl_setBit member (wf.inside member)

theorem mightContainWith_addWith_of_mightContainWith (wf : f.WellFormed) {key other : UInt64}
    (contains : f.mightContainWith hash other) :
    (f.addWith hash key).mightContainWith hash other := by
  rw [mightContainWith, if_neg wf.positive.ne', all_eq_true] at contains
  rw [mightContainWith, if_neg (wf.addWith key).positive.ne', hashesWith_addWith, all_eq_true]
  intro idx member
  rw [BloomFilter.addWith, if_neg wf.positive.ne']
  exact testBit_foldl_setBit_of_testBit (contains idx member)

theorem mightContainWith_foldl_addWith (wf : f.WellFormed) {keys : List UInt64} {key : UInt64}
    (known : key ∈ keys ∨ f.mightContainWith hash key) :
    (keys.foldl (addWith hash) f).mightContainWith hash key := by
  induction keys generalizing f with
  | nil => simpa using known
  | cons first keys ih =>
    refine ih (wf.addWith _) ?_
    obtain member | contains := known
    · obtain rfl | rest := mem_cons.mp member
      · exact .inr (mightContainWith_addWith_self wf _)
      · exact .inl rest
    · exact .inr (mightContainWith_addWith_of_mightContainWith wf contains)

/-- After any sequence of additions a filter rejects none of the keys, and the words that `add` and
`mightContain` touch next are there, with every hash. -/
theorem mightContainWith_of_mem (hash : UInt64 → UInt64) (wf : f.WellFormed) (keys : List UInt64) :
    let filter := keys.foldl (addWith hash) f
    (∀ key ∈ keys, filter.mightContainWith hash key) ∧
      ∀ key, ∀ idx ∈ filter.hashesWith hash key, idx / 64 < filter.bitset.length :=
  ⟨fun _ member => mightContainWith_foldl_addWith wf (.inl member),
    fun _ _ member => (wf.foldl_addWith keys).inside member⟩

theorem mightContainWith_of_mem_sample :
    (([5, 9].foldl (addWith (· + 70)) ⟨[0, 0], 128, 3⟩).mightContainWith (· + 70) 5) ∧
      ([5, 9].foldl (addWith (· + 70)) ⟨[0, 0], 128, 3⟩).mightContainWith (· + 70) 9 :=
  have both := (mightContainWith_of_mem (· + 70) (f := ⟨[0, 0], 128, 3⟩) ⟨by decide, rfl⟩ [5, 9]).1
  ⟨both 5 (by decide), both 9 (by decide)⟩

end

theorem WellFormed.new [External] {n : ℕ} (many : 100 ≤ n) : (new n).WellFormed where
  positive := Nat.mul_pos (External.bloomWords_pos n many) (by decide)
  size := by simp [BloomFilter.new]

theorem mightContain_ofKeys [External] {n : ℕ} (many : 100 ≤ n) {keys : List Bytes} {key : Bytes}
    (member : key ∈ keys) : (ofKeys n keys).mightContain (hashKey key) := by
  have added : ((keys.map hashKey).foldl (addWith fnvWord) (new n)).mightContainWith fnvWord
      (hashKey key) :=
    mightContainWith_foldl_addWith (.new many) (.inl (mem_map_of_mem member))
  rwa [foldl_map] at added

end BloomFilter

end OmniKV
