import OmniKV.Data.Newest
import OmniKV.Storage.External

/-!
# Records and their encoding

A record is one version of a key: a pointer to the value's bytes in the heap file, or a tombstone,
whose length is zero. Records have one byte format, used in the write-ahead log and in table files.
-/

namespace OmniKV

open Bytes

/-- What a version points to: heap offset, flagged length, checksum and expiry time, zero for never.
-/
structure ValuePointer where
  offset : ℕ
  length : ℕ
  crc : UInt32
  expiry : UInt64
deriving DecidableEq, Repr

/-- One version of a key, as every tier of the store holds it. -/
structure Version where
  key : Bytes
  seq : ℕ
  pointer : ValuePointer
deriving DecidableEq, Repr

instance : Versioned Version Bytes := ⟨Version.key, Version.seq⟩

@[simp] theorem versioned_key (v : Version) : Versioned.key v = v.key := rfl

@[simp] theorem versioned_seq (v : Version) : Versioned.seq v = v.seq := rfl

/-- A version with length zero marks a deleted key. -/
def Version.IsTombstone (v : Version) : Prop := v.pointer.length = 0
deriving Decidable

structure OmniRecord where
  seq : ℕ
  key : Bytes
  offset : ℕ
  length : ℕ
  crc32 : UInt32
  payloadCrc32 : UInt32
  expiry : UInt64
deriving DecidableEq, Repr

namespace OmniRecord

variable (r : OmniRecord)

/-- The pointer that a memtable or a merge keeps of a record. -/
def pointer : ValuePointer := ⟨r.offset, r.length, r.payloadCrc32, r.expiry⟩

def version : Version := ⟨r.key, r.seq, r.pointer⟩

structure Fits (r : OmniRecord) : Prop where
  seq : r.seq < 2 ^ 64
  key : r.key.length < 2 ^ 16
  offset : r.offset < 2 ^ 64
  length : r.length < 2 ^ 64

def checked : Bytes :=
  le 8 r.seq ++ le 2 r.key.length ++ r.key ++ le 8 r.offset ++ le 8 r.length ++
    le 4 r.payloadCrc32.toNat ++ le 8 r.expiry.toNat

@[simp] theorem length_checked : r.checked.length = 38 + r.key.length := by
  simp only [checked, List.length_append, length_le]
  omega

def encode : Bytes := r.checked ++ le 4 r.crc32.toNat

@[simp] theorem length_encode : r.encode.length = 42 + r.key.length := by
  simp only [encode, List.length_append, length_checked, length_le]
  omega

/-- The bytes of a record and what follows them, field by field. -/
def fields (rest : Bytes) : List Bytes :=
  [le 8 r.seq, le 2 r.key.length, r.key, le 8 r.offset, le 8 r.length, le 4 r.payloadCrc32.toNat,
    le 8 r.expiry.toNat, le 4 r.crc32.toNat, rest]

variable {r} in
theorem slice_encode {rest part : Bytes} {i j : ℕ} (k : ℕ) (field : (r.fields rest)[k]? = some part)
    (start : ((r.fields rest).take k).flatten.length = i) (stop : i + part.length = j) :
    slice (r.encode ++ rest) i j = part := by
  refine slice_eq_of_eq_append _ ((r.fields rest).drop (k + 1)).flatten ?_ start stop
  obtain ⟨inside, rfl⟩ := List.getElem?_eq_some_iff.mp field
  have layout : r.encode ++ rest = (r.fields rest).flatten := by simp [encode, checked, fields]
  rw [layout, ← List.flatten_cons, ← List.flatten_append, List.getElem_cons_drop,
    List.take_append_drop]

variable [Checksum]

def computeCrc (r : OmniRecord) : UInt32 := Checksum.crc32 r.checked

def isValid (r : OmniRecord) : Bool := r.crc32 == r.computeCrc

/-- A record with its checksum filled in. -/
def new (seq : ℕ) (key : Bytes) (offset length : ℕ) (payloadCrc32 : UInt32) (expiry : UInt64) :
    OmniRecord :=
  let r : OmniRecord := ⟨seq, key, offset, length, 0, payloadCrc32, expiry⟩
  { r with crc32 := r.computeCrc }

/-- Read one record from the front of `buf`, with the number of bytes it takes. -/
def decode (buf : Bytes) : Option (OmniRecord × ℕ) :=
  if buf.length < 42 then none else
  let keyLen := ofLe (slice buf 8 10)
  if buf.length < 42 + keyLen then none else
  let off := 10 + keyLen
  let r : OmniRecord :=
    { seq := ofLe (slice buf 0 8)
      key := slice buf 10 (10 + keyLen)
      offset := ofLe (slice buf off (off + 8))
      length := ofLe (slice buf (off + 8) (off + 16))
      payloadCrc32 := .ofNat (ofLe (slice buf (off + 16) (off + 20)))
      expiry := .ofNat (ofLe (slice buf (off + 20) (off + 28)))
      crc32 := .ofNat (ofLe (slice buf (off + 28) (off + 32))) }
  if r.isValid then some (r, 42 + keyLen) else none

theorem isValid_new (seq : ℕ) (key : Bytes) (offset length : ℕ) (crc : UInt32)
    (expiry : UInt64) : (new seq key offset length crc expiry).isValid := by
  simp [new, isValid, computeCrc, checked]

variable {r : OmniRecord} {buf : Bytes}

theorem decode_encode (fits : r.Fits) (valid : r.isValid) (rest : Bytes) :
    decode (r.encode ++ rest) = some (r, r.encode.length) := by
  have size : (r.encode ++ rest).length = 42 + r.key.length + rest.length := by simp
  have klen : ofLe (le 2 r.key.length) = r.key.length := ofLe_le_of_lt fits.key
  have hseq : slice (r.encode ++ rest) 0 8 = le 8 r.seq := slice_encode 0 rfl rfl (by simp)
  have hlen : slice (r.encode ++ rest) 8 10 = le 2 r.key.length :=
    slice_encode 1 rfl (by simp [fields]) (by simp)
  have hkey : slice (r.encode ++ rest) 10 (10 + r.key.length) = r.key :=
    slice_encode 2 rfl (by simp [fields]) rfl
  have word {part : Bytes} {i j : ℕ} (k : ℕ) (field : (r.fields rest)[k]? = some part)
      (start : ((r.fields rest).take k).flatten.length = 10 + r.key.length + i)
      (stop : i + part.length = j) :
      slice (r.encode ++ rest) (10 + r.key.length + i) (10 + r.key.length + j) = part :=
    slice_encode k field start (by omega)
  have hoffset : slice (r.encode ++ rest) (10 + r.key.length) (10 + r.key.length + 8) =
      le 8 r.offset :=
    slice_encode 3 rfl (by simp [fields]; omega) (by simp)
  have hlength := word (i := 8) (j := 16) 4 rfl (by simp [fields]; omega) (by simp)
  have hpayload := word (i := 16) (j := 20) 5 rfl (by simp [fields]; omega) (by simp)
  have hexpiry := word (i := 20) (j := 28) 6 rfl (by simp [fields]; omega) (by simp)
  have hcrc := word (i := 28) (j := 32) 7 rfl (by simp [fields]; omega) (by simp)
  rw [decode, if_neg (by omega), hlen, klen]
  simp only [hseq, hkey, hoffset, hlength, hpayload, hexpiry, hcrc]
  rw [if_neg (by omega), ofLe_le_of_lt fits.seq, ofLe_le_of_lt fits.offset,
    ofLe_le_of_lt fits.length, ofLe_le_of_lt (w := 4) r.payloadCrc32.toNat_lt,
    ofLe_le_of_lt (w := 8) r.expiry.toNat_lt, ofLe_le_of_lt (w := 4) r.crc32.toNat_lt]
  simp only [UInt32.ofNat_toNat, UInt64.ofNat_toNat, length_encode]
  exact if_pos valid

/-- A record cut short anywhere is not read: its length field still tells how many
bytes are missing. -/
theorem decode_eq_none_of_truncated (key : r.key.length < 2 ^ 16) {cut : Bytes}
    (isPrefix : cut <+: r.encode) (short : cut.length < r.encode.length) : decode cut = none := by
  rw [decode]
  by_cases header : cut.length < 42
  · exact if_pos header
  · obtain ⟨missing, hmissing⟩ := isPrefix
    have hlen : slice cut 8 10 = le 2 r.key.length := by
      have whole : slice (r.encode ++ []) 8 10 = le 2 r.key.length :=
        slice_encode 1 rfl (by simp [fields]) (by simp)
      rw [← whole, List.append_nil, ← hmissing, slice_append_of_le _ (by omega)]
    have klen : ofLe (le 2 r.key.length) = r.key.length := ofLe_le_of_lt key
    rw [length_encode] at short
    rw [if_neg header, hlen, klen]
    exact if_pos short

/-- Decoding reports how many bytes it used, and never more than there are. -/
theorem decode_bounds {used : ℕ} (read : decode buf = some (r, used)) :
    42 ≤ used ∧ used ≤ buf.length := by
  simp only [decode] at read
  split_ifs at read
  obtain ⟨-, rfl⟩ := Prod.mk.inj (Option.some.inj read)
  omega

/-- Decoding looks at the bytes of the record in front and no others. -/
theorem decode_append (header : 42 ≤ buf.length) (key : 42 + ofLe (slice buf 8 10) ≤ buf.length)
    (rest : Bytes) : decode (buf ++ rest) = decode buf := by
  have length : (buf ++ rest).length = buf.length + rest.length := List.length_append
  have field : slice (buf ++ rest) 8 10 = slice buf 8 10 := slice_append_of_le rest (by omega)
  have short : ¬(buf ++ rest).length < 42 := by omega
  have cut : ¬(buf ++ rest).length < 42 + ofLe (slice buf 8 10) := by omega
  simp (disch := omega) only [decode, if_neg short, if_neg header.not_gt, field, if_neg cut,
    if_neg key.not_gt, slice_append_of_le]

/-- The length of a key of 65536 bytes is written as zero, so its record is read without the key. -/
theorem decode_encode_of_wrapped {head tail : Bytes} (key : r.key = head ++ tail)
    (size : head.length = 32) (wrapped : r.key.length % 65536 = 0) (rest : Bytes) :
    decode (r.encode ++ rest) = decode (le 8 r.seq ++ le 2 0 ++ head) := by
  have field : le 2 r.key.length = le 2 0 := (le_mod 2 r.key.length).symm.trans
    (congrArg (le 2) wrapped)
  have layout : r.encode ++ rest = (le 8 r.seq ++ le 2 0 ++ head) ++
    (tail ++ le 8 r.offset ++ le 8 r.length ++
      le 4 r.payloadCrc32.toNat ++ le 8 r.expiry.toNat ++ le 4 r.crc32.toNat ++ rest) := by
    rw [encode, checked, field, key]
    simp only [List.append_assoc]
  have length : (le 8 r.seq ++ le 2 0 ++ head).length = 42 := by
    rw [List.length_append, List.length_append, length_le, length_le, size]
  have empty : slice (le 8 r.seq ++ le 2 0 ++ head) 8 10 = le 2 0 :=
    slice_eq_of_eq_append (le 8 r.seq) head (List.append_assoc ..) (length_le 8 _) rfl
  rw [layout, decode_append length.ge]
  rw [empty, length]
  decide

/-- A record that is read is valid, fits its fields, and is what the bytes in front encode. -/
theorem encode_of_decode {used : ℕ} (read : decode buf = some (r, used)) :
    r.isValid ∧ r.Fits ∧ r.encode = buf.take used := by
  simp only [decode] at read
  split_ifs at read with short cut valid
  obtain ⟨rfl, rfl⟩ := Prod.mk.inj (Option.some.inj read)
  have word {i w n : ℕ} (inside : i + w ≤ buf.length) (width : 256 ^ w = n) :
      ofLe (slice buf i (i + w)) < n := by
    have bound := ofLe_lt (slice buf i (i + w))
    rwa [length_slice inside, Nat.add_sub_cancel_left, width] at bound
  have keyLength : (slice buf 10 (10 + ofLe (slice buf 8 10))).length = ofLe (slice buf 8 10) := by
    rw [length_slice (by omega), Nat.add_sub_cancel_left]
  refine ⟨valid, ⟨word (w := 8) (by omega) rfl, ?_, word (w := 8) (by omega) rfl,
    word (w := 8) (by omega) rfl⟩, ?_⟩
  · rw [keyLength]
    exact word (w := 2) (by omega) rfl
  · have field {i w : ℕ} (inside : i + w ≤ buf.length) :
        le w (ofLe (slice buf i (i + w))) = slice buf i (i + w) :=
      le_ofLe_slice inside
    rw [encode, checked, keyLength, UInt32.toNat_ofNat_of_lt' (word (w := 4) (by omega) rfl),
      UInt64.toNat_ofNat_of_lt' (word (w := 8) (by omega) rfl),
      UInt32.toNat_ofNat_of_lt' (word (w := 4) (by omega) rfl), field (i := 0) (w := 8) (by omega),
      field (i := 8) (w := 2) (by omega), field (w := 8) (by omega), field (w := 8) (by omega),
      field (w := 4) (by omega), field (w := 8) (by omega), field (w := 4) (by omega)]
    simp (disch := omega) only [slice_append_slice]
    rw [slice]
    congr 1
    omega

/-- Encoding and decoding are exact, whatever the checksum: a record is read back with the bytes it
took, and the bytes that were read are those of the record. -/
theorem decode_exact :
    (∀ (seq : UInt64) (key : Bytes) (offset length : UInt64)
      (payloadCrc32 : UInt32) (expiry : UInt64)
      (rest : Bytes), key.length ≤ 65535 →
      let r := new seq.toNat key offset.toNat length.toNat payloadCrc32 expiry
      decode (r.encode ++ rest) = some (r, r.encode.length)) ∧
    ∀ (buf : Bytes) (r : OmniRecord) (used : ℕ), decode buf = some (r, used) →
      buf.take used = r.encode ∧ r.encode.length = used := by
  constructor
  · intro seq key offset length payloadCrc32 expiry rest short r
    have fits : r.Fits := ⟨seq.toNat_lt, Nat.lt_succ_of_le short, offset.toNat_lt, length.toNat_lt⟩
    exact decode_encode fits (isValid_new ..) rest
  · intro buf r used read
    obtain ⟨-, -, front⟩ := encode_of_decode read
    refine ⟨front.symm, ?_⟩
    rw [front, List.length_take, Nat.min_eq_left (decode_bounds read).2]

end OmniRecord

end OmniKV
