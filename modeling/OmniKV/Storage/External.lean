import OmniKV.Data.Bytes

/-!
# The libraries under the engine

The engine calls a CRC-32 and an LZ4 implementation, and sizes its Bloom filters with
floating-point arithmetic. These are parameters of the model, together with the facts
about them that the engine relies on.
-/

namespace OmniKV

/-- Values above this size are refused by `WriteBatch`. -/
def maxValueSize : ℕ := 10 * 1024 * 1024

/-- The high bit of a stored length, set when the payload is stored uncompressed. -/
def uncompressedFlag : ℕ := 2 ^ 63

class Checksum where
  /-- `crc32fast::Hasher`, over the concatenation of all updates. -/
  crc32 : Bytes → UInt32

class External extends Checksum where
  /-- `lz4_flex::compress_prepend_size`. -/
  compress : Bytes → Bytes
  /-- `lz4_flex::decompress_size_prepended`. -/
  decompress : Bytes → Option Bytes
  /-- The number of words of a filter for so many elements. -/
  bloomWords : ℕ → ℕ
  /-- The number of hash functions of a filter for so many elements. -/
  bloomHashes : ℕ → ℕ
  /-- The checksum of a header of zero bytes is not zero: a page that was never
  written does not look like a record. -/
  crc32_zeros : crc32 (List.replicate 38 0) ≠ 0
  decompress_compress : ∀ value : Bytes, value.length ≤ maxValueSize → decompress (compress value) =
    some value
  /-- The size prefix alone is four bytes. -/
  compress_ne_nil : ∀ value : Bytes, compress value ≠ []
  /-- LZ4 expands its input by less than one part in a hundred, plus a constant. -/
  length_compress_lt : ∀ value : Bytes, value.length ≤ maxValueSize →
    (compress value).length < uncompressedFlag
  bloomWords_pos : ∀ n, 100 ≤ n → 0 < bloomWords n

export Checksum (crc32)
export External (compress decompress)

end OmniKV
