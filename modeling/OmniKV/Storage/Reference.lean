import OmniKV.Storage.External

/-!
# Concrete libraries

An instance of the libraries under the engine, for evaluating it on small inputs: CRC-32 as
`crc32fast` computes it, a compression that stores its input, and filters of the size that the
source's formula gives for up to a hundred elements.
-/

namespace OmniKV.Reference

/-- Shift one bit out of the checksum register. -/
def crcBit (c : ℕ) : ℕ := if c % 2 = 1 then (c / 2) ^^^ 0xEDB88320 else c / 2

def crcByte (c : ℕ) (b : UInt8) : ℕ := Nat.repeat crcBit 8 (c ^^^ b.toNat)

def crc32 (data : Bytes) : UInt32 := .ofNat (data.foldl crcByte 0xFFFFFFFF ^^^ 0xFFFFFFFF)

example : crc32 (Bytes.ofString "123456789") = 0xCBF43926 := by decide +kernel

def compress (value : Bytes) : Bytes := Bytes.le 4 value.length ++ value

def decompress (stored : Bytes) : Option Bytes :=
  if stored.length < 4 then none else some (stored.drop 4)

theorem length_compress_lt {value : Bytes} (h : value.length ≤ maxValueSize) :
    (compress value).length < uncompressedFlag := by
  simp only [compress, List.length_append, Bytes.length_le, uncompressedFlag]
  simp only [maxValueSize] at h
  omega

theorem words_pos {n : ℕ} (h : 100 ≤ n) : 0 < (959 * n / 100 + 63) / 64 := by
  omega

scoped instance external : External where
  crc32 := crc32
  compress := compress
  decompress := decompress
  bloomWords n := (959 * n / 100 + 63) / 64
  bloomHashes _ := 7
  crc32_zeros := by decide +kernel
  decompress_compress value _ := by simp [compress, decompress]
  compress_ne_nil value := by simp [compress, Bytes.le]
  length_compress_lt _ h := length_compress_lt h
  bloomWords_pos _ h := words_pos h

end OmniKV.Reference
