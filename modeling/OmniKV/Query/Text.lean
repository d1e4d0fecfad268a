import OmniKV.Query.Sql
import Mathlib.Data.List.DropRight

/-!
# Texts, words and tokens

A text is its UTF-8 bytes. A whitespace character may have more than one byte; as no other character
contains such bytes in a row, a text is cut where they occur. The legacy grammar reads the words
between whitespace, the SQL grammar tokens.
-/

namespace OmniKV.Sql

open List

/-- The whitespace characters of Unicode. -/
def spaces : List Bytes :=
  [[9], [10], [11], [12], [13], [32], [0xC2, 0x85], [0xC2, 0xA0], [0xE1, 0x9A, 0x80],
    [0xE2, 0x80, 0x80], [0xE2, 0x80, 0x81], [0xE2, 0x80, 0x82], [0xE2, 0x80, 0x83],
    [0xE2, 0x80, 0x84],
    [0xE2, 0x80, 0x85], [0xE2, 0x80, 0x86], [0xE2, 0x80, 0x87], [0xE2, 0x80, 0x88],
    [0xE2, 0x80, 0x89],
    [0xE2, 0x80, 0x8A], [0xE2, 0x80, 0xA8], [0xE2, 0x80, 0xA9], [0xE2, 0x80, 0xAF],
    [0xE2, 0x81, 0x9F], [0xE3, 0x80, 0x80]]

/-- The number of bytes of the whitespace character that a text starts with, or zero. -/
def spaceLength (text : Bytes) : ℕ :=
  ((spaces.find? fun space => space.isPrefixOf text).map List.length).getD 0

/-- The bytes of a text, each with whether it belongs to whitespace. -/
def markFrom : ℕ → Bytes → List (UInt8 × Bool)
  | _, [] => []
  | 0, b :: rest => (b, spaceLength (b :: rest) ≠ 0) :: markFrom (spaceLength (b :: rest) - 1) rest
  | n + 1, b :: rest => (b, true) :: markFrom n rest

def mark (text : Bytes) : List (UInt8 × Bool) := markFrom 0 text

def trim (text : Bytes) : Bytes :=
  (((mark text).dropWhile Prod.snd).rdropWhile Prod.snd).map Prod.fst

/-- `split_whitespace` -/
def words (text : Bytes) : List Bytes :=
  (((mark text).splitOnP Prod.snd).map (List.map Prod.fst)).filter (· ≠ [])

def join (tokens : List Bytes) : Bytes := List.intercalate [32] tokens

/-- `text.trim().trim_end_matches(';')` -/
def strip (text : Bytes) : Bytes := (trim text).rdropWhile (· = 59)

theorem spaceLength_eq_zero {text : Bytes} :
    spaceLength text = 0 ↔ ∀ space ∈ spaces, ¬space <+: text := by
  have solid : ∀ space ∈ spaces, space.length ≠ 0 := by decide
  rw [spaceLength]
  cases found : spaces.find? fun space => space.isPrefixOf text with
  | none => exact iff_of_true rfl fun space member le =>
    find?_eq_none.mp found space member (List.isPrefixOf_iff_prefix.mpr le)
  | some space =>
    have member := mem_of_find?_eq_some found
    have here := find?_some found
    exact iff_of_false (solid space member) fun none => none space member
      (List.isPrefixOf_iff_prefix.mp here)

theorem map_fst_markFrom (n : ℕ) (text : Bytes) : (markFrom n text).map Prod.fst = text := by
  induction text generalizing n with
  | nil => cases n <;> rfl
  | cons b text ih => cases n <;> rw [markFrom, map_cons, ih]

/-- What is left after leading whitespace does not start with whitespace. -/
theorem spaceLength_dropWhile (n : ℕ) (text : Bytes) :
    spaceLength (((markFrom n text).dropWhile Prod.snd).map Prod.fst) = 0 := by
  induction text generalizing n with
  | nil => cases n <;> rfl
  | cons b text ih =>
    cases n with
    | succ n => exact ih n
    | zero =>
      rw [markFrom, dropWhile_cons]
      split_ifs with space
      · exact ih _
      · rw [map_cons, map_fst_markFrom]
        simpa using space

theorem words_ne_nil {text : Bytes} (nonempty : text ≠ []) (start : spaceLength text = 0) :
    words text ≠ [] := by
  obtain ⟨b, rest, rfl⟩ := exists_cons_of_ne_nil nonempty
  rw [words, mark, markFrom, start, splitOnP_cons_eq_if_modifyHead]
  cases split : splitOnP Prod.snd (markFrom (0 - 1) rest) with
  | nil => exact absurd split (splitOnP_ne_nil _ _)
  | cons piece pieces => simp

/-- A text that is left after trimming has a word. -/
theorem words_strip {sql : Bytes} (nonempty : strip sql ≠ []) : words (strip sql) ≠ [] := by
  apply words_ne_nil nonempty
  have le : strip sql <+: ((mark sql).dropWhile Prod.snd).map Prod.fst :=
    ( rdropWhile_prefix _ _).trans (( rdropWhile_prefix _ _).map _)
  have start := spaceLength_eq_zero.mp (spaceLength_dropWhile 0 sql)
  exact spaceLength_eq_zero.mpr fun space member here => start space member (here.trans le)

theorem join_words_ne_nil {text : Bytes} (nonempty : words text ≠ []) : join (words text) ≠ [] := by
  have solid : ∀ word ∈ words text, word ≠ [] := fun word member =>
    of_decide_eq_true (mem_filter.mp member).2
  generalize words text = tokens at nonempty solid
  cases tokens with
  | nil => exact absurd rfl nonempty
  | cons word rest =>
    have first := solid word mem_cons_self
    cases rest <;> simp [join, first]

section

variable {f : UInt8 → UInt8}

theorem isPrefixOf_map {l : Bytes} (fixed : ∀ s ∈ l, ∀ b, f b = s ↔ b = s) (text : Bytes) :
    l.isPrefixOf (text.map f) = l.isPrefixOf text := by
  induction l generalizing text with
  | nil => rfl
  | cons s l ih =>
    cases text with
    | nil => rfl
    | cons b rest =>
      have here : (s == f b) = (s == b) := by
        rw [Bool.eq_iff_iff, beq_iff_eq, beq_iff_eq, eq_comm, fixed s mem_cons_self, eq_comm]
      rw [map_cons, isPrefixOf_cons_cons, isPrefixOf_cons_cons, here,
        ih (fun s inside => fixed s (mem_cons_of_mem _ inside))]

variable (fixed : ∀ space ∈ spaces, ∀ s ∈ space, ∀ b, f b = s ↔ b = s)

include fixed

theorem spaceLength_map (text : Bytes) : spaceLength (text.map f) = spaceLength text := by
  have same : (spaces.find? fun space => space.isPrefixOf (text.map f)) =
      spaces.find? fun space => space.isPrefixOf text := by
    rw [← head?_filter, ← head?_filter]
    exact congrArg _ (filter_congr fun space member => isPrefixOf_map (fixed space member) text)
  rw [spaceLength, same, spaceLength]

theorem markFrom_map (n : ℕ) (text : Bytes) :
    markFrom n (text.map f) = (markFrom n text).map (Prod.map f id) := by
  induction text generalizing n with
  | nil => cases n <;> rfl
  | cons b rest ih =>
    cases n with
    | zero =>
      have same := spaceLength_map fixed (b :: rest)
      rw [map_cons] at same
      rw [map_cons, markFrom, same, ih]
      rfl
    | succ n => rw [map_cons, markFrom, ih]; rfl

omit fixed in
theorem splitOnP_map_fst (marked : List (UInt8 × Bool)) :
    (marked.map (Prod.map f id)).splitOnP Prod.snd = (marked.splitOnP Prod.snd).map
      (List.map (Prod.map f id)) := by
  induction marked with
  | nil => rfl
  | cons entry rest ih =>
    rw [map_cons, splitOnP_cons_eq_if_modifyHead, splitOnP_cons_eq_if_modifyHead, ih, Prod.map_snd,
      id]
    split_ifs
    · rfl
    · cases List.splitOnP Prod.snd rest <;> rfl

/-- A change of characters that keeps whitespace as it is changes each word by itself. -/
theorem words_map (text : Bytes) : words (text.map f) = (words text).map (List.map f) := by
  have single : List.map (Prod.fst (β := Bool)) ∘ List.map (Prod.map f id) =
      List.map f ∘ List.map Prod.fst := by
    funext piece
    simp
  have empty : (fun word : Bytes => decide (word ≠ [])) ∘ List.map f = fun word =>
      decide (word ≠ []) := by
    funext word
    simp
  rw [words, mark, markFrom_map fixed, splitOnP_map_fst, map_map, single, ← map_map, filter_map,
    empty, words, mark]

omit fixed

theorem asciiUpper_eq_iff {s : UInt8} (same : asciiUpper s = s) (other : ¬(65 ≤ s ∧ s ≤ 90))
    (b : UInt8) : asciiUpper b = s ↔ b = s := by
  constructor
  · intro raised
    rw [asciiUpper] at raised
    split_ifs at raised with letter
    · subst raised
      simp only [UInt8.le_iff_toNat_le, UInt8.toNat_sub] at letter other
      simp at letter other
      omega
    · exact raised
  · rintro rfl
    exact same

theorem words_asciiUpper (text : Bytes) :
    words (text.map asciiUpper) = (words text).map (List.map asciiUpper) := by
  have fixed : ∀ space ∈ spaces, ∀ s ∈ space, asciiUpper s = s ∧ ¬(65 ≤ s ∧ s ≤ 90) := by
    decide +kernel
  exact words_map (fun space member s inside =>
    asciiUpper_eq_iff (fixed space member s inside).1 (fixed space member s inside).2) text

end
/-- A token that is complete, unless it is empty. -/
def flush (current : Bytes) : List Bytes := if current = [] then [] else [current]

/-- The tokens of the rest of a text, after the beginning of a token. The second flag skips a
character. -/
def tokenizeFrom : Bool → Bool → Bytes → List (UInt8 × Bool) → List Bytes
  | _, _, current, [] => flush current
  | inString, true, current, _ :: rest => tokenizeFrom inString false current rest
  | true, false, current, (b, _) :: rest =>
    if b = 39 then
      if rest.head?.map Prod.fst = some 39 then tokenizeFrom true true (current ++ [39, 39]) rest
      else (39 :: (current ++ [39])) :: tokenizeFrom false false [] rest
    else tokenizeFrom true false (current ++ [b]) rest
  | false, false, current, (b, space) :: rest =>
    let peek := rest.head?.map Prod.fst
    if b = 39 then flush current ++ tokenizeFrom true false [] rest
    else if b = 40 || b = 41 || b = 44 || b = 42 then
      flush current ++ [b] :: tokenizeFrom false false [] rest
    else if b = 33 && peek = some 61 then flush current ++ [33, 61] :: tokenizeFrom false true
    [] rest else if b = 60 || b = 62 then
      if peek = some 61 then flush current ++ [b, 61] :: tokenizeFrom false true [] rest
      else if b = 60 && peek = some 62 then flush current ++ [60, 62] :: tokenizeFrom false true
      [] rest else flush current ++ [b] :: tokenizeFrom false false [] rest
    else if b = 61 then flush current ++ [61] :: tokenizeFrom false false [] rest
    else if space then flush current ++ tokenizeFrom false false [] rest
    else tokenizeFrom false false (current ++ [b]) rest

def tokenize (text : Bytes) : List Bytes := tokenizeFrom false false [] (mark text)

end OmniKV.Sql
