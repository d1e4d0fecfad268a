import Mathlib.Data.Nat.Digits.Lemmas
import OmniKV.Data.Bytes

/-!
# Composite keys and ranges of keys

Records with the same leading fields are read by one range scan: the keys from a prefix up to the
prefix with `stop` behind it. A range of values is a range of keys if the values are written in a
code that keeps their order.
-/

namespace Bytes

open List

/-- Two keys whose first fields are free of the separator agree field by field. -/
theorem append_cons_inj {sep : UInt8} {a a' b b' : Bytes} (free : sep ∉ a) (free' : sep ∉ a')
    (same : a ++ sep :: b = a' ++ sep :: b') : a = a' ∧ b = b' := by
  induction a generalizing a' with
  | nil =>
    cases a' with
    | nil => exact ⟨rfl, (List.cons.inj same).2⟩
    | cons c a' => exact absurd (List.cons.inj same).1 (ne_of_not_mem_cons free')
  | cons c a ih =>
    cases a' with
    | nil => exact absurd (List.cons.inj same).1.symm (ne_of_not_mem_cons free)
    | cons c' a' =>
      obtain ⟨rfl, rest⟩ := List.cons.inj same
      obtain ⟨rfl, tail⟩ := ih (not_mem_of_not_mem_cons free) (not_mem_of_not_mem_cons free') rest
      exact ⟨rfl, tail⟩

/-- The decimal digits of a number, the most significant first. -/
def decimalDigits (n : ℕ) : List ℕ := if n = 0 then [0] else (Nat.digits 10 n).reverse

/-- A number as text. -/
def decimal (n : ℕ) : Bytes := (decimalDigits n).map fun d => UInt8.ofNat (48 + d)

variable {n : ℕ} {b : UInt8}

theorem decimalDigits_lt {d : ℕ} (member : d ∈ decimalDigits n) : d < 10 := by
  rw [decimalDigits] at member
  split_ifs at member with zero
  · rw [mem_singleton.mp member]
    decide
  · exact Nat.digits_lt_base (by decide) (mem_reverse.mp member)

theorem ofDigits_decimalDigits (n : ℕ) : Nat.ofDigits 10 (decimalDigits n).reverse = n := by
  rw [decimalDigits]
  split_ifs with zero
  · exact zero.symm
  · rw [reverse_reverse, Nat.ofDigits_digits]

theorem toNat_digit {d : ℕ} (small : d < 10) : (UInt8.ofNat (48 + d)).toNat = 48 + d := by
  rw [UInt8.toNat_ofNat']
  omega

/-- The bytes of a number are digits. -/
theorem toNat_of_mem_decimal (member : b ∈ decimal n) : 48 ≤ b.toNat ∧ b.toNat ≤ 57 := by
  obtain ⟨d, digit, rfl⟩ := mem_map.mp member
  have small := decimalDigits_lt digit
  rw [toNat_digit small]
  omega

theorem decimal_ne_nil (n : ℕ) : decimal n ≠ [] := by
  intro empty
  rw [decimal, map_eq_nil_iff, decimalDigits] at empty
  split_ifs at empty with zero
  exact zero (Nat.digits_eq_nil_iff_eq_zero.mp (reverse_eq_nil_iff.mp empty))

theorem not_mem_decimal (other : b.toNat < 48 ∨ 57 < b.toNat) (n : ℕ) : b ∉ decimal n := by
  intro member
  have digit := toNat_of_mem_decimal member
  omega

theorem map_digit_inj {l l' : List ℕ} (digits : ∀ d ∈ l, d < 10) (digits' : ∀ d ∈ l', d < 10)
    (same : l.map (fun d => UInt8.ofNat (48 + d)) = l'.map fun d => UInt8.ofNat (48 + d)) :
    l = l' := by
  induction l generalizing l' with
  | nil => exact (map_eq_nil_iff.mp same.symm).symm
  | cons d l ih =>
    cases l' with
    | nil => cases same
    | cons d' l' =>
      obtain ⟨first, rest⟩ := List.cons.inj same
      have equal := congrArg UInt8.toNat first
      rw [toNat_digit (digits d mem_cons_self), toNat_digit (digits' d' mem_cons_self)] at equal
      rw [ih (fun e he => digits e (mem_cons_of_mem _ he))
        (fun e he => digits' e (mem_cons_of_mem _ he)) rest, show d = d' by omega]

theorem decimal_inj {m : ℕ} (same : decimal n = decimal m) : n = m := by
  have digits : decimalDigits n = decimalDigits m :=
    map_digit_inj (fun _ => decimalDigits_lt) (fun _ => decimalDigits_lt) same
  rw [← ofDigits_decimalDigits n, digits, ofDigits_decimalDigits]

/-- A number as text, with zeros in front up to a width. -/
def padded (width n : ℕ) : Bytes := List.replicate (width - (decimal n).length) 48 ++ decimal n

theorem padded_eq_map (width n : ℕ) :
    padded width n = (List.replicate (width - (decimal n).length) 0 ++ decimalDigits n).map
      fun d => UInt8.ofNat (48 + d) := by
  rw [map_append, map_replicate]
  rfl

theorem padded_inj {width m : ℕ} (same : padded width n = padded width m) : n = m := by
  have zeros : ∀ k, (∀ d ∈ List.replicate k 0 ++ decimalDigits n, d < 10) ∧
      ∀ d ∈ List.replicate k 0 ++ decimalDigits m, d < 10 := by
    intro k
    constructor <;>
    · intro d member
      obtain zero | digit := mem_append.mp member
      · exact (eq_of_mem_replicate zero) ▸ (by decide)
      · exact decimalDigits_lt digit
  have number : ∀ k i, Nat.ofDigits 10 (List.replicate k 0 ++ decimalDigits i).reverse = i := by
    intro k i
    rw [reverse_append, reverse_replicate, Nat.ofDigits_append, Nat.ofDigits_replicate_zero,
      mul_zero, add_zero, ofDigits_decimalDigits]
  rw [padded_eq_map, padded_eq_map] at same
  have digits := map_digit_inj (zeros _).1 (zeros _).2 same
  rw [← number (width - (decimal n).length) n, digits, number]

theorem not_mem_padded (other : b.toNat < 48 ∨ 57 < b.toNat) (width n : ℕ) :
    b ∉ padded width n := by
  intro member
  obtain zero | digit := mem_append.mp member
  · rw [eq_of_mem_replicate zero] at other
    exact absurd other (by decide)
  · exact not_mem_decimal other n digit

def hexDigit (d : UInt8) : UInt8 := if d < 10 then 48 + d else 87 + d

def hexEncode (data : Bytes) : Bytes := data.flatMap fun b => [hexDigit (b / 16), hexDigit (b % 16)]

theorem div_sixteen (b : UInt8) : b / 16 = .ofNat (b.toNat / 16) := by
  have := b.toNat_lt
  rw [← UInt8.toNat_inj, UInt8.toNat_div, UInt8.toNat_ofNat', show (16 : UInt8).toNat = 16 from rfl]
  omega

theorem mod_sixteen (b : UInt8) : b % 16 = .ofNat (b.toNat % 16) := by
  rw [← UInt8.toNat_inj, UInt8.toNat_mod, UInt8.toNat_ofNat', show (16 : UInt8).toNat = 16 from rfl]
  omega

theorem hexDigits_inj {c : UInt8} (high : hexDigit (b / 16) = hexDigit (c / 16))
    (low : hexDigit (b % 16) = hexDigit (c % 16)) : b = c := by
  have digit : ∀ d e : Fin 16, hexDigit (.ofNat d) = hexDigit (.ofNat e) → d = e := by decide
  have hb := b.toNat_lt
  have hc := c.toNat_lt
  rw [div_sixteen, div_sixteen] at high
  rw [mod_sixteen, mod_sixteen] at low
  have first := Fin.mk.inj (digit ⟨b.toNat / 16, by omega⟩ ⟨c.toNat / 16, by omega⟩ high)
  have second := Fin.mk.inj (digit ⟨b.toNat % 16, by omega⟩ ⟨c.toNat % 16, by omega⟩ low)
  rw [← UInt8.toNat_inj]
  omega

theorem hexEncode_inj {a b : Bytes} (same : hexEncode a = hexEncode b) : a = b := by
  induction a generalizing b with
  | nil =>
    cases b with
    | nil => rfl
    | cons c b => cases same
  | cons x a ih =>
    cases b with
    | nil => cases same
    | cons y b =>
      simp only [hexEncode, flatMap_cons, cons_append, List.cons.injEq] at same
      obtain ⟨high, low, rest⟩ := same
      rw [hexDigits_inj high low, ih rest]

theorem zero_not_mem_hexEncode (data : Bytes) : 0 ∉ hexEncode data := by
  intro member
  obtain ⟨b, -, digit⟩ := mem_flatMap.mp member
  have filled : ∀ d : Fin 16, (0 : UInt8) ≠ hexDigit (.ofNat d) := by decide
  have small := b.toNat_lt
  simp only [mem_cons, not_mem_nil, or_false, div_sixteen, mod_sixteen] at digit
  obtain first | second := digit
  · exact filled ⟨b.toNat / 16, by omega⟩ first
  · exact filled ⟨b.toNat % 16, by omega⟩ second

theorem nil_le (k : Bytes) : [] ≤ k := not_lt.mp (not_lt_nil k)

theorem cons_le_cons_iff {c : UInt8} {p k : Bytes} : b :: p ≤ c :: k ↔ b < c ∨ b = c ∧ p ≤ k := by
  rw [le_iff_lt_or_eq, cons_lt_cons_iff, List.cons.injEq, le_iff_lt_or_eq]
  tauto

theorem le_append (p rest : Bytes) : p ≤ p ++ rest := by
  induction p with
  | nil => exact nil_le _
  | cons b p ih => exact cons_le_cons_iff.mpr (.inr ⟨rfl, ih⟩)

theorem append_le_append_iff {p a b : Bytes} : p ++ a ≤ p ++ b ↔ a ≤ b := by
  induction p with
  | nil => rfl
  | cons c p ih => simp [cons_le_cons_iff, ih]

/-- The keys from a prefix to the prefix followed by `stop`. -/
theorem between_append_iff {p k stop : Bytes} :
    p ≤ k ∧ k ≤ p ++ stop ↔ ∃ rest, k = p ++ rest ∧ rest ≤ stop := by
  induction p generalizing k with
  | nil => simp [nil_le]
  | cons b p ih =>
    cases k with
    | nil =>
      refine ⟨fun h => absurd h.1 (not_le.mpr (nil_lt_cons b p)), ?_⟩
      rintro ⟨rest, same, -⟩
      cases same
    | cons c k =>
      rw [cons_append, cons_le_cons_iff, cons_le_cons_iff]
      constructor
      · rintro ⟨above | ⟨rfl, above⟩, below | ⟨same, below⟩⟩
        · exact absurd (above.trans below) (lt_irrefl _)
        · exact absurd same above.ne'
        · exact absurd below (lt_irrefl _)
        · obtain ⟨rest, rfl, bound⟩ := ih.mp ⟨above, below⟩
          exact ⟨rest, rfl, bound⟩
      · rintro ⟨rest, same, bound⟩
        cases same
        obtain ⟨above, below⟩ := ih.mpr ⟨rest, rfl, bound⟩
        exact ⟨.inr ⟨rfl, above⟩, .inr ⟨rfl, below⟩⟩

/-- The texts differ at some place, and the first is smaller there. -/
def Below (a b : Bytes) : Prop := ∃ p x y r s, a = p ++ x :: r ∧ b = p ++ y :: s ∧ x < y

theorem Below.append {a b : Bytes} (below : Below a b) (p r s : Bytes) :
    Below (p ++ a ++ r) (p ++ b ++ s) := by
  obtain ⟨q, x, y, r', s', rfl, rfl, less⟩ := below
  exact ⟨p ++ q, x, y, r' ++ r, s' ++ s, by simp, by simp, less⟩

theorem Below.lt {a b : Bytes} (below : Below a b) : a < b := by
  obtain ⟨p, x, y, r, s, rfl, rfl, less⟩ := below
  induction p with
  | nil => exact cons_lt_cons_iff.mpr (.inl less)
  | cons c p ih => exact cons_lt_cons_iff.mpr (.inr ⟨rfl, ih⟩)

theorem below_or_leads (a b : Bytes) : Below a b ∨ Below b a ∨ (∃ r, b = a ++ r) ∨ ∃ c r,
    a = b ++ c :: r := by
  induction a generalizing b with
  | nil => exact .inr (.inr (.inl ⟨b, rfl⟩))
  | cons x a ih =>
    cases b with
    | nil => exact .inr (.inr (.inr ⟨x, a, rfl⟩))
    | cons y b =>
      obtain less | rfl | more := lt_trichotomy x y
      · exact .inl ⟨[], x, y, a, b, rfl, rfl, less⟩
      · simpa using (ih b).imp (fun below => below.append [x] [] [])
          (Or.imp_left fun below => below.append [x] [] [])
      · exact .inr (.inl ⟨[], y, x, b, a, rfl, rfl, more⟩)

theorem Below.not_leads {a b : Bytes} (below : Below a b) : ¬a <+: b := by
  obtain ⟨p, x, y, r, s, rfl, rfl, less⟩ := below
  rw [prefix_append_right_inj, cons_prefix_cons]
  exact fun same => less.ne same.1

theorem lt_append_cons (a : Bytes) (c : UInt8) (r : Bytes) : a < a ++ c :: r :=
  lt_of_le_of_ne (le_append a _) (by simp)

/-- Words for bytes that differ at some place, in the order of the bytes, and begin between a
separator and the end of a range. -/
structure OrderedCode (f : UInt8 → Bytes) : Prop where
  first : ∀ b, ∃ x r, f b = x :: r ∧ 0 < x ∧ x < 126
  below : ∀ b c, b < c → Below (f b) (f c)

namespace OrderedCode

variable {f : UInt8 → Bytes} (code : OrderedCode f) (v w : Bytes)
include code

theorem below_flatMap {v w : Bytes} (below : Below v w) : Below (v.flatMap f) (w.flatMap f) := by
  obtain ⟨p, x, y, r, s, rfl, rfl, less⟩ := below
  simpa using (code.below x y less).append (p.flatMap f) (r.flatMap f) (s.flatMap f)

/-- A code is at most a code that a separator follows in the order of the values. -/
theorem le_separated_iff (rest : Bytes) : v.flatMap f ≤ w.flatMap f ++ 0 :: rest ↔ v ≤ w := by
  obtain below | above | ⟨r, rfl⟩ | ⟨c, r, rfl⟩ := below_or_leads v w
  · have codes := (code.below_flatMap below).append [] [] (0 :: rest)
    exact iff_of_true (by simpa using codes.lt.le) below.lt.le
  · have codes := (code.below_flatMap above).append [] (0 :: rest) []
    exact iff_of_false (by simpa using codes.lt) (not_le.mpr above.lt)
  · rw [flatMap_append, append_assoc]
    exact iff_of_true (le_append _ _) (le_append _ _)
  · obtain ⟨x, s, word, positive, -⟩ := code.first c
    have codes : Below (w.flatMap f ++ 0 :: rest) ((w ++ c :: r).flatMap f) :=
      ⟨w.flatMap f, 0, x, rest, s ++ r.flatMap f, rfl, by simp [word], positive⟩
    exact iff_of_false (not_le.mpr codes.lt) (not_le.mpr (lt_append_cons w c r))

/-- Behind the code of a value, up to `~~`, are the smaller values and those that begin with it. -/
theorem separated_le_stop_iff (rest : Bytes) :
    v.flatMap f ++ 0 :: rest ≤ w.flatMap f ++ [126, 126] ↔ v ≤ w ∨ w <+: v := by
  obtain below | above | ⟨r, rfl⟩ | ⟨c, r, rfl⟩ := below_or_leads v w
  · have codes := (code.below_flatMap below).append [] (0 :: rest) [126, 126]
    exact iff_of_true (by simpa using codes.lt.le) (.inl below.lt.le)
  · have codes := (code.below_flatMap above).append [] [126, 126] (0 :: rest)
    exact iff_of_false (by simpa using codes.lt) (not_or.mpr ⟨not_le.mpr above.lt, above.not_leads⟩)
  · refine iff_of_true (Below.lt ?_).le (.inl (le_append _ _))
    cases r with
    | nil => exact ⟨v.flatMap f, 0, 126, rest, [126], rfl, by simp, by decide⟩
    | cons c r =>
      obtain ⟨x, s, word, positive, -⟩ := code.first c
      exact ⟨v.flatMap f, 0, x, rest, s ++ r.flatMap f ++ [126, 126], rfl, by simp [word], positive⟩
  · obtain ⟨x, s, word, -, small⟩ := code.first c
    refine iff_of_true (Below.lt ?_).le (.inr (List.prefix_append _ _))
    exact ⟨w.flatMap f, x, 126, s ++ r.flatMap f ++ 0 :: rest, [126], by simp [word], rfl, small⟩

end OrderedCode

theorem hexDigit_lt {d e : ℕ} (less : d < e) (small : e < 16) :
    hexDigit (.ofNat d) < hexDigit (.ofNat e) := by
  have digits : ∀ d e : Fin 16, d < e → hexDigit (.ofNat d) < hexDigit (.ofNat e) := by decide
  exact digits ⟨d, less.trans small⟩ ⟨e, small⟩ less

theorem orderedCode_hex : OrderedCode fun b => [hexDigit (b / 16), hexDigit (b % 16)] where
  first b := by
    have digits : ∀ d : Fin 16, 0 < hexDigit (.ofNat d) ∧ hexDigit (.ofNat d) < 126 := by decide
    have small := b.toNat_lt
    exact ⟨_, _, rfl, div_sixteen b ▸ digits ⟨b.toNat / 16, by omega⟩⟩
  below b c less := by
    have order := UInt8.lt_iff_toNat_lt.mp less
    have hc := c.toNat_lt
    simp only [div_sixteen, mod_sixteen]
    obtain high | high := Nat.lt_or_eq_of_le (Nat.div_le_div_right order.le)
    · exact ⟨[], _, _, _, _, rfl, rfl, hexDigit_lt high (by omega)⟩
    · exact ⟨[_], _, _, [], [], rfl, by rw [high]; rfl, hexDigit_lt (by omega) (by omega)⟩

theorem OrderedCode.escaped {f : UInt8 → Bytes} (code : OrderedCode f) :
    OrderedCode fun b => (if b = 0 then [0, 1] else [b]).flatMap f where
  first b := by
    split_ifs with zero
    · obtain ⟨x, r, word, bounds⟩ := code.first 0
      exact ⟨x, r ++ f 1, by simp [word], bounds⟩
    · simpa using code.first b
  below b c less := by
    have filled : c ≠ 0 := by
      rintro rfl
      exact absurd less (by simp [UInt8.lt_iff_toNat_lt])
    split_ifs with zero
    · simpa [zero] using (code.below 0 c (zero ▸ less)).append [] (f 1) []
    · simpa using code.below b c less

/-- Big-endian words are in the order of the numbers. -/
theorem below_reverse_le {w n m : ℕ} (less : n < m) (small : m < 256 ^ w) :
    Below (le w n).reverse (le w m).reverse := by
  induction w generalizing n m with
  | zero => omega
  | succ w ih =>
    rw [le, le, reverse_cons, reverse_cons]
    obtain high | high := Nat.lt_or_eq_of_le (Nat.div_le_div_right less.le)
    · exact (ih high (Nat.div_lt_of_lt_mul (by rwa [pow_succ'] at small))).append [] _ _
    · refine ⟨_, _, _, [], [], rfl, by rw [high], ?_⟩
      rw [UInt8.lt_iff_toNat_lt, UInt8.toNat_ofNat', UInt8.toNat_ofNat']
      omega

theorem reverse_le_iff {w m n : ℕ} (hm : m < 256 ^ w) (hn : n < 256 ^ w) :
    (le w m).reverse ≤ (le w n).reverse ↔ m ≤ n := by
  obtain less | rfl | more := lt_trichotomy m n
  · exact iff_of_true (below_reverse_le less hn).lt.le less.le
  · exact iff_of_true le_rfl le_rfl
  · exact iff_of_false (not_le.mpr (below_reverse_le more hm).lt) (not_le.mpr more)

end Bytes
