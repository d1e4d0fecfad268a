import Mathlib.Data.List.Basic
import Mathlib.Order.Lattice

/-!
# Finite maps as strictly sorted association lists

The representation is canonical: two maps with the same lookups are equal, and
iteration visits the keys in ascending order. The sortedness proof is a field, so
every value of the type is well formed.
-/

structure SortedMap (K V : Type*) [LinearOrder K] where
  entries : List (K × V)
  sorted : entries.Pairwise (fun a b => a.1 < b.1)

namespace SortedMap

open List

variable {K V : Type*} [LinearOrder K] {m : SortedMap K V} {a : K × V} {k : K} {v : V}
  {l : List (K × V)}

@[ext] theorem ext {n : SortedMap K V} (h : m.entries = n.entries) : m = n := by
  cases m
  cases n
  simpa using h

instance [DecidableEq V] : DecidableEq (SortedMap K V) := fun m n =>
  decidable_of_iff (m.entries = n.entries) ⟨ext, congrArg entries⟩

instance : Membership (K × V) (SortedMap K V) := ⟨fun m a => a ∈ m.entries⟩

theorem mem_def : a ∈ m ↔ a ∈ m.entries := Iff.rfl

def empty : SortedMap K V := ⟨[], .nil⟩

@[simp] theorem entries_empty : (empty : SortedMap K V).entries = [] := rfl

@[simp] theorem not_mem_empty (a : K × V) : a ∉ (empty : SortedMap K V) := not_mem_nil

/-- Ordered insertion, replacing the value of a key that is already there. -/
def insertEntry (k : K) (v : V) : List (K × V) → List (K × V)
  | [] => [(k, v)]
  | e :: rest =>
    if k < e.1 then (k, v) :: e :: rest
    else if k = e.1 then (k, v) :: rest
    else e :: insertEntry k v rest

theorem mem_insertEntry_of_sorted (sorted : l.Pairwise (fun a b => a.1 < b.1)) :
    a ∈ insertEntry k v l ↔ a = (k, v) ∨ (a.1 ≠ k ∧ a ∈ l) := by
  induction l with
  | nil => simp [insertEntry]
  | cons e rest ih =>
    obtain ⟨below, tail⟩ := pairwise_cons.mp sorted
    simp only [insertEntry]
    split_ifs with lt eq
    · -- Every old key is above `k`, so nothing is replaced.
      have keep : ∀ b ∈ e :: rest, b.1 ≠ k := by
        intro b hb
        obtain rfl | hb := mem_cons.mp hb
        · exact lt.ne'
        · exact (lt.trans (below b hb)).ne'
      simp only [mem_cons (b := (k, v))]
      constructor
      · rintro (h | h)
        · exact .inl h
        · exact .inr ⟨keep a h, h⟩
      · rintro (h | ⟨-, h⟩)
        · exact .inl h
        · exact .inr h
    · have keep : ∀ b ∈ rest, b.1 ≠ k := fun b hb => eq ▸ (below b hb).ne'
      simp only [mem_cons]
      constructor
      · rintro (h | h)
        · exact .inl h
        · exact .inr ⟨keep a h, .inr h⟩
      · rintro (h | ⟨ne, rfl | h⟩)
        · exact .inl h
        · exact absurd eq.symm ne
        · exact .inr h
    · rw [mem_cons, ih tail, mem_cons]
      constructor
      · rintro (rfl | h | ⟨ne, h⟩)
        · exact .inr ⟨fun h => eq h.symm, .inl rfl⟩
        · exact .inl h
        · exact .inr ⟨ne, .inr h⟩
      · rintro (h | ⟨ne, h | h⟩)
        · exact .inr (.inl h)
        · exact .inl h
        · exact .inr (.inr ⟨ne, h⟩)

theorem pairwise_insertEntry (sorted : l.Pairwise (fun a b => a.1 < b.1)) :
    (insertEntry k v l).Pairwise (fun a b => a.1 < b.1) := by
  induction l with
  | nil => simp [insertEntry]
  | cons e rest ih =>
    obtain ⟨below, tail⟩ := pairwise_cons.mp sorted
    simp only [insertEntry]
    split_ifs with lt eq
    · refine pairwise_cons.mpr ⟨fun b hb => ?_, sorted⟩
      obtain rfl | hb := mem_cons.mp hb
      · exact lt
      · exact lt.trans (below b hb)
    · exact pairwise_cons.mpr ⟨fun b hb => eq ▸ below b hb, tail⟩
    · refine pairwise_cons.mpr ⟨fun b hb => ?_, ih tail⟩
      obtain rfl | ⟨-, hb⟩ := (mem_insertEntry_of_sorted tail).mp hb
      · exact lt_of_le_of_ne (not_lt.mp lt) (Ne.symm eq)
      · exact below b hb

def insert (m : SortedMap K V) (k : K) (v : V) : SortedMap K V :=
  ⟨insertEntry k v m.entries, pairwise_insertEntry m.sorted⟩

theorem mem_insert : a ∈ m.insert k v ↔ a = (k, v) ∨ (a.1 ≠ k ∧ a ∈ m) :=
  mem_insertEntry_of_sorted m.sorted

/-- A key has one value. -/
theorem eq_of_mem {w : V} (hv : (k, v) ∈ m) (hw : (k, w) ∈ m) : v = w := by
  have irrefl : m.entries.Pairwise (fun a b => a.1 = b.1 → a = b) :=
    m.sorted.imp (fun lt eq => absurd eq lt.ne)
  have flipped : m.entries.Pairwise (flip fun a b : K × V => a.1 = b.1 → a = b) :=
    m.sorted.imp (fun lt eq => absurd eq lt.ne')
  have same := List.Pairwise.forall_of_forall_of_flip (fun _ _ _ => rfl) irrefl flipped hv hw rfl
  exact (Prod.mk.inj same).2

/-- The value stored at a key. -/
def get? (m : SortedMap K V) (k : K) : Option V :=
  (m.entries.find? (fun e => e.1 = k)).map Prod.snd

theorem get?_eq_some_iff : m.get? k = some v ↔ (k, v) ∈ m := by
  simp only [get?, Option.map_eq_some_iff]
  constructor
  · rintro ⟨e, found, rfl⟩
    have key := find?_some found
    have member := mem_of_find?_eq_some found
    simp only [decide_eq_true_eq] at key
    rw [← key]
    exact member
  · intro member
    cases found : m.entries.find? (fun e => e.1 = k) with
    | none =>
      have := find?_eq_none.mp found _ member
      simp at this
    | some e =>
      have key := find?_some found
      have inside := mem_of_find?_eq_some found
      simp only [decide_eq_true_eq] at key
      refine ⟨e, rfl, eq_of_mem (m := m) (k := k) ?_ member⟩
      rw [← key]
      exact inside

theorem get?_eq_none_iff : m.get? k = none ↔ ∀ v, (k, v) ∉ m := by
  constructor
  · intro h v member
    rw [get?_eq_some_iff.mpr member] at h
    cases h
  · intro h
    cases found : m.get? k with
    | none => rfl
    | some v => exact absurd (get?_eq_some_iff.mp found) (h v)

/-- Keep the entries that satisfy `p`. -/
def filter (p : K × V → Bool) (m : SortedMap K V) : SortedMap K V :=
  ⟨m.entries.filter p, m.sorted.filter p⟩

@[simp] theorem mem_filter {p : K × V → Bool} : a ∈ m.filter p ↔ a ∈ m ∧ p a = true :=
  List.mem_filter

theorem get?_insert (m : SortedMap K V) (k : K) (v : V) (j : K) :
    (m.insert k v).get? j = if j = k then some v else m.get? j := by
  split_ifs with same
  · exact get?_eq_some_iff.mpr (mem_insert.mpr (.inl (by rw [same])))
  · refine Option.ext fun w => ?_
    rw [get?_eq_some_iff, get?_eq_some_iff, mem_insert]
    simp [same]

theorem get?_filter_ne (m : SortedMap K V) (k j : K) :
    (m.filter fun entry => entry.1 ≠ k).get? j = if j = k then none else m.get? j := by
  refine Option.ext fun w => ?_
  rw [get?_eq_some_iff]
  split_ifs with same
  · simp [same]
  · simp [same, get?_eq_some_iff]

/-- Remove a key. -/
def erase (m : SortedMap K V) (k : K) : SortedMap K V := m.filter fun entry => entry.1 ≠ k

@[simp] theorem get?_erase (m : SortedMap K V) (k j : K) :
    (m.erase k).get? j = if j = k then none else m.get? j := get?_filter_ne m k j

@[simp] theorem get?_empty (k : K) : (empty : SortedMap K V).get? k = none := rfl

theorem eq_of_mem_iff {l' : List (K × V)} (sorted : l.Pairwise fun a b => a.1 < b.1)
    (sorted' : l'.Pairwise fun a b => a.1 < b.1) (members : ∀ k v, (k, v) ∈ l ↔ (k, v) ∈ l') :
    l = l' := by
  have perm : l.Perm l' :=
    (perm_ext_iff_of_nodup (sorted.imp fun less eq => less.ne (congrArg Prod.fst eq))
    (sorted'.imp fun less eq => less.ne (congrArg Prod.fst eq))).mpr fun a => members a.1 a.2
  refine perm.eq_of_pairwise (fun x y _ _ xy yx => ?_) sorted sorted'
  exact absurd (xy.trans yx) (lt_irrefl _)

/-- Maps with the same lookups are equal. -/
theorem ext_get? {n : SortedMap K V} (same : ∀ k, m.get? k = n.get? k) : m = n := by
  refine ext (eq_of_mem_iff m.sorted n.sorted fun k v => ?_)
  rw [← mem_def, ← mem_def, ← get?_eq_some_iff, ← get?_eq_some_iff, same]

/-- The entries with keys from `a` to `b`, both included. -/
def range (m : SortedMap K V) (a b : K) : List (K × V) :=
  m.entries.filter fun entry => a ≤ entry.1 ∧ entry.1 ≤ b

theorem mem_range {a b : K} : (k, v) ∈ m.range a b ↔ a ≤ k ∧ k ≤ b ∧ m.get? k = some v := by
  rw [range, List.mem_filter, decide_eq_true_eq, get?_eq_some_iff]
  tauto

theorem pairwise_range (m : SortedMap K V) (a b : K) :
    (m.range a b).Pairwise fun x y => x.1 < y.1 := m.sorted.filter _

/-- A range begins with the entry at its lower end, if there is one. -/
theorem head?_range_of_get? {a b : K} (found : m.get? a = some v)
    (inside : a ≤ b) : (m.range a b).head? = some (a, v) := by
  have member : (a, v) ∈ m.range a b := mem_range.mpr ⟨le_rfl, inside, found⟩
  have sorted := pairwise_range m a b
  cases entries : m.range a b with
  | nil => simp [entries] at member
  | cons first rest =>
    have above : a ≤ first.1 :=
      (mem_range.mp (show (first.1, first.2) ∈ m.range a b by simp [entries])).1
    rw [entries] at member sorted
    obtain same | later := mem_cons.mp member
    · rw [← same]
      rfl
    · exact absurd ((pairwise_cons.mp sorted).1 _ later) (not_lt.mpr above)

/-- Of several insertions at a key the last one counts. -/
theorem get?_foldl_insert {α : Type*} (key : α → K) (value : α → V) (l : List α)
    (m : SortedMap K V) (k : K) [∀ a, Decidable (key a = k)] :
    (l.foldl (fun m a => m.insert (key a) (value a)) m).get? k =
      ((l.reverse.find? fun a => key a = k).map value).or (m.get? k) := by
  induction l generalizing m with
  | nil => rfl
  | cons a l ih =>
    rw [foldl_cons, ih, get?_insert, reverse_cons, find?_append]
    cases l.reverse.find? fun a => key a = k with
    | some later => rfl
    | none =>
      by_cases here : key a = k
      · simp [here]
      · simp [here, Ne.symm here]

theorem get?_foldl_erase (keys : List K) (m : SortedMap K V) (k : K)
    [∀ keys : List K, Decidable (k ∈ keys)] :
    (keys.foldl erase m).get? k = if k ∈ keys then none else m.get? k := by
  induction keys generalizing m with
  | nil => simp
  | cons key keys ih =>
    rw [foldl_cons, ih]
    by_cases later : k ∈ keys
    · simp [later]
    · by_cases here : k = key
      · simp [here]
      · simp [later]

/-- Apply a function to every value. -/
def mapValues {W : Type*} (f : V → W) (m : SortedMap K V) : SortedMap K W where
  entries := m.entries.map fun entry => (entry.1, f entry.2)
  sorted := m.sorted.map _ fun _ _ less => less

@[simp] theorem get?_mapValues {W : Type*} (f : V → W) (m : SortedMap K V) (k : K) :
    (m.mapValues f).get? k = (m.get? k).map f := by
  simp only [get?, mapValues, find?_map, Option.map_map]
  rfl

theorem mapValues_id (m : SortedMap K V) : m.mapValues (fun v => v) = m := ext (map_id m.entries)

theorem range_mapValues {W : Type*} (f : V → W) (m : SortedMap K V) (a b : K) :
    (m.mapValues f).range a b = (m.range a b).map fun entry => (entry.1, f entry.2) := by
  rw [range, mapValues, filter_map]
  rfl

theorem exists_head?_of_mem {entry : K × V} (member : entry ∈ m) :
    ∃ first, m.entries.head? = some first ∧ first.1 ≤ entry.1 := by
  obtain ⟨entries, sorted⟩ := m
  cases entries with
  | nil => cases member
  | cons first rest =>
    refine ⟨first, rfl, ?_⟩
    obtain rfl | later := mem_cons.mp member
    · exact le_rfl
    · exact ((pairwise_cons.mp sorted).1 entry later).le

theorem getLast?_eq_some_iff {entry : K × V} :
    m.entries.getLast? = some entry ↔ entry ∈ m ∧ ∀ e ∈ m, e.1 ≤ entry.1 := by
  constructor
  · intro last
    obtain ⟨front, split⟩ := List.getLast?_eq_some_iff.mp last
    refine ⟨List.mem_of_getLast? last, fun e member => ?_⟩
    have sorted := m.sorted
    rw [mem_def, split] at member
    rw [split] at sorted
    obtain early | same := List.mem_append.mp member
    · exact ((List.pairwise_append.mp sorted).2.2 e early entry (List.mem_singleton_self _)).le
    · rw [List.mem_singleton.mp same]
  · rintro ⟨member, greatest⟩
    obtain ⟨last, found⟩ : ∃ last, m.entries.getLast? = some last :=
      ⟨_, List.getLast?_eq_some_getLast (List.ne_nil_of_mem member)⟩
    obtain ⟨front, split⟩ := List.getLast?_eq_some_iff.mp found
    have sorted := m.sorted
    rw [split] at sorted
    rw [mem_def, split] at member
    obtain early | same := List.mem_append.mp member
    · have below := (List.pairwise_append.mp sorted).2.2 entry early last
        (List.mem_singleton_self _)
      exact absurd (greatest last (List.mem_of_getLast? found)) (not_le.mpr below)
    · rw [found, List.mem_singleton.mp same]

end SortedMap
